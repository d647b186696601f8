import Ciel.Library.Arena
import Ciel.Library.Machine
import Ciel.Runtime.Resource.Basic

/-!
# Interleavings of the registry's critical sections

Every operation of the registry is one section under the global lock, under one
owner lock, or under both. An owner close is the exception: it collects its own
entries and the list of its children in one section, and then runs the actions
and visits the children without any lock. Each thread therefore has a stack of
frames, one for each owner close that has not returned yet.

The thread-local current owner is an argument of the operations that read it,
so that it may be any owner at any time.
-/

namespace Ciel.Runtime.Resource

open Library

variable {owner : Owner}

/-- An owner close in progress: the actions not yet run, the children not yet
visited, and whether the caller is the loop of another owner close. -/
structure Frame where
  actions : List Payload
  children : List Nat
  firstError : Code
  asChild : Bool

structure World (Thread : Type) where
  registry : Registry
  frames : Thread → List Frame

inductive Op (Thread : Type)
  | runtimeInit
  | newChild (parent : Nat) (limits : Limits)
  | detach (owner : Nat)
  | register (current : Nat) (registration : Registration)
  | close (owner : Nat) (handle : Handle) (cancelled : Code)
  | transferToParent (handle : Handle)
  | transferToCurrent (current : Nat) (handle : Handle)
  | reattachToParent (current : Nat) (handle : Handle)
  | ownerClose (thread : Thread) (owner : Nat)
  | applyCloseAction (thread : Thread) (rc : Code)
  | closeChild (thread : Thread)
  | finishClose (thread : Thread)

/-- The first error of a loop is kept. -/
def firstError (before now : Code) : Code := if before = .OK then now else before

namespace World

variable {Thread : Type} [DecidableEq Thread]

def setFrames (w : World Thread) (thread : Thread) (frames : List Frame) : World Thread :=
  { w with frames := Function.update w.frames thread frames }

/-- The locked start of `ciel_resource_owner_close`, which leaves a frame. A close of no
owner leaves one that has nothing to do but return `EINVAL`. -/
def beginClose (w : World Thread) (thread : Thread) (owner : Nat) (asChild : Bool) :
    World Thread × Answer :=
  let rc := if w.registry.owners[owner]? = none then .EINVAL else .OK
  let (registry, actions, children) := w.registry.collectOwnerClose owner
  ({ w with registry }.setFrames thread (⟨actions, children, rc, asChild⟩ :: w.frames thread),
    { rc, collected := actions })

/-- An owner close that returns to the loop of its parent reports its error there. -/
def endClose (w : World Thread) (thread : Thread) (done : Frame) (rest : List Frame) :
    World Thread :=
  match done.asChild, rest with
  | true, caller :: rest =>
    let caller := { caller with firstError := firstError caller.firstError done.firstError }
    w.setFrames thread (caller :: rest)
  | _, _ => w.setFrames thread rest

def step (w : World Thread) : Op Thread → Option (World Thread × Answer)
  | .runtimeInit => some ({ w with registry := w.registry.init }, { rc := .OK })
  | .newChild parent limits =>
    let (registry, answer) := w.registry.newChild parent limits
    some ({ w with registry }, answer)
  | .detach owner =>
    let (registry, answer) := w.registry.detach owner
    some ({ w with registry }, answer)
  | .register current registration =>
    let (registry, answer) := w.registry.register current registration
    some ({ w with registry }, answer)
  | .close owner handle cancelled =>
    let (registry, answer) := w.registry.close owner handle cancelled
    some ({ w with registry }, answer)
  | .transferToParent handle =>
    let (registry, answer) := w.registry.transferToParent handle
    some ({ w with registry }, answer)
  | .transferToCurrent current handle =>
    let (registry, answer) := w.registry.transferToCurrent current handle
    some ({ w with registry }, answer)
  | .reattachToParent current handle =>
    let (registry, answer) := w.registry.reattachToParent current handle
    some ({ w with registry }, answer)
  | .ownerClose thread owner => some (w.beginClose thread owner false)
  | .applyCloseAction thread rc =>
    match w.frames thread with
    | ⟨_ :: actions, children, error, asChild⟩ :: rest =>
      some (w.setFrames thread (⟨actions, children, firstError error rc, asChild⟩ :: rest),
        { rc })
    | _ => none
  | .closeChild thread =>
    match w.frames thread with
    | ⟨[], child :: children, error, asChild⟩ :: rest =>
      some ((w.setFrames thread (⟨[], children, error, asChild⟩ :: rest)).beginClose
        thread child true)
    | _ => none
  | .finishClose thread =>
    match w.frames thread with
    | ⟨[], [], error, asChild⟩ :: rest =>
      some (w.endClose thread ⟨[], [], error, asChild⟩ rest, { rc := error })
    | _ => none

/-- Before the runtime is initialised. The owner counter starts at one. -/
def initial : World Thread := ⟨⟨[], none, 1, 0⟩, fun _ => []⟩

end World

def machine (Thread : Type) [DecidableEq Thread] :
    Machine (World Thread) (Op Thread) Answer := ⟨World.step⟩

/-- What a section can do to the registry: the owner it closes, the payloads it
registers, and the payloads it collects. -/
inductive Change (r : Registry) :
    Option Nat → List Payload → List Payload → Registry → Prop
  | counter (next : Nat) : Change r none [] [] { r with nextOwnerId := next }
  | root (id next : Nat) : r.root = none →
      Change r none [] [] { r with
        owners := r.owners ++ [Owner.fresh id none defaultLimits]
        root := some r.owners.length, nextOwnerId := next }
  | child (id next p : Nat) (above : Owner) (limits : Limits) :
      r.owners[p]? = some above → above.closed = false →
      reached above.limits.maxChildOwners above.liveChildOwners = false →
      Change r none [] [] ({ r with
        owners := r.owners ++ [Owner.fresh id (some p) limits]
        nextOwnerId := next }.update p (.link r.owners.length))
  | detach (p root old : Nat) (owner rootOwner oldOwner : Owner) :
      r.root = some root → old ≠ root →
      r.owners[p]? = some owner → r.owners[root]? = some rootOwner →
      r.owners[old]? = some oldOwner →
      owner.parent = some old → p ∈ oldOwner.children →
      owner.closed = false → rootOwner.closed = false →
      reached rootOwner.limits.maxChildOwners rootOwner.liveChildOwners = false →
      Change r none [] [] (((r.update old (.unlink p)).update p (.withParent (some root))).update
        root (.link p))
  | register (p : Nat) (owner : Owner) (payload : Payload) :
      r.owners[p]? = some owner → owner.hasCapacity payload.kind = .OK →
      payload.serial = r.serials →
      Change r none [payload] []
        { r.update p (.registerEntry payload) with serials := r.serials + 1 }
  | close (p : Nat) (owner : Owner) (entry : Entry) :
      r.owners[p]? = some owner → owner.closed = false →
      owner.findEntry entry.id = some entry → entry.state = .OPEN →
      Change r none [] [entry.payload] (r.update p (.retire entry .CLOSED))
  | move (p q : Nat) (source target : Owner) (entry : Entry) : p ≠ q →
      r.owners[p]? = some source → r.owners[q]? = some target →
      source.closed = false → source.findEntry entry.id = some entry → entry.state = .OPEN →
      target.hasCapacity entry.payload.kind = .OK →
      Change r none [] []
        ((r.update q (.registerEntry entry.payload)).update p (.retire entry .MOVED))
  | collect (p : Nat) (owner : Owner) :
      r.owners[p]? = some owner → owner.closed = false →
      Change r (some p) [] (owner.collectEntries owner.entries).2.2
        (((r.update p .markClosed).unlinkFromParent p owner).update p .collected)

/-- Nothing at all is a counter that keeps its value. -/
theorem Change.idle (r : Registry) : Change r none [] [] r := .counter r.nextOwnerId

theorem Owner.resolveEntry_ok {handle : Handle} {expected : Option Kind} {entry : Entry}
    (resolved : owner.resolveEntry handle expected = .ok entry) :
    owner.closed = false ∧ owner.findEntry entry.id = some entry ∧
      entry.id = handle.resourceId := by
  unfold resolveEntry at resolved
  split at resolved
  · cases resolved
  · split at resolved
    · cases resolved
    · rename_i named
      have notClosed : owner.closed = false := by
        cases closed : owner.closed
        · rfl
        · exact absurd (Or.inr closed) named
      split at resolved
      · cases resolved
      · rename_i found' found
        have same : found' = entry := by
          repeat' split at resolved
          all_goals first | cases resolved; rfl | cases resolved
        subst same
        have named : found'.id = handle.resourceId := by
          simpa using List.find?_some found
        exact ⟨notClosed, named ▸ found, named⟩

theorem Owner.openEntry_ok {handle : Handle} {expected : Option Kind} {entry : Entry}
    (resolved : owner.openEntry handle expected = .ok entry) :
    owner.closed = false ∧ owner.findEntry entry.id = some entry ∧ entry.state = .OPEN := by
  unfold openEntry at resolved
  split at resolved
  · cases resolved
  · rename_i found resolvedEntry
    split at resolved
    · cases resolved
    · rename_i isOpen
      cases resolved
      obtain ⟨notClosed, found, -⟩ := Owner.resolveEntry_ok resolvedEntry
      exact ⟨notClosed, found, not_not.mp isOpen⟩

/-- A close finds an open entry and retires it, or leaves its owner alone. -/
theorem Owner.closeEntry_cases (owner : Owner) (handle : Handle) :
    (∃ rc, owner.closeEntry handle = (rc, owner, [])) ∨
      ∃ entry, (owner.closed = false ∧ owner.findEntry entry.id = some entry ∧
          entry.state = .OPEN) ∧
        owner.closeEntry handle = (.OK, owner.retire entry .CLOSED, [entry.payload]) := by
  unfold closeEntry
  split
  · exact .inl ⟨_, rfl⟩
  · rename_i entry resolved
    split
    · exact .inl ⟨_, rfl⟩
    · split
      · exact .inl ⟨_, rfl⟩
      · rename_i isOpen
        obtain ⟨notClosed, found, -⟩ := Owner.resolveEntry_ok resolved
        exact .inr ⟨entry, ⟨notClosed, found, not_not.mp isOpen⟩, rfl⟩

namespace Registry

theorem update_congr (r : Registry) {p : Nat} {f g : Owner → Owner}
    (found : r.owners[p]? = some owner) (same : f owner = g owner) :
    r.update p f = r.update p g := by
  rw [update, update, Arena.modify_congr found same]

@[simp] theorem unlinkFromParent_serials (r : Registry) (p : Nat) (owner : Owner) :
    (r.unlinkFromParent p owner).serials = r.serials := by
  obtain same | ⟨q, -, same⟩ := r.unlinkFromParent_cases p owner <;> simp [same, update]

@[simp] theorem unlinkFromParent_root (r : Registry) (p : Nat) (owner : Owner) :
    (r.unlinkFromParent p owner).root = r.root := by
  obtain same | ⟨q, -, same⟩ := r.unlinkFromParent_cases p owner <;> simp [same, update]

theorem allocOwnerId_eq (r : Registry) :
    ∃ next, r.allocOwnerId.2 = { r with nextOwnerId := next } := by
  unfold allocOwnerId
  simp only
  split
  · exact ⟨_, rfl⟩
  · exact ⟨_, rfl⟩

theorem init_change (r : Registry) : Change r none [] [] r.init := by
  unfold init
  split
  · exact .idle r
  · rename_i noRoot
    obtain ⟨next, counted⟩ := r.allocOwnerId_eq
    simp only [ownerAlloc, counted]
    split
    · have counted := Change.counter (r := r) next
      rw [noRoot] at counted
      exact counted
    · exact .root _ next noRoot

theorem newChild_change (r : Registry) (p : Nat) (limits : Limits) :
    Change r none (r.newChild p limits).2.registered (r.newChild p limits).2.collected
      (r.newChild p limits).1 := by
  obtain ⟨next, counted⟩ := r.allocOwnerId_eq
  simp only [newChild, ownerAlloc, counted]
  split
  · exact .counter next
  · split
    · exact .counter next
    · rename_i above found
      split
      · exact .counter next
      · rename_i notClosed
        split
        · exact .counter next
        · rename_i room
          exact .child _ next p above limits found (by simpa using notClosed)
            (by simpa using room)

theorem detach_change (r : Registry) (p : Nat) :
    Change r none (r.detach p).2.registered (r.detach p).2.collected (r.detach p).1 := by
  unfold detach
  split
  · exact .idle r
  · exact .idle r
  rename_i owner root ownerAt rootAt
  split
  · exact .idle r
  rename_i rootOwner rootOwnerAt
  split
  · exact .idle r
  rename_i bothOpen
  obtain ⟨ownerOpen, rootOpen⟩ := not_or.mp bothOpen
  split
  · exact .idle r
  rename_i old parentAt
  split
  · exact .idle r
  rename_i notRoot
  split
  · exact .idle r
  rename_i room
  split
  · exact .idle r
  rename_i linked
  simp only [Option.all_eq_true, not_forall, decide_eq_true_eq, not_not] at linked
  obtain ⟨oldOwner, oldAt, member⟩ := linked
  exact .detach p root old owner rootOwner oldOwner rootAt notRoot ownerAt rootOwnerAt oldAt
    parentAt member (by simpa using ownerOpen) (by simpa using rootOpen) (by simpa using room)

theorem payload_serial {serial : Nat} {registration : Registration} {payload : Payload}
    (accepted : registration.payload serial = .ok payload) : payload.serial = serial := by
  unfold Registration.payload at accepted
  split at accepted
  all_goals repeat' split at accepted
  all_goals first | cases accepted; rfl | cases accepted

theorem register_change (r : Registry) (current : Nat) (registration : Registration) :
    Change r none (r.register current registration).2.registered
      (r.register current registration).2.collected (r.register current registration).1 := by
  unfold register
  split
  · exact .idle r
  · rename_i payload accepted
    split
    · exact .idle r
    · rename_i owner found
      split
      · rename_i room
        exact .register current owner payload found room (payload_serial accepted)
      · exact .idle r

theorem close_change (r : Registry) (p : Nat) (handle : Handle) (cancelled : Code) :
    Change r none (r.close p handle cancelled).2.registered
      (r.close p handle cancelled).2.collected (r.close p handle cancelled).1 := by
  unfold close
  split
  · exact .idle r
  · split
    · exact .idle r
    · rename_i owner found
      rcases owner.closeEntry_cases handle with ⟨rc, kept⟩ | ⟨entry, h, closed⟩
      · have unchanged : (r.update p fun _ => owner) = r :=
          congrArg (fun owners => { r with owners }) (Arena.modify_self found)
        simp only [kept, unchanged]
        exact .idle r
      · have written : (r.update p fun _ => owner.retire entry .CLOSED) =
            r.update p (.retire entry .CLOSED) := r.update_congr found rfl
        simp only [closed, written]
        exact .close p owner entry found h.1 h.2.1 h.2.2

theorem transferToOwner_change (r : Registry) (handle : Handle) (p : Nat)
    (destination : Option Nat) :
    Change r none (r.transferToOwner handle p destination).2.registered
      (r.transferToOwner handle p destination).2.collected
      (r.transferToOwner handle p destination).1 := by
  unfold transferToOwner
  split
  · exact .idle r
  · rename_i q
    split
    · rename_i source target sourceAt targetAt
      split
      · exact .idle r
      · rename_i entry resolved
        split
        · exact .idle r
        · rename_i distinct
          split
          · rename_i room
            obtain ⟨notClosed, entryAt, isOpen⟩ := Owner.openEntry_ok resolved
            exact .move p q source target entry distinct sourceAt targetAt notClosed entryAt
              isOpen room
          · exact .idle r
    · exact .idle r

theorem transferToParent_change (r : Registry) (handle : Handle) :
    Change r none (r.transferToParent handle).2.registered (r.transferToParent handle).2.collected
      (r.transferToParent handle).1 := by
  unfold transferToParent
  repeat' split
  all_goals first | exact r.transferToOwner_change handle _ _ | exact .idle r

theorem transferToCurrent_change (r : Registry) (current : Nat) (handle : Handle) :
    Change r none (r.transferToCurrent current handle).2.registered
      (r.transferToCurrent current handle).2.collected (r.transferToCurrent current handle).1 := by
  unfold transferToCurrent
  repeat' split
  all_goals first | exact r.transferToOwner_change handle _ _ | exact .idle r

theorem reattachToParent_change (r : Registry) (current : Nat) (handle : Handle) :
    Change r none (r.reattachToParent current handle).2.registered
      (r.reattachToParent current handle).2.collected (r.reattachToParent current handle).1 := by
  unfold reattachToParent
  simp only
  repeat' split
  all_goals first | exact r.transferToOwner_change handle _ _ | exact .idle r

/-- The owner that is being closed, just before its entries are collected. -/
theorem unlinkFromParent_at {r : Registry} {p : Nat} (found : r.owners[p]? = some owner) :
    ∃ parent, ((r.update p .markClosed).unlinkFromParent p owner).owners[p]? =
        some (owner.markClosed.withParent parent) ∨
      ((r.update p .markClosed).unlinkFromParent p owner).owners[p]? =
        some ((owner.markClosed.unlink p).withParent parent) := by
  have closed : (r.update p .markClosed).owners[p]? = some owner.markClosed :=
    Arena.modify_same found
  obtain same | ⟨q, -, same⟩ := (r.update p .markClosed).unlinkFromParent_cases p owner <;>
    rw [same]
  · exact ⟨owner.parent, .inl closed⟩
  · by_cases here : q = p
    · subst here
      exact ⟨none, .inr (Arena.modify_same (Arena.modify_same closed))⟩
    · exact ⟨none, .inl (Arena.modify_same ((Arena.modify_other here).trans closed))⟩

/-- The `closed` flag behind a pointer. -/
def flag (r : Registry) (p : Nat) : Option Bool := (r.owners[p]?).map (·.closed)

/-- The pointer leads to an owner that is not closed. -/
def OpenAt (r : Registry) (p : Nat) : Prop := r.flag p = some false

section Flags

variable {r : Registry} {p : Nat} {owner : Owner}

theorem flag_update_eq {f : Owner → Owner} (same : ∀ owner, (f owner).closed = owner.closed) :
    (r.update p f).flag = r.flag := by
  funext x
  by_cases here : p = x
  · subst here
    cases found : r.owners[p]? <;> simp [flag, update, found, same]
  · simp [flag, update, here]

@[simp] theorem flag_link (child : Nat) : (r.update p (.link child)).flag = r.flag :=
  flag_update_eq fun _ => rfl

@[simp] theorem flag_unlink (child : Nat) : (r.update p (.unlink child)).flag = r.flag :=
  flag_update_eq fun _ => rfl

@[simp] theorem flag_withParent (parent : Option Nat) :
    (r.update p (.withParent parent)).flag = r.flag :=
  flag_update_eq fun _ => rfl

@[simp] theorem flag_registerEntry (payload : Payload) :
    (r.update p (.registerEntry payload)).flag = r.flag :=
  flag_update_eq fun _ => rfl

@[simp] theorem flag_retire (entry : Entry) (state : State) :
    (r.update p (.retire entry state)).flag = r.flag :=
  flag_update_eq fun _ => rfl

@[simp] theorem flag_collected : (r.update p .collected).flag = r.flag :=
  flag_update_eq fun owner => by simp [Owner.collected_eq]

@[simp] theorem flag_unlinkFromParent (owner : Owner) :
    (r.unlinkFromParent p owner).flag = r.flag := by
  obtain same | ⟨q, -, same⟩ := r.unlinkFromParent_cases p owner <;> simp [same]

theorem flag_markClosed (found : r.owners[p]? = some owner) :
    (r.update p .markClosed).flag = Function.update r.flag p (some true) := by
  funext x
  by_cases here : p = x
  · subst here
    simp [flag, update, found, Owner.markClosed]
  · simp [flag, update, here, Ne.symm here]

theorem flag_append (id next : Nat) (parent root : Option Nat) (limits : Limits) :
    Registry.flag { r with
        owners := r.owners ++ [.fresh id parent limits], root, nextOwnerId := next } =
      Function.update r.flag r.owners.length (some false) := by
  funext x
  rcases Nat.lt_trichotomy x r.owners.length with old | rfl | beyond
  · simp [flag, List.getElem?_append_left old, Nat.ne_of_lt old]
  · simp [flag, Owner.fresh]
  · have absent := Arena.append_beyond (a := Owner.fresh id parent limits) beyond
    simp [flag, Nat.ne_of_gt beyond, Nat.le_of_lt beyond, absent]

end Flags

theorem collectOwnerClose_change (r : Registry) (p : Nat) :
    ∃ closing, Change r closing [] (r.collectOwnerClose p).2.1 (r.collectOwnerClose p).1 ∧
      ¬ (r.collectOwnerClose p).1.OpenAt p ∧
      (closing ≠ none → closing = some p ∧
        (r.collectOwnerClose p).2.2 = (r.collectOwnerClose p).1.openChildren p) := by
  unfold collectOwnerClose
  split
  · rename_i absent
    exact ⟨none, .idle r, by simp [OpenAt, flag, absent], by simp⟩
  · rename_i owner found
    split
    · rename_i closed
      exact ⟨none, .idle r, by simp [OpenAt, flag, found, closed], by simp⟩
    · rename_i isOpen
      refine ⟨some p, .collect p owner found (by simpa using isOpen), ?_, fun _ => ⟨rfl, rfl⟩⟩
      simp [OpenAt, flag_markClosed found]

end Registry

namespace World

variable {Thread : Type}

/-- Some owner close in progress still has to visit this owner. -/
def Pending (w : World Thread) (p : Nat) : Prop :=
  ∃ thread, ∃ frame ∈ w.frames thread, p ∈ frame.children

/-- How the frames follow a change: an owner stays pending until it is closed,
and the children of an owner that is closed now become pending. -/
structure Followed (w t : World Thread) (closing : Option Nat) : Prop where
  kept : ∀ {p}, w.Pending p → t.registry.OpenAt p → t.Pending p
  handed : ∀ {p}, closing = some p → ∀ child ∈ t.registry.openChildren p, t.Pending child

/-- Operations other than owner close do not touch the frames. -/
theorem Followed.same {w t : World Thread} (frames : t.frames = w.frames) :
    Followed w t none where
  kept := by
    rintro p ⟨thread, frame, member, child⟩ -
    exact ⟨thread, frame, frames ▸ member, child⟩
  handed := nofun

variable [DecidableEq Thread]

theorem setFrames_pending {w : World Thread} {thread : Thread} {frames : List Frame} {p : Nat} :
    (w.setFrames thread frames).Pending p ↔
      (∃ frame ∈ frames, p ∈ frame.children) ∨
        ∃ other ≠ thread, ∃ frame ∈ w.frames other, p ∈ frame.children := by
  constructor
  · rintro ⟨other, frame, member, child⟩
    by_cases same : other = thread
    · subst same
      exact .inl ⟨frame, by simpa [setFrames] using member, child⟩
    · exact .inr ⟨other, same, frame, by simpa [setFrames, same] using member, child⟩
  · rintro (⟨frame, member, child⟩ | ⟨other, distinct, frame, member, child⟩)
    · exact ⟨thread, frame, by simpa [setFrames] using member, child⟩
    · exact ⟨other, frame, by simpa [setFrames, distinct] using member, child⟩

theorem pending_split (w : World Thread) (thread : Thread) {p : Nat} :
    w.Pending p ↔ (∃ frame ∈ w.frames thread, p ∈ frame.children) ∨
      ∃ other ≠ thread, ∃ frame ∈ w.frames other, p ∈ frame.children := by
  have unchanged : w.setFrames thread (w.frames thread) = w := by
    simp [setFrames]
  rw [← setFrames_pending, unchanged]

/-- The start of an owner close is a change, and its new frame takes over the
children. The owner itself need not be pending any more. -/
theorem beginClose_change (w : World Thread) (thread : Thread) (p : Nat) (asChild : Bool) :
    let result := w.beginClose thread p asChild
    ∃ closing, Change w.registry closing result.2.registered result.2.collected
        result.1.registry ∧
      ¬ result.1.registry.OpenAt p ∧ Followed w result.1 closing := by
  obtain ⟨closing, change, closed, handed⟩ := w.registry.collectOwnerClose_change p
  refine ⟨closing, change, closed, ?_, ?_⟩
  · intro q pending _
    refine setFrames_pending.mpr ?_
    rcases (pending_split w thread).mp pending with ⟨frame, member, child⟩ | elsewhere
    · exact .inl ⟨frame, List.mem_cons_of_mem _ member, child⟩
    · exact .inr elsewhere
  · rintro q rfl child member
    obtain ⟨same, children⟩ := handed (by simp)
    cases same
    refine setFrames_pending.mpr (.inl ⟨_, List.mem_cons_self, ?_⟩)
    exact children ▸ member

end World

variable {Thread : Type} [DecidableEq Thread]

/-- Every enabled step is one of the changes above, and the frames follow it. -/
theorem step_change {w t : World Thread} {op : Op Thread} {answer : Answer}
    (taken : w.step op = some (t, answer)) :
    ∃ closing, Change w.registry closing answer.registered answer.collected t.registry ∧
      World.Followed w t closing := by
  cases op with
  | runtimeInit =>
    cases taken
    exact ⟨none, w.registry.init_change, .same rfl⟩
  | newChild parent limits =>
    cases taken
    exact ⟨none, w.registry.newChild_change parent limits, .same rfl⟩
  | detach owner =>
    cases taken
    exact ⟨none, w.registry.detach_change owner, .same rfl⟩
  | register current registration =>
    cases taken
    exact ⟨none, w.registry.register_change current registration, .same rfl⟩
  | close owner handle cancelled =>
    cases taken
    exact ⟨none, w.registry.close_change owner handle cancelled, .same rfl⟩
  | transferToParent handle =>
    cases taken
    exact ⟨none, w.registry.transferToParent_change handle, .same rfl⟩
  | transferToCurrent current handle =>
    cases taken
    exact ⟨none, w.registry.transferToCurrent_change current handle, .same rfl⟩
  | reattachToParent current handle =>
    cases taken
    exact ⟨none, w.registry.reattachToParent_change current handle, .same rfl⟩
  | ownerClose thread owner =>
    cases taken
    obtain ⟨closing, change, -, followed⟩ := w.beginClose_change thread owner false
    exact ⟨closing, change, followed⟩
  | applyCloseAction thread rc =>
    simp only [World.step] at taken
    split at taken
    · rename_i frames
      cases taken
      refine ⟨none, .idle _, ?_, nofun⟩
      intro p pending _
      rw [World.pending_split w thread, frames] at pending
      simpa [World.setFrames_pending] using pending
    · cases taken
  | closeChild thread =>
    simp only [World.step] at taken
    split at taken
    · rename_i child children error asChild rest frames
      cases taken
      obtain ⟨closing, change, closed, followed⟩ := World.beginClose_change
        (w.setFrames thread (⟨[], children, error, asChild⟩ :: rest)) thread child true
      refine ⟨closing, change, ?_, followed.handed⟩
      intro p pending isOpen
      have other : p ≠ child := by
        rintro rfl
        exact closed isOpen
      refine followed.kept ?_ isOpen
      rw [World.pending_split w thread, frames] at pending
      simpa [World.setFrames_pending, other] using pending
    · cases taken
  | finishClose thread =>
    simp only [World.step] at taken
    split at taken
    · rename_i error asChild rest frames
      cases taken
      have kept : ∀ p, w.Pending p →
          (w.endClose thread ⟨[], [], error, asChild⟩ rest).Pending p := by
        intro p pending
        rw [World.pending_split w thread, frames] at pending
        unfold World.endClose
        split <;> simpa [World.setFrames_pending] using pending
      have same : (w.endClose thread ⟨[], [], error, asChild⟩ rest).registry = w.registry := by
        unfold World.endClose
        split <;> rfl
      refine ⟨none, same ▸ .idle _, fun pending _ => kept _ pending, nofun⟩
    · cases taken

end Ciel.Runtime.Resource
