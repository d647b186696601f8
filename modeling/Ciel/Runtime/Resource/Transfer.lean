import Ciel.Runtime.Resource.Moved
import Ciel.Runtime.Resource.Naming

/-!
# Transfers are all or nothing

A transfer that fails must leave the registry alone, and a transfer that succeeds
must return a handle of an open entry with the old payload, while every older
handle of the payload is dead from then on.

All requests but one go through `ciel_resource_transfer_to_owner_with_owners_locked`,
which resolves the handle first. `ciel_resource_reattach_to_parent_handle` answers
zero for a handle whose owner is above the destination without resolving it, so
there the result says nothing about the handle.
-/

namespace Ciel.Runtime.Resource

open Library

variable {entry : Entry}

/-- The requests that move a handle to another owner. -/
inductive Transfer
  | toParent
  | toCurrent (current : Nat)
  | reattach (current : Nat)
  deriving DecidableEq, Repr

def Transfer.op {Thread : Type} (handle : Handle) : Transfer → Op Thread
  | .toParent => .transferToParent handle
  | .toCurrent current => .transferToCurrent current handle
  | .reattach current => .reattachToParent current handle

namespace Registry

/-- Looking the handle up gives an open entry with this payload. -/
def Resolves (r : Registry) (handle : Handle) (payload : Payload) : Prop :=
  ∃ p owner entry, r.findOwnerFromRoot handle.ownerId = some p ∧ r.owners[p]? = some owner ∧
    owner.openEntry handle none = .ok entry ∧ entry.payload = payload

/-- The handle carries the numbers of an entry with this payload, in any state. -/
def Names (r : Registry) (handle : Handle) (payload : Payload) : Prop :=
  ∃ (p : Nat) (owner : Owner) (entry : Entry), r.owners[p]? = some owner ∧ entry ∈ owner.entries ∧
    handle = ⟨owner.id, entry.id, entry.generation⟩ ∧ entry.payload = payload

/-- No owner resolves the handle any more, not even to a closed entry. -/
def Dead (r : Registry) (handle : Handle) : Prop :=
  ∀ owner ∈ r.owners, ∀ expected entry, owner.resolveEntry handle expected ≠ .ok entry

/-- The handle names an entry that was moved away. -/
def MovedAway (r : Registry) (handle : Handle) : Prop :=
  ∃ (p : Nat) (owner : Owner) (entry : Entry), r.owners[p]? = some owner ∧ entry ∈ owner.entries ∧
    handle = ⟨owner.id, entry.id, entry.generation⟩ ∧ entry.state = .MOVED

/-- Everything a handle's meaning rests on. -/
structure Named (r : Registry) : Prop where
  sound : r.Sound
  accounts : r.Accounts
  numbered : r.Numbered
  started : r.Started
  held : r.Held

end Registry

section Runs

variable {Thread : Type} [DecidableEq Thread] {w t : World Thread}
variable {history : List (Op Thread × Answer)}

theorem Registry.Named.next {op : Op Thread} {answer : Answer} (h : w.registry.Named)
    (allowed : counted w op = true) (taken : w.step op = some (t, answer)) :
    t.registry.Named := by
  obtain ⟨closing, change, -⟩ := step_change taken
  refine ⟨change.sound h.sound, change.accounts h.accounts, ?_, change.started h.started,
    h.held.next change⟩
  obtain same | grown := step_numbers h.numbered allowed taken
  · exact h.numbered.same same
  · exact h.numbered.grown grown

/-- In a run that never allocates an owner with a used-up counter, handles keep
their meaning. -/
theorem run_named (run : ((machine Thread).restrict counted).Run World.initial history t) :
    t.registry.Named := by
  refine run.preserves (I := fun w => w.registry.Named) ?_ ?_
  · refine ⟨(World.initial_sound : (World.initial : World Thread).Sound).registry, ?_, ?_, ?_, ?_⟩
    · simp [World.initial, Registry.Accounts]
    · exact ⟨by simp [World.initial, Registry.numbers], by simp [World.initial, Registry.numbers],
        by simp [World.initial, uint64Max]⟩
    · simp [World.initial, Registry.Started]
    · simp [World.initial, Registry.Held, Registry.payloadsIn]
  · intro w op answer u named taken
    obtain ⟨allowed, taken⟩ := Machine.restrict_step.mp taken
    exact named.next allowed taken

/-- In every state that is reached, the number of an owner leads from the root to this owner
exactly if it is attached, and the walk to the parents meets exactly the owners above. -/
theorem run_lookups_exact :
    (∀ history (t : World Thread), ((machine Thread).restrict counted).Run World.initial history t →
      ∀ p owner, t.registry.owners[p]? = some owner →
        (t.registry.findOwnerFromRoot owner.id = some p ↔ t.registry.Reachable p)) ∧
    (∀ history (t : World Thread), (machine Thread).Run World.initial history t →
      ∀ p < t.registry.owners.length, ∀ q,
        (t.registry.isAncestor q t.registry.owners.length (some p) = true ↔
          t.registry.forest.AtOrAbove p q)) := by
  constructor
  · intro history t run p owner ownerAt
    have named := run_named run
    exact ⟨fun found => (Registry.findOwnerFromRoot_sound named.sound.tree found).2,
      Registry.findOwnerFromRoot_of_reachable named.sound.tree named.numbered ownerAt⟩
  · intro history t run p bound q
    constructor
    · intro found
      obtain ⟨_, ⟨⟩, above⟩ := Registry.isAncestor_sound found
      exact above
    · exact Registry.isAncestor_complete (run_sound run).registry.tree bound

end Runs

namespace Registry

variable {r s : Registry} {handle : Handle} {payload : Payload} {p q : Nat}

theorem MovedAway.kept (h : r.MovedAway handle) (keeps : r.Keeps s) : s.MovedAway handle := by
  obtain ⟨p, owner, entry, ownerAt, member, named, moved⟩ := h
  obtain ⟨after, afterAt, same, entries⟩ := keeps p owner ownerAt
  exact ⟨p, after, entry, afterAt, entries entry member moved, same ▸ named, moved⟩

/-- The moved entry is the only one the handle can be looked up to. -/
theorem MovedAway.dead (h : r.MovedAway handle) (named : r.Named) : r.Dead handle := by
  intro other otherMember expected found resolved
  obtain ⟨p, owner, entry, ownerAt, member, rfl, moved⟩ := h
  obtain ⟨q, otherAt⟩ := List.mem_iff_getElem?.mp otherMember
  obtain ⟨numbers, notMoved⟩ := Owner.resolveEntry_names resolved
  simp only [Handle.mk.injEq] at numbers
  have here := named.numbered.unique ownerAt otherAt numbers.1
  subst here
  rw [ownerAt] at otherAt
  cases otherAt
  obtain ⟨-, foundAt, -⟩ := Owner.resolveEntry_ok resolved
  have same : entry = found := List.inj_on_of_nodup_map (named.accounts.at_pointer ownerAt).ids
    member (List.mem_of_find?_eq_some foundAt) numbers.2.1
  exact notMoved (same ▸ moved)

/-- Once its entry was moved away, a handle never resolves again. -/
theorem MovedAway.forever {Thread : Type} [DecidableEq Thread] {w t : World Thread}
    {history : List (Op Thread × Answer)} (h : w.registry.MovedAway handle)
    (named : w.registry.Named) (run : ((machine Thread).restrict counted).Run w history t) :
    t.registry.Dead handle := by
  have both : t.registry.MovedAway handle ∧ t.registry.Named := by
    refine run.preserves (I := fun w => w.registry.MovedAway handle ∧ w.registry.Named)
      ⟨h, named⟩ ?_
    intro w op answer u invariant taken
    obtain ⟨allowed, taken⟩ := Machine.restrict_step.mp taken
    obtain ⟨closing, change, -⟩ := step_change taken
    exact ⟨invariant.1.kept change.keeps, invariant.2.next allowed taken⟩
  exact both.1.dead both.2

/-- What a successful transfer has done, as far as one step can tell. -/
structure Handed (r s : Registry) (handle fresh : Handle) (payload : Payload) : Prop where
  before : r.Names handle payload
  after : s.Resolves fresh payload
  total : s.opens.length = r.opens.length
  older : ∀ old, r.Names old payload → old ≠ fresh → s.MovedAway old

/-- Every other handle of the payload behind an open entry was moved away before. -/
theorem Named.others_moved (h : r.Named) {source : Owner} (sourceAt : r.owners[p]? = some source)
    (resolved : source.openEntry handle none = .ok entry) {old : Handle}
    (named : r.Names old entry.payload) (other : old ≠ handle) :
    r.MovedAway old := by
  obtain ⟨q, owner, twin, ownerAt, member, rfl, same⟩ := named
  obtain ⟨-, entryAt, isOpen⟩ := Owner.openEntry_ok resolved
  obtain ⟨handleIs, -⟩ := Owner.resolveEntry_names (Owner.openEntry_resolves resolved)
  refine ⟨q, owner, twin, ownerAt, member, rfl, ?_⟩
  refine h.held.moved sourceAt ownerAt (List.mem_of_find?_eq_some entryAt) member same
    (by simp [isOpen]) ?_
  rintro rfl rfl
  rw [sourceAt] at ownerAt
  cases ownerAt
  exact other handleIs.symm

theorem Named.handed_same (h : r.Named) {source : Owner}
    (found : r.findOwnerFromRoot handle.ownerId = some p) (sourceAt : r.owners[p]? = some source)
    (resolved : source.openEntry handle none = .ok entry) :
    Handed r r handle handle entry.payload where
  before := by
    obtain ⟨-, entryAt, -⟩ := Owner.openEntry_ok resolved
    obtain ⟨handleIs, -⟩ := Owner.resolveEntry_names (Owner.openEntry_resolves resolved)
    exact ⟨p, source, entry, sourceAt, List.mem_of_find?_eq_some entryAt, handleIs, rfl⟩
  after := ⟨p, source, entry, found, sourceAt, resolved, rfl⟩
  total := rfl
  older := fun _ named other => h.others_moved sourceAt resolved named other

/-- The move itself: the new entry is found below the root, and the entry the
handle named is left behind, moved. -/
theorem Named.handed_move (h : r.Named) {source target : Owner}
    (sourceAt : r.owners[p]? = some source) (targetAt : r.owners[q]? = some target)
    (resolved : source.openEntry handle none = .ok entry) (distinct : p ≠ q)
    (room : target.hasCapacity entry.payload.kind = .OK) (reachable : r.Reachable q) :
    Handed r ((r.update q (.registerEntry entry.payload)).update p (.retire entry .MOVED)) handle
      target.nextHandle entry.payload := by
  obtain ⟨notClosed, entryAt, isOpen⟩ := Owner.openEntry_ok resolved
  obtain ⟨handleIs, -⟩ := Owner.resolveEntry_names (Owner.openEntry_resolves resolved)
  have change := Change.move (r := r) p q source target entry distinct sourceAt targetAt
    notClosed entryAt isOpen room
  have numbers : r.SameNumbers
      ((r.update q (.registerEntry entry.payload)).update p (.retire entry .MOVED)) :=
    ((SameNumbers.refl r).update fun _ => by rfl).update fun _ => by rfl
  have targetAfter : ((r.update q (.registerEntry entry.payload)).update p
      (.retire entry .MOVED)).owners[q]? = some (target.registerEntry entry.payload) :=
    (Arena.modify_other distinct).trans (Arena.modify_same targetAt)
  refine ⟨⟨p, source, entry, sourceAt, List.mem_of_find?_eq_some entryAt, handleIs, rfl⟩, ?_,
    ?_, ?_⟩
  · have below : ((r.update q (.registerEntry entry.payload)).update p
        (.retire entry .MOVED)).Reachable q := by
      obtain ⟨root, rootAt, above⟩ := reachable
      refine ⟨root, rootAt, ?_⟩
      rwa [forest_retire, forest_registerEntry]
    have found := findOwnerFromRoot_of_reachable (change.sound h.sound).tree
      (h.numbered.same numbers) targetAfter below
    have idUsed :=
      (h.numbered.used target.id (List.mem_map_of_mem (List.mem_of_getElem? targetAt))).1
    exact ⟨q, _, _, found, targetAfter, Owner.openEntry_registerEntry entry.payload
      (Owner.hasCapacity_ok room).1 (Nat.ne_of_gt idUsed)
      (h.started target (List.mem_of_getElem? targetAt)), rfl⟩
  · simpa using change.conserves.length_eq
  · intro old named other
    by_cases same : old = handle
    · have sourceAfter : ((r.update q (.registerEntry entry.payload)).update p
          (.retire entry .MOVED)).owners[p]? = some (source.retire entry .MOVED) :=
        Arena.modify_same ((Arena.modify_other distinct.symm).trans sourceAt)
      exact ⟨p, _, { entry with state := .MOVED }, sourceAfter, Owner.setState_written entryAt,
        same.trans handleIs, rfl⟩
    · exact (h.others_moved sourceAt resolved named same).kept change.keeps

/-- Either nothing happened, or the handle was resolved and handed over. -/
def Settles (r : Registry) (handle : Handle) (result : Registry × Answer) : Prop :=
  (result.2.rc ≠ .OK ∧ result.1 = r) ∨
    (result.2.rc = .OK ∧ ∃ fresh payload, result.2.handle = some fresh ∧
      Handed r result.1 handle fresh payload)

theorem Settles.refused {rc : Code} (failed : rc ≠ .OK) : r.Settles handle (r, { rc }) :=
  .inl ⟨failed, rfl⟩

theorem Named.transferToOwner_settles (h : r.Named)
    (found : r.findOwnerFromRoot handle.ownerId = some p) {destination : Option Nat}
    (reachable : ∀ q, destination = some q → r.Reachable q) :
    r.Settles handle (r.transferToOwner handle p destination) := by
  unfold transferToOwner
  split
  · exact .refused (by decide)
  rename_i q
  split
  · rename_i source target sourceAt targetAt
    split
    · rename_i rc refused
      exact .refused (Owner.openEntry_error refused)
    · rename_i entry resolved
      split
      · exact .inr ⟨rfl, handle, entry.payload, rfl, h.handed_same found sourceAt resolved⟩
      · rename_i distinct
        split
        · rename_i room
          exact .inr ⟨rfl, target.nextHandle, entry.payload, rfl,
            h.handed_move sourceAt targetAt resolved distinct room (reachable q rfl)⟩
        · rename_i full
          exact .refused full
  · exact .refused (by decide)

theorem Named.transferToParent_settles (h : r.Named) (named : handle.isAsyncOp = false) :
    r.Settles handle (r.transferToParent handle) := by
  unfold transferToParent
  simp only [named, Bool.false_eq_true, if_false]
  split
  · exact .refused (by decide)
  · split
    · exact .refused (by decide)
    · rename_i p found
      split
      · exact .refused (by decide)
      · rename_i q link
        refine h.transferToOwner_settles found ?_
        rintro _ ⟨⟩
        exact (findOwnerFromRoot_sound h.sound.tree found).2.parent h.sound link

theorem Named.transferToCurrent_settles (h : r.Named) (named : handle.isAsyncOp = false)
    (current : Nat) : r.Settles handle (r.transferToCurrent current handle) := by
  unfold transferToCurrent
  simp only [named, Bool.false_eq_true, if_false]
  split
  · exact .refused (by decide)
  · split
    · exact .refused (by decide)
    · rename_i p found
      split
      · exact .refused (by decide)
      · rename_i below
        refine h.transferToOwner_settles found ?_
        rintro _ ⟨⟩
        obtain ⟨root, rootAt, above⟩ := (findOwnerFromRoot_sound h.sound.tree found).2
        obtain ⟨_, ⟨⟩, under⟩ := isAncestor_sound (by simpa using below)
        exact ⟨root, rootAt, under.trans above⟩

end Registry

/-- What the claim of a reattach rests on. The handle is not looked at when its
owner is above the destination, so there it has to be open beforehand. -/
def Transfer.Verified (r : Registry) (handle : Handle) : Transfer → Prop
  | .toParent | .toCurrent _ => True
  | .reattach current =>
    handle.isZero = false → ∀ p, r.findOwnerFromRoot handle.ownerId = some p → p ≠ current →
      r.isAncestor p r.owners.length ((r.owners[current]?).bind (·.parent)) = true →
      ∃ owner entry, r.owners[p]? = some owner ∧ owner.openEntry handle none = .ok entry

theorem Registry.Named.reattachToParent_settles {r : Registry} {handle : Handle} (h : r.Named)
    (named : handle.isAsyncOp = false) (current : Nat)
    (verified : (Transfer.reattach current).Verified r handle) :
    r.Settles handle (r.reattachToParent current handle) := by
  unfold Registry.reattachToParent
  simp only [named, Bool.false_eq_true, if_false]
  split
  · exact .refused (by decide)
  rename_i notZero
  split
  · exact .refused (by decide)
  · rename_i p found
    split
    · rename_i same
      refine h.transferToOwner_settles found ?_
      intro q link
      subst same
      exact (Registry.findOwnerFromRoot_sound h.sound.tree found).2.parent h.sound link
    · rename_i other
      split
      · rename_i above
        obtain ⟨owner, entry, ownerAt, resolved⟩ :=
          verified (by simpa using notZero) p found other above
        exact .inr ⟨rfl, handle, entry.payload, rfl, h.handed_same found ownerAt resolved⟩
      · exact .refused (by decide)

section Statement

variable {Thread : Type} [DecidableEq Thread]

/-- A request that fails leaves the registry as it was. One that succeeds returns
a handle of an open entry with the payload the request was about, keeps the
number of open entries, and leaves every older handle of the payload dead in
every continuation. -/
def AllOrNothing (w : World Thread) (request : Transfer) (handle : Handle) : Prop :=
  ∀ t answer, w.step (request.op handle) = some (t, answer) →
    (answer.rc ≠ .OK → t.registry = w.registry) ∧
    (answer.rc = .OK → ∃ fresh payload, answer.handle = some fresh ∧
      w.registry.Names handle payload ∧ t.registry.Resolves fresh payload ∧
      t.registry.opens.length = w.registry.opens.length ∧
      ∀ old, w.registry.Names old payload → old ≠ fresh → ∀ history u,
        ((machine Thread).restrict counted).Run t history u → u.registry.Dead old)

variable {w : World Thread} {request : Transfer} {handle : Handle}

theorem allOrNothing_of_settles (named : w.registry.Named) {result : Registry × Answer}
    (step : w.step (request.op handle) = some ({ w with registry := result.1 }, result.2))
    (settled : w.registry.Settles handle result) : AllOrNothing w request handle := by
  intro t answer taken
  have after := named.next (by cases request <;> rfl) taken
  rw [step] at taken
  cases taken
  obtain ⟨failed, same⟩ | ⟨succeeded, fresh, payload, returned, handed⟩ := settled
  · exact ⟨fun _ => same, fun ok => absurd ok failed⟩
  · refine ⟨fun failed => absurd succeeded failed, fun _ => ?_⟩
    refine ⟨fresh, payload, returned, handed.before, handed.after, handed.total, ?_⟩
    intro old named other history u run
    exact (handed.older old named other).forever after run

/-- A reattach that is answered without a lookup returns the handle it was given,
so the handle has to be open before. -/
theorem verified_of_allOrNothing {current : Nat} (named : handle.isAsyncOp = false)
    (holds : AllOrNothing w (.reattach current) handle) :
    (Transfer.reattach current).Verified w.registry handle := by
  intro notZero p found other above
  have step : w.registry.reattachToParent current handle =
      (w.registry, { rc := .OK, handle := some handle }) := by
    simp [Registry.reattachToParent, named, notZero, found, other, above]
  have taken : w.step ((Transfer.reattach current).op handle) =
      some (w, { rc := .OK, handle := some handle }) := by
    simp only [Transfer.op, World.step, step]
  obtain ⟨_, payload, ⟨⟩, -, resolves, -⟩ := (holds _ _ taken).2 rfl
  obtain ⟨q, owner, entry, foundQ, ownerAt, resolved, -⟩ := resolves
  rw [found] at foundQ
  cases foundQ
  exact ⟨owner, entry, ownerAt, resolved⟩

end Statement

/-- In every reachable state and for every handle, a request is all or nothing
exactly if a reattach that is answered without looking at the entry was asked
for an open one. -/
theorem transfer_allOrNothing_iff {Thread : Type} [DecidableEq Thread] {w : World Thread}
    {history : List (Op Thread × Answer)}
    (run : ((machine Thread).restrict counted).Run World.initial history w) (request : Transfer)
    (handle : Handle) (named : handle.isAsyncOp = false) :
    AllOrNothing w request handle ↔ request.Verified w.registry handle := by
  have meaning := run_named run
  constructor
  · intro holds
    cases request with
    | toParent => trivial
    | toCurrent current => trivial
    | reattach current => exact verified_of_allOrNothing named holds
  · intro verified
    cases request with
    | toParent => exact allOrNothing_of_settles meaning rfl (meaning.transferToParent_settles named)
    | toCurrent current =>
      exact allOrNothing_of_settles meaning rfl (meaning.transferToCurrent_settles named current)
    | reattach current =>
      exact allOrNothing_of_settles meaning rfl
        (meaning.reattachToParent_settles named current verified)

/-- A descriptor registered under a child owner. -/
def childDescriptor : List (Op Unit) :=
  [.runtimeInit, .newChild 0 ⟨1, 1, 1, 1⟩, .register 1 (.fd .TCP_STREAM 3 false)]

theorem transfer_allOrNothing_iff_childDescriptor :
    ∃ (w : World Unit) (history : List (Op Unit × Answer)),
      ((machine Unit).restrict counted).Run World.initial history w ∧
      history.map (·.1) = childDescriptor ∧
      (w.registry.transferToParent ⟨2, 1, 1⟩).2.handle = some ⟨1, 1, 1⟩ ∧
      AllOrNothing w .toParent ⟨2, 1, 1⟩ := by
  have executed : ∃ w history, ((machine Unit).restrict counted).exec World.initial
      childDescriptor = some (w, history) ∧ history.map (·.1) = childDescriptor ∧
      (w.registry.transferToParent ⟨2, 1, 1⟩).2.handle = some ⟨1, 1, 1⟩ := ⟨_, _, rfl, rfl, rfl⟩
  obtain ⟨w, history, executed, labels, returned⟩ := executed
  have run := Machine.run_of_exec executed
  refine ⟨w, history, run, labels, returned, ?_⟩
  exact (transfer_allOrNothing_iff run .toParent ⟨2, 1, 1⟩ (by decide)).mpr trivial

/-- A descriptor of the root owner that is closed again, next to a child owner. -/
def closedAtRoot : List (Op Unit) :=
  [.runtimeInit, .newChild 0 defaultLimits, .register 0 (.fd .FILE 3 false),
    .close 0 ⟨1, 1, 1⟩ .OK]

/-- Reattaching the closed handle from the child owner answers zero and returns
the closed handle. -/
theorem reattach_closedAtRoot_not_allOrNothing :
    ∃ (w : World Unit) (history : List (Op Unit × Answer)),
      ((machine Unit).restrict counted).Run World.initial history w ∧
      history.map (·.1) = closedAtRoot ∧ Handle.isAsyncOp ⟨1, 1, 1⟩ = false ∧
      ¬ AllOrNothing w (.reattach 1) ⟨1, 1, 1⟩ := by
  have executed : ∃ w history, ((machine Unit).restrict counted).exec World.initial
      closedAtRoot = some (w, history) ∧ history.map (·.1) = closedAtRoot ∧
      w.registry.findOwnerFromRoot 1 = some 0 ∧
      w.registry.isAncestor 0 w.registry.owners.length
        ((w.registry.owners[1]?).bind (·.parent)) = true ∧
      (w.registry.owners[0]?).map (fun owner => (owner.openEntry ⟨1, 1, 1⟩ none).toOption) =
        some none := ⟨_, _, rfl, rfl, rfl, rfl, rfl⟩
  obtain ⟨w, history, executed, labels, found, above, closed⟩ := executed
  refine ⟨w, history, Machine.run_of_exec executed, labels, by decide, fun holds => ?_⟩
  obtain ⟨owner, entry, ownerAt, resolved⟩ :=
    verified_of_allOrNothing (by decide) holds (by decide) 0 found (by decide) above
  rw [ownerAt, Option.map_some, resolved] at closed
  cases closed

end Ciel.Runtime.Resource
