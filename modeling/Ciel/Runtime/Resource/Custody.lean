import Mathlib.Data.List.Nodup
import Ciel.Runtime.Resource.Accounting

/-!
# Every payload is in exactly one place

A payload is in custody of the registry while some entry holds it open, and it
leaves custody when a section collects its close action. A transfer opens a new
entry and marks the old one as moved in the same section. So the open payloads
together with the collected ones are at any time a permutation of the payloads
registered so far.
-/

namespace Ciel.Runtime.Resource

open Library

variable {r : Registry} {owner : Owner} {state : State} {entry : Entry}

namespace Owner

/-- The payloads of the entries in certain states. -/
def payloadsIn (states : State → Bool) (entries : List Entry) : List Payload :=
  (entries.filter (states ·.state)).map (·.payload)

/-- Writing another state to the entry found takes exactly its payload away. -/
theorem payloadsIn_setState {states : State → Bool} {entries : List Entry}
    (found : entries.find? (·.id = entry.id) = some entry) (inside : states entry.state = true)
    (left : states state = false) : (payloadsIn states entries).Perm
      (entry.payload :: payloadsIn states (setState entry.id state entries)) := by
  obtain ⟨before, after, split, written⟩ := setState_split found state
  rw [split] at written ⊢
  rw [written]
  simp [payloadsIn, inside, left]

@[simp] theorem openPayloads_shut (entries : List Entry) :
    openPayloads (entries.map shut) = [] := by
  simp [openPayloads, shut_not_open]

@[simp] theorem openPayloads_collected (owner : Owner) :
    openPayloads owner.collected.entries = [] := by
  simp [collected_eq]

end Owner

namespace Registry

/-- The payloads of the entries in certain states, owner by owner. -/
def payloadsIn (states : State → Bool) (r : Registry) : List Payload :=
  r.owners.flatMap fun owner => Owner.payloadsIn states owner.entries

section PayloadsIn

variable {states : State → Bool} {p : Nat} {f : Owner → Owner}

theorem payloadsIn_update_eq (same : ∀ owner, r.owners[p]? = some owner →
      Owner.payloadsIn states (f owner).entries = Owner.payloadsIn states owner.entries) :
    (r.update p f).payloadsIn states = r.payloadsIn states :=
  Arena.flatMap_modify_eq same

theorem payloadsIn_unlinkFromParent (r : Registry) (p : Nat) (owner : Owner) :
    (r.unlinkFromParent p owner).payloadsIn states = r.payloadsIn states := by
  obtain same | ⟨q, -, same⟩ := r.unlinkFromParent_cases p owner <;> rw [same]
  rw [payloadsIn_update_eq fun _ _ => by rfl, payloadsIn_update_eq fun _ _ => by rfl]

theorem payloadsIn_registerEntry (payload : Payload) (found : r.owners[p]? = some owner)
    (inside : states .OPEN = true) :
    ((r.update p (.registerEntry payload)).payloadsIn states).Perm
      (payload :: r.payloadsIn states) := by
  obtain ⟨rest, before, after⟩ := Arena.flatMap_modify_perm found (.registerEntry payload)
    fun owner => Owner.payloadsIn states owner.entries
  have registered : Owner.payloadsIn states (owner.registerEntry payload).entries =
      payload :: Owner.payloadsIn states owner.entries := by
    simp [Owner.payloadsIn, Owner.registerEntry, inside]
  rw [registered, List.cons_append] at after
  exact after.trans (before.symm.cons payload)

theorem payloadsIn_retire (at_p : r.owners[p]? = some owner)
    (found : owner.findEntry entry.id = some entry) (inside : states entry.state = true)
    (left : states state = false) : (r.payloadsIn states).Perm
      (entry.payload :: (r.update p (.retire entry state)).payloadsIn states) := by
  obtain ⟨rest, before, after⟩ := Arena.flatMap_modify_perm at_p (.retire entry state)
    fun owner => Owner.payloadsIn states owner.entries
  have taken := Owner.payloadsIn_setState found inside left
  exact before.trans ((taken.append_right rest).trans (after.symm.cons entry.payload))

/-- A payload that changes its owner is taken from one entry and held by another. -/
theorem payloadsIn_move {q : Nat} {source target : Owner} (distinct : p ≠ q)
    (sourceAt : r.owners[p]? = some source) (targetAt : r.owners[q]? = some target)
    (found : source.findEntry entry.id = some entry) (isOpen : states .OPEN = true)
    (inside : states entry.state = true) (left : states .MOVED = false) :
    (((r.update q (.registerEntry entry.payload)).update p
      (.retire entry .MOVED)).payloadsIn states).Perm (r.payloadsIn states) := by
  have admitted := payloadsIn_registerEntry entry.payload targetAt isOpen
  have sourceAt' : (r.update q (.registerEntry entry.payload)).owners[p]? = some source :=
    (Arena.modify_other distinct.symm).trans sourceAt
  exact ((payloadsIn_retire sourceAt' found inside left).symm.trans admitted).cons_inv

end PayloadsIn

/-- All open payloads, owner by owner. -/
def opens (r : Registry) : List Payload :=
  r.owners.flatMap fun owner => Owner.openPayloads owner.entries

theorem opens_eq : r.opens = r.payloadsIn (· = .OPEN) := rfl

/-- Collecting an owner takes all of its open payloads out of custody. -/
theorem opens_collected {p : Nat} (at_p : r.owners[p]? = some owner) :
    ((r.update p .collected).opens ++ Owner.openPayloads owner.entries).Perm r.opens := by
  obtain ⟨rest, before, after⟩ := Arena.flatMap_modify_perm at_p .collected
    fun owner => Owner.openPayloads owner.entries
  simp only [Owner.openPayloads_collected, List.nil_append] at after
  exact (after.append_right _).trans (List.perm_append_comm.trans before.symm)

end Registry

/-- One change moves payloads between the registry and the outside, and neither
duplicates nor drops any. -/
theorem Change.conserves {s : Registry} {closing : Option Nat} {registered collected : List Payload}
    (change : Change r closing registered collected s) :
    (s.opens ++ collected).Perm (r.opens ++ registered) := by
  cases change with
  | counter next => exact .refl _
  | root id next noRoot => simp [Registry.opens, Owner.fresh, Owner.openPayloads]
  | child id next p above limits found notClosed room =>
    rw [Registry.opens_eq, Registry.payloadsIn_update_eq fun _ _ => by rfl]
    simp [Registry.opens, Registry.payloadsIn, Owner.fresh, Owner.payloadsIn, Owner.openPayloads]
  | detach p root old =>
    rw [Registry.opens_eq, Registry.payloadsIn_update_eq fun _ _ => by rfl,
      Registry.payloadsIn_update_eq fun _ _ => by rfl,
      Registry.payloadsIn_update_eq fun _ _ => by rfl, Registry.opens_eq]
  | register p owner payload found room serial =>
    rw [List.append_nil, Registry.opens_eq, Registry.opens_eq]
    exact (Registry.payloadsIn_registerEntry payload found (by rfl)).trans
      (List.perm_append_singleton _ _).symm
  | close p owner entry found notClosed entryAt isOpen =>
    rw [List.append_nil, Registry.opens_eq, Registry.opens_eq]
    exact (List.perm_append_singleton _ _).trans
      (Registry.payloadsIn_retire found entryAt (decide_eq_true isOpen) (by rfl)).symm
  | move p q source target entry distinct sourceAt targetAt notClosed entryAt isOpen room =>
    rw [List.append_nil, List.append_nil, Registry.opens_eq, Registry.opens_eq]
    exact Registry.payloadsIn_move distinct sourceAt targetAt entryAt rfl
      (decide_eq_true isOpen) rfl
  | collect p owner found notClosed =>
    obtain ⟨current, currentAt, entries⟩ : ∃ current,
        ((r.update p .markClosed).unlinkFromParent p owner).owners[p]? = some current ∧
          current.entries = owner.entries := by
      obtain ⟨parent, before | before⟩ := Registry.unlinkFromParent_at found
      all_goals exact ⟨_, before, rfl⟩
    have taken := Registry.opens_collected currentAt
    rw [Registry.opens_eq (r := Registry.unlinkFromParent ..), Registry.payloadsIn_unlinkFromParent,
      Registry.payloadsIn_update_eq fun _ _ => by rfl, ← Registry.opens_eq, entries] at taken
    simpa [Owner.collectEntries_eq] using taken

/-- Registrations are numbered in order. -/
theorem Change.serials {s : Registry} {closing : Option Nat} {registered collected : List Payload}
    (change : Change r closing registered collected s) :
    List.range s.serials = List.range r.serials ++ registered.map (·.serial) := by
  cases change with
  | register p owner payload found room serial => simp [List.range_succ, serial]
  | collect p owner found notClosed =>
    simp [Registry.update]
  | _ => simp [Registry.update]

/-- The payloads registered along a history. -/
def registered {Thread : Type} (history : List (Op Thread × Answer)) : List Payload :=
  history.flatMap (·.2.registered)

/-- The payloads whose close action was collected along a history. -/
def collected {Thread : Type} (history : List (Op Thread × Answer)) : List Payload :=
  history.flatMap (·.2.collected)

/-- What a history keeps: every registered payload is open or collected. -/
structure InCustody {Thread : Type} (history : List (Op Thread × Answer)) (r : Registry) :
    Prop where
  conserved : (r.opens ++ collected history).Perm (registered history)
  numbered : (registered history).map (·.serial) = List.range r.serials

theorem InCustody.next {Thread : Type} [DecidableEq Thread]
    {history : List (Op Thread × Answer)} {w t : World Thread} {op : Op Thread}
    {answer : Answer} (h : InCustody history w.registry)
    (taken : w.step op = some (t, answer)) :
    InCustody (history ++ [(op, answer)]) t.registry := by
  obtain ⟨closing, change, -⟩ := step_change taken
  have registeredNow : registered (history ++ [(op, answer)]) =
      registered history ++ answer.registered := by simp [registered]
  have collectedNow : collected (history ++ [(op, answer)]) =
      collected history ++ answer.collected := by simp [collected]
  refine ⟨?_, ?_⟩
  · rw [registeredNow, collectedNow]
    calc (t.registry.opens ++ (collected history ++ answer.collected)).Perm
          ((t.registry.opens ++ answer.collected) ++ collected history) := by
            rw [List.append_assoc]
            exact List.perm_append_comm.append_left _
      _ |>.Perm ((w.registry.opens ++ answer.registered) ++ collected history) :=
            change.conserves.append_right _
      _ |>.Perm ((w.registry.opens ++ collected history) ++ answer.registered) := by
            rw [List.append_assoc, List.append_assoc]
            exact List.perm_append_comm.append_left _
      _ |>.Perm (registered history ++ answer.registered) := h.conserved.append_right _
  · rw [registeredNow, List.map_append, h.numbered, change.serials]

/-- Serials tell registered payloads apart. -/
theorem InCustody.nodup {Thread : Type} {history : List (Op Thread × Answer)}
    (h : InCustody history r) : (r.opens ++ collected history).Nodup := by
  refine h.conserved.nodup_iff.mpr (List.Nodup.of_map (·.serial) ?_)
  rw [h.numbered]
  exact List.nodup_range

end Ciel.Runtime.Resource
