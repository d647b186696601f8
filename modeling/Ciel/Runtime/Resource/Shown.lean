import Ciel.Runtime.Resource.Descriptors
import Ciel.Runtime.Resource.Moved

/-!
# The descriptors of the registry

The machine of descriptors keeps one position for each number that was registered, whatever
entries the registry has had for it. Every section of the registry does to the entry that was
not moved what an event does to the position: nothing, a close, or a transfer.
-/

namespace Ciel.Runtime.Resource

open Library

/-- An entry of an owner as a descriptor. -/
def Entry.descriptor (entry : Entry) (owner : Nat) (closing : Bool) : Descriptor :=
  ⟨entry.payload.fd, entry.payload.borrowed, owner, some entry.state, closing⟩

variable {r s : Registry} {p q : Nat} {entry : Entry} {owner : Owner} {f : Owner → Owner}

namespace Registry

/-- The owner behind a pointer has an entry. -/
def Has (r : Registry) (p : Nat) (entry : Entry) : Prop :=
  ∃ owner, r.owners[p]? = some owner ∧ entry ∈ owner.entries

theorem Has.update (has : r.Has p entry) (kept : ∀ owner, r.owners[p]? = some owner → q = p →
    entry ∈ owner.entries → entry ∈ (f owner).entries) : (r.update q f).Has p entry := by
  obtain ⟨owner, found, member⟩ := has
  by_cases here : q = p
  · exact ⟨f owner, here ▸ Arena.modify_same (here ▸ found), kept owner found here member⟩
  · exact ⟨owner, (Arena.modify_other here).trans found, member⟩

/-- Writes that do not touch the entries. -/
theorem Has.relink (has : r.Has p entry) (same : ∀ owner, (f owner).entries = owner.entries) :
    (r.update q f).Has p entry :=
  has.update fun owner _ _ member => same owner ▸ member

theorem Has.append (has : r.Has p entry) (new : Owner) {root : Option Nat} {next : Nat} :
    { r with owners := r.owners ++ [new], root, nextOwnerId := next }.Has p entry := by
  obtain ⟨owner, found, member⟩ := has
  exact ⟨owner, Arena.append_old found, member⟩

theorem Has.unlinkFromParent (has : r.Has p entry) : (r.unlinkFromParent q owner).Has p entry := by
  obtain same | ⟨above, -, same⟩ := r.unlinkFromParent_cases q owner <;> rw [same]
  · exact has
  · exact (has.relink fun _ => by rfl).relink fun _ => by rfl

/-- A payload has one entry that was not moved. -/
theorem Held.unique (h : r.Held) {twin : Entry} (has : r.Has p entry) (hasTwin : r.Has q twin)
    (same : twin.payload = entry.payload) (stays : entry.state ≠ .MOVED)
    (twinStays : twin.state ≠ .MOVED) : q = p ∧ twin = entry := by
  obtain ⟨owner, ownerAt, member⟩ := has
  obtain ⟨other, otherAt, twinMember⟩ := hasTwin
  by_contra distinct
  refine twinStays (h.moved ownerAt otherAt member twinMember same stays fun here there => ?_)
  exact distinct ⟨here.symm, there⟩

/-- The payloads that an owner close collects are those of its open entries. -/
theorem Held.mem_openPayloads (h : r.Held) (ownerAt : r.owners[q]? = some owner)
    (has : r.Has p entry) (stays : entry.state ≠ .MOVED) :
    entry.payload ∈ Owner.openPayloads owner.entries ↔ q = p ∧ entry.state = .OPEN := by
  constructor
  · intro inside
    obtain ⟨twin, member, same⟩ := List.mem_map.mp inside
    obtain ⟨member, isOpen⟩ := List.mem_filter.mp member
    have isOpen : twin.state = .OPEN := of_decide_eq_true isOpen
    obtain ⟨rfl, rfl⟩ := h.unique has ⟨owner, ownerAt, member⟩ same stays (by simp [isOpen])
    exact ⟨rfl, isOpen⟩
  · rintro ⟨rfl, isOpen⟩
    obtain ⟨owner', found, member⟩ := has
    obtain rfl := Option.some.inj (ownerAt.symm.trans found)
    exact List.mem_map_of_mem (List.mem_filter.mpr ⟨member, decide_eq_true isOpen⟩)

end Registry

/-- What becomes of the descriptor of a payload: it stays, is closed, or changes its owner. -/
def Descriptor.Next (before after : Descriptor) : Prop :=
  after = before ∨ after = before.close ∨
    before.state = some .OPEN ∧ after = { before with owner := after.owner }

/-- Every section of the registry is an event for the entry of a payload that was not moved.
A descriptor whose payload is collected is then to be closed. -/
theorem Change.descriptor {closing : Option Nat} {registered collected : List Payload}
    (change : Change r closing registered collected s) (held : r.Held) (has : r.Has p entry)
    (stays : entry.state ≠ .MOVED) (toClose : Bool) :
    ∃ q after, s.Has q after ∧ after.payload = entry.payload ∧ after.state ≠ .MOVED ∧
      (entry.descriptor p toClose).Next
        (after.descriptor q (toClose || entry.payload ∈ collected)) := by
  have same (has : s.Has p entry) (other : entry.payload ∉ collected) : ∃ q after,
      s.Has q after ∧ after.payload = entry.payload ∧ after.state ≠ .MOVED ∧
        (entry.descriptor p toClose).Next
          (after.descriptor q (toClose || entry.payload ∈ collected)) :=
    ⟨p, entry, has, rfl, stays, .inl (by simp [other])⟩
  cases change with
  | counter => exact same has (by simp)
  | root => exact same (has.append _) (by simp)
  | child => exact same ((has.append _).relink fun _ => by rfl) (by simp)
  | detach =>
    exact same (((has.relink fun _ => by rfl).relink fun _ => by rfl).relink fun _ => by rfl)
      (by simp)
  | register => exact same (has.update fun _ _ _ => List.mem_cons_of_mem _) (by simp)
  | close p' owner closed found _ entryAt isOpen =>
    by_cases twin : closed.payload = entry.payload
    · obtain ⟨rfl, rfl⟩ := held.unique has ⟨owner, found, List.mem_of_find?_eq_some entryAt⟩
        twin stays (by simp [isOpen])
      refine ⟨_, _, ⟨_, Arena.modify_same found, Owner.setState_written entryAt⟩, rfl, by simp, ?_⟩
      exact .inr (.inl (by simp [Entry.descriptor, Descriptor.close, isOpen]))
    · refine same (has.update fun owner' found' here member => ?_) (by simpa using Ne.symm twin)
      subst here
      obtain rfl := Option.some.inj (found.symm.trans found')
      exact Owner.mem_setState entryAt member fun same => twin (congrArg _ same.symm)
  | move p' q' source target moved distinct sourceAt targetAt _ entryAt isOpen =>
    by_cases twin : moved.payload = entry.payload
    · obtain ⟨rfl, rfl⟩ := held.unique has ⟨source, sourceAt, List.mem_of_find?_eq_some entryAt⟩
        twin stays (by simp [isOpen])
      refine ⟨q', _, ⟨_, (Arena.modify_other distinct).trans (Arena.modify_same targetAt),
        List.mem_cons_self⟩, rfl, by simp, .inr (.inr ⟨congrArg some isOpen, ?_⟩)⟩
      simp [Entry.descriptor, isOpen]
    · refine same ((has.update fun _ _ _ => List.mem_cons_of_mem _).update
        fun owner' found' here member => ?_) (by simp)
      subst here
      rw [Registry.update, Arena.modify_other distinct.symm, sourceAt] at found'
      obtain rfl := Option.some.inj found'
      exact Owner.mem_setState entryAt member fun same => twin (congrArg _ same.symm)
  | collect p' owner found =>
    have collects : entry.payload ∈ (owner.collectEntries owner.entries).2.2 ↔
        p' = p ∧ entry.state = .OPEN := by
      rw [Owner.collectEntries_eq]
      exact held.mem_openPayloads found has stays
    have marked := has.relink (q := p') (f := .markClosed) fun _ => rfl
    by_cases here : p' = p
    · subst here
      obtain ⟨owner', found', member⟩ := marked.unlinkFromParent
      refine ⟨p', Owner.shut entry, ⟨_, Arena.modify_same found', ?_⟩, ?_⟩
      · rw [Owner.collected_eq]
        exact List.mem_map_of_mem member
      by_cases isOpen : entry.state = .OPEN
      · have collected := collects.mpr ⟨rfl, isOpen⟩
        simp [Owner.shut, isOpen, Descriptor.Next, Entry.descriptor, Descriptor.close, collected]
      · have kept := mt collects.mp (not_and_of_not_right _ isOpen)
        simp [Owner.shut, isOpen, stays, Descriptor.Next, Entry.descriptor, kept]
    · exact same (marked.unlinkFromParent.update fun _ _ here' => absurd here' here)
        fun inside => here (collects.mp inside).1

end Ciel.Runtime.Resource
