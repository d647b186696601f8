import Ciel.Runtime.Resource.Closing

/-!
# Entries that were moved

A transfer leaves its old entry behind, marked as moved. Such an entry is never
written again. Registering opens the first entry of a payload and a transfer
opens the next one in the same section that marks the old one, so of all entries
of one payload at most one is not moved.
-/

namespace Ciel.Runtime.Resource

open Library

variable {entry : Entry} {entries : List Entry} {f : Owner → Owner} {state : State}

namespace Owner

/-! ## Moved entries stay -/

/-- The owner keeps its number and its moved entries. -/
def Keeps (before after : Owner) : Prop :=
  after.id = before.id ∧ ∀ entry ∈ before.entries, entry.state = .MOVED → entry ∈ after.entries

theorem Keeps.refl (owner : Owner) : owner.Keeps owner := ⟨rfl, fun _ member _ => member⟩

theorem Keeps.trans {a b c : Owner} (first : a.Keeps b) (second : b.Keeps c) : a.Keeps c :=
  ⟨second.1.trans first.1, fun entry member moved =>
    second.2 entry (first.2 entry member moved) moved⟩

/-- Only the entry found is written. -/
theorem mem_setState {other : Entry} (found : entries.find? (·.id = entry.id) = some entry)
    (member : other ∈ entries) (distinct : other ≠ entry) :
    other ∈ setState entry.id state entries := by
  obtain ⟨before, after, split, written⟩ := setState_split found state
  rw [written]
  simp only [split, List.mem_append, List.mem_cons, distinct, false_or] at member ⊢
  exact member.imp_right .inr

theorem setState_written (found : entries.find? (·.id = entry.id) = some entry) :
    { entry with state } ∈ setState entry.id state entries := by
  obtain ⟨before, after, split, written⟩ := setState_split found state
  simp [written]

theorem keeps_retire {owner : Owner} (found : owner.findEntry entry.id = some entry)
    (isOpen : entry.state = .OPEN) :
    owner.Keeps (owner.retire entry state) := by
  refine ⟨rfl, fun other member moved => mem_setState found member ?_⟩
  rintro rfl
  rw [isOpen] at moved
  cases moved

theorem keeps_registerEntry (owner : Owner) (payload : Payload) :
    owner.Keeps (owner.registerEntry payload) :=
  ⟨rfl, fun _ member _ => List.mem_cons_of_mem _ member⟩

theorem keeps_collected (owner : Owner) : owner.Keeps owner.collected := by
  rw [collected_eq]
  refine ⟨rfl, fun entry member moved => List.mem_map.mpr ⟨entry, member, ?_⟩⟩
  simp [shut, moved]

/-! ## Payloads held by entries that were not moved -/

theorem payloadsIn_closed (found : entries.find? (·.id = entry.id) = some entry)
    (isOpen : entry.state = .OPEN) :
    payloadsIn (· ≠ .MOVED) (setState entry.id .CLOSED entries) =
      payloadsIn (· ≠ .MOVED) entries := by
  obtain ⟨before, after, split, written⟩ := setState_split found .CLOSED
  rw [split] at written ⊢
  rw [written]
  simp [payloadsIn, isOpen]

@[simp] theorem payloadsIn_shut (entries : List Entry) :
    payloadsIn (· ≠ .MOVED) (entries.map shut) = payloadsIn (· ≠ .MOVED) entries := by
  induction entries with
  | nil => rfl
  | cons entry entries ih =>
    simp only [payloadsIn, ne_eq, decide_not] at ih ⊢
    cases state : entry.state <;> simp [ih, shut, state]

end Owner

namespace Registry

variable {r s : Registry} {p : Nat} {owner : Owner}

/-- No owner disappears, and each keeps its number and its moved entries. -/
def Keeps (r s : Registry) : Prop := Arena.Extends Owner.Keeps r.owners s.owners

theorem Keeps.refl (r : Registry) : r.Keeps r := Arena.Extends.refl Owner.Keeps.refl _

theorem Keeps.update (h : r.Keeps s)
    (kept : ∀ owner, s.owners[p]? = some owner → owner.Keeps (f owner)) :
    r.Keeps (s.update p f) :=
  Arena.Extends.modify h Owner.Keeps.trans Owner.Keeps.refl kept

/-- Writes that do not touch the entries. -/
theorem Keeps.relink (h : r.Keeps s)
    (same : ∀ owner, (f owner).id = owner.id ∧ (f owner).entries = owner.entries) :
    r.Keeps (s.update p f) :=
  h.update fun owner _ => ⟨(same owner).1, fun _ member _ => (same owner).2 ▸ member⟩

theorem Keeps.unlinkFromParent (h : r.Keeps s) : r.Keeps (s.unlinkFromParent p owner) := by
  obtain same | ⟨q, -, same⟩ := s.unlinkFromParent_cases p owner <;> rw [same]
  · exact h
  · exact (h.relink fun _ => by exact ⟨rfl, rfl⟩).relink fun _ => by exact ⟨rfl, rfl⟩

end Registry

section Changes

variable {r s : Registry} {closing : Option Nat} {registered collected : List Payload}

theorem Change.keeps (change : Change r closing registered collected s) : r.Keeps s := by
  cases change with
  | counter next => exact .refl r
  | root id next noRoot => exact Arena.Extends.append (Registry.Keeps.refl r) _
  | child id next p above limits found notClosed room =>
    have grown : r.Keeps { r with
        owners := r.owners ++ [.fresh id (some p) limits], nextOwnerId := next } :=
      Arena.Extends.append (Registry.Keeps.refl r) _
    exact grown.relink fun _ => by exact ⟨rfl, rfl⟩
  | detach p root old =>
    have unlinked : r.Keeps (r.update old (.unlink p)) :=
      (Registry.Keeps.refl r).relink fun _ => by exact ⟨rfl, rfl⟩
    have moved : r.Keeps ((r.update old (.unlink p)).update p (.withParent (some root))) :=
      unlinked.relink fun _ => by exact ⟨rfl, rfl⟩
    exact moved.relink fun _ => by exact ⟨rfl, rfl⟩
  | register p owner payload found room serial =>
    exact (Registry.Keeps.refl r).update fun other _ => other.keeps_registerEntry payload
  | close p owner entry found notClosed entryAt isOpen =>
    refine (Registry.Keeps.refl r).update fun other otherAt => ?_
    rw [found] at otherAt
    cases otherAt
    exact Owner.keeps_retire entryAt isOpen
  | move p q source target entry distinct sourceAt targetAt notClosed entryAt isOpen room =>
    have admitted : r.Keeps (r.update q (.registerEntry entry.payload)) :=
      (Registry.Keeps.refl r).update fun other _ => other.keeps_registerEntry entry.payload
    refine admitted.update fun other otherAt => ?_
    rw [Registry.update, Arena.modify_other distinct.symm, sourceAt] at otherAt
    cases otherAt
    exact Owner.keeps_retire entryAt isOpen
  | collect p owner found notClosed =>
    have marked : r.Keeps (r.update p .markClosed) :=
      (Registry.Keeps.refl r).relink fun _ => by exact ⟨rfl, rfl⟩
    exact marked.unlinkFromParent.update fun other _ => other.keeps_collected

/-- A payload gets its first entry when it is registered. Later it changes the
entry that holds it, and closing keeps the entry. -/
theorem Change.holds (change : Change r closing registered collected s) :
    (s.payloadsIn (· ≠ .MOVED)).Perm (r.payloadsIn (· ≠ .MOVED) ++ registered) := by
  cases change with
  | counter next => simp [Registry.payloadsIn]
  | root id next noRoot => simp [Registry.payloadsIn, Owner.fresh, Owner.payloadsIn]
  | child id next p above limits found notClosed room =>
    rw [Registry.payloadsIn_update_eq fun _ _ => by rfl]
    simp [Registry.payloadsIn, Owner.fresh, Owner.payloadsIn]
  | detach p root old =>
    rw [Registry.payloadsIn_update_eq fun _ _ => by rfl,
      Registry.payloadsIn_update_eq fun _ _ => by rfl,
      Registry.payloadsIn_update_eq fun _ _ => by rfl, List.append_nil]
  | register p owner payload found room serial =>
    exact (Registry.payloadsIn_registerEntry payload found (by rfl)).trans
      (List.perm_append_singleton _ _).symm
  | close p owner entry found notClosed entryAt isOpen =>
    rw [List.append_nil, Registry.payloadsIn_update_eq]
    intro other otherAt
    rw [found] at otherAt
    cases otherAt
    exact Owner.payloadsIn_closed entryAt isOpen
  | move p q source target entry distinct sourceAt targetAt notClosed entryAt isOpen room =>
    rw [List.append_nil]
    exact Registry.payloadsIn_move distinct sourceAt targetAt entryAt rfl (by simp [isOpen]) rfl
  | collect p owner found notClosed =>
    rw [List.append_nil,
      Registry.payloadsIn_update_eq fun other _ => by
        rw [Owner.collected_eq]
        exact Owner.payloadsIn_shut _,
      Registry.payloadsIn_unlinkFromParent, Registry.payloadsIn_update_eq fun _ _ => by rfl]

end Changes

namespace Registry

variable {r s : Registry} {p q : Nat} {owner other : Owner} {entry twin : Entry}

/-- The entries that were not moved carry each serial given out so far exactly once. -/
def Held (r : Registry) : Prop :=
  ((r.payloadsIn (· ≠ .MOVED)).map (·.serial)).Perm (List.range r.serials)

theorem Held.next (h : r.Held) {closing : Option Nat} {registered collected : List Payload}
    (change : Change r closing registered collected s) : s.Held := by
  unfold Held
  rw [change.serials]
  refine (change.holds.map _).trans ?_
  rw [List.map_append]
  exact h.append_right _

/-- Of two different entries with one payload, one was moved. -/
theorem Held.moved (h : r.Held) (ownerAt : r.owners[p]? = some owner)
    (otherAt : r.owners[q]? = some other) (member : entry ∈ owner.entries)
    (twinMember : twin ∈ other.entries) (same : twin.payload = entry.payload)
    (stays : entry.state ≠ .MOVED) (distinct : p = q → twin ≠ entry) : twin.state = .MOVED := by
  by_contra notMoved
  have nodup : (r.payloadsIn (· ≠ .MOVED)).Nodup := by
    refine List.Nodup.of_map (·.serial) ?_
    exact h.nodup_iff.mpr List.nodup_range
  obtain ⟨inside, apart⟩ := List.nodup_flatMap.mp nodup
  have entryHeld : entry.payload ∈ Owner.payloadsIn (· ≠ .MOVED) owner.entries :=
    List.mem_map_of_mem (List.mem_filter.mpr ⟨member, by simp [stays]⟩)
  have twinHeld : entry.payload ∈ Owner.payloadsIn (· ≠ .MOVED) other.entries :=
    same ▸ List.mem_map_of_mem (List.mem_filter.mpr ⟨twinMember, by simp [notMoved]⟩)
  by_cases here : p = q
  · subst here
    rw [ownerAt] at otherAt
    cases otherAt
    refine distinct rfl ?_
    refine List.inj_on_of_nodup_map (inside owner (List.mem_of_getElem? ownerAt)) ?_ ?_ same
    · exact List.mem_filter.mpr ⟨twinMember, by simp [notMoved]⟩
    · exact List.mem_filter.mpr ⟨member, by simp [stays]⟩
  · obtain ⟨boundP, rfl⟩ := List.getElem?_eq_some_iff.mp ownerAt
    obtain ⟨boundQ, rfl⟩ := List.getElem?_eq_some_iff.mp otherAt
    have disjoint := List.pairwise_iff_getElem.mp apart
    obtain less | more := Nat.lt_or_gt_of_ne here
    · exact disjoint p q boundP boundQ less entryHeld twinHeld
    · exact disjoint q p boundQ boundP more twinHeld entryHeld

end Registry

end Ciel.Runtime.Resource
