import Ciel.Library.Forest
import Ciel.Runtime.Resource.Custody

/-!
# Owner close reaches every open payload

Closing an owner closes it, cuts it off from its parent, and hands its children
to a frame that will close them later. Between the two, a child may be open
below a closed parent. The invariant is that such a child is always waiting in
some frame. When no frame is left, nothing open lies below a closed owner.
-/

namespace Ciel.Runtime.Resource

open Library

variable {r s : Registry} {closing : Option Nat}

/-- The owner tree, with pointers that lead nowhere as isolated nodes. -/
def Registry.forest (r : Registry) : Forest Nat where
  parent p := (r.owners[p]?).bind (·.parent)
  children p := ((r.owners[p]?).map (·.children)).getD []

namespace Registry

variable {r : Registry} {p q : Nat} {owner : Owner}

theorem forest_parent (found : r.owners[p]? = some owner) :
    r.forest.parent p = owner.parent := by
  simp [forest, found]

theorem forest_children (found : r.owners[p]? = some owner) :
    r.forest.children p = owner.children := by
  simp [forest, found]

theorem forest_ext {F : Forest Nat} (parent : ∀ p, r.forest.parent p = F.parent p)
    (children : ∀ p, r.forest.children p = F.children p) : r.forest = F := by
  cases F
  simp only [forest, Forest.mk.injEq]
  exact ⟨funext parent, funext children⟩

/-- Updates of counters and entries leave the tree alone. -/
theorem forest_update_eq {f : Owner → Owner}
    (same : ∀ owner, (f owner).parent = owner.parent ∧ (f owner).children = owner.children) :
    (r.update p f).forest = r.forest := by
  refine forest_ext (fun x => ?_) (fun x => ?_)
  all_goals
    by_cases here : p = x
    · subst here
      cases found : r.owners[p]? <;> simp [forest, update, found, same]
    · simp [forest, update, here]

@[simp] theorem forest_markClosed : (r.update p .markClosed).forest = r.forest :=
  forest_update_eq fun _ => ⟨rfl, rfl⟩

@[simp] theorem forest_registerEntry (payload : Payload) :
    (r.update p (.registerEntry payload)).forest = r.forest :=
  forest_update_eq fun _ => ⟨rfl, rfl⟩

@[simp] theorem forest_retire (entry : Entry) (state : State) :
    (r.update p (.retire entry state)).forest = r.forest :=
  forest_update_eq fun _ => ⟨rfl, rfl⟩

@[simp] theorem forest_collected : (r.update p .collected).forest = r.forest :=
  forest_update_eq fun owner => by simp [Owner.collected_eq]

theorem forest_withParent (parent : Option Nat) (found : r.owners[p]? = some owner) :
    (r.update p (.withParent parent)).forest =
      { r.forest with parent := Function.update r.forest.parent p parent } := by
  refine forest_ext (fun x => ?_) (fun x => ?_)
  all_goals
    by_cases here : p = x
    · subst here
      simp [forest, update, found, Owner.withParent]
    · simp [forest, update, here, Ne.symm here]

theorem forest_unlink (child : Nat) :
    (r.update q (.unlink child)).forest =
      { r.forest with
        children := Function.update r.forest.children q ((r.forest.children q).erase child) } := by
  refine forest_ext (fun x => ?_) (fun x => ?_)
  all_goals
    by_cases here : q = x
    · subst here
      cases found : r.owners[q]? <;> simp [forest, update, found, Owner.unlink]
    · simp [forest, update, here, Ne.symm here]

theorem forest_link (child : Nat) (found : r.owners[q]? = some owner) :
    (r.update q (.link child)).forest =
      { r.forest with
        children := Function.update r.forest.children q (child :: r.forest.children q) } := by
  refine forest_ext (fun x => ?_) (fun x => ?_)
  all_goals
    by_cases here : q = x
    · subst here
      simp [forest, update, found, Owner.link]
    · simp [forest, update, here, Ne.symm here]

theorem forest_append (id next : Nat) (parent root : Option Nat) (limits : Limits) :
    Registry.forest { r with
        owners := r.owners ++ [.fresh id parent limits], root, nextOwnerId := next } =
      { r.forest with parent := Function.update r.forest.parent r.owners.length parent } := by
  refine forest_ext (fun x => ?_) (fun x => ?_)
  all_goals
    rcases Nat.lt_trichotomy x r.owners.length with old | rfl | beyond
    · simp [forest, List.getElem?_append_left old, Nat.ne_of_lt old]
    · simp [forest, Owner.fresh]
    · have absent := Arena.append_beyond (a := Owner.fresh id parent limits) beyond
      simp [forest, Nat.ne_of_gt beyond, Nat.le_of_lt beyond, absent]

/-- Unlinking an owner and clearing its parent pointer cut the tree. -/
theorem forest_cut (found : r.owners[p]? = some owner) :
    ((r.update q (.unlink p)).update p (.withParent none)).forest = r.forest.cut p q := by
  have : ∃ owner, (r.update q (.unlink p)).owners[p]? = some owner := by
    by_cases same : q = p
    · subst same
      exact ⟨_, Arena.modify_same found⟩
    · exact ⟨_, (Arena.modify_other same).trans found⟩
  obtain ⟨owner, found⟩ := this
  rw [forest_withParent none found, forest_unlink]
  rfl

/-- Detaching cuts an owner off and grafts it below the root. -/
theorem forest_detach {root old : Nat} {rootOwner : Owner} (found : r.owners[p]? = some owner)
    (rootAt : r.owners[root]? = some rootOwner) (oldNot : old ≠ p) (rootNot : root ≠ p)
    (notRoot : old ≠ root) :
    (((r.update old (.unlink p)).update p (.withParent (some root))).update root
      (.link p)).forest = (r.forest.cut p old).graft p root := by
  have unlinked : (r.update old (.unlink p)).owners[p]? = some owner :=
    (Arena.modify_other oldNot).trans found
  have moved : ((r.update old (.unlink p)).update p (.withParent (some root))).owners[root]? =
      some rootOwner :=
    (Arena.modify_other rootNot.symm).trans ((Arena.modify_other notRoot).trans rootAt)
  rw [forest_link _ moved, forest_withParent _ unlinked, forest_unlink]
  simp [Forest.cut, Forest.graft]

/-- The owners of a well-formed tree that an owner close touches: the closed one
is cut off from its parent, and all others keep all but one link. -/
theorem collect_spec (tree : r.forest.WellFormed) (found : r.owners[p]? = some owner) :
    let s := ((r.update p .markClosed).unlinkFromParent p owner).update p .collected
    s.forest.WellFormed ∧ s.owners[p]? = some (owner.markClosed.withParent none).collected ∧
      ∀ j other, j ≠ p → s.owners[j]? = some other →
        ∃ before, r.owners[j]? = some before ∧ (other = before ∨ other = before.unlink p) := by
  have closed : (r.update p .markClosed).owners[p]? = some owner.markClosed :=
    Arena.modify_same found
  cases parent : owner.parent with
  | none =>
    have top : owner.markClosed.withParent none = owner.markClosed := by
      simp [Owner.markClosed, Owner.withParent, parent]
    simp only [unlinkFromParent, parent, forest_collected, forest_markClosed, top]
    refine ⟨tree, Arena.modify_same closed, ?_⟩
    intro j other distinct otherAt
    refine ⟨other, ?_, .inl rfl⟩
    simpa [update, distinct.symm] using otherAt
  | some q =>
    have linked : p ∈ r.forest.children q := tree.linked.mpr (by simp [forest_parent found, parent])
    have below : q < p := tree.ordered (by rw [forest_parent found, parent])
    have test : ((r.update p .markClosed).owners[q]?).all (p ∉ ·.children) = false := by
      rw [update, Arena.modify_other (by omega)]
      cases above : r.owners[q]? with
      | none => simp [forest, above] at linked
      | some owner => simpa [forest, above] using linked
    simp only [unlinkFromParent, parent, test, Bool.false_eq_true, if_false, forest_collected]
    have unlinked : ((r.update p .markClosed).update q (.unlink p)).owners[p]? =
        some owner.markClosed := (Arena.modify_other (by omega)).trans closed
    refine ⟨?_, Arena.modify_same (Arena.modify_same unlinked), ?_⟩
    · rw [forest_cut closed, forest_markClosed]
      exact tree.cut (by rw [forest_parent found, parent])
    · intro j other distinct otherAt
      simp only [update, Arena.modify_other distinct.symm] at otherAt
      rcases Arena.modify_cases otherAt with ⟨rfl, before, beforeAt, rfl⟩ | ⟨_, beforeAt⟩
      · exact ⟨before, (Arena.modify_other distinct.symm).symm.trans beforeAt, .inr rfl⟩
      · exact ⟨other, (Arena.modify_other distinct.symm).symm.trans beforeAt, .inl rfl⟩

end Registry

/-- A closed owner is cut off and holds nothing open. -/
def Owner.Settled (owner : Owner) : Prop :=
  owner.closed = true → owner.parent = none ∧ openPayloads owner.entries = []

/-- The registry part of the invariant. The root is the first owner. -/
structure Registry.Sound (r : Registry) : Prop where
  tree : r.forest.WellFormed
  rootless : r.root = none → r.owners = []
  rooted : ∀ {root}, r.root = some root → root = 0
  settled : ∀ owner ∈ r.owners, owner.Settled

namespace Registry

variable {r : Registry} {p : Nat} {owner : Owner}

theorem length_fresh : r.flag r.owners.length = none ∧ r.forest.parent r.owners.length = none := by
  simp [flag, forest]

theorem settled_update (settled : ∀ owner ∈ r.owners, owner.Settled) {f : Owner → Owner}
    (kept : ∀ owner, r.owners[p]? = some owner → owner.Settled → (f owner).Settled) :
    ∀ owner ∈ (r.update p f).owners, owner.Settled :=
  Arena.forall_modify settled fun owner found =>
    kept owner found (settled owner (List.mem_of_getElem? found))

/-- An owner that is open may change in any way that does not close it. -/
theorem settled_update_open (settled : ∀ owner ∈ r.owners, owner.Settled) {f : Owner → Owner}
    (found : r.owners[p]? = some owner) (isOpen : (f owner).closed = false) :
    ∀ owner ∈ (r.update p f).owners, owner.Settled := by
  refine settled_update settled fun other otherAt _ => ?_
  obtain rfl := Option.some.inj (found.symm.trans otherAt)
  simp [Owner.Settled, isOpen]

theorem settled_append (settled : ∀ owner ∈ r.owners, owner.Settled) (id : Nat)
    (parent : Option Nat) (limits : Limits) :
    ∀ owner ∈ r.owners ++ [.fresh id parent limits], owner.Settled := by
  intro owner member
  rcases List.mem_append.mp member with old | new
  · exact settled owner old
  · cases List.mem_singleton.mp new
    exact nofun

end Registry

section

variable {registered collected : List Payload}

/-- Each change keeps the tree, the place of the root, and closed owners settled. -/
theorem Change.sound
    (change : Change r closing registered collected s) (h : r.Sound) : s.Sound := by
  obtain ⟨tree, rootless, rooted, settled⟩ := h
  cases change with
  | counter next => exact ⟨tree, rootless, rooted, settled⟩
  | root id next noRoot =>
    refine ⟨?_, nofun, ?_, Registry.settled_append settled id none _⟩
    · rw [Registry.forest_append, ← (Registry.length_fresh (r := r)).2, Function.update_eq_self]
      exact tree
    · rintro _ ⟨⟩
      simp [rootless noRoot]
  | child id next p above limits found notClosed room =>
    refine ⟨?_, ?_, rooted, ?_⟩
    · rw [Registry.forest_link _ (Arena.append_old found), Registry.forest_append]
      exact tree.graft Registry.length_fresh.2 (List.getElem?_eq_some_iff.mp found).1
    · intro noRoot
      simp [rootless noRoot] at found
    · exact Registry.settled_update (Registry.settled_append settled id (some p) limits)
        fun _ _ owner => owner
  | detach p root old owner rootOwner oldOwner rootAt notRoot ownerAt rootOwnerAt oldAt parentAt
      member ownerOpen rootOpen room =>
      have attached : r.forest.parent p = some old := by
        rw [Registry.forest_parent ownerAt, parentAt]
      have below : old < p := tree.ordered attached
      have first : root = 0 := rooted rootAt
      have unlinked : (r.update old (.unlink p)).owners[p]? = some owner :=
        (Arena.modify_other (by omega)).trans ownerAt
      refine ⟨?_, by simp [Registry.update, rootAt], rooted, ?_⟩
      · rw [Registry.forest_detach ownerAt rootOwnerAt (by omega) (by omega) notRoot]
        exact (tree.cut attached).graft (by simp [Forest.cut]) (by omega)
      · have afterUnlink : ∀ other ∈ (r.update old (.unlink p)).owners, other.Settled :=
          Registry.settled_update settled fun _ _ kept => kept
        refine Registry.settled_update ?_ fun _ _ kept => kept
        exact Registry.settled_update_open afterUnlink unlinked ownerOpen
  | register p owner payload found room serial =>
    have same : r.forest = (r.update p (.registerEntry payload)).forest := by simp
    refine ⟨same ▸ tree, ?_, rooted, ?_⟩
    · intro noRoot
      simp [rootless noRoot] at found
    · exact Registry.settled_update_open settled found (Owner.hasCapacity_ok room).1
  | close p owner entry found notClosed entryAt isOpen =>
    refine ⟨by rwa [Registry.forest_retire], ?_, rooted, ?_⟩
    · intro noRoot
      simp [rootless noRoot] at found
    · exact Registry.settled_update_open settled found notClosed
  | move p q source target entry distinct sourceAt targetAt notClosed entryAt isOpen room =>
    refine ⟨by rwa [Registry.forest_retire, Registry.forest_registerEntry], ?_, rooted, ?_⟩
    · intro noRoot
      simp [rootless noRoot] at sourceAt
    · refine Registry.settled_update_open ?_ ((Arena.modify_other distinct.symm).trans sourceAt)
        notClosed
      exact Registry.settled_update_open settled targetAt (Owner.hasCapacity_ok room).1
  | collect p owner found notClosed =>
    obtain ⟨tree', closedAt, others⟩ := Registry.collect_spec tree found
    refine ⟨tree', ?_, fun rootAt => rooted (by simpa [Registry.update] using rootAt), ?_⟩
    · intro noRoot
      simp [rootless (by simpa [Registry.update] using noRoot)] at found
    · intro other member
      obtain ⟨j, otherAt⟩ := List.mem_iff_getElem?.mp member
      by_cases here : j = p
      · subst here
        rw [closedAt] at otherAt
        cases otherAt
        intro _
        exact ⟨by simp [Owner.collected_eq, Owner.withParent], Owner.openPayloads_collected _⟩
      · obtain ⟨before, beforeAt, same | unlinked⟩ := others j other here otherAt
        · exact same ▸ settled before (List.mem_of_getElem? beforeAt)
        · exact unlinked ▸ settled before (List.mem_of_getElem? beforeAt)

/-- An open owner whose parent is closed. -/
def Registry.Orphan (r : Registry) (p : Nat) : Prop :=
  r.OpenAt p ∧ ∃ q, r.forest.parent p = some q ∧ r.flag q = some true

variable (change : Change r closing registered collected s)

include change

/-- A change touches the flag of at most one owner: the one it allocates or the
one it closes. -/
theorem Change.flag_cases :
    s.flag = r.flag ∨ s.flag = Function.update r.flag r.owners.length (some false) ∨
      ∃ p, closing = some p ∧ s.flag = Function.update r.flag p (some true) := by
  cases change with
  | counter next => exact .inl rfl
  | root id next noRoot => exact .inr (.inl (Registry.flag_append ..))
  | child id next p above limits found notClosed room =>
    exact .inr (.inl (Registry.flag_link _ |>.trans (Registry.flag_append ..)))
  | detach p root old => exact .inl (by simp)
  | register p owner payload found room serial => exact .inl (Registry.flag_registerEntry payload)
  | close p owner entry => exact .inl (by simp)
  | move p q source target entry => exact .inl (by simp)
  | collect p owner found notClosed =>
    exact .inr (.inr ⟨p, rfl, by simp [Registry.flag_markClosed found]⟩)

/-- A closed owner was closed before, or is closed by this change. -/
theorem Change.closed_before {q : Nat} (closed : s.flag q = some true) :
    r.flag q = some true ∨ closing = some q := by
  rcases change.flag_cases with same | same | ⟨p, closing, same⟩
  · exact .inl (same ▸ closed)
  · by_cases fresh : q = r.owners.length
    · simp [same, fresh] at closed
    · exact .inl (by simpa [same, fresh] using closed)
  · by_cases here : q = p
    · exact .inr (by rw [closing, here])
    · exact .inl (by simpa [same, here] using closed)

/-- A closed owner stays closed. -/
theorem Change.stays_closed {q : Nat} (closed : r.flag q = some true) : s.flag q = some true := by
  rcases change.flag_cases with same | same | ⟨p, -, same⟩
  · exact same ▸ closed
  · have old : q ≠ r.owners.length := by
      rintro rfl
      simp [Registry.length_fresh.1] at closed
    simpa [same, old] using closed
  · by_cases here : q = p
    · simp [same, here]
    · simpa [same, here] using closed

/-- A parent was the parent before, or is open: no owner is put below a closed one. -/
theorem Change.parent_before (h : r.Sound) {c q : Nat} (parent : s.forest.parent c = some q) :
    r.forest.parent c = some q ∨ s.OpenAt q := by
  cases change with
  | counter next => exact .inl parent
  | root id next noRoot =>
    rw [Registry.forest_append, ← (Registry.length_fresh (r := r)).2,
      Function.update_eq_self] at parent
    exact .inl parent
  | child id next p above limits found notClosed room =>
    rw [Registry.forest_link _ (Arena.append_old found), Registry.forest_append] at parent
    by_cases fresh : c = r.owners.length
    · have : p = q := by simpa [fresh] using parent
      subst this
      have old : p ≠ r.owners.length := Nat.ne_of_lt (List.getElem?_eq_some_iff.mp found).1
      refine .inr ?_
      rw [Registry.OpenAt, Registry.flag_link, Registry.flag_append]
      simpa [old, Registry.flag, found] using notClosed
    · exact .inl (by simpa [fresh] using parent)
  | detach p root old owner rootOwner oldOwner rootAt notRoot ownerAt rootOwnerAt oldAt parentAt
      member ownerOpen rootOpen room =>
      have below : old < p := h.tree.ordered (by rw [Registry.forest_parent ownerAt, parentAt])
      have first : root = 0 := h.rooted rootAt
      rw [Registry.forest_detach ownerAt rootOwnerAt (by omega) (by omega) notRoot] at parent
      by_cases here : c = p
      · have : root = q := by simpa [here, Forest.graft] using parent
        subst this
        refine .inr ?_
        rw [Registry.OpenAt, Registry.flag_link, Registry.flag_withParent, Registry.flag_unlink]
        simpa [Registry.flag, rootOwnerAt] using rootOpen
      · exact .inl (by simpa [here, Forest.graft, Forest.cut] using parent)
  | register p owner payload found room serial =>
    have same :
        Registry.forest { r.update p (.registerEntry payload) with serials := r.serials + 1 } =
      (r.update p (.registerEntry payload)).forest := rfl
    exact .inl (by simpa [same] using parent)
  | close p owner entry | move p q' source target entry => exact .inl (by simpa using parent)
  | collect p owner found notClosed =>
    obtain ⟨-, closedAt, others⟩ := Registry.collect_spec h.tree found
    by_cases here : c = p
    · subst here
      rw [Registry.forest_parent closedAt] at parent
      simp [Owner.collected_eq, Owner.withParent] at parent
    · obtain ⟨other, otherAt, above⟩ := Option.bind_eq_some_iff.mp parent
      obtain ⟨before, beforeAt, same | unlinked⟩ := others c other here otherAt
      · exact .inl (by rw [Registry.forest_parent beforeAt, ← same, above])
      · refine .inl ?_
        rw [Registry.forest_parent beforeAt, ← above, unlinked]
        rfl

/-- Orphans do not appear from nowhere: an owner that becomes one has its parent
closed by this very change, and is among the children left to close. -/
theorem Change.orphan_before (h : r.Sound) {c : Nat} (orphan : s.Orphan c) :
    r.Orphan c ∨ ∃ p, closing = some p ∧ c ∈ s.openChildren p := by
  obtain ⟨isOpen, q, parent, closed⟩ := orphan
  rcases change.closed_before closed with before | now
  · rcases change.parent_before h parent with same | open_q
    · refine .inl ⟨?_, q, same, before⟩
      obtain ⟨child, childAt, -⟩ := Option.bind_eq_some_iff.mp same
      cases wasClosed : child.closed with
      | false => simp [Registry.OpenAt, Registry.flag, childAt, wasClosed]
      | true =>
        have stays := change.stays_closed (q := c) (by simp [Registry.flag, childAt, wasClosed])
        rw [isOpen] at stays
        cases stays
    · rw [open_q] at closed
      cases closed
  · refine .inr ⟨q, now, ?_⟩
    have linked := (change.sound h).tree.linked.mpr parent
    obtain ⟨child, childAt, childOpen⟩ := Option.map_eq_some_iff.mp isOpen
    simp only [Registry.openChildren]
    cases above : s.owners[q]? with
    | none => simp [Registry.forest, above] at linked
    | some owner =>
      rw [Registry.forest_children above] at linked
      exact List.mem_filter.mpr ⟨linked, by simp [childAt, childOpen]⟩

end


/-- The invariant of the machine: whatever is open below a closed owner is
still to be visited by some owner close in progress. -/
structure World.Sound {Thread : Type} (w : World Thread) : Prop where
  registry : w.registry.Sound
  orphans : ∀ {p}, w.registry.Orphan p → w.Pending p

section Runs

variable {Thread : Type} [DecidableEq Thread] {w t : World Thread}
variable {history : List (Op Thread × Answer)}

omit [DecidableEq Thread] in
theorem World.initial_sound : (World.initial : World Thread).Sound where
  registry :=
    { tree := ⟨by simp [initial, Registry.forest], by simp [initial, Registry.forest],
        by simp [initial, Registry.forest]⟩
      rootless := fun _ => rfl
      rooted := nofun
      settled := nofun }
  orphans := by
    rintro p ⟨isOpen, -⟩
    simp [Registry.OpenAt, Registry.flag, initial] at isOpen

theorem World.Sound.next {op : Op Thread} {answer : Answer} (h : w.Sound)
    (taken : w.step op = some (t, answer)) : t.Sound := by
  obtain ⟨closing, change, followed⟩ := step_change taken
  refine ⟨change.sound h.registry, ?_⟩
  intro p orphan
  rcases change.orphan_before h.registry orphan with before | ⟨q, closed, child⟩
  · exact followed.kept (h.orphans before) orphan.1
  · exact followed.handed closed p child

theorem run_sound (run : (machine Thread).Run World.initial history t) : t.Sound :=
  run.preserves World.initial_sound World.Sound.next

theorem run_inCustody (run : (machine Thread).Run World.initial history t) :
    InCustody history t.registry := by
  refine run.preserves_history (R := fun history w => InCustody history w.registry) ?_ ?_
  · exact ⟨by simp [World.initial, Registry.opens, collected, registered], rfl⟩
  · intro history w op answer u custody taken
    exact custody.next taken

end Runs

/-- The owner behind the pointer has an open entry with this payload. -/
def Registry.HoldsOpen (r : Registry) (p : Nat) (payload : Payload) : Prop :=
  ∃ owner, r.owners[p]? = some owner ∧ payload ∈ Owner.openPayloads owner.entries

theorem Registry.mem_opens {payload : Payload} :
    payload ∈ r.opens ↔ ∃ p, r.HoldsOpen p payload := by
  rw [opens, List.mem_flatMap]
  constructor
  · rintro ⟨owner, member, held⟩
    obtain ⟨p, found⟩ := List.mem_iff_getElem?.mp member
    exact ⟨p, owner, found, held⟩
  · rintro ⟨p, owner, found, held⟩
    exact ⟨owner, List.mem_of_getElem? found, held⟩

/-- Without duplicates among the open payloads, only one owner can hold one. -/
theorem Registry.holder_unique (nodup : r.opens.Nodup) {p q : Nat} {payload : Payload}
    (atP : r.HoldsOpen p payload) (atQ : r.HoldsOpen q payload) : p = q := by
  obtain ⟨ownerP, foundP, heldP⟩ := atP
  obtain ⟨ownerQ, foundQ, heldQ⟩ := atQ
  obtain ⟨boundP, rfl⟩ := List.getElem?_eq_some_iff.mp foundP
  obtain ⟨boundQ, rfl⟩ := List.getElem?_eq_some_iff.mp foundQ
  have disjoint := List.pairwise_iff_getElem.mp (List.nodup_flatMap.mp nodup).2
  rcases Nat.lt_trichotomy p q with less | same | more
  · exact absurd heldQ (disjoint p q boundP boundQ less heldP)
  · exact same
  · exact absurd heldP (disjoint q p boundQ boundP more heldQ)

/-- When no owner close is in progress, an open owner has only open owners above. -/
theorem World.Sound.open_above {Thread : Type} {w : World Thread} (h : w.Sound)
    (idle : ∀ thread, w.frames thread = []) {p q : Nat} (isOpen : w.registry.OpenAt p)
    (above : w.registry.forest.AtOrAbove p q) : w.registry.OpenAt q := by
  refine above.induction isOpen ?_
  intro child parent childOpen link
  have linked := h.registry.tree.linked.mpr link
  cases found : w.registry.owners[parent]? with
  | none => simp [Registry.forest, found] at linked
  | some owner =>
    cases closed : owner.closed with
    | false => simp [Registry.OpenAt, Registry.flag, found, closed]
    | true =>
      have orphan : w.registry.Orphan child :=
        ⟨childOpen, parent, link, by simp [Registry.flag, found, closed]⟩
      obtain ⟨thread, frame, member, -⟩ := h.orphans orphan
      simp [idle thread] at member

/-- Over every interleaving, a registered payload is open under exactly one
owner or its close action has been collected exactly once. When no owner close
is in progress, no open payload lies at or below a closed owner. A collected
payload is never again what a handle resolves to as open. -/
theorem run_closes_exactly_once {Thread : Type} [DecidableEq Thread] {t : World Thread}
    {history : List (Op Thread × Answer)}
    (run : (machine Thread).Run World.initial history t) :
    (∀ payload ∈ registered history,
      ((∃! p, t.registry.HoldsOpen p payload) ∧ t.registry.opens.count payload = 1 ∧
          (collected history).count payload = 0) ∨
        ((∀ p, ¬ t.registry.HoldsOpen p payload) ∧ (collected history).count payload = 1)) ∧
      ((∀ thread, t.frames thread = []) → ∀ p payload, t.registry.HoldsOpen p payload →
        ∀ q, t.registry.forest.AtOrAbove p q → t.registry.OpenAt q) ∧
      (∀ (p : Nat) (owner : Owner) (handle : Handle) (expected : Option Kind) (entry : Entry),
        t.registry.owners[p]? = some owner → owner.resolveEntry handle expected = .ok entry →
        entry.state = .OPEN → entry.payload ∉ collected history) := by
  have custody := run_inCustody run
  have sound := run_sound run
  obtain ⟨opensNodup, collectedNodup, apart⟩ := List.nodup_append.mp custody.nodup
  refine ⟨?_, ?_, ?_⟩
  · intro payload member
    rcases List.mem_append.mp (custody.conserved.mem_iff.mpr member) with held | gone
    · have absent : payload ∉ collected history := fun gone => apart _ held _ gone rfl
      obtain ⟨p, atP⟩ := Registry.mem_opens.mp held
      refine .inl ⟨⟨p, atP, fun q atQ => Registry.holder_unique opensNodup atQ atP⟩, ?_, ?_⟩
      · exact List.count_eq_one_of_mem opensNodup held
      · exact List.count_eq_zero.mpr absent
    · refine .inr ⟨?_, List.count_eq_one_of_mem collectedNodup gone⟩
      intro p atP
      exact apart _ (Registry.mem_opens.mpr ⟨p, atP⟩) _ gone rfl
  · intro idle p payload ⟨owner, found, held⟩ q above
    refine sound.open_above idle ?_ above
    cases closed : owner.closed with
    | false => simp [Registry.OpenAt, Registry.flag, found, closed]
    | true =>
      rw [(sound.registry.settled owner (List.mem_of_getElem? found) closed).2] at held
      cases held
  · intro p owner handle expected entry found resolved isOpen gone
    obtain ⟨-, entryAt, -⟩ := Owner.resolveEntry_ok resolved
    have held : entry.payload ∈ Owner.openPayloads owner.entries := by
      refine List.mem_map.mpr ⟨entry, List.mem_filter.mpr ⟨?_, by simp [isOpen]⟩, rfl⟩
      exact List.mem_of_find?_eq_some entryAt
    exact apart _ (Registry.mem_opens.mpr ⟨p, owner, found, held⟩) _ gone rfl

/-- A child owner with one descriptor and one native payload, of which the first
is transferred to the root before the child is closed. -/
def transferSchedule : List (Op Unit) :=
  [.runtimeInit, .newChild 0 defaultLimits, .register 1 (.fd .FILE 3 false),
    .register 1 (.native 8 16 24), .transferToParent ⟨2, 1, 1⟩, .ownerClose () 1,
    .applyCloseAction () .OK, .finishClose ()]

theorem run_closes_exactly_once_transfer :
    ∃ (t : World Unit) (history : List (Op Unit × Answer)),
      (machine Unit).Run World.initial history t ∧ history.map (·.1) = transferSchedule ∧
      (collected history).map (·.serial) = [1] ∧
      ∀ payload ∈ registered history,
        ((∃! p, t.registry.HoldsOpen p payload) ∧ t.registry.opens.count payload = 1 ∧
            (collected history).count payload = 0) ∨
          ((∀ p, ¬ t.registry.HoldsOpen p payload) ∧
            (collected history).count payload = 1) := by
  have executed : ∃ t history, (machine Unit).exec World.initial transferSchedule =
      some (t, history) ∧ history.map (·.1) = transferSchedule ∧
      (collected history).map (·.serial) = [1] := ⟨_, _, rfl, rfl, rfl⟩
  obtain ⟨t, history, executed, labels, serials⟩ := executed
  have run := Machine.run_of_exec executed
  exact ⟨t, history, run, labels, serials, (run_closes_exactly_once run).1⟩

end Ciel.Runtime.Resource
