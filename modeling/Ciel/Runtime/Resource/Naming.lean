import Ciel.Runtime.Resource.Closing

/-!
# What a handle names

A handle carries the number of an owner, and owners are looked up by number. Owner
numbers come from a counter that wraps at `2 ^ 64`. As long as no owner is
allocated after the counter has been used up, numbers are distinct, and the search
from the root finds exactly the owner below it that has the number.

`ciel_resource_find_owner_locked` and `ciel_resource_owner_is_ancestor_locked` are
the two ways in which an operation gets from a handle to an owner.
-/

namespace Ciel.Runtime.Resource

open Library

/-! ## Owner numbers -/

/-- The step does not allocate an owner with the counter at its last value, where
`ciel_resource_alloc_owner_id` wraps. -/
def counted {Thread : Type} (w : World Thread) : Op Thread → Bool
  | .newChild .. => w.registry.nextOwnerId ≠ uint64Max
  | .runtimeInit => w.registry.root.isSome || w.registry.nextOwnerId ≠ uint64Max
  | _ => true

namespace Registry

/-- The numbers of all owners. -/
def numbers (r : Registry) : List Nat := r.owners.map (·.id)

structure Numbered (r : Registry) : Prop where
  distinct : r.numbers.Nodup
  used : ∀ id ∈ r.numbers, 0 < id ∧ id < r.nextOwnerId
  left : 0 < r.nextOwnerId ∧ r.nextOwnerId ≤ uint64Max

/-- No owner was allocated and none renamed. -/
def SameNumbers (r s : Registry) : Prop := s.numbers = r.numbers ∧ s.nextOwnerId = r.nextOwnerId

variable {r s t : Registry} {p : Nat} {owner : Owner}

theorem SameNumbers.refl (r : Registry) : SameNumbers r r := ⟨rfl, rfl⟩

theorem SameNumbers.update (h : SameNumbers r s) {f : Owner → Owner}
    (same : ∀ owner, (f owner).id = owner.id) : SameNumbers r (s.update p f) :=
  ⟨(Arena.map_modify_eq fun owner _ => same owner).trans h.1, h.2⟩

theorem SameNumbers.unlinkFromParent (h : SameNumbers r s) :
    SameNumbers r (s.unlinkFromParent p owner) := by
  obtain same | ⟨q, -, same⟩ := s.unlinkFromParent_cases p owner <;> rw [same]
  · exact h
  · exact (h.update fun _ => by rfl).update fun _ => by rfl

theorem closeEntry_id (owner : Owner) (handle : Handle) :
    (owner.closeEntry handle).2.1.id = owner.id := by
  obtain ⟨rc, kept⟩ | ⟨entry, -, closed⟩ := owner.closeEntry_cases handle
  · rw [kept]
  · rw [closed]
    rfl

theorem close_numbers (r : Registry) (p : Nat) (handle : Handle) (cancelled : Code) :
    SameNumbers r (r.close p handle cancelled).1 := by
  unfold close
  split
  · exact .refl r
  · split
    · exact .refl r
    · rename_i owner found
      refine ⟨Arena.map_modify_eq fun other otherAt => ?_, rfl⟩
      rw [found] at otherAt
      cases otherAt
      exact closeEntry_id owner handle

theorem collectOwnerClose_numbers (r : Registry) (p : Nat) :
    SameNumbers r (r.collectOwnerClose p).1 := by
  unfold collectOwnerClose
  repeat' split
  all_goals first
    | exact .refl r
    | exact (((SameNumbers.refl r).update fun _ => by rfl).unlinkFromParent).update fun owner => by
        rw [Owner.collected_eq]

/-- The numbers after an allocation, while the counter is not used up. -/
theorem allocOwnerId_counted (h : r.Numbered) (room : r.nextOwnerId ≠ uint64Max) :
    r.allocOwnerId = (r.nextOwnerId, { r with nextOwnerId := r.nextOwnerId + 1 }) := by
  have bound := h.left.2
  have next : (r.nextOwnerId + 1) % 2 ^ 64 = r.nextOwnerId + 1 := by
    refine Nat.mod_eq_of_lt ?_
    simp only [uint64Max] at bound room
    omega
  simp only [allocOwnerId, Nat.ne_of_gt h.left.1, if_false, next]

/-- At most one owner is added, with the counter as its number. -/
def Grown (r s : Registry) : Prop :=
  s.nextOwnerId = r.nextOwnerId + 1 ∧ r.nextOwnerId ≠ uint64Max ∧
    (s.numbers = r.numbers ∨ s.numbers = r.numbers ++ [r.nextOwnerId])

theorem ownerAlloc_grown (h : r.Numbered) (room : r.nextOwnerId ≠ uint64Max)
    (parent : Option Nat) (limits : Limits) :
    Grown r (r.ownerAlloc parent limits).2.2 := by
  have appended : numbers { r with
      owners := r.owners ++ [.fresh r.nextOwnerId parent limits]
      nextOwnerId := r.nextOwnerId + 1 } = r.numbers ++ [r.nextOwnerId] := by
    simp [numbers, Owner.fresh]
  simp only [ownerAlloc, allocOwnerId_counted h room, if_neg room]
  repeat' split
  · exact ⟨rfl, room, .inr appended⟩
  any_goals exact ⟨rfl, room, .inl rfl⟩
  exact ⟨rfl, room, .inr ((Arena.map_modify_eq fun _ _ => by rfl).trans appended)⟩

theorem Numbered.same (h : r.Numbered) (same : SameNumbers r s) : s.Numbered := by
  obtain ⟨numbers, next⟩ := same
  exact ⟨numbers ▸ h.distinct, by rw [numbers, next]; exact h.used, by rw [next]; exact h.left⟩

theorem Numbered.grown (h : r.Numbered) (grown : Grown r s) : s.Numbered := by
  obtain ⟨next, room, numbers⟩ := grown
  have left := h.left
  have old (id : Nat) (inside : id ∈ r.numbers) := h.used id inside
  refine ⟨?_, fun id member => ?_, by omega⟩
  · obtain same | appended := numbers
    · exact same ▸ h.distinct
    · rw [appended, List.nodup_append]
      refine ⟨h.distinct, List.nodup_singleton _, fun id inside other new => ?_⟩
      rw [List.mem_singleton.mp new]
      exact Nat.ne_of_lt (old id inside).2
  · have either : id ∈ r.numbers ∨ id = r.nextOwnerId := by
      obtain same | appended := numbers
      · exact .inl (same ▸ member)
      · simpa [appended] using member
    obtain inside | rfl := either
    · have := old id inside
      omega
    · omega

end Registry

/-- A counted step allocates at most one owner, with the counter as its number. -/
theorem step_numbers {Thread : Type} [DecidableEq Thread] {w t : World Thread} {op : Op Thread}
    {answer : Answer} (h : w.registry.Numbered) (allowed : counted w op = true)
    (taken : w.step op = some (t, answer)) :
    w.registry.SameNumbers t.registry ∨ w.registry.Grown t.registry := by
  cases op with
  | runtimeInit =>
    cases taken
    simp only [counted, Bool.or_eq_true, decide_eq_true_eq] at allowed
    unfold Registry.init
    split
    · exact .inl (.refl _)
    · rename_i noRoot
      have room := allowed.resolve_left (by simp [noRoot])
      exact .inr (Registry.ownerAlloc_grown h room none defaultLimits)
  | newChild parent limits =>
    cases taken
    have room : w.registry.nextOwnerId ≠ uint64Max := by simpa [counted] using allowed
    exact .inr (Registry.ownerAlloc_grown h room (some parent) limits)
  | detach | register | transferToParent | transferToCurrent | reattachToParent =>
    simp only [World.step, Option.some.injEq, Prod.mk.injEq] at taken
    obtain ⟨rfl, -⟩ := taken
    simp only [Registry.detach, Registry.register, Registry.transferToParent,
      Registry.transferToCurrent, Registry.reattachToParent, Registry.transferToOwner]
    refine .inl ?_
    -- every way through them updates owners, and the numbers stay
    repeat' split
    all_goals
      repeat refine Registry.SameNumbers.update ?_ fun _ => by rfl
      exact .refl _
  | close owner handle cancelled =>
    cases taken
    exact .inl (w.registry.close_numbers owner handle cancelled)
  | ownerClose thread owner =>
    cases taken
    exact .inl (w.registry.collectOwnerClose_numbers owner)
  | applyCloseAction thread rc =>
    simp only [World.step] at taken
    split at taken
    · cases taken
      exact .inl (.refl _)
    · cases taken
  | closeChild thread =>
    simp only [World.step] at taken
    split at taken
    · cases taken
      exact .inl (w.registry.collectOwnerClose_numbers _)
    · cases taken
  | finishClose thread =>
    simp only [World.step] at taken
    split at taken
    · cases taken
      unfold World.endClose
      split <;> exact .inl (.refl _)
    · cases taken

/-! ## The search from the root -/

namespace Registry

variable {r : Registry} {p q id depth : Nat} {owner : Owner}

/-- What the search returns has the number and lies below the start. -/
theorem findOwner_sound (tree : r.forest.WellFormed) (found : r.findOwner id depth p = some q) :
    (∃ owner, r.owners[q]? = some owner ∧ owner.id = id) ∧ r.forest.AtOrAbove q p := by
  induction depth generalizing p with
  | zero => cases found
  | succ depth ih =>
    rw [findOwner] at found
    split at found
    · cases found
    · rename_i owner ownerAt
      split at found
      · rename_i named
        cases found
        exact ⟨⟨owner, ownerAt, named⟩, .refl⟩
      · obtain ⟨child, member, below⟩ := List.exists_of_findSome?_eq_some found
        obtain ⟨named, above⟩ := ih below
        have link := tree.linked.mp (forest_children ownerAt ▸ member)
        exact ⟨named, above.tail link⟩

/-- The search misses no number that some owner below the start has. -/
theorem findOwner_complete (tree : r.forest.WellFormed) (ownerAt : r.owners[q]? = some owner)
    (above : r.forest.AtOrAbove q p) (enough : r.owners.length ≤ p + depth) :
    (r.findOwner owner.id depth p).isSome := by
  induction above generalizing depth with
  | refl =>
    have bound := (List.getElem?_eq_some_iff.mp ownerAt).1
    obtain ⟨depth, rfl⟩ : ∃ d, depth = d + 1 := ⟨depth - 1, by omega⟩
    simp [findOwner, ownerAt]
  | @tail child p _ link ih =>
    have less := tree.ordered link
    have linked := tree.linked.mpr link
    cases parentAt : r.owners[p]? with
    | none => simp [forest, parentAt] at linked
    | some parent =>
      have bound := (List.getElem?_eq_some_iff.mp parentAt).1
      obtain ⟨depth, rfl⟩ : ∃ d, depth = d + 1 := ⟨depth - 1, by omega⟩
      rw [findOwner]
      simp only [parentAt]
      split
      · rfl
      · refine List.findSome?_isSome_iff.mpr ⟨child, ?_, ih (by omega)⟩
        exact forest_children parentAt ▸ linked

theorem Numbered.unique (h : r.Numbered) {other : Owner} (atP : r.owners[p]? = some owner)
    (atQ : r.owners[q]? = some other) (same : owner.id = other.id) : p = q := by
  have first : r.numbers[p]? = some owner.id := by simp [numbers, atP]
  have second : r.numbers[q]? = some owner.id := by simp [numbers, atQ, same]
  obtain ⟨bound, -⟩ := List.getElem?_eq_some_iff.mp first
  exact (List.getElem?_inj bound h.distinct).mp (first.trans second.symm)

/-- The owner lies below the root, where every lookup starts. -/
def Reachable (r : Registry) (p : Nat) : Prop :=
  ∃ root, r.root = some root ∧ r.forest.AtOrAbove p root

theorem findOwnerFromRoot_sound (tree : r.forest.WellFormed)
    (found : r.findOwnerFromRoot id = some p) :
    (∃ owner, r.owners[p]? = some owner ∧ owner.id = id) ∧ r.Reachable p := by
  obtain ⟨root, rootAt, found⟩ := Option.bind_eq_some_iff.mp found
  obtain ⟨named, above⟩ := findOwner_sound tree found
  exact ⟨named, root, rootAt, above⟩

/-- With distinct numbers, the search finds exactly the owner asked for. -/
theorem findOwnerFromRoot_of_reachable (tree : r.forest.WellFormed) (h : r.Numbered)
    (ownerAt : r.owners[p]? = some owner) (reachable : r.Reachable p) :
    r.findOwnerFromRoot owner.id = some p := by
  obtain ⟨root, rootAt, above⟩ := reachable
  have finds : (r.findOwner owner.id r.owners.length root).isSome :=
    findOwner_complete tree ownerAt above (by omega)
  obtain ⟨q, found⟩ := Option.isSome_iff_exists.mp finds
  obtain ⟨⟨other, otherAt, named⟩, -⟩ := findOwner_sound tree found
  rw [findOwnerFromRoot, rootAt, Option.bind_some, found,
    h.unique otherAt ownerAt named]

/-- A parent of a reachable owner is reachable: the root has no parent. -/
theorem Reachable.parent (h : r.Sound) (reachable : r.Reachable p)
    (link : r.forest.parent p = some q) : r.Reachable q := by
  obtain ⟨root, rootAt, above⟩ := reachable
  refine ⟨root, rootAt, ?_⟩
  cases above using Relation.ReflTransGen.head_induction_on with
  | refl =>
    have less := h.tree.ordered link
    have first := h.rooted rootAt
    omega
  | head step rest =>
    rw [link] at step
    cases step
    exact rest

theorem isAncestor_sound {cursor : Option Nat} (found : r.isAncestor q depth cursor = true) :
    ∃ p, cursor = some p ∧ r.forest.AtOrAbove p q := by
  induction depth generalizing cursor with
  | zero => cases found
  | succ depth ih =>
    cases cursor with
    | none => cases found
    | some p =>
      refine ⟨p, rfl, ?_⟩
      simp only [isAncestor, decide_eq_true_eq] at found
      obtain rfl | above := found
      · exact .refl
      · obtain ⟨parent, link, rest⟩ := ih above
        exact .head link rest

/-- Parents come before their children in the arena, so that the walk is deep enough. -/
theorem isAncestor_complete (tree : r.forest.WellFormed) (enough : p < depth)
    (above : r.forest.AtOrAbove p q) : r.isAncestor q depth (some p) = true := by
  induction depth generalizing p with
  | zero => omega
  | succ depth ih =>
    simp only [isAncestor, decide_eq_true_eq]
    obtain rfl | ⟨parent, link, rest⟩ := Relation.ReflTransGen.cases_head above
    · exact .inl rfl
    · have less := tree.ordered link
      rw [show (r.owners[p]?).bind (·.parent) = some parent from link]
      exact .inr (ih (by omega) rest)

end Registry

/-! ## Entry numbers -/

/-- Entry numbers start at one, so that no entry has the number a null handle has. -/
def Registry.Started (r : Registry) : Prop := ∀ owner ∈ r.owners, 0 < owner.nextResourceId

namespace Registry.Started

variable {r : Registry} {p : Nat}

theorem update (h : r.Started) {f : Owner → Owner}
    (more : ∀ owner, owner.nextResourceId ≤ (f owner).nextResourceId) : (r.update p f).Started :=
  Arena.forall_modify h fun owner found =>
    Nat.lt_of_lt_of_le (h owner (List.mem_of_getElem? found)) (more owner)

theorem append (h : r.Started) (id next : Nat) (parent root : Option Nat) (limits : Limits) :
    Registry.Started { r with
      owners := r.owners ++ [.fresh id parent limits], root, nextOwnerId := next } := by
  intro owner member
  obtain old | new := List.mem_append.mp member
  · exact h owner old
  · cases List.mem_singleton.mp new
    exact Nat.one_pos

theorem unlinkFromParent (h : r.Started) (owner : Owner) :
    (r.unlinkFromParent p owner).Started := by
  obtain same | ⟨q, -, same⟩ := r.unlinkFromParent_cases p owner <;> rw [same]
  · exact h
  · exact (h.update fun _ => by exact Nat.le_refl _).update fun _ => by exact Nat.le_refl _

end Registry.Started

theorem Change.started {r s : Registry} {closing : Option Nat}
    {registered collected : List Payload} (change : Change r closing registered collected s)
    (h : r.Started) : s.Started := by
  cases change with
  | counter next => exact h
  | root id next noRoot => exact h.append id next none _ defaultLimits
  | child id next p above limits found notClosed room =>
    exact (h.append id next (some p) r.root limits).update fun _ => by exact Nat.le_refl _
  | detach p root old =>
    exact ((h.update fun _ => by exact Nat.le_refl _).update fun _ => by
      exact Nat.le_refl _).update fun _ => by exact Nat.le_refl _
  | register p owner payload found room serial => exact h.update fun _ => Nat.le_succ _
  | close p owner entry => exact h.update fun _ => by exact Nat.le_refl _
  | move p q source target entry =>
    exact (h.update fun _ => by exact Nat.le_succ _).update fun _ => by exact Nat.le_refl _
  | collect p owner found notClosed =>
    have marked : (r.update p .markClosed).Started := h.update fun _ => by exact Nat.le_refl _
    refine (marked.unlinkFromParent owner).update fun other => ?_
    rw [Owner.collected_eq]

namespace Owner

variable {owner : Owner} {handle : Handle} {expected : Option Kind} {entry : Entry}

/-- A handle that resolves carries the numbers of the owner and of the entry. -/
theorem resolveEntry_names (resolved : owner.resolveEntry handle expected = .ok entry) :
    handle = ⟨owner.id, entry.id, entry.generation⟩ ∧ entry.state ≠ .MOVED := by
  unfold resolveEntry at resolved
  split at resolved
  · cases resolved
  split at resolved
  · cases resolved
  rename_i owned
  obtain ⟨sameOwner, -⟩ := not_or.mp owned
  split at resolved
  · cases resolved
  rename_i found' found
  have named : found'.id = handle.resourceId := by simpa using List.find?_some found
  split at resolved
  · cases resolved
  rename_i current
  have same : handle = ⟨owner.id, found'.id, found'.generation⟩ := by
    rw [not_not.mp sameOwner, named, not_not.mp current]
  split at resolved
  · cases resolved
  split at resolved
  · rename_i closed
    cases resolved
    exact ⟨same, by rw [closed]; decide⟩
  split at resolved
  · cases resolved
  · rename_i isOpen
    cases resolved
    exact ⟨same, by rw [not_not.mp isOpen]; decide⟩

theorem openEntry_resolves (resolved : owner.openEntry handle expected = .ok entry) :
    owner.resolveEntry handle expected = .ok entry := by
  unfold openEntry at resolved
  split at resolved
  · cases resolved
  · rename_i found resolvedEntry
    split at resolved
    · cases resolved
    · cases resolved
      exact resolvedEntry

theorem resolveEntry_error {rc : Code}
    (refused : owner.resolveEntry handle expected = .error rc) : rc ≠ .OK := by
  unfold resolveEntry at refused
  repeat' split at refused
  all_goals first | cases refused; decide | cases refused

/-- A refused handle is reported as an error. -/
theorem openEntry_error {rc : Code} (refused : owner.openEntry handle expected = .error rc) :
    rc ≠ .OK := by
  unfold openEntry at refused
  split at refused
  · rename_i refusedEntry
    cases refused
    exact resolveEntry_error refusedEntry
  · split at refused
    · cases refused
      decide
    · cases refused

/-- The handle of an entry that was just added resolves to it. -/
theorem openEntry_registerEntry (payload : Payload) (isOpen : owner.closed = false)
    (named : owner.id ≠ 0)
    (started : 0 < owner.nextResourceId) :
    (owner.registerEntry payload).openEntry owner.nextHandle none =
      .ok ⟨owner.nextResourceId, 1, .OPEN, payload⟩ := by
  have notZero : owner.nextHandle.isZero = false := by
    simp [Handle.isZero, nextHandle, named, Nat.ne_of_gt started]
  simp only [openEntry, resolveEntry, notZero]
  simp [registerEntry, findEntry, nextHandle, isOpen]

end Owner

end Ciel.Runtime.Resource
