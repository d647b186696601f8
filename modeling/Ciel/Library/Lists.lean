import Mathlib.Data.List.Basic
import Mathlib.Data.Set.Finite.List

/-!
# Lists

Facts about lists that the standard library does not have.
-/

namespace Library

theorem map_eq_map_iff_zip {α β : Type*} {f : α → β} {xs ys : List α} (h : xs.length = ys.length) :
    xs.map f = ys.map f ↔ ∀ a b, (a, b) ∈ xs.zip ys → f a = f b := by
  induction xs generalizing ys with
  | nil => cases ys <;> simp at h ⊢
  | cons x xs ih =>
    cases ys with
    | nil => simp at h
    | cons y ys => simp [ih (by simpa using h), or_imp, forall_and]

theorem lookup_append {α β : Type*} [BEq α] (left right : List (α × β)) (a : α) :
    (left ++ right).lookup a = (left.lookup a).or (right.lookup a) := by
  induction left with
  | nil => rfl
  | cons entry left ih =>
    obtain ⟨b, value⟩ := entry
    rw [List.cons_append, List.lookup_cons, List.lookup_cons]
    cases a == b with
    | true => rfl
    | false => exact ih

theorem lookup_map_key {α β γ : Type*} [BEq α] [LawfulBEq α] [BEq β] [LawfulBEq β] {f : α → β}
    (inj : Function.Injective f) (list : List (α × γ)) (a : α) :
    (list.map fun entry => (f entry.1, entry.2)).lookup (f a) = list.lookup a := by
  induction list with
  | nil => rfl
  | cons entry list ih =>
    obtain ⟨b, value⟩ := entry
    rw [List.map_cons, List.lookup_cons, List.lookup_cons, ih]
    have same : (f a == f b) = (a == b) := by
      rw [Bool.eq_iff_iff, beq_iff_eq, beq_iff_eq, inj.eq_iff]
    rw [same]

theorem lookup_eq_none_of_forall {α β : Type*} [BEq α] [LawfulBEq α] {list : List (α × β)} {a : α}
    (other : ∀ entry ∈ list, entry.1 ≠ a) : list.lookup a = none := by
  refine List.lookup_eq_none_iff.mpr fun entry inside => ?_
  exact bne_iff_ne.mpr (other entry inside).symm

theorem lookup_zipIdx {α β : Type*} [BEq α] [LawfulBEq α] {f : Nat → α}
    (inj : Function.Injective f) (list : List β) (start index : Nat) :
    ((list.zipIdx start).map fun entry => (f entry.2, entry.1)).lookup (f (start + index)) =
      list[index]? := by
  induction list generalizing start index with
  | nil => rfl
  | cons first rest ih =>
    rw [List.zipIdx_cons, List.map_cons, List.lookup_cons]
    cases index with
    | zero => simp
    | succ index =>
      have other : f (start + (index + 1)) ≠ f start := fun same => by
        have := inj same
        omega
      rw [beq_false_of_ne other, List.getElem?_cons_succ, ← ih (start + 1) index,
        Nat.add_right_comm, Nat.add_assoc]

theorem exists_of_lookup_zip {α β : Type*} [BEq α] [LawfulBEq α] {keys : List α} {values : List β}
    {key : α} {value : β} (found : (keys.zip values).reverse.lookup key = some value) :
    ∃ index : Nat, keys[index]? = some key ∧ values[index]? = some value := by
  obtain ⟨before, after, entries, -⟩ := List.lookup_eq_some_iff.mp found
  have member : (key, value) ∈ keys.zip values := by
    rw [← List.mem_reverse, entries]
    simp
  obtain ⟨index, isEntry⟩ := List.mem_iff_getElem?.mp member
  exact ⟨index, List.getElem?_zip_eq_some.mp isEntry⟩

/-- There are finitely many lists of bounded length over a finite set. -/
theorem finite_lists {α : Type*} {s : Set α} (finite : s.Finite) (length : Nat) :
    {list : List α | list.length ≤ length ∧ ∀ x ∈ list, x ∈ s}.Finite := by
  have := finite.to_subtype
  refine ((List.finite_length_le s length).image (List.map Subtype.val)).subset ?_
  rintro list ⟨short, inside⟩
  refine ⟨list.pmap Subtype.mk inside, by simpa using short, ?_⟩
  simp [List.map_pmap]

end Library
