import Mathlib.Data.Set.Finite.Lattice
import Mathlib.Order.Bounds.Basic

/-!
# Growth within a budget

If there are finitely many things of each size and each leads to finitely many others, then
what a number of steps leads to is bounded in size.
-/

namespace Library

/-- How large things can be after a number of steps that make them larger. -/
theorem exists_bound {α : Type*} {size : α → ℕ} {next : α → α → Prop} {inside : Set α}
    (finite : ∀ n, {a ∈ inside | size a ≤ n}.Finite) (branching : ∀ a, {b | next a b}.Finite)
    (start : ℕ) : ∃ bound : ℕ → ℕ, Monotone bound ∧ start ≤ bound 0 ∧
      ∀ m, ∀ a ∈ inside, size a ≤ bound m → ∀ b, next a b → size b ≤ bound (m + 1) := by
  have step (n : ℕ) : ∃ larger, ∀ a ∈ inside, size a ≤ n → ∀ b, next a b → size b ≤ larger := by
    obtain ⟨larger, isBound⟩ :=
      (((finite n).biUnion fun a _ => branching a).image size).bddAbove
    refine ⟨larger, fun a isIn small b isNext => isBound (Set.mem_image_of_mem size ?_)⟩
    exact Set.mem_biUnion (show a ∈ {a ∈ inside | size a ≤ n} from ⟨isIn, small⟩) isNext
  choose larger isLarger using step
  let bound (m : ℕ) : ℕ := Nat.rec start (fun _ n => max n (larger n)) m
  refine ⟨bound, monotone_nat_of_le_succ fun m => Nat.le_max_left _ _, le_rfl, ?_⟩
  intro m a isIn small b isNext
  exact (isLarger _ a isIn small b isNext).trans (Nat.le_max_right _ _)

end Library
