import Mathlib.Data.List.Basic
import Mathlib.Data.List.Nodup
import Mathlib.Logic.Function.Basic
import Mathlib.Logic.Relation

/-!
# Forests with parent pointers and child lists

The same tree is stored twice: every node knows its parent, and every node lists
its children. `WellFormed` says that the two agree, that no child is listed
twice, and that parents precede their children in some order. Every way of
rearranging the forest is a `cut` followed by a `graft`, or one of the two.
-/

namespace Library

structure Forest (α : Type*) where
  parent : α → Option α
  children : α → List α

namespace Forest

variable {α : Type*} {F : Forest α} {p q : α}

/-- `q` is `p` or lies above it. -/
def AtOrAbove (F : Forest α) (p q : α) : Prop :=
  Relation.ReflTransGen (fun child above => F.parent child = some above) p q

/-- A property that passes from every node to its parent holds above. -/
theorem AtOrAbove.induction {P : α → Prop} (above : F.AtOrAbove p q) (here : P p)
    (climb : ∀ {child parent}, P child → F.parent child = some parent → P parent) : P q := by
  induction above with
  | refl => exact here
  | tail _ parent ih => exact climb ih parent

variable [DecidableEq α] [LT α]

structure WellFormed (F : Forest α) : Prop where
  ordered : ∀ {p q}, F.parent p = some q → q < p
  linked : ∀ {p q}, p ∈ F.children q ↔ F.parent p = some q
  nodup : ∀ q, (F.children q).Nodup

/-- Make `p` a root, taking it out of the child list of `q`. -/
def cut (F : Forest α) (p q : α) : Forest α where
  parent := Function.update F.parent p none
  children := Function.update F.children q ((F.children q).erase p)

/-- Put `p` first in the child list of `q`. -/
def graft (F : Forest α) (p q : α) : Forest α where
  parent := Function.update F.parent p (some q)
  children := Function.update F.children q (p :: F.children q)

theorem WellFormed.cut (h : F.WellFormed) (attached : F.parent p = some q) :
    (F.cut p q).WellFormed where
  ordered := by
    intro x y parent
    by_cases same : x = p
    · simp [Forest.cut, same] at parent
    · exact h.ordered (by simpa [Forest.cut, same] using parent)
  linked := by
    intro x y
    by_cases same : x = p
    · subst same
      by_cases here : y = q
      · subst here
        simp [Forest.cut, (h.nodup y).mem_erase_iff]
      · have : F.parent x ≠ some y := by
          rw [attached]
          exact fun equal => here (Option.some.inj equal).symm
        simp [Forest.cut, here, h.linked, this]
    · by_cases here : y = q
      · subst here
        simp [Forest.cut, same, (h.nodup y).mem_erase_iff, h.linked]
      · simp [Forest.cut, same, here, h.linked]
  nodup := by
    intro y
    by_cases here : y = q
    · subst here
      simpa [Forest.cut] using (h.nodup y).erase p
    · simpa [Forest.cut, here] using h.nodup y

theorem WellFormed.graft (h : F.WellFormed) (top : F.parent p = none) (below : q < p) :
    (F.graft p q).WellFormed where
  ordered := by
    intro x y parent
    by_cases same : x = p
    · subst same
      have : q = y := by simpa [Forest.graft] using parent
      exact this ▸ below
    · exact h.ordered (by simpa [Forest.graft, same] using parent)
  linked := by
    intro x y
    by_cases same : x = p
    · subst same
      by_cases here : y = q
      · subst here
        simp [Forest.graft]
      · simp [Forest.graft, here, h.linked, top, Ne.symm here]
    · by_cases here : y = q
      · subst here
        simp [Forest.graft, same, h.linked]
      · simp [Forest.graft, same, here, h.linked]
  nodup := by
    intro y
    by_cases here : y = q
    · subst here
      have absent : p ∉ F.children y := by simp [h.linked, top]
      simpa [Forest.graft] using ⟨absent, h.nodup y⟩
    · simpa [Forest.graft, here] using h.nodup y

end Forest
end Library
