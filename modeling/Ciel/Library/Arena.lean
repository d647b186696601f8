import Mathlib.Data.List.Basic
import Mathlib.Data.List.Perm.Basic

/-!
# Arenas: cells addressed by their index

A program that never frees its records can be modelled with a list of cells and
indices as pointers. A write through a pointer is `List.modify`. The rules below
say what a write leaves of a property of all cells, and what it does to a
collection gathered from all cells.
-/

namespace Library.Arena

variable {α β : Type*} {cells : List α} {i j : Nat} {a c : α}
variable {f : α → α}

/-- A write only depends on the value of its function at the written cell. -/
theorem modify_congr (found : cells[i]? = some a) {g : α → α} (same : f a = g a) :
    cells.modify i f = cells.modify i g := by
  apply List.ext_getElem?
  intro j
  rw [List.getElem?_modify, List.getElem?_modify]
  by_cases here : i = j
  · subst here
    simp [found, same]
  · simp [here]

theorem modify_self (found : cells[i]? = some a) : cells.modify i (fun _ => a) = cells := by
  exact (modify_congr found (f := fun _ => a) (g := id) rfl).trans (List.modify_id ..)

/-- Every cell after a write is the written one or an old one. -/
theorem modify_cases (found : (cells.modify i f)[j]? = some c) :
    (i = j ∧ ∃ a, cells[j]? = some a ∧ c = f a) ∨ (i ≠ j ∧ cells[j]? = some c) := by
  rw [List.getElem?_modify] at found
  by_cases here : i = j
  · obtain ⟨a, old, rfl⟩ := Option.map_eq_some_iff.mp found
    exact .inl ⟨here, a, old, by simp [here]⟩
  · exact .inr ⟨here, by simpa [here] using found⟩

theorem modify_same (found : cells[i]? = some a) :
    (cells.modify i f)[i]? = some (f a) := by
  simp [found]

theorem modify_other (other : i ≠ j) : (cells.modify i f)[j]? = cells[j]? := by
  simp [other]

theorem append_old (found : cells[j]? = some c) : (cells ++ [a])[j]? = some c := by
  rw [List.getElem?_append_left (List.getElem?_eq_some_iff.mp found).1]
  exact found

theorem append_beyond (beyond : cells.length < j) : (cells ++ [a])[j]? = none :=
  List.getElem?_eq_none (by rw [List.length_append]; exact beyond)

/-- A write that keeps a field keeps the list of all values of the field. -/
theorem map_modify_eq {field : α → β} (same : ∀ a, cells[i]? = some a → field (f a) = field a) :
    (cells.modify i f).map field = cells.map field := by
  apply List.ext_getElem?
  intro j
  rw [List.getElem?_map, List.getElem?_map, List.getElem?_modify]
  by_cases here : i = j
  · subst here
    cases found : cells[i]? with
    | none => rfl
    | some a => simp [same a found]
  · simp [here]

/-- A property of all cells survives a write that establishes it. -/
theorem forall_modify {P : α → Prop} (all : ∀ a ∈ cells, P a)
    (written : ∀ a, cells[i]? = some a → P (f a)) : ∀ a ∈ cells.modify i f, P a := by
  intro c member
  obtain ⟨j, found⟩ := List.mem_iff_getElem?.mp member
  rcases modify_cases found with ⟨rfl, a, old, rfl⟩ | ⟨_, old⟩
  · exact written a old
  · exact all c (List.mem_of_getElem? old)

/-- Of a collection gathered from all cells, a write replaces the part of the
written cell and keeps the rest. -/
theorem flatMap_modify_perm (found : cells[i]? = some a) (f : α → α) (part : α → List β) :
    ∃ rest, (cells.flatMap part).Perm (part a ++ rest) ∧
      ((cells.modify i f).flatMap part).Perm (part (f a) ++ rest) := by
  induction cells generalizing i with
  | nil => cases found
  | cons cell cells ih =>
    cases i with
    | zero =>
      have : cell = a := by simpa using found
      subst this
      exact ⟨cells.flatMap part, by simp, by simp⟩
    | succ i =>
      obtain ⟨rest, before, after⟩ := ih (by simpa using found)
      refine ⟨part cell ++ rest, ?_, ?_⟩
      · rw [List.flatMap_cons]
        exact (before.append_left _).trans (List.perm_append_comm_assoc _ _ _)
      · rw [List.modify_succ_cons, List.flatMap_cons]
        exact (after.append_left _).trans (List.perm_append_comm_assoc _ _ _)

theorem flatMap_modify_eq {part : α → List β}
    (same : ∀ a, cells[i]? = some a → part (f a) = part a) :
    (cells.modify i f).flatMap part = cells.flatMap part := by
  induction cells generalizing i with
  | nil => simp
  | cons cell cells ih =>
    cases i with
    | zero => simp [same cell (by simp)]
    | succ i =>
      rw [List.modify_succ_cons, List.flatMap_cons, List.flatMap_cons, ih]
      intro a found
      exact same a (by simpa using found)

/-! ## Arenas that grow -/

/-- Every cell is still there, and what it holds now is related to what it held. -/
def Extends (R : α → α → Prop) (before after : List α) : Prop :=
  ∀ (i : Nat) (a : α), before[i]? = some a → ∃ b, after[i]? = some b ∧ R a b

section Extends

variable {R : α → α → Prop} {before after : List α}

theorem Extends.refl (same : ∀ a, R a a) (cells : List α) : Extends R cells cells :=
  fun _ a found => ⟨a, found, same a⟩

theorem Extends.modify (h : Extends R before after) (trans : ∀ {a b c}, R a b → R b c → R a c)
    (same : ∀ a, R a a) (written : ∀ a, after[i]? = some a → R a (f a)) :
    Extends R before (after.modify i f) := by
  intro j a found
  obtain ⟨b, there, related⟩ := h j a found
  by_cases here : i = j
  · subst here
    exact ⟨f b, modify_same there, trans related (written b there)⟩
  · exact ⟨b, (modify_other here).trans there, trans related (same b)⟩

theorem Extends.append (h : Extends R before after) (fresh : α) :
    Extends R before (after ++ [fresh]) := by
  intro j a found
  obtain ⟨b, there, related⟩ := h j a found
  exact ⟨b, append_old there, related⟩

end Extends

end Library.Arena
