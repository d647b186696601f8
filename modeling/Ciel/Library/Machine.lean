import Mathlib.Data.List.Basic

/-!
# Partial deterministic machines and their runs

A machine takes one labelled step at a time. A label stands for everything the
environment chooses: which thread moves, which operation it performs, and what
an external call answers. `none` marks a label that is not enabled, so an
interleaving of any number of threads is nothing but a list of labels.

Runs grow at their end. A history invariant can therefore relate the final
state to the complete list of labels and answers seen so far, without adding
history variables to the state itself.
-/

namespace Library

/-- One atomic step for each label. The answer is observable, the state is not. -/
structure Machine (State Label Out : Type*) where
  step : State → Label → Option (State × Out)

/-- Splitting a longer list at an element: at its end, or further inside. -/
theorem split_concat {α : Type*} {xs before after : List α} {x y : α}
    (h : xs ++ [y] = before ++ x :: after) : (before = xs ∧ x = y ∧ after = []) ∨
      ∃ rest, xs = before ++ x :: rest ∧ after = rest ++ [y] := by
  rcases List.eq_nil_or_concat after with rfl | ⟨rest, last, rfl⟩
  · obtain ⟨rfl, same⟩ := List.append_inj' h rfl
    exact .inl ⟨rfl, (List.cons.inj same).1.symm, rfl⟩
  · rw [List.concat_eq_append, ← List.cons_append, ← List.append_assoc] at h
    obtain ⟨rfl, same⟩ := List.append_inj' h rfl
    exact .inr ⟨rest, rfl, by rw [List.concat_eq_append, same]⟩

namespace Machine

variable {State Label Out : Type*} {M : Machine State Label Out}
variable {s t u : State} {history : List (Label × Out)}

/-- `M.Run s history t` holds when the labels of `history`, taken in order from
`s`, are all enabled, give the recorded answers, and end in `t`. -/
inductive Run (M : Machine State Label Out) (s : State) : List (Label × Out) → State → Prop
  | start : Run M s [] s
  | next {history : List (Label × Out)} {t u : State} {l : Label} {o : Out} :
      Run M s history t → M.step t l = some (u, o) → Run M s (history ++ [(l, o)]) u

/-- A state predicate that every step preserves holds at the end of every run. -/
theorem Run.preserves {I : State → Prop} (run : M.Run s history t) (initial : I s)
    (step : ∀ {t l o u}, I t → M.step t l = some (u, o) → I u) : I t := by
  induction run with
  | start => exact initial
  | next _ enabled ih => exact step ih enabled

/-- The same rule for a relation between the history and the state it reaches. -/
theorem Run.preserves_history {R : List (Label × Out) → State → Prop}
    (run : M.Run s history t) (initial : R [] s)
    (step : ∀ {history t l o u}, R history t → M.step t l = some (u, o) →
      R (history ++ [(l, o)]) u) : R history t := by
  induction run with
  | start => exact initial
  | next _ enabled ih => exact step ih enabled

/-- Execute a list of labels from left to right, recording the answers. -/
def exec (M : Machine State Label Out) :
    State → List Label → Option (State × List (Label × Out))
  | s, [] => some (s, [])
  | s, l :: labels =>
    match M.step s l with
    | none => none
    | some (t, o) =>
      match M.exec t labels with
      | none => none
      | some (u, history) => some (u, (l, o) :: history)

/-- Runs compose, so that a schedule may be described in parts. -/
theorem Run.append {first second : List (Label × Out)} (left : M.Run s first t)
    (right : M.Run t second u) : M.Run s (first ++ second) u := by
  induction right with
  | start => simpa using left
  | next _ enabled ih => simpa using Run.next ih enabled

theorem Run.single {l : Label} {o : Out} (enabled : M.step s l = some (t, o)) :
    M.Run s [(l, o)] t := by
  exact Run.next Run.start enabled

/-- An executed schedule is a run. Concrete schedules are checked through this. -/
theorem run_of_exec {labels : List Label} (h : M.exec s labels = some (t, history)) :
    M.Run s history t := by
  induction labels generalizing s history with
  | nil =>
    simp only [exec, Option.some.injEq, Prod.mk.injEq] at h
    obtain ⟨rfl, rfl⟩ := h
    exact .start
  | cons l labels ih =>
    simp only [exec] at h
    split at h
    · cases h
    · rename_i middle o enabled
      split at h
      · cases h
      · rename_i final rest executed
        simp only [Option.some.injEq, Prod.mk.injEq] at h
        obtain ⟨rfl, rfl⟩ := h
        exact (Run.single enabled).append (ih executed)

/-- The machine without the steps that miss a condition. Its runs are the runs of
`M` all of whose steps meet it. -/
def restrict (M : Machine State Label Out) (allowed : State → Label → Bool) :
    Machine State Label Out where
  step := fun s l => if allowed s l then M.step s l else none

theorem restrict_step {allowed : State → Label → Bool} {l : Label} {o : Out} :
    (M.restrict allowed).step s l = some (t, o) ↔
      allowed s l = true ∧ M.step s l = some (t, o) := by
  simp only [restrict]
  split
  next meets => exact ⟨fun enabled => ⟨meets, enabled⟩, fun h => h.2⟩
  next misses => exact ⟨nofun, fun h => absurd h.1 misses⟩

end Machine
end Library
