import Mathlib.Data.List.Basic
import Mathlib.Data.List.Nodup

/-!
# Wait lists that wake one waiter at a time

A resource hands out units. A waiter that finds none joins a wait list, and a
new unit wakes a single waiter, which leaves the list. A waiter that is awake
will look for a unit before it waits again; it is `due`.

Nobody waits in vain as long as the units are covered: either nobody waits, or
there are as many different waiters due, outside of the list, as there are
units. The rules below say how this survives what can happen to the list. The
wake of a waiter that is not due, or that is still in the list a second time,
is exactly what they do not cover.
-/

namespace Library

variable {Waiter : Type*}

/-- Nobody waits, or each unit has a waiter of its own that is awake. -/
def Covered (units : Nat) (waiting : List Waiter) (due : Waiter → Prop) : Prop :=
  waiting = [] ∨ ∃ awake : List Waiter,
    awake.Nodup ∧ (∀ t ∈ awake, due t ∧ t ∉ waiting) ∧ units ≤ awake.length

namespace Covered

variable {units units' : Nat} {waiting rest : List Waiter} {due due' : Waiter → Prop} {t : Waiter}

theorem nobody : Covered units [] due := .inl rfl

theorem none_free : Covered 0 waiting due := .inr ⟨[], List.nodup_nil, nofun, Nat.le_refl 0⟩

/-- Units may go and waiters may become due. -/
theorem mono (h : Covered units waiting due) (fewer : units' ≤ units)
    (stay : ∀ t, due t → due' t) : Covered units' waiting due' := by
  rcases h with empty | ⟨awake, nodup, members, enough⟩
  · exact .inl empty
  · exact .inr ⟨awake, nodup, fun t mem => ⟨stay t (members t mem).1, (members t mem).2⟩,
      Nat.le_trans fewer enough⟩

/-- A new unit wakes the first waiter. It must be due by that, and it must not
wait a second time, or nobody else may be left waiting. -/
theorem take (h : Covered units (t :: rest) due) (more : units' ≤ units + 1)
    (stay : ∀ t, due t → due' t) (fresh : rest = [] ∨ due' t ∧ t ∉ rest) :
    Covered units' rest due' := by
  rcases fresh with empty | ⟨woken, once⟩
  · exact .inl empty
  rcases h with absurd | ⟨awake, nodup, members, enough⟩
  · cases absurd
  have outside : t ∉ awake := fun mem => (members t mem).2 List.mem_cons_self
  refine .inr ⟨t :: awake, List.nodup_cons.2 ⟨outside, nodup⟩, ?_, ?_⟩
  · intro u mem
    rcases List.mem_cons.1 mem with rfl | old
    · exact ⟨woken, once⟩
    · exact ⟨stay u (members u old).1, fun later =>
        (members u old).2 (List.mem_cons_of_mem _ later)⟩
  · exact Nat.le_trans more (Nat.succ_le_succ enough)

/-- One waiter takes a unit and need not be due any longer. -/
theorem consume [DecidableEq Waiter] (h : Covered units waiting due) (less : units' + 1 ≤ units)
    (stay : ∀ u, u ≠ t → due u → due' u) : Covered units' waiting due' := by
  rcases h with empty | ⟨awake, nodup, members, enough⟩
  · exact .inl empty
  refine .inr ⟨awake.erase t, nodup.erase t, ?_, ?_⟩
  · intro u mem
    obtain ⟨other, old⟩ := (nodup.mem_erase_iff).1 mem
    exact ⟨stay u other (members u old).1, (members u old).2⟩
  · have shrinks : awake.length - 1 ≤ (awake.erase t).length := List.le_length_erase
    omega

/-- While somebody waits, a free unit means that somebody is due. -/
theorem exists_due (h : Covered units waiting due) (waits : waiting ≠ []) (free : 0 < units) :
    ∃ t, due t := by
  rcases h with empty | ⟨awake, -, members, enough⟩
  · exact absurd empty waits
  · obtain ⟨t, mem⟩ := List.exists_mem_of_length_pos (Nat.lt_of_lt_of_le free enough)
    exact ⟨t, (members t mem).1⟩

end Covered

end Library
