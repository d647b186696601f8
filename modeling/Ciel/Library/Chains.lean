import Mathlib.Data.List.Nodup
import Mathlib.Logic.Function.Basic

/-!
# Chains of cells

Cells that are linked by a nullable pointer to the next cell. A chain is a list of
addresses that the pointers run through, from a head to null. It is determined by its
head, so it never comes back to a cell. The rules below say how chains survive changes
of cells, and how a cell is taken out.
-/

namespace Library

variable {Cell : Type*} {next : Cell → Option Nat}

/-- The pointers run from a head through the addresses of a list to null. -/
def Chain (next : Cell → Option Nat) (cells : Nat → Option Cell) : Option Nat → List Nat → Prop
  | head, [] => head = none
  | head, a :: rest =>
    head = some a ∧ ∃ cell, cells a = some cell ∧ Chain next cells (next cell) rest

namespace Chain

variable {cells cells' : Nat → Option Cell} {head : Option Nat} {a : Nat} {addrs rest : List Nat}

/-- A head has one chain. -/
theorem unique {addrs' : List Nat} (chain : Chain next cells head addrs)
    (chain' : Chain next cells head addrs') : addrs = addrs' := by
  induction addrs generalizing head addrs' with
  | nil =>
    cases addrs' with
    | nil => rfl
    | cons b rest =>
      obtain ⟨same, -⟩ := chain'
      rw [chain] at same
      cases same
  | cons a rest ih =>
    obtain ⟨isHead, cell, found, tail⟩ := chain
    cases addrs' with
    | nil =>
      rw [chain'] at isHead
      cases isHead
    | cons b rest' =>
      obtain ⟨isHead', cell', found', tail'⟩ := chain'
      cases isHead.symm.trans isHead'
      cases found.symm.trans found'
      rw [ih tail tail']

/-- Each part of a chain is a chain. -/
theorem suffix {front : List Nat} (chain : Chain next cells head (front ++ a :: rest)) :
    Chain next cells (some a) (a :: rest) := by
  induction front generalizing head with
  | nil =>
    obtain ⟨-, cell⟩ := chain
    exact ⟨rfl, cell⟩
  | cons b front ih =>
    obtain ⟨-, cell, -, tail⟩ := chain
    exact ih tail

section

variable (chain : Chain next cells head addrs)

include chain

/-- A chain ends, so it does not come back to a cell. -/
theorem nodup : addrs.Nodup := by
  induction addrs generalizing head with
  | nil => exact List.nodup_nil
  | cons a rest ih =>
    obtain ⟨-, cell, found, tail⟩ := chain
    refine List.nodup_cons.mpr ⟨fun again => ?_, ih tail⟩
    -- the chain from the second occurrence would be the whole chain
    obtain ⟨front, back, rfl⟩ := List.append_of_mem again
    have whole : Chain next cells (some a) (a :: (front ++ a :: back)) := ⟨rfl, cell, found, tail⟩
    have lengths := congrArg List.length (whole.unique tail.suffix)
    simp only [List.length_cons, List.length_append] at lengths
    omega

/-- Only the pointers of the cells in a chain matter. -/
theorem congr (same : ∀ a ∈ addrs, ∀ cell, cells a = some cell →
      ∃ cell', cells' a = some cell' ∧ next cell' = next cell) :
    Chain next cells' head addrs := by
  induction addrs generalizing head with
  | nil => exact chain
  | cons a rest ih =>
    obtain ⟨isHead, cell, found, tail⟩ := chain
    obtain ⟨here, later⟩ := List.forall_mem_cons.mp same
    obtain ⟨cell', found', link⟩ := here cell found
    exact ⟨isHead, cell', found', link ▸ ih tail later⟩

theorem update_of_not_mem (out : a ∉ addrs) (cell : Option Cell) :
    Chain next (Function.update cells a cell) head addrs := by
  refine chain.congr fun b mem old found => ⟨old, ?_, rfl⟩
  rw [Function.update_of_ne, found]
  rintro rfl
  exact out mem

/-- A cell in front of a chain. -/
theorem push (out : a ∉ addrs) {cell : Cell} (link : next cell = head) :
    Chain next (Function.update cells a (some cell)) (some a) (a :: addrs) :=
  ⟨rfl, cell, Function.update_self .., link ▸ chain.update_of_not_mem out _⟩

end

/-- The cell before another one takes over its pointer. -/
theorem unlink {front : List Nat} {p : Nat} {prev prev' cell : Cell}
    (chain : Chain next cells head (front ++ p :: a :: rest)) (before : cells p = some prev)
    (found : cells a = some cell) (link : next prev' = next cell) :
    Chain next (Function.update cells p (some prev')) head (front ++ p :: rest) := by
  have nodup := chain.nodup
  induction front generalizing head with
  | nil =>
    obtain ⟨isHead, prev₁, before₁, -, cell₁, found₁, tail⟩ := chain
    cases found.symm.trans found₁
    have out : p ∉ rest := by
      have := (List.nodup_cons.mp nodup).1
      exact fun mem => this (List.mem_cons_of_mem _ mem)
    exact ⟨isHead, prev', Function.update_self .., link ▸ tail.update_of_not_mem out _⟩
  | cons b front ih =>
    obtain ⟨isHead, cell₁, found₁, tail⟩ := chain
    obtain ⟨fresh, nodup'⟩ := List.nodup_cons.mp nodup
    have other : b ≠ p := by
      rintro rfl
      exact fresh (by simp)
    refine ⟨isHead, cell₁, ?_, ih tail nodup'⟩
    rw [Function.update_of_ne other, found₁]

end Chain

end Library
