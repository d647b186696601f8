import Ciel.Mono.Regular

/-!
# When the worklist becomes empty

Every round of the loop takes up a new function that can be reached. So the loop
ends if those are finitely many.

The growth check does not make them finite in every program. A closure literal has a new
type in every instance of a generic function, but no larger one: a function that calls
itself with a closure from its own body is instantiated without end.
-/

namespace Ciel.Mono

open Ciel.Types

namespace CheckedProgram

variable (program : CheckedProgram)

/-- As long as the worklist is not empty, a new function is processed in every round. -/
theorem length_processed {rounds : Nat}
    (busy : ∀ earlier < rounds, (program.after earlier).worklist ≠ []) :
    (program.after rounds).processed.length = rounds := by
  induction rounds with
  | zero =>
    obtain ⟨-, processed, -⟩ := start_spec program program.numbering
    exact congrArg List.length processed
  | succ rounds ih =>
    obtain ⟨id, rest, worklist⟩ := List.exists_cons_of_ne_nil (busy rounds (Nat.lt_succ_self _))
    obtain ⟨invariant, -⟩ := after_spec program rounds
    have agrees := agrees_numbering program (rounds + 1)
    rw [after_succ] at agrees ⊢
    obtain ⟨-, processed, -⟩ := step_spec invariant worklist agrees
    rw [processed, List.length_cons, ih fun earlier less => busy earlier (by omega)]

/-- The functions processed are different ones that can be reached. -/
theorem processed_spec (rounds : Nat) :
    (program.after rounds).processed.Nodup ∧
      ∀ id ∈ (program.after rounds).processed, id ∈ program.reachable program.numbering := by
  obtain ⟨invariant, -⟩ := after_spec program rounds
  constructor
  · exact (List.nodup_append.mp invariant.nodup).2.1
  · intro id processed
    exact ⟨_, invariant.reached id (invariant.mem_queued_of_processed processed)⟩

theorem ends_of_finite (finite : (program.reachable program.numbering).Finite) : program.Ends := by
  by_contra endless
  have busy (rounds : Nat) : (program.after rounds).worklist ≠ [] := fun empty =>
    endless ⟨rounds, empty⟩
  obtain ⟨nodup, reached⟩ := program.processed_spec (finite.toFinset.card + 1)
  have few : (program.after (finite.toFinset.card + 1)).processed.length ≤
      finite.toFinset.card := by
    rw [← List.toFinset_card_of_nodup nodup]
    refine Finset.card_le_card fun id inside => finite.mem_toFinset.mpr ?_
    exact reached id (List.mem_toFinset.mp inside)
  rw [program.length_processed fun earlier _ => busy earlier] at few
  omega

/-- `main` calls `f`, and `f` calls itself at other arguments. -/
def looping (args : List Ty) (next : ClosureOwnerId → List Ty → List Ty) : CheckedProgram where
  functions := [(0, [.generic (1, args)])]
  roots := [0]
  templates defId := if defId = 1 then
      some fun owner args => some ⟨[.generic (1, next owner args)], []⟩
    else none
  functions_inScope := by simp
  templates_inScope := by
    intro defId template owner args checked isTemplate isChecked
    split at isTemplate
    next =>
      cases isTemplate
      cases isChecked
      simp
    next => cases isTemplate

/-- `f<T>` calls `f` at a slice of `T`. -/
def slices : CheckedProgram := looping [.primitive .i64] fun _ args => args.map (.slice .readOnly)

/-- The chain on which the growth is seen. -/
def sliceChain : List TypeExpansionFrame :=
  [⟨1, [.primitive .i64]⟩, ⟨1, [.slice .readOnly (.primitive .i64)]⟩,
    ⟨1, [.slice .readOnly (.slice .readOnly (.primitive .i64))]⟩]

/-! ### Closures of generic bodies -/

/-- The type of the closure literal of a function, `|i64 x| x`. -/
def identityClosure (owner : ClosureOwnerId) : Ty :=
  .closureInstance ⟨owner, 0⟩ (.primitive .i64) [.primitive .i64] []

/-- `main` calls `f`, and `f<T>` calls `map` with a closure and itself at a slice of `T`. -/
def mapping : CheckedProgram where
  functions := [(0, [.generic (1, [.primitive .i64])])]
  roots := [0]
  templates
    | 1 => some fun owner args => some ⟨[.generic (2, [identityClosure owner]),
        .generic (1, args.map (.slice .readOnly))], []⟩
    | 2 => some fun _ _ => some ⟨[], []⟩
    | _ => none
  functions_inScope := by simp
  templates_inScope := by
    intro defId template owner args checked isTemplate isChecked
    split at isTemplate <;> cases isTemplate <;> cases isChecked <;> simp

theorem mapping_cases {owner : ClosureOwnerId} {key : InstanceKey}
    {checked : CheckedGenericInstance} (checks : mapping.Checks owner key checked) :
    checked.generated = [] ∧ ∀ next, .generic next ∈ checked.function → key.1 = 1 ∧
      (next = (2, [identityClosure owner]) ∨ next = (1, key.2.map (.slice .readOnly))) := by
  obtain ⟨template, isTemplate, isChecked⟩ := checks
  simp only [mapping] at isTemplate
  split at isTemplate <;> cases isTemplate <;> cases isChecked
  next isF => exact ⟨rfl, fun next inside => ⟨isF, by simpa using inside⟩⟩
  next => exact ⟨rfl, nofun⟩

theorem recurs_slices (args : List Ty) :
    Recurs {.slice .readOnly .void} args (args.map (.slice .readOnly)) where
  built := by
    refine List.forall_mem_map.mpr fun ty inside part contains => ?_
    obtain rfl | ⟨child, isChild, inner⟩ := tyContains_iff.mp contains
    · exact .inl rfl
    · obtain rfl := List.mem_singleton.mp isChild
      exact .inr ⟨child, inside, inner⟩
  contains := by
    refine List.forall_mem_map.mpr fun ty inside => ⟨ty, inside, ?_⟩
    exact tyContains_iff.mpr (.inr ⟨ty, List.mem_singleton_self _, tyContains_self ty⟩)

/-- The closures leave the recursion of `f`, and the slices contain what they are made from. -/
def mappingRegular : mapping.Regular where
  templates := [1, 2]
  width := 1
  rank defId := defId
  shapes := {.slice .readOnly .void}
  fixed := []
  finite := Set.finite_singleton _
  declared := by simp [mapping]
  asked := by
    intro owner key checked checks short body isBody next inside
    obtain ⟨none, requests⟩ := mapping_cases checks
    rw [none] at isBody
    obtain rfl := List.mem_singleton.mp isBody
    obtain ⟨-, rfl | rfl⟩ := requests next inside
    · simp
    · simpa using short
  function := by
    rintro owner ⟨defId, args⟩ checked checks next inside
    obtain ⟨rfl, rfl | rfl⟩ := (mapping_cases checks).2 next inside
    · exact .inr (.inl Nat.one_lt_two)
    · exact .inr (.inr ⟨rfl, recurs_slices args⟩)
  generated := by
    intro owner key checked checks body isBody
    rw [(mapping_cases checks).1] at isBody
    cases isBody

/-- `main` calls `apply` with a closure, and `apply` calls itself with a closure of its
own. -/
def closures : CheckedProgram :=
  looping [identityClosure (.function 0)] fun owner _ => [identityClosure owner]

/-- The instances of `apply`, in the order of their creation. -/
def applyKey : Nat → InstanceKey
  | 0 => (1, [identityClosure (.function 0)])
  | n + 1 => (1, [identityClosure (.genericInstance 1 n)])

theorem applyKey_injective : Function.Injective applyKey := by
  intro a b same
  cases a <;> cases b <;> simp [applyKey, identityClosure] at same ⊢
  exact same

/-- The chain of an instance. -/
def applyChain : Nat → List TypeExpansionFrame
  | 0 => [⟨1, (applyKey 0).2⟩]
  | n + 1 => applyChain n ++ [⟨1, (applyKey (n + 1)).2⟩]

theorem applyChain_flat {n : Nat} : ∀ frame ∈ applyChain n, tysComplexity frame.typeArgs = 1 := by
  induction n with
  | zero => exact List.forall_mem_singleton.mpr rfl
  | succ n ih => exact List.forall_mem_append.mpr ⟨ih, List.forall_mem_singleton.mpr rfl⟩

/-- The first instances, the last one first. -/
def applied {α : Type} (f : Nat → α) : Nat → List α
  | 0 => []
  | n + 1 => f n :: applied f n

theorem exists_of_mem_applied {α : Type} {f : Nat → α} {n : Nat} {a : α}
    (inside : a ∈ applied f n) : ∃ k < n, f k = a := by
  induction n with
  | zero => cases inside
  | succ n ih =>
    obtain rfl | inside := List.mem_cons.mp inside
    · exact ⟨n, Nat.lt_succ_self n, rfl⟩
    · obtain ⟨k, less, isAt⟩ := ih inside
      exact ⟨k, Nat.lt_succ_of_lt less, isAt⟩

/-- The state in which the last instance is on the worklist. -/
def applying (n : Nat) : MonoContext where
  functionsByDef :=
    applied (fun k => (.generic (applyKey k), [.generic (applyKey (k + 1))])) (n + 1) ++
      [(.declared 0, [.generic (applyKey 0)])]
  genericChains := applied (fun k => (.generic (applyKey k), applyChain k)) (n + 1)
  processed := applied (fun k => .generic (applyKey k)) n ++ [.declared 0]
  queued := applied (fun k => .generic (applyKey k)) (n + 1) ++ [.declared 0]
  worklist := [.generic (applyKey n)]
  genericInstances := applied applyKey (n + 1)
  closureOwners := ⟨applied (fun k => (applyKey k, k)) (n + 1), n + 1⟩
  currentStack := []
  diagnostics := []

theorem growthDiagnosed_eq_false {stack : List TypeExpansionFrame} {defId : DefId} {args : List Ty}
    (flat : ∀ frame ∈ stack, tysComplexity args ≤ tysComplexity frame.typeArgs) :
    growthDiagnosed stack defId args = false := by
  rw [growthDiagnosed, Bool.and_eq_false_iff, Option.any_eq_false]
  refine .inr fun previous isLast => ?_
  have inside := List.mem_of_mem_filter (List.mem_of_getLast? isLast)
  have notLess : ¬tysComplexity previous.typeArgs < tysComplexity args := by
    have := flat previous inside
    omega
  simp [isStrictTypeArgumentGrowth, notLess]

theorem step_applying (n : Nat) : closures.step (applying n) = applying (n + 1) := by
  have newKey : applyKey (n + 1) ∉ (applying n).genericInstances := by
    intro inside
    obtain ⟨k, less, same⟩ := exists_of_mem_applied inside
    exact Nat.ne_of_lt less (applyKey_injective same)
  have unnumbered :
      (applying n).closureOwners.genericInstances.lookup (applyKey (n + 1)) = none := by
    refine Library.lookup_eq_none_of_forall fun entry inside same => ?_
    obtain ⟨k, less, rfl⟩ := exists_of_mem_applied inside
    exact Nat.ne_of_lt less (applyKey_injective same)
  have unseen (m : Nat) : FunctionId.generic (applyKey m) ∉
      applied (fun k => .generic (applyKey k)) m ++ [.declared 0] := by
    intro inside
    obtain inside | last := List.mem_append.mp inside
    · obtain ⟨k, less, same⟩ := exists_of_mem_applied inside
      exact Nat.ne_of_lt less (applyKey_injective (FunctionId.generic.inj same))
    · cases List.mem_singleton.mp last
  have body : (applying n).functionsByDef.lookup (.generic (applyKey n)) =
      some [.generic (applyKey (n + 1))] := by
    rw [applying, applied, List.cons_append, List.lookup_cons, beq_self_eq_true]
  have chain : (applying n).chainOf (.generic (applyKey n)) = applyChain n := by
    rw [MonoContext.chainOf]
    show (List.lookup _ (_ :: _)).getD [] = _
    rw [List.lookup_cons, beq_self_eq_true]
    rfl
  have passes : growthDiagnosed (applyChain n) (applyKey (n + 1)).1 (applyKey (n + 1)).2 = false :=
    growthDiagnosed_eq_false fun frame inside => (applyChain_flat frame inside).ge
  have template : closures.templates (applyKey (n + 1)).1 =
      some fun owner _ => some ⟨[.generic (1, [identityClosure owner])], []⟩ := rfl
  rw [step_cons rfl (unseen n) body]
  simp only [rewriteBlock, rewriteRequest, instantiateGeneric, if_neg newKey, template, chain,
    passes, ClosureOwnerTable.internGenericInstance, unnumbered]
  rw [MonoContext.markFunction_new]
  · rfl
  · intro inside
    exact unseen (n + 1) (List.mem_cons_of_mem _ inside)
  · exact unseen (n + 1)
  · rw [MonoContext.register, List.cons_append, List.lookup_cons, beq_self_eq_true]
    exact Option.some_ne_none _

theorem after_eq_applying (n : Nat) : closures.after (n + 1) = applying n := by
  induction n with
  | zero => rfl
  | succ n ih => rw [after_succ, ih, step_applying]

end CheckedProgram

end Ciel.Mono
