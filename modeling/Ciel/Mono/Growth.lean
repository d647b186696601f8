import Ciel.Types.Identity

/-!
# Growing type arguments

Generic code may ask for instances of itself at ever larger types. The compiler
stops when it sees this: an expansion keeps the templates and type arguments that
led to it, and a template that is already there twice may not be expanded at type
arguments that are larger than the last ones and contain one of them.

What counts as larger is the number of type constructors. Types without parts count
nothing, and neither does the identity of a closure.
-/

namespace Ciel.Mono

open Ciel.Types

mutual

/-- `type_complexity`. -/
def typeComplexity : Ty → Nat
  | .pointer _ _ inner => 1 + typeComplexity inner
  | .array _ elem => 1 + typeComplexity elem
  | .slice _ elem => 1 + typeComplexity elem
  | .named _ _ args => 1 + tysComplexity args
  | .dynamicInterface _ _ args => 1 + tysComplexity args
  | .opaqueReturn _ args bounds => 1 + tysComplexity args + constraintBoundsComplexity bounds
  | .generatedFuture _ output _ _ _ state => 1 + typeComplexity output + stateComplexity state
  | .opaqueState base state => 1 + typeComplexity base + stateComplexity state
  | .function _ _ ret params => 1 + typeComplexity ret + tysComplexity params
  | .closure ret params constraints =>
    1 + typeComplexity ret + tysComplexity params + constraintBoundsComplexity constraints
  | .closureInstance _ ret params captures =>
    1 + typeComplexity ret + tysComplexity params + tysComplexity captures
  | _ => 0

/-- The sum over a list. -/
def tysComplexity : List Ty → Nat
  | [] => 0
  | ty :: tys => typeComplexity ty + tysComplexity tys

def stateComplexity : List (String × Ty) → Nat
  | [] => 0
  | entry :: entries => entryComplexity entry + stateComplexity entries

def entryComplexity : String × Ty → Nat
  | (_, ty) => typeComplexity ty

def constraintBoundsComplexity : ConstraintBounds → Nat
  | .mk positive negative => constraintRefsComplexity positive + constraintRefsComplexity negative

def constraintRefsComplexity : List ConstraintRef → Nat
  | [] => 0
  | entry :: entries => constraintRefComplexity entry + constraintRefsComplexity entries

def constraintRefComplexity : ConstraintRef → Nat
  | .mk _ _ args => 1 + tysComplexity args

end

/-- `ty_contains`: the type or one of its parts is the other. -/
def tyContains (container needle : Ty) : Bool := container.any (decide <| · = needle)

theorem tyContains_iff {container needle : Ty} : tyContains container needle = true ↔
    container = needle ∨ ∃ part ∈ container.children, tyContains part needle = true := by
  rw [tyContains, Ty.any_eq, Bool.or_eq_true, List.any_eq_true, decide_eq_true_eq]
  rfl

theorem tyContains_self (ty : Ty) : tyContains ty ty = true := tyContains_iff.mpr (.inl rfl)

/-- `is_strict_type_argument_growth`. -/
def isStrictTypeArgumentGrowth (previous next : List Ty) : Bool :=
  decide (tysComplexity previous < tysComplexity next) &&
    previous.any fun old => next.any fun new => tyContains new old

/-- A template and the type arguments it is expanded at. -/
structure TypeExpansionFrame where
  defId : DefId
  typeArgs : List Ty
  deriving DecidableEq

/-- The check that `infinite_growth_diagnostic` and
`dynamic_interface_growth_diagnostic` make before an expansion. -/
def growthDiagnosed (stack : List TypeExpansionFrame) (defId : DefId) (typeArgs : List Ty) : Bool :=
  let same := stack.filter (·.defId == defId)
  decide (2 ≤ same.length) &&
    same.getLast?.any fun previous => isStrictTypeArgumentGrowth previous.typeArgs typeArgs

example : growthDiagnosed [⟨0, [.primitive .i64]⟩, ⟨0, [.slice .readOnly (.primitive .i64)]⟩] 0
    [.slice .readOnly (.slice .readOnly (.primitive .i64))] = true := by decide

end Ciel.Mono
