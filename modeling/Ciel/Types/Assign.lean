import Ciel.Types.Subst

/-!
# Types up to opaque state, and assignment

Opaque state is bookkeeping of the checker: a value of a type with hidden state
is a value of its base type. Two types are the same up to opaque state when they
agree after all such annotations are dropped, and a value may be assigned where
the expected type is the same in this sense or a weaker view of it.
-/

namespace Ciel.Types

/-- `named_ty_identity_eq`: resolved types are compared by definition, others by
name. -/
def namedTyIdentityEq : Option DefId → String → Option DefId → String → Bool
  | some left, _, some right, _ => left == right
  | none, leftName, none, rightName => leftName == rightName
  | _, _, _, _ => false

/-- `strip_opaque_state_for_lookup`: drop the opaque states on top of a type. -/
def Ty.stripOpaqueState : Ty → Ty
  | .opaqueState base _ => base.stripOpaqueState
  | ty => ty

theorem Ty.stripOpaqueState_idem (ty : Ty) :
    ty.stripOpaqueState.stripOpaqueState = ty.stripOpaqueState := by
  induction ty with
  | step ty ih =>
    cases ty with
    | opaqueState base state => exact ih base (by simp [Ty.children])
    | _ => rfl

theorem stripOpaqueState_ne (ty base : Ty) (state : List (String × Ty)) :
    ty.stripOpaqueState ≠ .opaqueState base state := by
  induction ty with
  | step ty ih =>
    cases ty with
    | opaqueState inner _ => exact ih inner (by simp [Ty.children])
    | _ => rintro ⟨⟩

mutual

/-- `same_ignoring_opaque_state`. The annotations of the right type are dropped
one by one in the source; here they are dropped at once. -/
def sameIgnoringOpaqueState : Ty → Ty → Bool
  | .opaqueState base state, right =>
    decide (.opaqueState base state = right) || sameIgnoringOpaqueState base right
  | .pointer nullable mutability inner, right =>
    match right.stripOpaqueState with
    | .pointer nullable' mutability' inner' =>
      nullable == nullable' && mutability == mutability' && sameIgnoringOpaqueState inner inner'
    | _ => false
  | .array len elem, right =>
    match right.stripOpaqueState with
    | .array len' elem' => len == len' && sameIgnoringOpaqueState elem elem'
    | _ => false
  | .slice mutability elem, right =>
    match right.stripOpaqueState with
    | .slice mutability' elem' => mutability == mutability' && sameIgnoringOpaqueState elem elem'
    | _ => false
  | .named defId name args, right =>
    match right.stripOpaqueState with
    | .named defId' name' args' =>
      namedTyIdentityEq defId name defId' name' && sameTys args args'
    | _ => false
  | .generatedFuture name output cancelSafe abortable affineState state, right =>
    match right.stripOpaqueState with
    | .generatedFuture name' output' cancelSafe' abortable' affineState' state' =>
      name == name' && cancelSafe == cancelSafe' && abortable == abortable' &&
        affineState == affineState' && sameIgnoringOpaqueState output output' &&
        sameState state state'
    | _ => false
  | .dynamicInterface defId _ args, right =>
    match right.stripOpaqueState with
    | .dynamicInterface defId' _ args' => defId == defId' && sameTys args args'
    | _ => false
  | .function isUnsafe abi ret params, right =>
    match right.stripOpaqueState with
    | .function isUnsafe' abi' ret' params' =>
      isUnsafe == isUnsafe' && abi == abi' && sameIgnoringOpaqueState ret ret' &&
        sameTys params params'
    | _ => false
  | .closure ret params constraints, right =>
    match right.stripOpaqueState with
    | .closure ret' params' constraints' =>
      decide (constraints = constraints') && sameIgnoringOpaqueState ret ret' &&
        sameTys params params'
    | _ => false
  | .closureInstance id ret params captures, right =>
    match right.stripOpaqueState with
    | .closureInstance id' ret' params' captures' =>
      id == id' && sameIgnoringOpaqueState ret ret' && sameTys params params' &&
        sameTys captures captures'
    | _ => false
  | left, right => decide (left = right.stripOpaqueState)
termination_by structural left => left

def sameTys : List Ty → List Ty → Bool
  | [], [] => true
  | left :: lefts, right :: rights => sameIgnoringOpaqueState left right && sameTys lefts rights
  | _, _ => false
termination_by structural lefts => lefts

def sameState : List (String × Ty) → List (String × Ty) → Bool
  | [], [] => true
  | left :: lefts, right :: rights => sameEntry left right && sameState lefts rights
  | _, _ => false
termination_by structural lefts => lefts

def sameEntry : String × Ty → String × Ty → Bool
  | (name, ty), (name', ty') => name == name' && sameIgnoringOpaqueState ty ty'
termination_by structural left => left

end

/-- `pointer_view_can_weaken`. -/
def pointerViewCanWeaken (expected actual : ViewMutability) : Bool :=
  expected == actual || (expected == .readOnly && actual == .writable)

/-- `proves_all`. -/
def ConstraintBounds.provesAll (bounds required : ConstraintBounds) : Bool :=
  required.positive.all (bounds.positive.contains ·) &&
    required.negative.all (bounds.negative.contains ·)

def Ty.isHole : Ty → Bool
  | .hole _ => true
  | _ => false

/-- `can_assign_from`. -/
def canAssignFrom : Ty → Ty → Bool
  | .opaqueState base _, source => canAssignFrom base source
  | .pointer nullable mutability inner, source =>
    let source := source.stripOpaqueState
    source.isHole || sameIgnoringOpaqueState (.pointer nullable mutability inner) source ||
      match source with
      | .pointer nullable' mutability' inner' =>
        (nullable == nullable' || (nullable && !nullable')) &&
          pointerViewCanWeaken mutability mutability' && sameIgnoringOpaqueState inner inner'
      | _ => false
  | .slice mutability elem, source =>
    let source := source.stripOpaqueState
    source.isHole || sameIgnoringOpaqueState (.slice mutability elem) source ||
      match source with
      | .slice mutability' elem' =>
        pointerViewCanWeaken mutability mutability' && sameIgnoringOpaqueState elem elem'
      | _ => false
  | .function isUnsafe abi ret params, source =>
    let source := source.stripOpaqueState
    source.isHole || sameIgnoringOpaqueState (.function isUnsafe abi ret params) source ||
      match source with
      | .function isUnsafe' abi' ret' params' =>
        abi == abi' && sameTys params params' && canAssignFrom ret ret' &&
          (!isUnsafe' || isUnsafe)
      | _ => false
  | .closure ret params constraints, source =>
    let source := source.stripOpaqueState
    source.isHole || sameIgnoringOpaqueState (.closure ret params constraints) source ||
      match source with
      | .closure ret' params' constraints' =>
        sameTys params params' && canAssignFrom ret ret' && constraints'.provesAll constraints
      | .closureInstance _ ret' params' _ =>
        constraints.isEmpty && sameTys params params' && canAssignFrom ret ret'
      | _ => false
  | expected, source =>
    let source := source.stripOpaqueState
    expected.isHole || source.isHole || sameIgnoringOpaqueState expected source
termination_by structural expected => expected

end Ciel.Types
