import Mathlib.Data.List.Basic

/-!
# Types of the checker

`Ty` follows the compiler's own type, with one constructor for its thirteen
primitive types. Constraint references and bounds are mutual with it, because
closures and opaque returns carry constraints whose arguments are types.

Opaque-state annotations record what a handle owns. They do not take part in a
type's identity, and `canonicalTypeIdentityTy` drops them.
-/

namespace Ciel.Types

/-- Index of a definition in the resolved program. -/
abbrev DefId := Nat

inductive ViewMutability
  | writable | readOnly
  deriving DecidableEq, Repr

inductive PrimitiveType
  | bool | char | i8 | i16 | i32 | i64 | u8 | u16 | u32 | u64 | usize | f32 | f64
  deriving DecidableEq, Repr

inductive ClosureOwnerId
  | function (defId : DefId)
  | genericInstance (template : DefId) (id : Nat)
  deriving DecidableEq, Repr

structure ClosureInstanceId where
  owner : ClosureOwnerId
  origin : Nat
  deriving DecidableEq, Repr

mutual

inductive Ty
  | hole (id : Nat)
  | never
  | void
  | primitive (primitive : PrimitiveType)
  | cSpelling (defId : DefId) (abi spelling : String)
  | pointer (nullable : Bool) (mutability : ViewMutability) (inner : Ty)
  | array (len : Nat) (elem : Ty)
  | slice (mutability : ViewMutability) (elem : Ty)
  | named (defId : Option DefId) (name : String) (args : List Ty)
  | generatedFuture (name : String) (output : Ty) (cancelSafe abortable affineState : Bool)
      (state : List (String × Ty))
  | opaqueState (base : Ty) (state : List (String × Ty))
  | generic (name : String)
  | dynamicInterface (defId : DefId) (name : String) (args : List Ty)
  | opaqueReturn (defId : DefId) (args : List Ty) (bounds : ConstraintBounds)
  | function (isUnsafe : Bool) (abi : Option String) (ret : Ty) (params : List Ty)
  | closure (ret : Ty) (params : List Ty) (constraints : ConstraintBounds)
  | closureInstance (id : ClosureInstanceId) (ret : Ty) (params captures : List Ty)
  | unknown

inductive ConstraintRef
  | mk (defId : DefId) (name : String) (args : List Ty)

inductive ConstraintBounds
  | mk (positive negative : List ConstraintRef)

end

mutual

/-- `canonical_type_identity_ty`: the type without its opaque-state annotations.
As in `map_ty_children`, the constraints of a closure are copied unchanged. -/
def canonicalTypeIdentityTy : Ty → Ty
  | .opaqueState base _ => canonicalTypeIdentityTy base
  | .pointer nullable mutability inner =>
    .pointer nullable mutability (canonicalTypeIdentityTy inner)
  | .array len elem => .array len (canonicalTypeIdentityTy elem)
  | .slice mutability elem => .slice mutability (canonicalTypeIdentityTy elem)
  | .named defId name args => .named defId name (canonicalTys args)
  | .generatedFuture name output cancelSafe abortable affineState state =>
    .generatedFuture name (canonicalTypeIdentityTy output) cancelSafe abortable affineState
      (canonicalState state)
  | .dynamicInterface defId name args => .dynamicInterface defId name (canonicalTys args)
  | .opaqueReturn defId args bounds =>
    .opaqueReturn defId (canonicalTys args) (canonicalBounds bounds)
  | .function isUnsafe abi ret params =>
    .function isUnsafe abi (canonicalTypeIdentityTy ret) (canonicalTys params)
  | .closure ret params constraints =>
    .closure (canonicalTypeIdentityTy ret) (canonicalTys params) constraints
  | .closureInstance id ret params captures =>
    .closureInstance id (canonicalTypeIdentityTy ret) (canonicalTys params)
      (canonicalTys captures)
  | .hole id => .hole id
  | .never => .never
  | .void => .void
  | .primitive primitive => .primitive primitive
  | .cSpelling defId abi spelling => .cSpelling defId abi spelling
  | .generic name => .generic name
  | .unknown => .unknown

/-- The canonical forms of a list of types. -/
def canonicalTys : List Ty → List Ty
  | [] => []
  | ty :: tys => canonicalTypeIdentityTy ty :: canonicalTys tys

def canonicalState : List (String × Ty) → List (String × Ty)
  | [] => []
  | entry :: entries => canonicalEntry entry :: canonicalState entries

def canonicalEntry : String × Ty → String × Ty
  | (name, ty) => (name, canonicalTypeIdentityTy ty)

def canonicalRef : ConstraintRef → ConstraintRef
  | .mk defId name args => .mk defId name (canonicalTys args)

def canonicalRefs : List ConstraintRef → List ConstraintRef
  | [] => []
  | entry :: entries => canonicalRef entry :: canonicalRefs entries

def canonicalBounds : ConstraintBounds → ConstraintBounds
  | .mk positive negative => .mk (canonicalRefs positive) (canonicalRefs negative)

end

theorem canonicalTys_eq_map (tys : List Ty) :
    canonicalTys tys = tys.map canonicalTypeIdentityTy := by
  induction tys with
  | nil => rfl
  | cons ty tys ih => simp [canonicalTys, ih]

end Ciel.Types
