import Ciel.Types.Structure

/-!
# Substitution of generic parameters

A template is instantiated by replacing its generic parameters with types. The
replacement goes through the whole type, closure constraints and opaque states
included. An opaque state on top of a type that already has one is merged into
it, so a substituted type has at most one at a time.
-/

namespace Ciel.Types

/-- A map from generic parameters to types. The newest entry of a name counts. -/
abbrev TySubst := List (String × Ty)

/-- `opaque_state_ty`: annotate a type with hidden state, if there is any. -/
def opaqueStateTy (base : Ty) (state : List (String × Ty)) : Ty :=
  if state.isEmpty then base
  else match base with
    | .opaqueState base existing => .opaqueState base (existing ++ state)
    | other => .opaqueState other state

mutual

def substituteTy (subst : TySubst) : Ty → Ty
  | .generic name => (subst.lookup name).getD (.generic name)
  | .pointer nullable mutability inner => .pointer nullable mutability (substituteTy subst inner)
  | .array len elem => .array len (substituteTy subst elem)
  | .slice mutability elem => .slice mutability (substituteTy subst elem)
  | .named defId name args => .named defId name (substituteTys subst args)
  | .generatedFuture name output cancelSafe abortable affineState state =>
    .generatedFuture name (substituteTy subst output) cancelSafe abortable affineState
      (substituteState subst state)
  | .opaqueState base state => opaqueStateTy (substituteTy subst base) (substituteState subst state)
  | .dynamicInterface defId name args => .dynamicInterface defId name (substituteTys subst args)
  | .opaqueReturn defId args bounds =>
    .opaqueReturn defId (substituteTys subst args) (substituteConstraintBounds subst bounds)
  | .function isUnsafe abi ret params =>
    .function isUnsafe abi (substituteTy subst ret) (substituteTys subst params)
  | .closure ret params constraints =>
    .closure (substituteTy subst ret) (substituteTys subst params)
      (substituteConstraintBounds subst constraints)
  | .closureInstance id ret params captures =>
    .closureInstance id (substituteTy subst ret) (substituteTys subst params)
      (substituteTys subst captures)
  | .hole id => .hole id
  | .never => .never
  | .void => .void
  | .primitive primitive => .primitive primitive
  | .cSpelling defId abi spelling => .cSpelling defId abi spelling
  | .unknown => .unknown

def substituteTys (subst : TySubst) : List Ty → List Ty
  | [] => []
  | ty :: tys => substituteTy subst ty :: substituteTys subst tys

def substituteState (subst : TySubst) : List (String × Ty) → List (String × Ty)
  | [] => []
  | entry :: entries => substituteEntry subst entry :: substituteState subst entries

def substituteEntry (subst : TySubst) : String × Ty → String × Ty
  | (name, ty) => (name, substituteTy subst ty)

def substituteConstraintRef (subst : TySubst) : ConstraintRef → ConstraintRef
  | .mk defId name args => .mk defId name (substituteTys subst args)

def substituteConstraintRefs (subst : TySubst) : List ConstraintRef → List ConstraintRef
  | [] => []
  | entry :: entries =>
    substituteConstraintRef subst entry :: substituteConstraintRefs subst entries

def substituteConstraintBounds (subst : TySubst) : ConstraintBounds → ConstraintBounds
  | .mk positive negative =>
    .mk (substituteConstraintRefs subst positive) (substituteConstraintRefs subst negative)

end

theorem substituteTys_eq_map (subst : TySubst) (tys : List Ty) :
    substituteTys subst tys = tys.map (substituteTy subst) := by
  induction tys with
  | nil => rfl
  | cons ty tys ih => simp [substituteTys, ih]

namespace Ty

/-- `is_erased_value`: the type has one value, and nothing is stored for it. -/
def isErasedValue : Ty → Bool
  | .void => true
  | .array _ elem => elem.isErasedValue
  | .opaqueState base _ => base.isErasedValue
  | _ => false

mutual

/-- Some type in the tree, the type itself included, passes the test. -/
def any (p : Ty → Bool) : Ty → Bool
  | .pointer n m inner => p (.pointer n m inner) || inner.any p
  | .array l elem => p (.array l elem) || elem.any p
  | .slice m elem => p (.slice m elem) || elem.any p
  | .named d n args => p (.named d n args) || anyTys p args
  | .generatedFuture n output a b c state =>
    p (.generatedFuture n output a b c state) || output.any p || anyState p state
  | .opaqueState base state => p (.opaqueState base state) || base.any p || anyState p state
  | .dynamicInterface d n args => p (.dynamicInterface d n args) || anyTys p args
  | .opaqueReturn d args bounds =>
    p (.opaqueReturn d args bounds) || anyTys p args || anyBounds p bounds
  | .function u a ret params => p (.function u a ret params) || ret.any p || anyTys p params
  | .closure ret params constraints =>
    p (.closure ret params constraints) || ret.any p || anyTys p params || anyBounds p constraints
  | .closureInstance i ret params captures =>
    p (.closureInstance i ret params captures) || ret.any p || anyTys p params || anyTys p captures
  | leaf => p leaf

def anyTys (p : Ty → Bool) : List Ty → Bool
  | [] => false
  | ty :: tys => ty.any p || anyTys p tys

def anyState (p : Ty → Bool) : List (String × Ty) → Bool
  | [] => false
  | entry :: entries => anyEntry p entry || anyState p entries

def anyEntry (p : Ty → Bool) : String × Ty → Bool
  | (_, ty) => ty.any p

def anyRef (p : Ty → Bool) : ConstraintRef → Bool
  | .mk _ _ args => anyTys p args

def anyRefs (p : Ty → Bool) : List ConstraintRef → Bool
  | [] => false
  | entry :: entries => anyRef p entry || anyRefs p entries

def anyBounds (p : Ty → Bool) : ConstraintBounds → Bool
  | .mk positive negative => anyRefs p positive || anyRefs p negative

end

def isGeneric : Ty → Bool
  | .generic _ => true
  | _ => false

end Ty

/-- `contains_generic`. -/
def containsGeneric (ty : Ty) : Bool := ty.any Ty.isGeneric

end Ciel.Types
