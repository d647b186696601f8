import Ciel.Types.Assign

/-!
# Matching a pattern against a type

`unify_ty` matches the header of a generic implementation against the types of a
query. Generic parameters start out bound to themselves and are bound by the first
type they meet; after that they stand for that type only. The match is one-sided,
except that a closure pattern also matches closures with more constraints, and one
without constraints matches closure instances.

In the source a failed match leaves its bindings behind, but no caller reads them:
here it returns none.
-/

namespace Ciel.Types

/-- `Ty::Generic` in `unify_ty`: bind a parameter, or compare with its binding. -/
def bindGeneric (name : String) (actual : Ty) (subst : TySubst) : Option TySubst :=
  match subst.lookup name with
  | some existing =>
    if existing = .generic name then some ((name, actual) :: subst)
    else if existing = actual then some subst
    else none
  | none => some ((name, actual) :: subst)

mutual

def unifyTy : Ty → Ty → TySubst → Option TySubst
  | .opaqueState base _, actual, subst => unifyTy base actual subst
  | .hole _, _, subst => some subst
  | .generic name, actual, subst => bindGeneric name actual.stripOpaqueState subst
  | .pointer nullable mutability inner, actual, subst =>
    match actual.stripOpaqueState with
    | .pointer nullable' mutability' inner' =>
      if nullable = nullable' ∧ mutability = mutability' then unifyTy inner inner' subst
      else none
    | _ => none
  | .array len elem, actual, subst =>
    match actual.stripOpaqueState with
    | .array len' elem' => if len = len' then unifyTy elem elem' subst else none
    | _ => none
  | .slice mutability elem, actual, subst =>
    match actual.stripOpaqueState with
    | .slice mutability' elem' =>
      if mutability = mutability' then unifyTy elem elem' subst else none
    | _ => none
  | .named defId name args, actual, subst =>
    match actual.stripOpaqueState with
    | .named defId' name' args' =>
      if namedTyIdentityEq defId name defId' name' then unifyTys args args' subst else none
    | _ => none
  | .generatedFuture name output _ _ _ state, actual, subst =>
    match actual.stripOpaqueState with
    | .generatedFuture name' output' _ _ _ state' =>
      if name = name' then (unifyTy output output' subst).bind (unifyState state state')
      else none
    | _ => none
  | .dynamicInterface defId _ args, actual, subst =>
    match actual.stripOpaqueState with
    | .dynamicInterface defId' _ args' =>
      if defId = defId' then unifyTys args args' subst else none
    | _ => none
  | .opaqueReturn defId args _, actual, subst =>
    match actual.stripOpaqueState with
    | .opaqueReturn defId' args' _ =>
      if defId = defId' then unifyTys args args' subst else none
    | _ => none
  | .function isUnsafe abi ret params, actual, subst =>
    match actual.stripOpaqueState with
    | .function isUnsafe' abi' ret' params' =>
      if isUnsafe = isUnsafe' ∧ abi = abi' then
        (unifyTy ret ret' subst).bind (unifyTys params params')
      else none
    | _ => none
  | .closure ret params constraints, actual, subst =>
    match actual.stripOpaqueState with
    | .closure ret' params' constraints' =>
      ((unifyTy ret ret' subst).bind (unifyTys params params')).bind
        (unifyConstraintBounds constraints constraints')
    | .closureInstance _ ret' params' _ =>
      if constraints.isEmpty then (unifyTy ret ret' subst).bind (unifyTys params params')
      else none
    | _ => none
  | .closureInstance id ret params captures, actual, subst =>
    match actual.stripOpaqueState with
    | .closureInstance id' ret' params' captures' =>
      if id = id' then
        ((unifyTy ret ret' subst).bind (unifyTys params params')).bind
          (unifyTys captures captures')
      else none
    | _ => none
  | other, actual, subst => if other = actual.stripOpaqueState then some subst else none
termination_by structural pattern => pattern

/-- The types of two lists in turn. The lengths are compared first in the source,
where a mismatch fails as it does here. -/
def unifyTys : List Ty → List Ty → TySubst → Option TySubst
  | [], [], subst => some subst
  | pattern :: patterns, actual :: actuals, subst =>
    (unifyTy pattern actual subst).bind (unifyTys patterns actuals)
  | _, _, _ => none
termination_by structural patterns => patterns

def unifyState : List (String × Ty) → List (String × Ty) → TySubst → Option TySubst
  | [], [], subst => some subst
  | pattern :: patterns, actual :: actuals, subst =>
    (unifyEntry pattern actual subst).bind (unifyState patterns actuals)
  | _, _, _ => none
termination_by structural patterns => patterns

def unifyEntry : String × Ty → String × Ty → TySubst → Option TySubst
  | (_, pattern), (_, actual), subst => unifyTy pattern actual subst
termination_by structural pattern => pattern

def unifyConstraintBounds : ConstraintBounds → ConstraintBounds → TySubst → Option TySubst
  | .mk positive negative, actual, subst =>
    (unifyConstraintRefs positive actual.positive subst).bind
      (unifyConstraintRefs negative actual.negative)
termination_by structural pattern => pattern

/-- Each constraint of the pattern is matched with some constraint of the closure;
an earlier choice is revised when a later constraint finds no partner. -/
def unifyConstraintRefs : List ConstraintRef → List ConstraintRef → TySubst → Option TySubst
  | [], _, subst => some subst
  | first :: rest, actual, subst =>
    actual.findSome? fun candidate =>
      (unifyConstraintRef first candidate subst).bind (unifyConstraintRefs rest actual)
termination_by structural pattern => pattern

def unifyConstraintRef : ConstraintRef → ConstraintRef → TySubst → Option TySubst
  | .mk _ name args, candidate, subst =>
    if name = candidate.name then unifyTys args candidate.args subst else none
termination_by structural pattern => pattern

end

/-- The parameters of a template, each bound to itself. -/
def selfSubst (generics : List String) : TySubst := generics.map fun name => (name, .generic name)

/-- No parameter is left open. -/
def TySubst.bindsAll (subst : TySubst) (generics : List String) : Bool :=
  generics.all fun name => (subst.lookup name).any fun ty => !containsGeneric ty

/-- A header matches: the types of the query match its types in turn, and no
parameter is left open. -/
def matchHeader (generics : List String) (patterns actuals : List Ty) : Option TySubst :=
  (unifyTys patterns actuals (selfSubst generics)).filter (TySubst.bindsAll · generics)

example : matchHeader ["T"] [.generic "T", .named none "Box" [.generic "T"]]
    [.primitive .i64, .named none "Box" [.primitive .i64]] =
      some [("T", .primitive .i64), ("T", .generic "T")] := by decide

end Ciel.Types
