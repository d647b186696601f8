import Ciel.Types.Assign
import Ciel.Types.InstanceName

/-!
# Patterns and their exhaustiveness

`checkPattern` follows the checker on one pattern: a variant pattern is accepted
for an enum type when it names a variant of it and has a subpattern for every
payload type, or one for every payload type that is stored. Hidden state of the
scrutinee is projected to the payload, which changes the types in the checked
pattern but not what it matches.

The checker looks an enum type up by its instance name, in a table where the first
type of a name was recorded. `tuplePatternsExhaustive` is the matrix decomposition:
the first column is specialised to every variant found for its type, or dropped when
there is none. The decomposition follows the payload types by value, so it is given
fuel; for types of finite by-value structure some amount of it is enough.
-/

namespace Ciel.Typeck.Patterns

open Ciel.Types

structure VariantDecl where
  name : String
  payload : List Ty
  deriving Repr

/-- An enum declaration. No two of its variants share a name; the resolver
rejects others. -/
structure EnumTemplate where
  generics : List String
  variants : List VariantDecl
  distinct : (variants.map VariantDecl.name).Nodup

structure StructTemplate where
  generics : List String
  fields : List Ty
  deriving Repr

/-- The declarations that the checker looks up. -/
structure Program where
  enums : String → Option EnumTemplate
  structs : String → Option StructTemplate
  /-- `nominal_type_name`: the name under which a definition is looked up. -/
  nominalTypeName : DefId → String
  /-- Whether a nominal type is `Future` of the standard library. -/
  isFuture : Option DefId → String → Bool

variable (program : Program)

/-- The name of a nominal type. A resolved one carries the name of its
definition, so it is looked up there. -/
def Program.nameOf (defId : Option DefId) (name : String) : String :=
  (defId.map program.nominalTypeName).getD name

structure CheckedVariant where
  name : String
  payload : List Ty

/-- The payload types of a variant, with the arguments of the enum put in. -/
def logicalPayload (generics : List String) (args : List Ty) (payload : List Ty) : List Ty :=
  payload.map (substituteTy (generics.zip args))

/-- The payload types for which something is stored. -/
def physicalPayload (tys : List Ty) : List Ty := tys.filter fun ty => !ty.isErasedValue

/-- The variants that its declaration gives a concrete enum type. -/
def declaredEnum : Ty → Option (List CheckedVariant)
  | .named defId name args =>
    match program.enums (program.nameOf defId name) with
    | none => none
    | some template =>
      if args.any containsGeneric || args.length != template.generics.length then none
      else some (template.variants.map fun variant =>
        ⟨variant.name, physicalPayload (logicalPayload template.generics args variant.payload)⟩)
  | _ => none

/-- `checked_enums`: the enum instances recorded so far, by instance name. -/
abbrev CheckedEnums := List (String × List CheckedVariant)

/-- A check that can record enum instances, and can fail. -/
abbrev Checking := StateT CheckedEnums Option

/-- `enum_instance_name` of a nominal type. -/
def enumInstanceName : Ty → Option String
  | .named _ name args => some (aggregateInstanceName name args)
  | _ => none

/-- `ensure_enum_instance`: a type is recorded under its instance name, unless
something is already. -/
def ensureEnumInstance (ty : Ty) (enums : CheckedEnums) : CheckedEnums :=
  match enumInstanceName ty, declaredEnum program ty with
  | some name, some variants =>
    if (enums.lookup name).isSome then enums else (name, variants) :: enums
  | _, _ => enums

/-- `checked_enum_for_type`. -/
def checkedEnumForType (ty : Ty) : Checking (Option (List CheckedVariant)) := do
  modify (ensureEnumInstance program ty)
  let enums ← get
  return (enumInstanceName ty).bind fun name => enums.lookup name

/-- A variant, by its enum and its place there. -/
structure VariantRef where
  enumName : String
  index : Nat
  deriving DecidableEq, Repr

/-- What the resolver found for the name of a pattern. -/
inductive NameKind
  | variants (candidates : List VariantRef)
  | binding (id : Nat)
  | error

inductive Pattern
  | wildcard
  | named (kind : NameKind) (subpatterns : List Pattern)

inductive TPattern
  | wildcard (ty : Ty)
  | binding (id : Nat) (ty : Ty)
  | variant (ty : Ty) (name : String) (index : Nat) (payload : List TPattern)

namespace TPattern

def ty : TPattern → Ty
  | .wildcard ty => ty
  | .binding _ ty => ty
  | .variant ty _ _ _ => ty

/-- The subpatterns of a variant pattern for which something is stored. -/
def stored (payload : List TPattern) : List TPattern :=
  payload.filter fun pattern => !pattern.ty.isErasedValue

end TPattern

structure VariantSig where
  enumName : String
  enumGenerics : List String
  name : String
  index : Nat
  payload : List Ty

def Program.variantSig (ref : VariantRef) : Option VariantSig :=
  match program.enums ref.enumName with
  | none => none
  | some template =>
    template.variants[ref.index]?.map fun variant =>
      ⟨ref.enumName, template.generics, variant.name, ref.index, variant.payload⟩

/-- `select_variant_candidate`: the candidate of the expected enum, or the only
one there is. -/
def selectVariantCandidate (candidates : List VariantRef) (expected : Ty) : Option VariantSig :=
  let candidates := candidates.filterMap program.variantSig
  match expected with
  | .named defId name _ =>
    match candidates.filter fun sig => sig.enumName == program.nameOf defId name, candidates with
    | [sig], _ => some sig
    | [], [sig] => some sig
    | _, _ => none
  | _ =>
    match candidates with
    | [sig] => some sig
    | _ => none

/-- `std_async_future_output_arg`. -/
def futureOutputArg (ty : Ty) : Option Ty :=
  match ty.stripOpaqueState with
  | .named defId name [output] => if program.isFuture defId name then some output else none
  | _ => none

/-- `std_async_future_accepts_generated`. -/
def futureAcceptsGenerated (expected actual : Ty) : Bool :=
  match futureOutputArg program expected, actual with
  | some expectedOutput, .generatedFuture _ output _ _ _ _ => decide (expectedOutput = output)
  | some expectedOutput, .opaqueState (.generatedFuture _ output _ _ _ _) _ =>
    decide (expectedOutput = output)
  | _, _ => false

/-- `project_opaque_state_ty`: a part of a value keeps the hidden state recorded
for it. -/
def projectOpaqueStateTy (projected : Ty) : List (String × Ty) → Ty
  | [] => projected
  | [(name, source)] =>
    match source with
    | .opaqueState base state =>
      if canAssignFrom projected base then opaqueStateTy projected state
      else if futureAcceptsGenerated program projected source then source
      else opaqueStateTy projected [(name, source)]
    | _ =>
      if futureAcceptsGenerated program projected source || canAssignFrom projected source then
        source
      else opaqueStateTy projected [(name, source)]
  | selected => opaqueStateTy projected selected

/-- `project_opaque_variant_payload_ty`. -/
def projectVariantPayloadTy (state : List (String × Ty)) (variantName : String)
    (physicalIndex : Nat) (payloadTy : Ty) : Ty :=
  projectOpaqueStateTy program payloadTy
    (state.filter fun entry => entry.1 == s!"{variantName}#{physicalIndex}")

/-- The types at which the subpatterns are checked. Only stored parts have an
index and a projection. -/
def projectedPayload (program : Program) (state : List (String × Ty)) (variantName : String) :
    Nat → List Ty → List Ty
  | _, [] => []
  | index, ty :: tys =>
    if ty.isErasedValue then ty :: projectedPayload program state variantName index tys
    else projectVariantPayloadTy program state variantName index ty ::
      projectedPayload program state variantName (index + 1) tys

/-- The base of the expected type and its hidden state. -/
def splitOpaqueState : Ty → Ty × List (String × Ty)
  | .opaqueState base state => (base, state)
  | ty => (ty, [])

/-- The payload types that the subpatterns of a variant pattern stand for: all
of them or, when their numbers agree, the stored ones. -/
def patternPayload (sig : VariantSig) (args : List Ty) (subpatterns : Nat) : Option (List Ty) :=
  let logical := logicalPayload sig.enumGenerics args sig.payload
  if subpatterns = logical.length then some logical
  else if subpatterns = (physicalPayload logical).length then some (physicalPayload logical)
  else none

mutual

/-- `check_pattern` and `check_variant_pattern`. -/
def checkPattern (program : Program) (isCaseHead : Bool) : Pattern → Ty → Option TPattern
  | .wildcard, expected => if isCaseHead then none else some (.wildcard expected)
  | .named (.binding id) subpatterns, expected =>
    if !isCaseHead && subpatterns.isEmpty then some (.binding id expected) else none
  | .named .error _, _ => none
  | .named (.variants candidates) subpatterns, expected =>
    let (base, state) := splitOpaqueState expected
    match selectVariantCandidate program candidates base, base with
    | some sig, .named defId name args =>
      if program.nameOf defId name = sig.enumName ∧ args.length = sig.enumGenerics.length then
        match patternPayload sig args subpatterns.length with
        | some tys =>
          (checkPatterns program subpatterns
            (projectedPayload program state sig.name 0 tys)).map
            fun payload => .variant base sig.name sig.index payload
        | none => none
      else none
    | _, _ => none

def checkPatterns (program : Program) : List Pattern → List Ty → Option (List TPattern)
  | pattern :: patterns, ty :: tys =>
    match checkPattern program false pattern ty with
    | none => none
    | some checked => (checkPatterns program patterns tys).map (checked :: ·)
  | _, _ => some []

end

/-- A variant pattern whose variant is among the given ones. -/
def TPattern.namesOneOf : TPattern → Option (List CheckedVariant) → Bool
  | .variant _ name _ _, some variants => variants.any fun variant => variant.name == name
  | _, _ => false

/-- `check_case_pattern`: the head of a case names a variant of the enum. -/
def checkCasePattern (scrutinee : Ty) (pattern : Pattern) : Checking TPattern := do
  let checked ← checkPattern program true pattern scrutinee
  let variants ← checkedEnumForType program (splitOpaqueState scrutinee).1
  if checked.namesOneOf variants then return checked else failure

/-- A row of the matrix under one variant of its first column: its payload
patterns in place of the head, wildcards for a head that matches anything. -/
def specializeRow (variant : CheckedVariant) : List TPattern → Option (List TPattern)
  | .variant _ name _ payload :: rest =>
    if name = variant.name then some (TPattern.stored payload ++ rest) else none
  | _ :: rest => some (variant.payload.map TPattern.wildcard ++ rest)
  | [] => none

/-- A row without its first column, if its head matches anything. -/
def dropColumn : List TPattern → Option (List TPattern)
  | .variant .. :: _ => none
  | _ :: rest => some rest
  | [] => none

/-- `tuple_patterns_exhaustive`. -/
def tuplePatternsExhaustive (program : Program) :
    Nat → List Ty → List (List TPattern) → Checking Bool
  | 0, _, _ => failure
  | _ + 1, [], rows => return !rows.isEmpty
  | fuel + 1, ty :: rest, rows => do
    if rows.any fun row => row.length != rest.length + 1 then return false
    match ← checkedEnumForType program ty with
    | some variants =>
      variants.allM fun variant =>
        tuplePatternsExhaustive program fuel (variant.payload ++ rest)
          (rows.filterMap (specializeRow variant))
    | none => tuplePatternsExhaustive program fuel rest (rows.filterMap dropColumn)

/-- `patterns_exhaustive_for_type`. -/
def patternsExhaustiveForType (fuel : Nat) (ty : Ty) (patterns : List TPattern) : Checking Bool :=
  tuplePatternsExhaustive program fuel [ty] (patterns.map fun pattern => [pattern])

end Ciel.Typeck.Patterns
