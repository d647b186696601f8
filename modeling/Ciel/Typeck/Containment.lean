import Ciel.Library.Recording
import Ciel.Typeck.Exhaustive
import Ciel.Types.Parts

/-!
# Affine types

A value may be used once if its type holds a resource or a future by value. The
checker hunts for one through fields, payloads, elements, captures and the types
behind opaque ones, and the named types in progress are not gone through again.

Structs and enums are looked up by their instance names, in tables to which a lookup
may add. Where no two types share an instance name, the tables say what the
declarations say, and the hunt goes along the declarations.
-/

namespace Ciel.Typeck

open Ciel.Types Library
open Patterns (Program CheckedEnums declaredEnum ensureEnumInstance enumInstanceName logicalPayload)
open Relation (ReflTransGen)

/-- The types of the values that a value is made of, aggregates apart. -/
def valueParts : Ty → List Ty
  | .array _ elem => [elem]
  | .opaqueState base state => base :: state.map Prod.snd
  | .closureInstance _ _ _ captures => captures
  | _ => []

/-- `opaque_returns`: what the opaque results of functions stand for. -/
abbrev OpaqueReturns := List ((DefId × List Ty) × Ty)

namespace OpaqueReturns

variable (table : OpaqueReturns)

/-- One pass over a type; what stands for an opaque return is left to `next`. -/
def lowerWith (next : Ty → Ty) : Ty → Ty :=
  rebuild fun original rebuilt => match original, rebuilt with
    | .opaqueReturn defId args bounds, _ =>
      ((table.lookup (defId, args)).map next).getD (.opaqueReturn defId args bounds)
    | .closure _ _ constraints, .closure ret params _ => .closure ret params constraints
    | _, .opaqueState base state => opaqueStateTy base state
    | _, other => other

/-- `lower_opaque_returns_in_ty`, where opaque returns stand for others at most `depth`
times in a row. -/
def lower : (depth : Nat) → Ty → Ty
  | 0 => lowerWith table id
  | depth + 1 => lowerWith table (lower depth)

/-- No value in a value of the type has a type that stands for another. -/
def Settled (ty : Ty) : Prop :=
  ∀ defId args bounds,
    ReflTransGen (fun whole part => part ∈ valueParts whole) ty (.opaqueReturn defId args bounds) →
    table.lookup (defId, args) = none

end OpaqueReturns

/-- What the checker knows when it asks whether a type is affine. -/
structure AffineTypeEnv extends Program where
  isResource : String → Bool
  isStdResourceHandle : Option DefId → String → Bool
  resourceGenerics : List String
  opaqueReturns : OpaqueReturns
  depth : Nat
  /-- No opaque return stands for itself; the checker refuses one that does. -/
  settles : ∀ ty, opaqueReturns.Settled (opaqueReturns.lower depth ty)
  /-- No struct and enum share a name. -/
  apart : ∀ name, structs name = none ∨ enums name = none
  /-- The handles of the standard library are resources. -/
  handle_resource : ∀ defId name, isStdResourceHandle defId name = true →
    isResource (toProgram.nameOf defId name) = true ∧
      ∃ template, structs (toProgram.nameOf defId name) = some template ∧ template.generics = []

structure AffineStructInfo where
  isResource : Bool
  fields : List Ty

/-- The instances recorded so far, by instance name: `structs`, `resource_structs` and
`checked_enums`. -/
structure Instances where
  structs : List (String × List Ty)
  resourceStructs : List String
  checkedEnums : CheckedEnums

/-- A question that may record instances. It is out of fuel where there is no answer. -/
abbrev Registering := StateT Instances Option

namespace AffineTypeEnv

variable (env : AffineTypeEnv)

def isResourceHandleLeaf : Ty → Bool
  | .named defId name args => args.isEmpty && env.isStdResourceHandle defId name
  | _ => false

def namedTypeIsAsyncFuture : Ty → Bool
  | .named defId name args => args.length == 1 && env.isFuture defId name
  | _ => false

/-- `lower_opaque_returns_in_ty`. -/
def lowerOpaqueReturnsInTy (ty : Ty) : Ty := env.opaqueReturns.lower env.depth ty

def opaqueReturnConcrete (ty : Ty) : Option Ty :=
  if env.lowerOpaqueReturnsInTy ty = ty then none else some (env.lowerOpaqueReturnsInTy ty)

/-- What its declaration says of a struct type, with its arguments put in. -/
def declaredStruct : Ty → Option AffineStructInfo
  | .named defId name args =>
    match env.structs (env.nameOf defId name) with
    | none => none
    | some template =>
      if args.length ≠ template.generics.length then none
      else some ⟨env.isResource (env.nameOf defId name),
        template.fields.map (substituteTy (template.generics.zip args))⟩
  | _ => none

/-- `ensure_struct_instance` of a nominal type. -/
def ensureStructInstance (ty : Ty) (tables : Instances) : Instances :=
  match ty, env.declaredStruct ty with
  | .named _ name args, some info =>
    let instanceName := aggregateInstanceName name args
    if args.any containsGeneric || (tables.structs.lookup instanceName).isSome then tables
    else
      { tables with
        structs := (instanceName, info.fields) :: tables.structs
        resourceStructs :=
          if info.isResource then instanceName :: tables.resourceStructs
          else tables.resourceStructs }
  | _, _ => tables

/-- The fields of a resource are not asked for. -/
def shownInfo (info : AffineStructInfo) : AffineStructInfo :=
  if info.isResource then ⟨true, []⟩ else info

/-- `named_struct_info`. -/
def namedStructInfo : Ty → Registering (Option AffineStructInfo)
  | .named defId name args => do
    let tables ← get
    if tables.resourceStructs.contains (aggregateInstanceName name args) then
      return some ⟨true, []⟩
    modify (env.ensureStructInstance (.named defId name args))
    let tables ← get
    match tables.structs.lookup (aggregateInstanceName name args) with
    | some fields => return some ⟨false, fields⟩
    | none =>
      if args.any containsGeneric then
        return (env.declaredStruct (.named defId name args)).map shownInfo
      else return none
  | _ => return none

/-- The payloads of an enum type that has parameters among its arguments. -/
def templatePayloads : Ty → Option (List Ty)
  | .named defId name args =>
    match env.enums (env.nameOf defId name) with
    | none => none
    | some template =>
      if args.any containsGeneric && args.length == template.generics.length then
        some (template.variants.flatMap fun variant =>
          logicalPayload template.generics args variant.payload)
      else none
  | _ => none

def ensureCheckedEnum (ty : Ty) (tables : Instances) : Instances :=
  { tables with checkedEnums := ensureEnumInstance env.toProgram ty tables.checkedEnums }

/-- `named_enum_payloads`. -/
def namedEnumPayloads : Ty → Registering (Option (List Ty))
  | .named defId name args => do
    modify (env.ensureCheckedEnum (.named defId name args))
    let tables ← get
    match tables.checkedEnums.lookup (aggregateInstanceName name args) with
    | some variants => return some (variants.flatMap (·.payload))
    | none => return env.templatePayloads (.named defId name args)
  | _ => return none

/-- Ask in order up to the first that is affine. -/
def anyAffine (ask : Ty → Registering Bool) : List Ty → Registering Bool
  | [] => return false
  | ty :: rest => do if ← ask ty then return true else anyAffine ask rest

/-- `type_is_affine_inner`. -/
def typeIsAffineInner : (fuel : Nat) → (visiting : List Ty) → Ty → Registering Bool
  | 0, _, _ => fun _ => none
  | fuel + 1, visiting, ty =>
    if env.isResourceHandleLeaf ty then return true
    else match ty with
      | .opaqueReturn defId args bounds =>
        match env.opaqueReturnConcrete (.opaqueReturn defId args bounds) with
        | some concrete => typeIsAffineInner fuel visiting concrete
        | none => return false
      | .generic name => return name ∈ env.resourceGenerics
      | .array _ elem => typeIsAffineInner fuel visiting elem
      | .generatedFuture _ _ _ _ _ _ => return true
      | .opaqueState base state =>
        anyAffine (typeIsAffineInner fuel visiting) (base :: state.map Prod.snd)
      | .closureInstance _ _ _ captures => anyAffine (typeIsAffineInner fuel visiting) captures
      | .named defId name args => do
        let ty := Ty.named defId name args
        if env.namedTypeIsAsyncFuture ty then return true
        if ty ∈ visiting then return false
        match ← env.namedStructInfo ty with
        | some info =>
          if info.isResource then return true
          else anyAffine (typeIsAffineInner fuel (ty :: visiting)) info.fields
        | none =>
          match ← env.namedEnumPayloads ty with
          | some payloads => anyAffine (typeIsAffineInner fuel (ty :: visiting)) payloads
          | none => return false
      | _ => return false

/-- `type_is_affine`. -/
def typeIsAffine (fuel : Nat) (ty : Ty) : Registering Bool := env.typeIsAffineInner fuel [] ty

/-! ### What the declarations say -/

/-- The payloads of an enum type. Only the instances say what is stored. -/
def enumPayloads (ty : Ty) : Option (List Ty) :=
  match declaredEnum env.toProgram ty with
  | some variants => some (variants.flatMap (·.payload))
  | none => env.templatePayloads ty

/-- One step of the hunt along the declarations: none if the type is affine, and else
the types that decide. -/
def affineLook (ty : Ty) : Option (List Ty) :=
  if env.isResourceHandleLeaf ty then none
  else match ty with
    | .opaqueReturn _ _ _ => some (env.opaqueReturnConcrete ty).toList
    | .generic name => if name ∈ env.resourceGenerics then none else some []
    | .generatedFuture _ _ _ _ _ _ => none
    | .named _ _ _ =>
      if env.namedTypeIsAsyncFuture ty then none
      else match env.declaredStruct ty with
        | some info => if info.isResource then none else some info.fields
        | none => some ((env.enumPayloads ty).getD [])
    | ty => some (valueParts ty)

/-- The types that are put among those in progress. A type that is affine at once is
answered before. -/
def tracked (look : Ty → Option (List Ty)) : Ty → Bool
  | .named defId name args => (look (.named defId name args)).isSome
  | _ => false

/-- The hunt along the declarations. -/
def affineHunt : Plan Ty Bool := Plan.hunt env.affineLook (tracked env.affineLook)

/-- A value of the first type holds one of the second. -/
inductive Contains : Ty → Ty → Prop
  | part {ty part : Ty} (member : part ∈ valueParts ty) : Contains ty part
  | concrete {defId : DefId} {args : List Ty} {bounds : ConstraintBounds} {part : Ty}
      (found : env.opaqueReturnConcrete (.opaqueReturn defId args bounds) = some part) :
      Contains (.opaqueReturn defId args bounds) part
  | field {ty part : Ty} {info : AffineStructInfo} (found : env.declaredStruct ty = some info)
      (member : part ∈ info.fields) : Contains ty part
  | payload {ty part : Ty} {payloads : List Ty} (found : env.enumPayloads ty = some payloads)
      (member : part ∈ payloads) : Contains ty part

/-- Resources, futures, and parameters that stand for resources. -/
inductive Leaf : Ty → Prop
  | handle {ty : Ty} (isHandle : env.isResourceHandleLeaf ty = true) : Leaf ty
  | resource {ty : Ty} {info : AffineStructInfo} (found : env.declaredStruct ty = some info)
      (isResource : info.isResource = true) : Leaf ty
  | future {ty : Ty} (isFuture : env.namedTypeIsAsyncFuture ty = true) : Leaf ty
  | generated {name : String} {output : Ty} {cancelSafe abortable affineState : Bool}
      {state : List (String × Ty)} :
      Leaf (.generatedFuture name output cancelSafe abortable affineState state)
  | generic {name : String} (member : name ∈ env.resourceGenerics) : Leaf (.generic name)

variable {env} {ty part : Ty}

theorem declaredStruct_unnamed (unnamed : ∀ defId name args, ty ≠ .named defId name args) :
    env.declaredStruct ty = none := by
  cases ty with
  | named defId name args => exact absurd rfl (unnamed defId name args)
  | _ => rfl

theorem enumPayloads_unnamed (unnamed : ∀ defId name args, ty ≠ .named defId name args) :
    env.enumPayloads ty = none := by
  cases ty with
  | named defId name args => exact absurd rfl (unnamed defId name args)
  | _ => rfl

theorem enumPayloads_struct {info : AffineStructInfo} (found : env.declaredStruct ty = some info) :
    env.enumPayloads ty = none := by
  cases ty with
  | named defId name args =>
    rw [declaredStruct] at found
    split at found
    next => cases found
    next template isStruct =>
      have none := (env.apart (env.nameOf defId name)).resolve_left (by simp [isStruct])
      simp [enumPayloads, declaredEnum, templatePayloads, none]
  | _ => cases found

theorem resource_of_handle (isHandle : env.isResourceHandleLeaf ty = true) :
    ∃ info, env.declaredStruct ty = some info ∧ info.isResource = true := by
  cases ty with
  | named defId name args =>
    obtain ⟨noArgs, isHandle⟩ := Bool.and_eq_true_iff.mp isHandle
    obtain ⟨isResource, template, found, closed⟩ := env.handle_resource defId name isHandle
    rw [List.isEmpty_iff.mp noArgs]
    exact ⟨_, by simp [declaredStruct, found, closed, isResource]; rfl, rfl⟩
  | _ => cases isHandle

/-- What an unnamed type contains. -/
theorem contains_unnamed (unnamed : ∀ defId name args, ty ≠ .named defId name args)
    (known : ∀ defId args bounds, ty ≠ .opaqueReturn defId args bounds) :
    env.Contains ty part ↔ part ∈ valueParts ty := by
  refine ⟨fun contains => ?_, .part⟩
  cases contains with
  | part member => exact member
  | concrete => exact absurd rfl (known _ _ _)
  | field found => cases (declaredStruct_unnamed unnamed).symm.trans found
  | payload found => cases (enumPayloads_unnamed unnamed).symm.trans found

/-- A type that is no leaf is decided by what it contains. -/
theorem affineLook_of_not_leaf (notLeaf : ¬env.Leaf ty) :
    ∃ parts, env.affineLook ty = some parts ∧ ∀ part, part ∈ parts ↔ env.Contains ty part := by
  have noHandle : env.isResourceHandleLeaf ty = false :=
    Bool.eq_false_iff.mpr fun isHandle => notLeaf (.handle isHandle)
  cases ty with
  | named defId name args =>
    have noFuture : env.namedTypeIsAsyncFuture (.named defId name args) = false :=
      Bool.eq_false_iff.mpr fun isFuture => notLeaf (.future isFuture)
    cases found : env.declaredStruct (.named defId name args) with
    | some info =>
      have noResource : info.isResource = false :=
        Bool.eq_false_iff.mpr fun isResource => notLeaf (.resource found isResource)
      refine ⟨info.fields, by simp [affineLook, noHandle, noFuture, found, noResource], ?_⟩
      refine fun part => ⟨.field found, fun contains => ?_⟩
      cases contains with
      | part member => cases member
      | field found' member => exact Option.some.inj (found.symm.trans found') ▸ member
      | payload found' => cases (enumPayloads_struct found).symm.trans found'
    | none =>
      refine ⟨_, by simp [affineLook, noHandle, noFuture, found]; rfl, fun part => ⟨?_, ?_⟩⟩
      · cases payloads : env.enumPayloads (.named defId name args) with
        | none => nofun
        | some _ => exact .payload payloads
      · intro contains
        cases contains with
        | part member => cases member
        | field found' => cases found.symm.trans found'
        | payload found' member => simpa [found'] using member
  | opaqueReturn defId args bounds =>
    refine ⟨_, by simp [affineLook, noHandle]; rfl, fun part => ?_⟩
    refine ⟨fun member => .concrete (by simpa using member), fun contains => ?_⟩
    cases contains with
    | part member => cases member
    | concrete found => simpa using found
    | field found => cases found
    | payload found => cases found
  | generic name =>
    have plain : name ∉ env.resourceGenerics := fun member => notLeaf (.generic member)
    refine ⟨valueParts (.generic name), by simp [affineLook, noHandle, plain, valueParts],
      fun part => ?_⟩
    exact (contains_unnamed (by nofun) (by nofun)).symm
  | generatedFuture => exact absurd .generated notLeaf
  | _ =>
    refine ⟨_, by simp [affineLook, noHandle]; rfl, fun part => ?_⟩
    exact (contains_unnamed (by nofun) (by nofun)).symm

theorem affineLook_eq_none : env.affineLook ty = none ↔ env.Leaf ty := by
  constructor
  · intro none
    by_contra notLeaf
    obtain ⟨parts, found, -⟩ := affineLook_of_not_leaf notLeaf
    cases none.symm.trans found
  · intro leaf
    cases leaf with
    | handle isHandle => simp [affineLook, isHandle]
    | generated | generic member => simp_all [affineLook]
    | resource found isResource =>
      cases ty with
      | named => simp [affineLook, found, isResource]
      | _ => cases found
    | future isFuture =>
      cases ty with
      | named => simp [affineLook, isFuture]
      | _ => cases isFuture

theorem points_affineLook (notLeaf : ¬env.Leaf ty) :
    Hunt.Points env.affineLook ty part ↔ env.Contains ty part := by
  obtain ⟨parts, found, contains⟩ := affineLook_of_not_leaf notLeaf
  simp [Hunt.Points, found, contains]

theorem contains_of_points (points : Hunt.Points env.affineLook ty part) :
    env.Contains ty part := by
  refine (points_affineLook fun leaf => ?_).mp points
  obtain ⟨parts, found, -⟩ := points
  cases (affineLook_eq_none.mpr leaf).symm.trans found

/-! ### The hunt ends -/

/-- The type with its opaque returns put in, without merging opaque states. -/
def spread (env : AffineTypeEnv) : Ty → Ty :=
  rebuild fun original rebuilt => match original, rebuilt with
    | .array len _, .array _ elem => .array len elem
    | .opaqueState _ _, .opaqueState base state => .opaqueState base state
    | .closureInstance id ret params _, .closureInstance _ _ _ captures =>
      .closureInstance id ret params captures
    | .opaqueReturn defId args bounds, _ =>
      env.lowerOpaqueReturnsInTy (.opaqueReturn defId args bounds)
    | other, _ => other

theorem spread_part (member : part ∈ valueParts ty) :
    env.spread part ∈ valueParts (env.spread ty) := by
  rw [spread, rebuild_eq _ ty, ← spread]
  cases ty with
  | array len elem =>
    obtain rfl := List.mem_singleton.1 member
    exact List.mem_singleton_self _
  | opaqueState base state =>
    simp only [valueParts, Ty.mapParts, map_snd_mapState]
    exact List.mem_map_of_mem member
  | closureInstance => exact List.mem_map_of_mem member
  | _ => cases member

theorem valueParts_subset (ty : Ty) : valueParts ty ⊆ ty.children := by
  cases ty with
  | closureInstance => exact List.subset_append_right _ _
  | array | opaqueState => exact fun _ => id
  | _ => exact List.nil_subset _

theorem settled_part (settled : env.opaqueReturns.Settled ty) (member : part ∈ valueParts ty) :
    env.opaqueReturns.Settled part :=
  fun defId args bounds way => settled defId args bounds (.head member way)

theorem lower_opaqueReturn {defId : DefId} {args : List Ty} {bounds : ConstraintBounds}
    (none : env.opaqueReturns.lookup (defId, args) = none) :
    env.lowerOpaqueReturnsInTy (.opaqueReturn defId args bounds) =
      .opaqueReturn defId args bounds := by
  rw [lowerOpaqueReturnsInTy]
  cases env.depth <;> rw [OpaqueReturns.lower, OpaqueReturns.lowerWith, rebuild_eq] <;> simp [none]

theorem spread_of_settled (settled : env.opaqueReturns.Settled ty) : env.spread ty = ty := by
  induction ty with
  | step ty ih =>
    have back (part : Ty) (member : part ∈ valueParts ty) : env.spread part = id part :=
      ih part (valueParts_subset ty member) (settled_part settled member)
    rw [spread, rebuild_eq, ← spread]
    cases ty with
    | array len elem => exact congrArg _ (back elem (List.mem_singleton_self _))
    | opaqueState base state =>
      have states : mapState env.spread state = state :=
        (mapState_congr fun part member => back part (List.mem_cons_of_mem _ member)).trans
          (List.map_id state)
      simp only [Ty.mapParts, back base List.mem_cons_self, states, id]
    | closureInstance owner ret params captures =>
      have captures : captures.map env.spread = captures.map id := List.map_congr_left back
      simp only [Ty.mapParts, captures, List.map_id_fun, id]
    | opaqueReturn defId args bounds => exact lower_opaqueReturn (settled defId args bounds .refl)
    | _ => rfl

/-- How large a type is with its opaque returns put in, and whether there are any. -/
noncomputable def rank (env : AffineTypeEnv) (ty : Ty) : Nat :=
  2 * sizeOf (env.spread ty) + if env.spread ty = ty then 0 else 1

theorem rank_lt_of_part (member : part ∈ valueParts ty) : env.rank part < env.rank ty := by
  have child : env.spread part ∈ (env.spread ty).children := by
    have inside : env.spread part ∈ valueParts (env.spread ty) := spread_part member
    cases form : env.spread ty <;> simp_all [valueParts, Ty.children]
  have smaller := Ty.sizeOf_lt_of_mem_children child
  unfold rank
  split <;> split <;> omega

theorem rank_lt_of_concrete {defId : DefId} {args : List Ty} {bounds : ConstraintBounds}
    (found : env.opaqueReturnConcrete (.opaqueReturn defId args bounds) = some part) :
    env.rank part < env.rank (.opaqueReturn defId args bounds) := by
  rw [opaqueReturnConcrete] at found
  split at found
  next => cases found
  next changed =>
    cases found
    have here : env.spread (.opaqueReturn defId args bounds) =
        env.lowerOpaqueReturnsInTy (.opaqueReturn defId args bounds) := by
      rw [spread, rebuild_eq]
    have there : env.spread (env.lowerOpaqueReturnsInTy (.opaqueReturn defId args bounds)) =
        env.lowerOpaqueReturnsInTy (.opaqueReturn defId args bounds) :=
      spread_of_settled (env.settles _)
    rw [rank, rank, here, there, if_pos rfl, if_neg changed]
    omega

theorem rank_lt_of_contains {look : Ty → Option (List Ty)} (contains : env.Contains ty part)
    (untracked : tracked look ty = false) (points : Hunt.Points look ty part) :
    env.rank part < env.rank ty := by
  have unnamed (defId : Option DefId) (name : String) (args : List Ty) :
      ty ≠ .named defId name args := by
    rintro rfl
    obtain ⟨others, found, -⟩ := points
    simp [tracked, found] at untracked
  cases contains with
  | part member => exact rank_lt_of_part member
  | concrete found => exact rank_lt_of_concrete found
  | field found => cases (declaredStruct_unnamed unnamed).symm.trans found
  | payload found => cases (enumPayloads_unnamed unnamed).symm.trans found

/-! ### The tables say what the declarations say -/

/-- Instance names tell the given types apart, and what is recorded under their names is
their own. The resources among them are recorded. -/
structure NamesApart (env : AffineTypeEnv) (R : Ty → Prop) (tables : Instances) : Prop where
  same : ∀ {a b name}, R a → R b → enumInstanceName a = some name →
    enumInstanceName b = some name → a = b
  structs : ∀ {a name fields}, R a → enumInstanceName a = some name →
    tables.structs.lookup name = some fields →
    containsGeneric a = false ∧ ∃ isResource, env.declaredStruct a = some ⟨isResource, fields⟩
  resources : ∀ {a name}, R a → enumInstanceName a = some name → name ∈ tables.resourceStructs →
    ∃ fields, env.declaredStruct a = some ⟨true, fields⟩
  recorded : ∀ {a name fields}, R a → enumInstanceName a = some name → containsGeneric a = false →
    env.declaredStruct a = some ⟨true, fields⟩ → name ∈ tables.resourceStructs
  enums : ∀ {a name variants}, R a → enumInstanceName a = some name →
    tables.checkedEnums.lookup name = some variants → declaredEnum env.toProgram a = some variants

variable {R : Ty → Prop} {tables : Instances}

theorem containsGeneric_named (defId : Option DefId) (name : String) (args : List Ty) :
    containsGeneric (.named defId name args) = args.any containsGeneric := by
  rw [containsGeneric, Ty.any_eq]
  rfl

theorem NamesApart.ensureStructInstance (apart : env.NamesApart R tables) (here : R ty) :
    env.NamesApart R (env.ensureStructInstance ty tables) := by
  unfold AffineTypeEnv.ensureStructInstance
  split
  next defId name args info declared =>
    dsimp only
    split
    next => exact apart
    rename_i fresh
    obtain ⟨concrete, -⟩ := Bool.or_eq_false_iff.1 (Bool.eq_false_iff.2 fresh)
    have self {a : Ty} {n : String} (inside : R a) (named : enumInstanceName a = some n)
        (eq : n = aggregateInstanceName name args) : a = .named defId name args :=
      apart.same inside here named (congrArg some eq.symm)
    refine ⟨apart.same, fun {a n fields} inside named found => ?_,
      fun {a n} inside named found => ?_,
      fun {a n fields} inside named closed resource => ?_, apart.enums⟩
    · rw [List.lookup_cons] at found
      split at found
      next eq =>
        cases found
        obtain rfl := self inside named (beq_iff_eq.1 eq)
        exact ⟨(containsGeneric_named ..).trans concrete, info.isResource, declared⟩
      next => exact apart.structs inside named found
    · cases isResource : info.isResource with
      | false => exact apart.resources inside named (by simpa [isResource] using found)
      | true =>
        obtain eq | found : n = aggregateInstanceName name args ∨ n ∈ tables.resourceStructs := by
          simpa [isResource] using found
        · obtain rfl := self inside named eq
          exact ⟨info.fields, by rw [declared, ← isResource]⟩
        · exact apart.resources inside named found
    · have before := apart.recorded inside named closed resource
      split
      · exact List.mem_cons_of_mem _ before
      · exact before
  next => exact apart

theorem NamesApart.ensureCheckedEnum (apart : env.NamesApart R tables) (here : R ty) :
    env.NamesApart R (env.ensureCheckedEnum ty tables) := by
  refine ⟨apart.same, apart.structs, apart.resources, apart.recorded, ?_⟩
  have enums : Patterns.NamesApart env.toProgram R tables.checkedEnums :=
    ⟨fun a b named named' => by rw [apart.same a b named named'], apart.enums⟩
  exact fun {a name variants} inside named found => (enums.ensure here).recorded inside named found

/-- An instance is recorded after it was ensured. -/
theorem lookup_ensureStructInstance {defId : Option DefId} {name : String} {args : List Ty}
    {info : AffineStructInfo} (concrete : args.any containsGeneric = false)
    (declared : env.declaredStruct (.named defId name args) = some info) :
    ((env.ensureStructInstance (.named defId name args) tables).structs.lookup
      (aggregateInstanceName name args)).isSome = true := by
  simp only [AffineTypeEnv.ensureStructInstance, declared, concrete, Bool.false_or]
  split
  next found => exact found
  next => simp

/-- A struct is found by name as it was declared. -/
theorem gives_namedStructInfo (here : R ty) : Gives (env.NamesApart R) (env.namedStructInfo ty)
    (some ((env.declaredStruct ty).map shownInfo)) := by
  intro tables apart
  cases ty with
  | named defId name args =>
    have named : enumInstanceName (.named defId name args) =
      some (aggregateInstanceName name args) := rfl
    by_cases resource : aggregateInstanceName name args ∈ tables.resourceStructs
    · obtain ⟨fields, declared⟩ := apart.resources here named resource
      refine ⟨tables, apart, ?_⟩
      simp [namedStructInfo, resource, declared, shownInfo]
    have after := apart.ensureStructInstance here
    refine ⟨_, after, ?_⟩
    simp only [namedStructInfo, StateT.run_bind, StateT.run_get, Option.pure_def,
      Option.bind_eq_bind,
      Option.bind_some, List.contains_iff_mem, resource, if_false, StateT.run_modify]
    cases found : (env.ensureStructInstance (.named defId name args) tables).structs.lookup
        (aggregateInstanceName name args) with
    | some fields =>
      obtain ⟨concrete, isResource, declared⟩ := after.structs here named found
      cases isResource with
      | true => exact absurd (apart.recorded here named concrete declared) resource
      | false => simp [declared, shownInfo]
    | none =>
      cases generic : args.any containsGeneric with
      | true => simp
      | false =>
        cases declared : env.declaredStruct (.named defId name args) with
        | none => simp
        | some info =>
          have recorded :
            ((env.ensureStructInstance (.named defId name args) tables).structs.lookup
              (aggregateInstanceName name args)).isSome = true :=
            lookup_ensureStructInstance generic declared
          rw [found] at recorded
          cases recorded
  | _ => exact ⟨tables, apart, rfl⟩

/-- The payloads of an enum are found by name as they were declared. -/
theorem gives_namedEnumPayloads (here : R ty) : Gives (env.NamesApart R) (env.namedEnumPayloads ty)
    (some (env.enumPayloads ty)) := by
  intro tables apart
  cases ty with
  | named defId name args =>
    have after := apart.ensureCheckedEnum here
    refine ⟨_, after, ?_⟩
    have found :
      (ensureEnumInstance env.toProgram (.named defId name args) tables.checkedEnums).lookup
        (aggregateInstanceName name args) = declaredEnum env.toProgram
          (.named defId name args) := by
      have enums : Patterns.NamesApart env.toProgram R tables.checkedEnums :=
        ⟨fun a b named named' => by rw [apart.same a b named named'], apart.enums⟩
      have run := Patterns.checkedEnumForType_run enums here
      exact congrArg Prod.fst (Option.some.inj run)
    simp only [namedEnumPayloads, StateT.run_bind, StateT.run_get, Option.pure_def,
      Option.bind_eq_bind,
      Option.bind_some, StateT.run_modify, ensureCheckedEnum, found]
    cases declared : declaredEnum env.toProgram (.named defId name args) <;>
      simp [enumPayloads, declared]
  | _ => exact ⟨tables, apart, rfl⟩

theorem gives_anyAffine {ask : Ty → Registering Bool} {f : Ty → Option Bool} {parts : List Ty}
    (each : ∀ part ∈ parts, Gives (env.NamesApart R) (ask part) (f part)) :
    Gives (env.NamesApart R) (anyAffine ask parts)
      ((Ask.upTo true (fun part => .ask part .done) parts).run f) :=
  .upTo rfl (fun _ _ => rfl) each

variable {visiting : List Ty} {fuel : Nat}

theorem search_of_leaf (leaf : env.affineLook ty = none) :
    env.affineHunt.search (fuel + 1) visiting ty = some true := by
  have free : tracked env.affineLook ty = false := by
    cases ty with
    | named => simp [tracked, leaf]
    | _ => rfl
  simp [Plan.search, Plan.cuts, affineHunt, Plan.hunt, free, leaf, Ask.run]

theorem search_of_parts {parts : List Ty} (found : env.affineLook ty = some parts)
    (fresh : tracked env.affineLook ty = true → ty ∉ visiting) :
    env.affineHunt.search (fuel + 1) visiting ty =
      (Ask.upTo true (fun part => .ask part .done) parts).run
        (env.affineHunt.search fuel (env.affineHunt.enter visiting ty)) := by
  have goes : ¬env.affineHunt.cuts visiting ty = true :=
    fun cut => fresh (Plan.cuts_iff.1 cut).1 (Plan.cuts_iff.1 cut).2
  rw [Plan.search, if_neg goes]
  simp only [affineHunt, Plan.hunt, found]

theorem search_unnamed {parts : List Ty} (unnamed : tracked env.affineLook ty = false)
    (found : env.affineLook ty = some parts) : env.affineHunt.search (fuel + 1) visiting ty =
      (Ask.upTo true (fun part => .ask part .done) parts).run
        (env.affineHunt.search fuel visiting) := by
  have enter : env.affineHunt.enter visiting ty = visiting :=
    if_neg (Bool.eq_false_iff.1 unnamed)
  rw [search_of_parts found fun isTracked => absurd isTracked (Bool.eq_false_iff.1 unnamed), enter]

theorem search_named {parts : List Ty} {defId : Option DefId} {name : String} {args : List Ty}
    (fresh : .named defId name args ∉ visiting)
    (found : env.affineLook (.named defId name args) = some parts) :
    env.affineHunt.search (fuel + 1) visiting (.named defId name args) =
      (Ask.upTo true (fun part => .ask part .done) parts).run
        (env.affineHunt.search fuel (.named defId name args :: visiting)) := by
  have isTracked : tracked env.affineLook (.named defId name args) = true := by
    simp [tracked, found]
  have enter : env.affineHunt.enter visiting (.named defId name args) =
      .named defId name args :: visiting := if_pos isTracked
  rw [search_of_parts found fun _ => fresh, enter]

/-- Where names tell apart the types that are met, the checker's hunt is the hunt along
the declarations. -/
theorem gives_typeIsAffineInner (fuel : Nat) (visiting : List Ty)
    (closed : ∀ {a b}, R a → env.Contains a b → R b) (here : R ty)
    (inProgress : ∀ other ∈ visiting, tracked env.affineLook other = true) :
    Gives (env.NamesApart R) (env.typeIsAffineInner fuel visiting ty)
      (env.affineHunt.search fuel visiting ty) := by
  induction fuel generalizing visiting ty with
  | zero => exact .stuck
  | succ fuel ih =>
    have inside {parts : List Ty} {visiting : List Ty} (found : env.affineLook ty = some parts)
        (inProgress : ∀ other ∈ visiting, tracked env.affineLook other = true) :
        ∀ part ∈ parts, Gives (env.NamesApart R) (env.typeIsAffineInner fuel visiting part)
          (env.affineHunt.search fuel visiting part) :=
      fun part member => ih _ (closed here (contains_of_points ⟨parts, found, member⟩)) inProgress
    unfold typeIsAffineInner
    split
    next isHandle =>
      rw [search_of_leaf (affineLook_eq_none.2 (.handle isHandle))]
      exact .pure true
    rename_i noHandle
    cases ty with
    | named defId name args =>
      dsimp only
      by_cases isFuture : env.namedTypeIsAsyncFuture (.named defId name args) = true
      · rw [search_of_leaf (affineLook_eq_none.2 (.future isFuture)), if_pos isFuture]
        exact .pure true
      rw [if_neg isFuture]
      by_cases again : .named defId name args ∈ visiting
      · have cut : env.affineHunt.cuts visiting (.named defId name args) = true :=
          Plan.cuts_iff.2 ⟨inProgress _ again, again⟩
        rw [Plan.search, if_pos cut, if_pos again]
        exact .pure false
      rw [if_neg again]
      refine Gives.bind (f := fun _ =>
        env.affineHunt.search (fuel + 1) visiting (.named defId name args))
        (gives_namedStructInfo here) fun info eq => ?_
      have deeper {parts : List Ty}
        (found : env.affineLook (.named defId name args) = some parts) :
          ∀ other ∈ Ty.named defId name args :: visiting, tracked env.affineLook other = true :=
        List.forall_mem_cons.2 ⟨by simp [tracked, found], inProgress⟩
      cases declared : env.declaredStruct (.named defId name args) with
      | some shown =>
        rw [declared] at eq
        cases eq
        cases isResource : shown.isResource with
        | true =>
          rw [search_of_leaf (affineLook_eq_none.2 (.resource declared isResource))]
          simpa [shownInfo, isResource] using Gives.pure true
        | false =>
          have found : env.affineLook (.named defId name args) = some shown.fields := by
            simp [affineLook, noHandle, isFuture, declared, isResource]
          rw [search_named again found]
          simpa [shownInfo, isResource] using gives_anyAffine (inside found (deeper found))
      | none =>
        rw [declared] at eq
        cases eq
        refine Gives.bind (f := fun _ =>
          env.affineHunt.search (fuel + 1) visiting (.named defId name args))
          (gives_namedEnumPayloads here) fun payloads eq => ?_
        have found : env.affineLook (.named defId name args) = some (payloads.getD []) := by
          rw [← Option.some.inj eq]
          simp [affineLook, noHandle, isFuture, declared]
        rw [search_named again found]
        cases payloads with
        | some payloads => exact gives_anyAffine (inside found (deeper found))
        | none => exact .pure false
    | generatedFuture =>
      rw [search_of_leaf (affineLook_eq_none.2 .generated)]
      exact .pure true
    | generic name =>
      by_cases member : name ∈ env.resourceGenerics
      · rw [search_of_leaf (affineLook_eq_none.2 (.generic member))]
        simp only [decide_eq_true member]
        exact .pure true
      · have found : env.affineLook (.generic name) = some [] := by
          simp [affineLook, isResourceHandleLeaf, member]
        rw [search_unnamed rfl found]
        simp only [decide_eq_false member]
        exact .pure false
    | opaqueReturn defId args bounds =>
      cases concrete : env.opaqueReturnConcrete (.opaqueReturn defId args bounds) with
      | none =>
        have found : env.affineLook (.opaqueReturn defId args bounds) = some [] := by
          simp [affineLook, isResourceHandleLeaf, concrete]
        rw [search_unnamed rfl found]
        simp only [concrete]
        exact .pure false
      | some part =>
        have found : env.affineLook (.opaqueReturn defId args bounds) = some [part] := by
          simp [affineLook, isResourceHandleLeaf, concrete]
        rw [search_unnamed rfl found, Hunt.run_single]
        simp only [concrete]
        exact inside found inProgress part (List.mem_singleton_self _)
    | array len elem =>
      rw [search_unnamed rfl rfl, valueParts, Hunt.run_single]
      exact inside rfl inProgress elem (List.mem_singleton_self _)
    | opaqueState | closureInstance =>
      rw [search_unnamed rfl rfl]
      exact gives_anyAffine (inside rfl inProgress)
    | _ =>
      rw [search_unnamed rfl rfl]
      exact .pure false

theorem succeeds_affineLook : Hunt.Succeeds env.affineLook ty ↔
    ∃ leaf, ReflTransGen env.Contains ty leaf ∧ env.Leaf leaf :=
  Hunt.succeeds_iff (D := fun _ => True) (fun _ _ => trivial) (fun _ => affineLook_eq_none)
    (fun _ => points_affineLook) trivial

theorem affineHunt_ends (finite : {part | ReflTransGen env.Contains ty part}.Finite) :
    ∃ fuel answer, env.affineHunt.search fuel [] ty = some answer := by
  refine Hunt.search_ends env.rank (fun ty part untracked points => ?_) (finite.subset ?_)
  · exact rank_lt_of_contains (contains_of_points points) untracked points
  · exact ReflTransGen.mono (fun _ _ => contains_of_points) ty

theorem NamesApart.mono {R' : Ty → Prop} (apart : env.NamesApart R tables)
    (fewer : ∀ a, R' a → R a) :
    env.NamesApart R' tables where
  same a b := apart.same (fewer _ a) (fewer _ b)
  structs a := apart.structs (fewer _ a)
  resources a := apart.resources (fewer _ a)
  recorded a := apart.recorded (fewer _ a)
  enums a := apart.enums (fewer _ a)

theorem reach_of_closed (closed : ∀ {a b}, R a → env.Contains a b → R b) (here : R ty)
    (way : ReflTransGen env.Contains ty part) : R part := by
  induction way with
  | refl => exact here
  | tail _ step ih => exact closed ih step

/-- An environment without opaque returns, in which `File` and the given structs are
resources. -/
def withFile (resources : List String) (structs : String → Option Patterns.StructTemplate) :
    AffineTypeEnv where
  enums _ := none
  structs name := if name = "File" then some ⟨[], [.primitive .i32]⟩ else structs name
  nominalTypeName _ := "Future"
  isFuture _ name := name == "Future"
  isResource name := name ∈ "File" :: resources
  isStdResourceHandle _ _ := false
  resourceGenerics := []
  opaqueReturns := []
  depth := 0
  settles _ _ _ _ _ := rfl
  apart _ := .inr rfl
  handle_resource := nofun

def file : Ty := .named none "File" []

/-- Only `File` is recorded. -/
def fileRecorded : Instances := ⟨[], ["File"], []⟩

section

variable {resources : List String} {structs : String → Option Patterns.StructTemplate}

theorem file_leaf : (withFile resources structs).Leaf file := .resource rfl rfl

theorem contains_file (contains : (withFile resources structs).Contains file part) :
    part = .primitive .i32 := by
  cases contains with
  | part member => cases member
  | field found member =>
    cases found
    exact List.mem_singleton.1 member
  | payload found => cases found

/-- No other resource is met, and names tell the types that are met apart. -/
theorem apart_fileRecorded (same : ∀ {a b name}, R a → R b → enumInstanceName a = some name →
      enumInstanceName b = some name → a = b) (here : R file)
    (only : ∀ {a fields}, R a → (withFile resources structs).declaredStruct a =
      some ⟨true, fields⟩ →
      a = file) : (withFile resources structs).NamesApart R fileRecorded where
  same := same
  structs _ _ := nofun
  resources {a name} inside named recorded := by
    obtain rfl := List.mem_singleton.1 recorded
    obtain rfl := same inside here named rfl
    exact ⟨_, rfl⟩
  recorded {a name fields} inside named _ resource := by
    obtain rfl := only inside resource
    cases named
    exact List.mem_singleton_self _
  enums _ _ := nofun

theorem not_contains_primitive {primitive : PrimitiveType} :
    ¬(withFile resources structs).Contains (.primitive primitive) part := by
  intro contains
  cases contains with
  | part member => cases member
  | field found | payload found => cases found

end

/-- `struct Grow<T> { Grow<[2]T> inner; File file; }`. -/
def growing : AffineTypeEnv := withFile [] fun
  | "Grow" => some ⟨["T"], [.named none "Grow" [.array 2 (.generic "T")], file]⟩
  | _ => none

def nested : Nat → Ty
  | 0 => .primitive .i32
  | n + 1 => .array 2 (nested n)

/-- `Grow<i32>`, `Grow<[2]i32>`, and so on. -/
def grown (n : Nat) : Ty := .named none "Grow" [nested n]

theorem length_grownName (n : Nat) :
    (aggregateInstanceName "Grow" [nested n]).length = 5 * n + 8 := by
  have fragment : (mangleTyFragment (nested n)).length = 5 * n + 3 := by
    induction n with
    | zero => rfl
    | succ n ih =>
      show ("arr" ++ toString 2 ++ "_" ++ mangleTyFragment (nested n)).length = _
      rw [String.length_append, ih]
      have three : ("arr" ++ toString 2 ++ "_").length = 5 := rfl
      omega
  show ("Grow" ++ "_" ++ mangleTyFragment (nested n)).length = _
  rw [String.length_append, fragment]
  have five : ("Grow" ++ "_").length = 5 := rfl
  omega

theorem grown_larger (n : Nat) : sizeOf (grown n) < sizeOf (grown (n + 1)) := by
  simp [grown, nested]

theorem affineLook_grown (n : Nat) :
    growing.affineLook (grown n) = some [grown (n + 1), file] := rfl

/-- The types in progress are smaller, so none of them comes back. -/
theorem search_grown (fuel n : Nat) {stack : List Ty}
    (below : ∀ ty ∈ stack, sizeOf ty < sizeOf (grown n)) :
    growing.affineHunt.search fuel stack (grown n) = none := by
  induction fuel generalizing n stack with
  | zero => rfl
  | succ fuel ih =>
    have fresh : grown n ∉ stack := fun inside => (below _ inside).false
    have deeper : growing.affineHunt.search fuel (grown n :: stack) (grown (n + 1)) = none := by
      refine ih (n + 1) (List.forall_mem_cons.mpr ⟨grown_larger n, fun ty inside => ?_⟩)
      exact (below ty inside).trans (grown_larger n)
    rw [grown, search_named fresh (affineLook_grown n), Ask.upTo, Ask.run_bind, Hunt.run_ask]
    exact Option.bind_eq_none_iff.mpr fun answer found => by cases deeper.symm.trans found

/-- `struct Box<T> { T value; }`, `struct A {}` and `resource struct Box_A { File file; }`. -/
def sharedName : AffineTypeEnv := withFile ["Box_A"] fun
  | "Box" => some ⟨["T"], [.generic "T"]⟩
  | "A" => some ⟨[], []⟩
  | "Box_A" => some ⟨[], [file]⟩
  | _ => none

/-- A box is taken for the resource that has the box's instance name. -/
theorem sharedName_affine :
    ((sharedName.typeIsAffine 1 (.named none "Box" [.named none "A" []])).run
      ⟨[], ["File", "Box_A"], []⟩).map Prod.fst = some true ∧
    sharedName.affineHunt.search 3 [] (.named none "Box" [.named none "A" []]) = some false := by
  decide

end AffineTypeEnv

end Ciel.Typeck
