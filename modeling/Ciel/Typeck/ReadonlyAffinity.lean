import Ciel.Typeck.Containment
import Ciel.Types.InterfaceMatch

/-!
# The solver's test for affine types

The capability solver has a hunt of its own for resources and futures. It reads the
tables of instances and adds nothing to them, and it passes over opaque types, which
the checker looks through.
-/

namespace Ciel.Typeck.AffineTypeEnv

open Ciel.Types Library
open Patterns (declaredEnum enumInstanceName)
open Relation (ReflTransGen)

variable (env : AffineTypeEnv) (tables : Instances)

/-- One step of `ty_is_affine_readonly_inner`: none if the type is affine, and else the
types that decide. -/
def readonlyLook (ty : Ty) : Option (List Ty) :=
  match ty with
  | .array _ elem => some [elem]
  | .generatedFuture _ _ _ _ _ _ => none
  | .closureInstance _ _ _ captures => some captures
  | .named _ name args =>
    let instanceName := aggregateInstanceName name args
    if env.namedTypeIsAsyncFuture ty then none
    else if tables.resourceStructs.contains instanceName then none
    else some ((tables.structs.lookup instanceName).getD [] ++
      ((tables.checkedEnums.lookup instanceName).getD []).flatMap (·.payload))
  | _ => some []

/-- `ty_is_affine_readonly`. -/
def tyIsAffineReadonly (fuel : Nat) (ty : Ty) : Option Bool :=
  (Plan.hunt (env.readonlyLook tables) (tracked (env.readonlyLook tables))).search fuel [] ty

/-- Types whose parts are hidden. -/
def isOpaque : Ty → Bool
  | .opaqueState _ _ | .opaqueReturn _ _ _ => true
  | _ => false

variable {env tables} {ty part : Ty}

/-- The type is concrete, and so are the finitely many types that it contains. The
aggregates among them are recorded under names of their own. -/
structure Registered (env : AffineTypeEnv) (tables : Instances) (ty : Ty) : Prop where
  finite : {part | ReflTransGen env.Contains ty part}.Finite
  concrete : ∀ part, ReflTransGen env.Contains ty part → containsGeneric part = false
  apart : env.NamesApart (ReflTransGen env.Contains ty) tables
  structs : ∀ part name, ReflTransGen env.Contains ty part → enumInstanceName part = some name →
    (env.declaredStruct part).isSome = true → (tables.structs.lookup name).isSome = true
  enums : ∀ part name, ReflTransGen env.Contains ty part → enumInstanceName part = some name →
    (declaredEnum env.toProgram part).isSome = true →
      (tables.checkedEnums.lookup name).isSome = true

namespace Registered

variable (registered : env.Registered tables ty) (way : ReflTransGen env.Contains ty part)

include registered way

/-- What is recorded of an enum is what was declared. -/
theorem lookup_checkedEnums {name : String} (named : enumInstanceName part = some name) :
    tables.checkedEnums.lookup name = declaredEnum env.toProgram part := by
  cases found : tables.checkedEnums.lookup name with
  | some variants => exact (registered.apart.enums way named found).symm
  | none =>
    cases declared : declaredEnum env.toProgram part with
    | none => rfl
    | some variants =>
      have recorded := registered.enums part name way named (by rw [declared]; rfl)
      rw [found] at recorded
      cases recorded

theorem lookup_structs {name : String} (named : enumInstanceName part = some name) :
    tables.structs.lookup name = (env.declaredStruct part).map AffineStructInfo.fields := by
  cases found : tables.structs.lookup name with
  | some fields =>
    obtain ⟨-, isResource, declared⟩ := registered.apart.structs way named found
    rw [declared]
    rfl
  | none =>
    cases declared : env.declaredStruct part with
    | none => rfl
    | some info =>
      have recorded := registered.structs part name way named (by rw [declared]; rfl)
      rw [found] at recorded
      cases recorded

theorem mem_resourceStructs {name : String} (named : enumInstanceName part = some name) :
    name ∈ tables.resourceStructs ↔ ∃ fields, env.declaredStruct part = some ⟨true, fields⟩ :=
  ⟨registered.apart.resources way named, fun ⟨_, declared⟩ =>
    registered.apart.recorded way named (registered.concrete part way) declared⟩

/-- The solver finds of a nominal type what the checker finds. -/
theorem readonlyLook_named {defId : Option DefId} {name : String} {args : List Ty}
    (form : part = .named defId name args) :
    env.readonlyLook tables part = env.affineLook part := by
  subst form
  have closed : args.any containsGeneric = false :=
    (containsGeneric_named ..).symm.trans (registered.concrete _ way)
  have resources := registered.mem_resourceStructs way rfl
  by_cases isFuture : env.namedTypeIsAsyncFuture (.named defId name args) = true
  · simp [readonlyLook, affineLook, isFuture]
  simp only [readonlyLook, isFuture, registered.lookup_structs way rfl,
    registered.lookup_checkedEnums way rfl, List.contains_iff_mem]
  cases declared : env.declaredStruct (.named defId name args) with
  | some info =>
    rw [declared] at resources
    obtain ⟨isResource, fields⟩ := info
    cases isResource with
    | true => simp [affineLook, isFuture, declared, resources]
    | false =>
      have noHandle : env.isResourceHandleLeaf (.named defId name args) = false := by
        refine Bool.eq_false_iff.2 fun isHandle => ?_
        obtain ⟨info, found, isResource⟩ := resource_of_handle isHandle
        rw [declared] at found
        cases found
        cases isResource
      have noEnum : declaredEnum env.toProgram (.named defId name args) = none := by
        have none := enumPayloads_struct declared
        rw [enumPayloads] at none
        split at none
        · cases none
        · assumption
      simp [affineLook, isFuture, declared, noHandle, noEnum, resources]
  | none =>
    rw [declared] at resources
    have noHandle : env.isResourceHandleLeaf (.named defId name args) = false := by
      refine Bool.eq_false_iff.2 fun isHandle => ?_
      obtain ⟨info, found, -⟩ := resource_of_handle isHandle
      cases declared.symm.trans found
    have noTemplate : env.templatePayloads (.named defId name args) = none := by
      simp only [templatePayloads, closed]
      split <;> simp
    cases found : declaredEnum env.toProgram (.named defId name args) <;>
      simp [affineLook, isFuture, declared, noHandle, enumPayloads, found, noTemplate, resources]

theorem readonlyLook_eq (seen : isOpaque part = false) :
    env.readonlyLook tables part = env.affineLook part := by
  cases part with
  | named => exact registered.readonlyLook_named way rfl
  | opaqueState | opaqueReturn => cases seen
  | generic => cases registered.concrete _ way
  | _ => rfl

theorem readonlyLook_eq_none : env.readonlyLook tables part = none ↔ env.Leaf part := by
  rw [← affineLook_eq_none]
  cases hidden : isOpaque part with
  | false => rw [registered.readonlyLook_eq way hidden]
  | true =>
    cases part with
    | opaqueState | opaqueReturn => simp [readonlyLook, affineLook, isResourceHandleLeaf]
    | _ => cases hidden

theorem points_readonlyLook {next : Ty} (notLeaf : ¬env.Leaf part) :
    Hunt.Points (env.readonlyLook tables) part next ↔ env.Contains part next ∧
      isOpaque part = false := by
  cases hidden : isOpaque part with
  | false => simp [Hunt.Points, registered.readonlyLook_eq way hidden, ← points_affineLook notLeaf]
  | true =>
    cases part with
    | opaqueState | opaqueReturn => simp [Hunt.Points, readonlyLook]
    | _ => cases hidden

theorem contains_of_points_readonly {next : Ty}
    (points : Hunt.Points (env.readonlyLook tables) part next) : env.Contains part next := by
  refine ((registered.points_readonlyLook way fun leaf => ?_).1 points).1
  obtain ⟨parts, found, -⟩ := points
  cases ((registered.readonlyLook_eq_none way).2 leaf).symm.trans found

end Registered

/-- What an untracked type points to is one of its parts. -/
theorem part_of_points_readonly (untracked : tracked (env.readonlyLook tables) ty = false)
    (points : Hunt.Points (env.readonlyLook tables) ty part) : part ∈ valueParts ty := by
  obtain ⟨parts, found, member⟩ := points
  cases ty with
  | named => simp [tracked, found] at untracked
  | array | closureInstance => cases found; exact member
  | generatedFuture => cases found
  | _ => cases found; cases member

theorem tyIsAffineReadonly_ends (registered : env.Registered tables ty) :
    ∃ fuel answer, env.tyIsAffineReadonly tables fuel ty = some answer := by
  refine Hunt.search_ends env.rank (fun ty part untracked points => ?_)
    (registered.finite.subset ?_)
  · exact rank_lt_of_part (part_of_points_readonly untracked points)
  · intro part way
    induction way with
    | refl => exact .refl
    | tail _ step ih => exact ih.tail (registered.contains_of_points_readonly ih step)

/-- Both hunts end on a registered type, and their answers agree exactly if a type that
holds a resource or future holds one that is not hidden behind an opaque type. -/
theorem readonly_agrees_iff (registered : env.Registered tables ty) :
    ∃ fuel answer answer' after, (env.typeIsAffine fuel ty).run tables = some (answer, after) ∧
      env.tyIsAffineReadonly tables fuel ty = some answer' ∧
      (answer = answer' ↔ ((∃ leaf, ReflTransGen env.Contains ty leaf ∧ env.Leaf leaf) →
        ∃ leaf, ReflTransGen (fun whole part => env.Contains whole part ∧ isOpaque whole = false) ty
          leaf ∧
          env.Leaf leaf)) := by
  obtain ⟨fuel, answer, found⟩ := affineHunt_ends registered.finite
  obtain ⟨fuel', answer', found'⟩ := tyIsAffineReadonly_ends registered
  have found := Plan.search_mono (Nat.le_max_left fuel fuel') found
  obtain ⟨after, -, ran⟩ := gives_typeIsAffineInner (max fuel fuel') []
    (R := ReflTransGen env.Contains ty) (fun way step => way.tail step) .refl nofun tables
      registered.apart
  refine ⟨max fuel fuel', answer, answer', after, by rw [typeIsAffine, ran, found]; rfl,
    Plan.search_mono (Nat.le_max_right _ _) found', ?_⟩
  have affine := (Hunt.search_iff found).trans succeeds_affineLook
  have readonly := Hunt.search_iff found'
  rw [Hunt.succeeds_iff (D := ReflTransGen env.Contains ty) (fun way step => way.tail step.1)
    (fun way => registered.readonlyLook_eq_none way)
    (fun way => registered.points_readonlyLook way) .refl] at readonly
  rw [← affine, ← readonly]
  have fewer : answer' = true → answer = true := by
    rw [affine, readonly]
    rintro ⟨leaf, way, isLeaf⟩
    exact ⟨leaf, ReflTransGen.mono (fun _ _ => And.left) _ _ way, isLeaf⟩
  cases answer <;> cases answer' <;> simp_all

/-! ### Files and futures -/

/-- An environment in which no instance is recorded yet. -/
abbrev plainEnv : AffineTypeEnv := withFile [] fun _ => none

theorem declaredEnum_plainEnv (ty : Ty) : declaredEnum plainEnv.toProgram ty = none := by
  cases ty <;> rfl

/-- A type is registered whose values hold nothing but the future of a call. -/
theorem registered_future (unnamed : ∀ defId name args, ty ≠ .named defId name args)
    (known : ∀ defId args bounds, ty ≠ .opaqueReturn defId args bounds)
    (parts : valueParts ty ⊆ [calledFuture, futureOfI64]) (concrete : containsGeneric ty = false) :
    plainEnv.Registered ⟨[], [], []⟩ ty := by
  have met {a : Ty} (way : ReflTransGen plainEnv.Contains ty a) :
      a ∈ [ty, calledFuture, futureOfI64, .primitive .i64] := by
    refine reach_of_closed (R := (· ∈ [ty, calledFuture, futureOfI64, .primitive .i64])) ?_
      List.mem_cons_self way
    intro a b inside step
    simp only [List.mem_cons, List.not_mem_nil, or_false] at inside ⊢
    obtain rfl | rfl | rfl | rfl := inside
    · have part := parts ((contains_unnamed unnamed known).1 step)
      simp only [List.mem_cons, List.not_mem_nil, or_false] at part
      exact .inr (part.imp id .inl)
    · have part := (contains_unnamed (by nofun) (by nofun)).1 step
      simp only [valueParts, calledFuture, List.map_cons, List.map_nil, List.mem_cons,
        List.not_mem_nil, or_false] at part
      exact .inr (.inr part)
    · cases step with
      | part member => cases member
      | field found | payload found => cases found
    · exact absurd step not_contains_primitive
  have only {a : Ty} {name : String} (way : ReflTransGen plainEnv.Contains ty a)
      (named : enumInstanceName a = some name) : a = futureOfI64 := by
    have inside := met way
    simp only [List.mem_cons, List.not_mem_nil, or_false] at inside
    obtain rfl | rfl | rfl | rfl := inside
    · cases a with
      | named => exact absurd rfl (unnamed _ _ _)
      | _ => cases named
    · cases named
    · rfl
    · cases named
  refine ⟨(List.finite_toSet _).subset fun _ => met, fun a way => ?_, ⟨?_, ?_, ?_, ?_, ?_⟩, ?_, ?_⟩
  · have inside := met way
    simp only [List.mem_cons, List.not_mem_nil, or_false] at inside
    obtain rfl | rfl | rfl | rfl := inside
    · exact concrete
    all_goals rfl
  · exact fun {a b name} way way' named named' => (only way named).trans (only way' named').symm
  · exact fun {a name fields} _ _ found => by cases found
  · exact fun {a name} _ _ found => by cases found
  · intro a name fields way named _ declared
    obtain rfl := only way named
    cases declared
  · exact fun {a name variants} _ _ found => by cases found
  · intro a name way named declared
    obtain rfl := only way named
    cases declared
  · intro a name _ _ declared
    rw [declaredEnum_plainEnv] at declared
    cases declared

/-- The tests agree on an array of futures. -/
theorem readonly_agrees_array : ∃ fuel answer after,
    (plainEnv.typeIsAffine fuel (.array 2 futureOfI64)).run ⟨[], [], []⟩ = some (answer, after) ∧
      plainEnv.tyIsAffineReadonly ⟨[], [], []⟩ fuel (.array 2 futureOfI64) = some answer := by
  have registered : plainEnv.Registered ⟨[], [], []⟩ (.array 2 futureOfI64) :=
    registered_future (by nofun) (by nofun) (List.subset_cons_self _ _) (by decide)
  obtain ⟨fuel, answer, answer', after, found, found', agree⟩ := readonly_agrees_iff registered
  have same := agree.mpr fun _ =>
    ⟨futureOfI64, .single ⟨.part List.mem_cons_self, rfl⟩, .future (by decide)⟩
  exact ⟨fuel, answer, after, found, same ▸ found'⟩

/-- The solver takes a closure that has captured the future of a call for something that
may be copied. -/
theorem hidden_future_missed :
    plainEnv.Registered ⟨[], [], []⟩ (capturing calledFuture) ∧
      ((plainEnv.typeIsAffine 3 (capturing calledFuture)).run ⟨[], [], []⟩).map Prod.fst =
        some true ∧
      plainEnv.tyIsAffineReadonly ⟨[], [], []⟩ 3 (capturing calledFuture) = some false :=
  ⟨registered_future (by nofun) (by nofun) (by simp [valueParts, capturing]) (by decide),
    by decide, by decide⟩

end Ciel.Typeck.AffineTypeEnv
