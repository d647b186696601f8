import Ciel.Mono.Collected
import Ciel.Types.Shapes

/-!
# Declarations that do not expand

The declarations of structs, enums and interfaces apply one another. An argument of such an
application is a parameter of the declaration it stands in, or a larger type around
parameters, or it has no parameters. If the parameters can be put on levels, such that a
parameter is passed on to its own level or a lower one, and to a lower one when something is
put around it, then a type leads to finitely many instances and their collection ends. What
is passed on can be made larger only as often as there are levels.
-/

namespace Ciel.Mono

open Ciel.Types
open Library.Traversal

/-- What has type parameters. The first parameter of an interface is its receiver. -/
inductive Declaration
  | aggregate (name : String)
  | interface (defId : DefId)
  | interfaceAlias (defId : DefId)
  deriving DecidableEq

namespace AggregateProgram

variable (program : AggregateProgram) (level : Declaration → Nat → Nat)
  (settles : DefId × List Ty → Nat)

/-- The declarations that a type applies, and the arguments. -/
def applied : Ty → List (Declaration × List Ty)
  | .named _ name args => [(.aggregate name, args)]
  | .generatedFuture _ output _ _ _ _ => [(.aggregate program.stdFuture.2, [output])]
  | .dynamicInterface defId _ args =>
    [(.interface defId, dynamicReceiver :: args), (.interfaceAlias defId, args)]
  | .closure ret params constraints => constraints.positive.map fun capability =>
    (.interface capability.defId, .closure ret params constraints :: capability.args)
  | _ => []

/-- The parameters of a declaration, and the types that stand in it. -/
def bodies : Declaration → List (List String × List Ty)
  | .aggregate name => [AggregateKind.struct, .enum].filterMap fun kind =>
    ((program.templates kind).lookup name).map fun template => (template.generics, template.members)
  | .interface defId => (program.interfaceByDef defId).toList.map fun interface =>
    (interface.generics, interface.ret :: interface.params.drop 1)
  | .interfaceAlias defId =>
    (program.interfaceAliases.find? (·.defId == defId)).toList.map fun declared =>
      (declared.generics, declared.positive.map fun entry =>
        .dynamicInterface entry.defId entry.name entry.args)

/-- A type passes a parameter of the declaration it stands in on to a higher level, or to
the same level with something around it. -/
def rises (decl : Declaration) (generics : List String) (ty : Ty) : Bool :=
  (program.applied ty).any fun inner => inner.2.zipIdx.any fun arg =>
    generics.zipIdx.any fun param =>
    arg.1.mentions param.1 && !decide (level inner.1 arg.2 < level decl param.2) &&
      !(decide (level inner.1 arg.2 ≤ level decl param.2) && decide (arg.1 = .generic param.1))

/-- An opaque return that is settled at the given stage or later. -/
def returnsFrom (stage : Nat) : Ty → Bool
  | .opaqueReturn defId args _ => decide (stage ≤ settles (defId, args))
  | _ => false

/-- The parameters of the declarations are on levels, and the recorded opaque returns can be
settled one after the other. There are no opaque states in declarations and no meta
markers. -/
structure NonExpansive : Prop where
  falls : ∀ decl, ∀ body ∈ program.bodies decl, ∀ ty ∈ body.2,
    ty.any (program.rises level decl body.1) = false
  noState : ∀ decl, ∀ body ∈ program.bodies decl, ∀ ty ∈ body.2, ty.any Ty.isOpaqueState = false
  noMeta : ∀ name args, program.metaStorageTy name args = none
  returns : ∀ entry ∈ program.opaqueReturns,
    entry.2.any (returnsFrom settles (settles entry.1)) = false

variable {program level settles} {ty : Ty} {decl inner : Declaration} {args : List Ty}
  {generics : List String}

theorem level_of_rises {i j : Nat} {arg : Ty} {name : String}
    (falls : program.rises level decl generics ty = false)
    (isApplied : (inner, args) ∈ program.applied ty) (isArg : args[j]? = some arg)
    (isParam : generics[i]? = some name) (mentioned : arg.mentions name = true) :
    level inner j < level decl i ∨ level inner j ≤ level decl i ∧ arg = .generic name := by
  rw [rises, List.any_eq_false] at falls
  by_contra higher
  refine falls _ isApplied (List.any_eq_true.mpr
    ⟨(arg, j), List.mem_zipIdx_iff_getElem?.mpr isArg, List.any_eq_true.mpr
      ⟨(name, i), List.mem_zipIdx_iff_getElem?.mpr isParam, ?_⟩⟩)
  simpa [mentioned, imp_iff_not_or] using higher

/-- Substitution goes into the arguments of what a type applies. -/
theorem applied_substituteTy {subst : TySubst} (form : ty.isGenericOrState = false) :
    program.applied (substituteTy subst ty) =
      (program.applied ty).map fun inner => (inner.1, inner.2.map (substituteTy subst)) := by
  have whole : substituteTy subst ty = ty.mapParts (substituteTy subst) :=
    substituteTy_eq_mapParts form
  cases ty with
  | generic | opaqueState => cases form
  | closure ret params constraints =>
    obtain ⟨positive, negative⟩ := constraints
    rw [whole, Ty.mapParts, applied, applied, ConstraintBounds.mapArgs, ConstraintBounds.positive,
      ConstraintBounds.positive, List.map_map, List.map_map]
    refine List.map_congr_left fun capability _ => ?_
    rw [Function.comp, Function.comp, List.map_cons, whole, ConstraintRef.args_mapArgs]
    cases capability
    rfl
  | _ =>
    rw [whole]
    rfl

/-- What a type is applied to is a part of the type, or a receiver. -/
theorem mem_applied {arg : Ty} (isApplied : (inner, args) ∈ program.applied ty)
    (isArg : arg ∈ args) :
    arg ∈ ty.children ∨ arg = ty ∨ arg = dynamicReceiver := by
  cases ty with
  | named =>
    cases List.mem_singleton.mp isApplied
    exact .inl isArg
  | generatedFuture _ output =>
    cases List.mem_singleton.mp isApplied
    rw [List.mem_singleton.mp isArg]
    exact .inl List.mem_cons_self
  | dynamicInterface =>
    simp only [applied, List.mem_cons, List.not_mem_nil, or_false] at isApplied
    obtain ⟨⟨⟩⟩ | ⟨⟨⟩⟩ := isApplied
    · exact (List.mem_cons.mp isArg).elim (fun same => .inr (.inr same)) .inl
    · exact .inl isArg
  | closure ret params constraints =>
    obtain ⟨capability, inside, same⟩ := List.mem_map.mp isApplied
    cases same
    refine (List.mem_cons.mp isArg).elim (fun same => .inr (.inl same)) fun isArg => .inl ?_
    refine List.mem_append_right _ (List.mem_flatMap.mpr ⟨capability, ?_, isArg⟩)
    exact List.mem_append_left _ inside
  | _ => cases isApplied

/-! ### The bound -/

/-- A bound on the types that the collector comes to. `step` bounds what stands in the
declarations, and `base` what the collector starts with. -/
structure Scale where
  level : Declaration → Nat → Nat
  shapes : Set Ty
  base : Nat
  step : Nat
  top : Nat

namespace Scale

variable (scale : Scale)

/-- The height an argument may have. It is the greater, the lower the level. -/
def room (decl : Declaration) (index : Nat) : Nat :=
  scale.base + scale.step * (scale.top - scale.level decl index)

def Fits (decl : Declaration) (args : List Ty) : Prop :=
  ∀ (index : Nat) (arg : Ty), args[index]? = some arg →
    arg.Within scale.shapes (scale.room decl index)

theorem room_le (decl : Declaration) (index : Nat) :
    scale.room decl index ≤ scale.base + scale.step * scale.top :=
  Nat.add_le_add_left (Nat.mul_le_mul_left _ (Nat.sub_le _ _)) _

variable {scale}

theorem room_mono {i j : Nat} (le : scale.level inner j ≤ scale.level decl i) :
    scale.room decl i ≤ scale.room inner j :=
  Nat.add_le_add_left (Nat.mul_le_mul_left _ (Nat.sub_le_sub_left le _)) _

theorem room_step {i j : Nat} (less : scale.level inner j < scale.level decl i)
    (le : scale.level decl i ≤ scale.top) :
    scale.step + scale.room decl i ≤ scale.room inner j := by
  have more : scale.top - scale.level decl i + 1 ≤ scale.top - scale.level inner j := by omega
  have := Nat.mul_le_mul_left scale.step more
  rw [Nat.mul_succ] at this
  rw [room, room]
  omega

end Scale

/-- The arguments fit wherever the type applies a declaration. -/
inductive Fitting (program : AggregateProgram) (scale : Scale) : Ty → Prop
  | intro {ty : Ty} (here : ∀ inner ∈ program.applied ty, scale.Fits inner.1 inner.2)
      (parts : ∀ part ∈ ty.children, program.Fitting scale part) : program.Fitting scale ty

/-- The types that the collector comes to. -/
def Expected (program : AggregateProgram) (scale : Scale) (ty : Ty) : Prop :=
  ty.Within scale.shapes (scale.step + scale.base + scale.step * scale.top) ∧
    program.Fitting scale ty

/-- The scale is chosen for the program. -/
structure Scaled (program : AggregateProgram) (scale : Scale) : Prop where
  positive : 1 ≤ scale.step
  large : scale.step ≤ scale.base
  receiver : dynamicReceiver.Within scale.shapes scale.step
  future : (program.stdFutureTy .void).Within scale.shapes scale.step
  bodies : ∀ decl, ∀ body ∈ program.bodies decl, ∀ ty ∈ body.2, ty.Within scale.shapes scale.step
  levels : ∀ decl, ∀ body ∈ program.bodies decl, ∀ index < body.1.length,
    scale.level decl index ≤ scale.top
  checked : ∀ aggregate ∈ program.checked, ∀ ty ∈ aggregate.members,
    ty.Within scale.shapes scale.base
  returns : ∀ entry ∈ program.opaqueReturns, entry.2.Within scale.shapes scale.base

variable {scale : Scale}

theorem Fitting.here (fitting : program.Fitting scale ty)
    (isApplied : (inner, args) ∈ program.applied ty) : scale.Fits inner args := by
  obtain ⟨here, -⟩ := fitting
  exact here _ isApplied

theorem Fitting.part (fitting : program.Fitting scale ty) :
    ∀ part ∈ ty.children, program.Fitting scale part := by
  obtain ⟨-, parts⟩ := fitting
  exact parts

theorem Expected.part (expected : program.Expected scale ty) :
    ∀ part ∈ ty.children, program.Expected scale part :=
  fun part inside => ⟨expected.1.of_child part inside, expected.2.part part inside⟩

namespace Scaled

variable (scaled : program.Scaled scale)
include scaled

theorem within_applied {n : Nat} (within : ty.Within scale.shapes n) (enough : scale.step ≤ n)
    (isApplied : (inner, args) ∈ program.applied ty) : ∀ arg ∈ args, arg.Within scale.shapes n := by
  intro arg isArg
  obtain inside | rfl | rfl := mem_applied isApplied isArg
  · exact within.of_child arg inside
  · exact within
  · exact scaled.receiver.mono enough

/-- What the collector starts with fits. -/
theorem expected_of_within (within : ty.Within scale.shapes scale.base) :
    program.Expected scale ty := by
  refine ⟨within.mono (by omega), ?_⟩
  induction ty with
  | step ty ih =>
    refine ⟨fun inner isApplied index arg isArg => ?_, fun part inside =>
      ih part inside (within.of_child part inside)⟩
    exact (scaled.within_applied within scaled.large isApplied arg
      (List.mem_of_getElem? isArg)).mono
      (Nat.le_add_right _ _)

variable {body : List String × List Ty} (isBody : body ∈ program.bodies decl)
  (fits : scale.Fits decl args)
include isBody fits

/-- A parameter stands for an argument that fits its level. -/
theorem value_within {name : String} {value : Ty}
    (found : (genericSubst body.1 args).lookup name = some value) :
    ∃ index, body.1[index]? = some name ∧ scale.level decl index ≤ scale.top ∧ value ∈ args ∧
      value.Within scale.shapes (scale.room decl index) := by
  obtain ⟨index, isParam, isArg⟩ := Library.exists_of_lookup_zip found
  refine ⟨index, isParam, scaled.levels decl body isBody index ?_, List.mem_of_getElem? isArg,
    fits index value isArg⟩
  exact (List.getElem?_eq_some_iff.mp isParam).1

/-- What stands in a declaration fits when the arguments are put in. -/
theorem fits_substituteTy {innerArgs : List Ty} (within : ty.Within scale.shapes scale.step)
    (noState : ty.any Ty.isOpaqueState = false)
    (falls : program.rises scale.level decl body.1 ty = false)
    (isApplied : (inner, innerArgs) ∈ program.applied ty) :
    scale.Fits inner (innerArgs.map (substituteTy (genericSubst body.1 args))) := by
  intro index arg' isArg'
  rw [List.getElem?_map, Option.map_eq_some_iff] at isArg'
  obtain ⟨arg, isArg, rfl⟩ := isArg'
  have small : arg.Within scale.shapes scale.step :=
    scaled.within_applied within le_rfl isApplied arg (List.mem_of_getElem? isArg)
  have enough : scale.step ≤ scale.room inner index := scaled.large.trans (Nat.le_add_right _ _)
  by_cases isGeneric : ∃ name, arg = .generic name
  · obtain ⟨name, rfl⟩ := isGeneric
    rw [substituteTy]
    cases found : (genericSubst body.1 args).lookup name with
    | none => exact small.mono enough
    | some value =>
      obtain ⟨i, isParam, -, -, inRoom⟩ := scaled.value_within isBody fits found
      refine inRoom.mono (Scale.room_mono ?_)
      obtain less | ⟨le, -⟩ :=
        level_of_rises falls isApplied isArg isParam (by simp [Ty.mentions, Ty.any])
      · exact less.le
      · exact le
  · -- something stands around the parameters, so that they come from a higher level
    have noStateArg : arg.any Ty.isOpaqueState = false := by
      obtain inside | rfl | rfl := mem_applied isApplied (List.mem_of_getElem? isArg)
      · exact (Ty.any_eq_false.mp noState).2 arg inside
      · exact noState
      · rfl
    have whole : (substituteTy (genericSubst body.1 args) arg).Within scale.shapes
        (scale.step + (scale.room inner index - scale.step)) := by
      refine small.substituteTy noStateArg fun name value mentioned found => ?_
      obtain ⟨i, isParam, le, -, inRoom⟩ := scaled.value_within isBody fits found
      obtain less | ⟨-, same⟩ := level_of_rises falls isApplied isArg isParam mentioned
      · have := Scale.room_step less le
        exact inRoom.mono (by omega)
      · exact absurd ⟨name, same⟩ isGeneric
    exact whole.mono (by omega)

/-- The types that stand in a declaration are expected when the arguments are put in. -/
theorem expected_substituteTy (nonExpansive : program.NonExpansive scale.level settles)
    (fitting : ∀ arg ∈ args, program.Fitting scale arg) (inside : ty ∈ body.2) :
    program.Expected scale (substituteTy (genericSubst body.1 args) ty) := by
  have within := scaled.bodies decl body isBody ty inside
  have noState := nonExpansive.noState decl body isBody ty inside
  have falls := nonExpansive.falls decl body isBody ty inside
  constructor
  · refine (within.substituteTy noState fun name value _ found => ?_).mono (Nat.add_assoc _ _ _).ge
    obtain ⟨i, -, -, -, inRoom⟩ := scaled.value_within isBody fits found
    exact inRoom.mono (scale.room_le decl i)
  · clear inside
    induction ty with
    | step ty ih =>
      cases form : ty.isGenericOrState with
      | true =>
        cases ty with
        | generic name =>
          rw [substituteTy]
          cases found : (genericSubst body.1 args).lookup name with
          | none => exact ⟨List.forall_mem_nil _, List.forall_mem_nil _⟩
          | some value =>
            obtain ⟨-, -, -, isArg, -⟩ := scaled.value_within isBody fits found
            exact fitting value isArg
        | opaqueState => cases (Ty.any_eq_false.mp noState).1
        | _ => cases form
      | false =>
        refine ⟨?_, ?_⟩
        · rw [applied_substituteTy form]
          refine List.forall_mem_map.mpr fun inner isApplied => ?_
          exact scaled.fits_substituteTy isBody fits within noState
            (Ty.any_eq_false.mp falls).1 isApplied
        · rw [substituteTy_eq_mapParts form, Ty.children_mapParts]
          refine List.forall_mem_map.mpr fun part member => ?_
          exact ih part member (within.of_child part member)
            ((Ty.any_eq_false.mp noState).2 part member) ((Ty.any_eq_false.mp falls).2 part member)

end Scaled

/-! ### What the collector comes to -/

section Visits

variable (scaled : program.Scaled scale) (nonExpansive : program.NonExpansive scale.level settles)
include scaled nonExpansive

theorem expected_members {kind : AggregateKind} {name : String} {members : List Ty}
    (found : program.members kind name args = some members)
    (fits : scale.Fits (.aggregate name) args)
    (fitting : ∀ arg ∈ args, program.Fitting scale arg) :
    ∀ ty ∈ members, program.Expected scale ty := by
  unfold AggregateProgram.members at found
  split at found
  next checked isChecked =>
    cases found
    intro ty inside
    exact scaled.expected_of_within
      (scaled.checked checked (List.mem_of_find?_eq_some isChecked) ty inside)
  split at found
  next => cases found
  next template isTemplate =>
    have isBody : (template.generics, template.members) ∈ program.bodies (.aggregate name) := by
      refine List.mem_filterMap.mpr ⟨kind, by cases kind <;> simp, ?_⟩
      rw [isTemplate]
      rfl
    have instances : ∀ ty ∈ substituteTys (genericSubst template.generics args) template.members,
        program.Expected scale ty := by
      rw [substituteTys_eq_map]
      refine List.forall_mem_map.mpr fun ty inside => ?_
      exact scaled.expected_substituteTy isBody fits nonExpansive fitting inside
    split at found
    next => cases found
    next =>
      cases found
      cases kind with
      | struct => exact instances
      | enum => exact fun ty inside => instances ty (List.mem_of_mem_filter inside)

theorem expected_signature {defId : DefId} {receiver : Ty}
    (fits : scale.Fits (.interface defId) (receiver :: args))
    (fitting : ∀ arg ∈ receiver :: args, program.Fitting scale arg) :
    ∀ ty ∈ program.interfaceSignature defId receiver args, program.Expected scale ty := by
  rw [interfaceSignature]
  split
  next interface found =>
    have isBody : (interface.generics, interface.ret :: interface.params.drop 1) ∈
        program.bodies (.interface defId) := by simp [bodies, found]
    refine List.forall_mem_map.mpr fun ty inside => ?_
    exact scaled.expected_substituteTy isBody fits nonExpansive fitting inside
  next => exact List.forall_mem_nil _

theorem expected_dynamicInterface {defId : DefId} {name : String}
    (expected : program.Expected scale (.dynamicInterface defId name args)) :
    ∀ ty ∈ (program.checkedInterfaceView defId args).flatMap fun interface =>
      program.interfaceSignature interface.1 dynamicReceiver interface.2,
      program.Expected scale ty := by
  have receiver : program.Fitting scale dynamicReceiver :=
    (scaled.expected_of_within (scaled.receiver.mono scaled.large)).2
  -- the signature of an interface that is applied to expected arguments
  have signature {defId : DefId} {name : String} {args : List Ty}
      (expected : program.Expected scale (.dynamicInterface defId name args)) :
      ∀ ty ∈ program.interfaceSignature defId dynamicReceiver args, program.Expected scale ty := by
    refine expected_signature scaled nonExpansive (expected.2.here List.mem_cons_self) ?_
    exact List.forall_mem_cons.mpr ⟨receiver, expected.2.part⟩
  rw [checkedInterfaceView]
  split
  next interface found =>
    rw [List.flatMap_singleton]
    have same : interface.defId = defId := by simpa using List.find?_some found
    rw [same]
    exact signature expected
  split
  next declared found =>
    intro ty inside
    obtain ⟨_, isEntry, inside⟩ := List.mem_flatMap.mp inside
    obtain ⟨entry, member, rfl⟩ := List.mem_map.mp isEntry
    have isBody : (declared.generics, declared.positive.map fun entry =>
        Ty.dynamicInterface entry.defId entry.name entry.args) ∈
          program.bodies (.interfaceAlias defId) := by simp [bodies, found]
    have instances {args : List Ty} (fits : scale.Fits (.interfaceAlias defId) args)
        (fitting : ∀ arg ∈ args, program.Fitting scale arg) :=
      scaled.expected_substituteTy isBody fits nonExpansive fitting (List.mem_map_of_mem member)
    have applies : program.Expected scale (.dynamicInterface entry.defId entry.name
        (substituteTys (aliasSubst declared.generics args) entry.args)) := by
      rw [aliasSubst]
      split
      next =>
        have := instances (expected.2.here (.tail _ List.mem_cons_self)) expected.2.part
        simpa only [substituteTy] using this
      next =>
        have := @instances [] (by intro index arg isArg; cases isArg) (List.forall_mem_nil _)
        simpa only [substituteTy, genericSubst, List.zip_nil_right, List.reverse_nil] using this
    exact signature applies ty inside
  next => exact List.forall_mem_nil _

/-- From an expected type the collector comes to expected types, and from what else it comes
to there as well. -/
theorem expected_visits (expected : program.Expected scale ty) {node : Visit}
    (leads : node ∈ program.tyVisits ty) :
    (∃ part, node = .ty part ∧ program.Expected scale part) ∨
      ∀ next ∈ program.visits node, ∃ part, next = .ty part ∧ program.Expected scale part := by
  have child {parts : List Ty} (inside : parts ⊆ ty.children) {node : Visit}
      (isPart : node ∈ parts.map Visit.ty) : ∃ part, node = .ty part ∧
        program.Expected scale part := by
    obtain ⟨part, member, rfl⟩ := List.mem_map.mp isPart
    exact ⟨part, rfl, expected.part part (inside member)⟩
  have types {parts : List Ty} (each : ∀ part ∈ parts, program.Expected scale part) :
      ∀ next ∈ parts.map Visit.ty, ∃ part, next = .ty part ∧ program.Expected scale part :=
    List.forall_mem_map.mpr fun part member => ⟨part, rfl, each part member⟩
  cases ty with
  | hole | never | void | primitive | cSpelling | generic | unknown => cases leads
  | pointer | array | slice => exact .inl (child (List.Subset.refl _) leads)
  | named defId name args =>
    simp only [tyVisits, namedVisits, nonExpansive.noMeta] at leads
    have cases : node ∈ [AggregateKind.struct, .enum].filterMap (fun kind =>
        if ((program.templates kind).lookup name).isSome then some (Visit.aggregate kind name args)
        else none) ∨ node ∈ args.map Visit.ty := by
      split at leads
      · exact .inl leads
      · exact List.mem_append.mp leads
    obtain isInstance | isArg := cases
    · obtain ⟨kind, -, same⟩ := List.mem_filterMap.mp isInstance
      split at same
      · cases same
        refine .inr (types ?_)
        cases found : program.members kind name args with
        | none => exact List.forall_mem_nil _
        | some members =>
          exact expected_members scaled nonExpansive found (expected.2.here List.mem_cons_self)
            expected.2.part
      · cases same
    · exact .inl (child (List.Subset.refl _) isArg)
  | generatedFuture _ output =>
    have outputExpected := expected.part output List.mem_cons_self
    simp only [tyVisits, List.mem_cons, List.not_mem_nil, or_false] at leads
    obtain rfl | rfl := leads
    · exact .inl ⟨output, rfl, outputExpected⟩
    · refine .inl
        ⟨_, rfl, ?_, fun inner isApplied => ?_, List.forall_mem_singleton.mpr outputExpected.2⟩
      · obtain ⟨height, isHeight⟩ : ∃ height,
            scale.step + scale.base + scale.step * scale.top = height + 1 :=
          Nat.exists_eq_add_of_le' (by have := scaled.positive; omega)
        have within := expected.1
        rw [isHeight] at within ⊢
        refine ⟨scaled.future.shape_mem, List.forall_mem_singleton.mpr ?_⟩
        exact within.part output List.mem_cons_self
      · exact expected.2.here isApplied
  | opaqueState base state =>
    refine .inl (child (List.Subset.refl _) ?_)
    simpa [tyVisits, Ty.children] using leads
  | dynamicInterface defId name args =>
    cases List.mem_singleton.mp leads
    refine .inr fun next isNext => ?_
    obtain isArg | isSignature := List.mem_append.mp isNext
    · exact child (List.Subset.refl _) isArg
    · rw [← List.map_flatMap] at isSignature
      exact types (expected_dynamicInterface scaled nonExpansive expected) next isSignature
  | opaqueReturn defId args bounds =>
    rw [tyVisits, ← List.map_append] at leads
    obtain isPart | recorded := List.mem_append.mp leads
    · exact .inl (child (List.Subset.refl _) isPart)
    · obtain ⟨part, found, rfl⟩ := Option.map_eq_some_iff.mp (Option.mem_toList.mp recorded)
      obtain ⟨before, after, entries, -⟩ := List.lookup_eq_some_iff.mp found
      refine .inl ⟨part, rfl, scaled.expected_of_within ?_⟩
      exact scaled.returns ((defId, args), part) (by simp [entries])
  | function => exact .inl (child (List.Subset.refl _) leads)
  | closureInstance => exact .inl (child (List.subset_append_left _ _) leads)
  | closure ret params constraints =>
    obtain isPart | retained := List.mem_append.mp leads
    · refine .inl (child (List.Subset.refl _) ?_)
      simpa [Ty.children] using isPart
    · obtain ⟨capability, member, rfl⟩ := List.mem_map.mp retained
      have inside : capability.args ⊆ (Ty.closure ret params constraints).children := by
        intro arg isArg
        refine List.mem_append_right _ (List.mem_flatMap.mpr ⟨capability, ?_, isArg⟩)
        exact List.mem_append_left _ member
      refine .inr (types (List.forall_mem_append.mpr ⟨fun arg isArg => ?_, ?_⟩))
      · exact expected.part arg (inside isArg)
      · refine expected_signature scaled nonExpansive
          (expected.2.here (List.mem_map.mpr ⟨capability, member, rfl⟩)) ?_
        exact List.forall_mem_cons.mpr
          ⟨expected.2, fun arg isArg => expected.2.part arg (inside isArg)⟩

end Visits

/-- What the collector remembers it does not unfold again. -/
theorem acc_of_remembered {node : Visit} (remembered : ∀ ty, node ≠ .ty ty) :
    Acc (fun part node => Opens program.keyOf program.LeadsTo node part) node := by
  refine ⟨_, fun part opens => ?_⟩
  obtain ⟨noKey, leads⟩ := opens
  cases node with
  | ty ty => exact absurd rfl (remembered ty)
  | aggregate kind name args =>
    cases found : program.members kind name args with
    | none =>
      simp only [LeadsTo, visits, found] at leads
      cases leads
    | some members => simp [keyOf, found] at noKey
  | dynamicInterface | retainedClosureInterface => cases noKey

theorem exists_stage (settles : DefId × List Ty → Nat) (ty : Ty) :
    ∃ stage, ty.any (returnsFrom settles stage) = false := by
  have mono {ty : Ty} {stage later : Nat} (le : stage ≤ later)
      (none : ty.any (returnsFrom settles stage) = false) :
      ty.any (returnsFrom settles later) = false := by
    induction ty with
    | step ty ih =>
      obtain ⟨here, parts⟩ := Ty.any_eq_false.mp none
      refine Ty.any_eq_false.mpr ⟨?_, fun part inside => ih part inside (parts part inside)⟩
      cases ty with
      | opaqueReturn =>
        simp only [returnsFrom, decide_eq_false_iff_not] at here ⊢
        omega
      | _ => rfl
  induction ty with
  | step ty ih =>
    choose! stage settled using ih
    obtain ⟨last, isLast⟩ := ((List.finite_toSet ty.children).image stage).bddAbove
    have parts (extra : Nat) (part : Ty) (inside : part ∈ ty.children) :
        part.any (returnsFrom settles (last + extra)) = false :=
      mono ((isLast (Set.mem_image_of_mem _ inside)).trans (Nat.le_add_right _ _))
        (settled part inside)
    cases ty with
    | opaqueReturn defId args =>
      refine ⟨last + (settles (defId, args) + 1), Ty.any_eq_false.mpr ⟨?_, parts _⟩⟩
      simp only [returnsFrom, decide_eq_false_iff_not]
      omega
    | _ => exact ⟨last + 0, Ty.any_eq_false.mpr ⟨rfl, parts 0⟩⟩

/-- Going through a type comes to an end or to what is remembered. -/
theorem acc_ty (nonExpansive : program.NonExpansive level settles) {stage : Nat}
    (settled : ty.any (returnsFrom settles stage) = false) :
    Acc (fun part node => Opens program.keyOf program.LeadsTo node part) (.ty ty) := by
  -- by the stage of the opaque returns, and then along the parts
  induction stage using Nat.strong_induction_on generalizing ty with
  | _ stage earlier =>
    induction ty with
    | step ty ih =>
      obtain ⟨here, parts⟩ := Ty.any_eq_false.mp settled
      have child {node : Visit} (isPart : node ∈ ty.children.map Visit.ty) :
          Acc (fun part node => Opens program.keyOf program.LeadsTo node part) node := by
        obtain ⟨part, inside, rfl⟩ := List.mem_map.mp isPart
        exact ih part inside (parts part inside)
      have named {defId : Option DefId} {name : String} {args : List Ty} {node : Visit}
          (leads : node ∈ program.namedVisits defId name args) (inside : args ⊆ ty.children) :
          Acc (fun part node => Opens program.keyOf program.LeadsTo node part) node := by
        by_cases isTy : ∃ part, node = .ty part
        · obtain ⟨part, rfl⟩ := isTy
          simp only [namedVisits, nonExpansive.noMeta] at leads
          refine child (List.map_subset _ inside ?_)
          split at leads
          · simp at leads
          · simpa using leads
        · exact acc_of_remembered fun part same => isTy ⟨part, same⟩
      refine ⟨_, fun node opens => ?_⟩
      have leads : node ∈ program.tyVisits ty := opens.2
      cases ty with
      | hole | never | void | primitive | cSpelling | generic | unknown => cases leads
      | pointer | array | slice | function => exact child leads
      | named => exact named leads (List.Subset.refl _)
      | generatedFuture _ output =>
        simp only [tyVisits, List.mem_cons, List.not_mem_nil, or_false] at leads
        obtain rfl | rfl := leads
        · exact child List.mem_cons_self
        · refine ⟨_, fun node opens => named opens.2 ?_⟩
          exact List.cons_subset.mpr ⟨List.mem_cons_self, List.nil_subset _⟩
      | opaqueState => exact child (by simpa [tyVisits, Ty.children] using leads)
      | dynamicInterface =>
        cases List.mem_singleton.mp leads
        exact acc_of_remembered fun _ same => by cases same
      | opaqueReturn defId args bounds =>
        rw [tyVisits, ← List.map_append] at leads
        obtain isPart | recorded := List.mem_append.mp leads
        · exact child isPart
        · obtain ⟨concrete, found, rfl⟩ := Option.map_eq_some_iff.mp (Option.mem_toList.mp recorded)
          obtain ⟨before, after, entries, -⟩ := List.lookup_eq_some_iff.mp found
          refine earlier (settles (defId, args)) ?_
            (nonExpansive.returns ((defId, args), concrete) (by simp [entries]))
          simpa [returnsFrom] using here
      | closureInstance => exact child (List.map_subset _ (List.subset_append_left _ _) leads)
      | closure =>
        obtain isPart | retained := List.mem_append.mp leads
        · exact child (by simpa [Ty.children] using isPart)
        · obtain ⟨capability, -, rfl⟩ := List.mem_map.mp retained
          exact acc_of_remembered fun _ same => by cases same

/-- The declarations of a program. -/
def declarations (program : AggregateProgram) : List Declaration :=
  (program.templates .struct ++ program.templates .enum).map (fun entry => .aggregate entry.1) ++
    program.interfaces.map (fun interface => .interface interface.defId) ++
      program.interfaceAliases.map fun declared => .interfaceAlias declared.defId

theorem mem_declarations {body : List String × List Ty} (isBody : body ∈ program.bodies decl) :
    decl ∈ program.declarations := by
  cases decl with
  | aggregate name =>
    obtain ⟨kind, -, found⟩ := List.mem_filterMap.mp isBody
    obtain ⟨template, found, -⟩ := Option.map_eq_some_iff.mp found
    obtain ⟨before, after, entries, -⟩ := List.lookup_eq_some_iff.mp found
    refine List.mem_append_left _
      (List.mem_append_left _ (List.mem_map.mpr ⟨(name, template), ?_, rfl⟩))
    cases kind <;> simp [entries]
  | interface defId =>
    obtain ⟨interface, found, -⟩ := List.mem_map.mp isBody
    have found := Option.mem_toList.mp found
    have same : interface.defId = defId := by simpa using List.find?_some found
    refine List.mem_append_left _ (List.mem_append_right _ (List.mem_map.mpr ⟨interface, ?_, ?_⟩))
    · exact List.mem_of_find?_eq_some found
    · rw [same]
  | interfaceAlias defId =>
    obtain ⟨declared, found, -⟩ := List.mem_map.mp isBody
    have found := Option.mem_toList.mp found
    have same : declared.defId = defId := by simpa using List.find?_some found
    refine List.mem_append_right _
      (List.mem_map.mpr ⟨declared, List.mem_of_find?_eq_some found, ?_⟩)
    rw [same]

/-- There is a scale for every program and every type to start with. -/
theorem exists_scaled (program : AggregateProgram) (level : Declaration → Nat → Nat) (root : Ty) :
    ∃ scale, scale.level = level ∧ scale.shapes.Finite ∧ program.Scaled scale ∧
      root.Within scale.shapes scale.base := by
  obtain ⟨shapes, height, finite, within⟩ := Ty.exists_within
    (root :: dynamicReceiver :: program.stdFutureTy .void ::
      (program.declarations.flatMap (fun decl => (program.bodies decl).flatMap (·.2)) ++
        program.checked.flatMap (·.members) ++ program.opaqueReturns.map (·.2)))
  obtain ⟨top, isTop⟩ := (List.finite_toSet (program.declarations.flatMap fun decl =>
    (program.bodies decl).flatMap fun body => (List.range body.1.length).map (level decl))).bddAbove
  simp only [List.forall_mem_cons, List.forall_mem_append, List.forall_mem_map] at within
  obtain ⟨ofRoot, ofReceiver, ofFuture, ⟨ofBodies, ofChecked⟩, ofReturns⟩ := within
  refine ⟨⟨level, shapes, height + 1, height + 1, top⟩, rfl, finite, ?_, ofRoot.succ⟩
  exact {
    positive := Nat.le_add_left 1 height
    large := le_rfl
    receiver := ofReceiver.succ
    future := ofFuture.succ
    bodies := fun decl body isBody ty inside => (ofBodies ty (List.mem_flatMap.mpr
      ⟨decl, mem_declarations isBody, List.mem_flatMap.mpr ⟨body, isBody, inside⟩⟩)).succ
    levels := fun decl body isBody index less => isTop (List.mem_flatMap.mpr
      ⟨decl, mem_declarations isBody, List.mem_flatMap.mpr ⟨body, isBody,
        List.mem_map_of_mem (List.mem_range.mpr less)⟩⟩)
    checked := fun aggregate member ty inside =>
      (ofChecked ty (List.mem_flatMap.mpr ⟨aggregate, member, inside⟩)).succ
    returns := fun entry member => (ofReturns entry member).succ }

end AggregateProgram

/-- `struct List<T> { T head; ?*List<T> tail; Box<Box<T>> both; }` and
`struct Box<T> { T value; }`. -/
def listProgram : AggregateProgram := plainAggregates
  [("List", ⟨["T"], [.generic "T", .pointer true .writable (.named (some 0) "List" [.generic "T"]),
      .named (some 1) "Box" [.named (some 1) "Box" [.generic "T"]]]⟩),
    ("Box", ⟨["T"], [.generic "T"]⟩)]

/-- Lists are above boxes. -/
def listLevel : Declaration → Nat → Nat
  | .aggregate "List", _ => 1
  | _, _ => 0

end Ciel.Mono
