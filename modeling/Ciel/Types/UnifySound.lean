import Ciel.Types.Composition
import Ciel.Types.Matching

/-!
# What a successful match means

After a match the pattern, with its parameters replaced, fits the type. A pattern
fits a type that is built alike, opaque states apart. Holes of the pattern fit
anything, a closure of the type may have more constraints than are asked for, a
closure instance may stand for a closure, a generated future is known by its name,
and an opaque return by its definition.

Two things keep this from being all there is to say. Constraints are paired by the
name of their interface, although they carry its definition. And a parameter that
met itself in the type counts as unbound, so that the next type it meets replaces
the binding, and the pattern no longer fits at the place where the two met.
-/

namespace Ciel.Types

variable {actual ret pattern : Ty} {constraints : ConstraintBounds} {before : TySubst}
  {params : List Ty} {ref : ConstraintRef}

mutual

/-- The pattern, with its parameters replaced by what they are bound to, fits the type.
A parameter that stands where the type has the same parameter fits whatever it is bound
to. The definitions of constraints that are paired by name are related by `paired`. -/
inductive Fits (subst : TySubst) (paired : DefId → DefId → Prop) : Ty → Ty → Prop
  | same {ty : Ty} (closed : substituteTy subst ty = ty) : Fits subst paired ty ty
  | parameter {name : String} {actual : Ty} (bound : substituteTy subst (.generic name) = actual) :
      Fits subst paired (.generic name) actual
  | rebound (name : String) : Fits subst paired (.generic name) (.generic name)
  | hole (id : Nat) (actual : Ty) : Fits subst paired (.hole id) actual
  | patternState {base actual : Ty} (state : List (String × Ty))
    (fits : Fits subst paired base actual) :
      Fits subst paired (.opaqueState base state) actual
  | actualState {pattern base : Ty} (state : List (String × Ty))
      (fits : Fits subst paired pattern base) : Fits subst paired pattern (.opaqueState base state)
  | pointer {inner inner' : Ty} (nullable : Bool) (mutability : ViewMutability)
      (fits : Fits subst paired inner inner') :
      Fits subst paired (.pointer nullable mutability inner) (.pointer nullable mutability inner')
  | array {elem elem' : Ty} (len : Nat) (fits : Fits subst paired elem elem') :
      Fits subst paired (.array len elem) (.array len elem')
  | slice {elem elem' : Ty} (mutability : ViewMutability) (fits : Fits subst paired elem elem') :
      Fits subst paired (.slice mutability elem) (.slice mutability elem')
  | named {defId defId' : Option DefId} {name name' : String} {args args' : List Ty}
      (same : namedTyIdentityEq defId name defId' name' = true)
      (fits : List.Forall₂ (Fits subst paired) args args') :
      Fits subst paired (.named defId name args) (.named defId' name' args')
  -- the flags and the names of the state come with the name of the future
  | generatedFuture {output output' : Ty} {state state' : List (String × Ty)}
      {cancelSafe abortable affineState cancelSafe' abortable' affineState' : Bool}
      (name : String)
      (fits : List.Forall₂ (Fits subst paired) (output :: state.map Prod.snd)
        (output' :: state'.map Prod.snd)) :
      Fits subst paired (.generatedFuture name output cancelSafe abortable affineState state)
        (.generatedFuture name output' cancelSafe' abortable' affineState' state')
  | dynamicInterface {args args' : List Ty} {name name' : String} (defId : DefId)
      (fits : List.Forall₂ (Fits subst paired) args args') :
      Fits subst paired (.dynamicInterface defId name args) (.dynamicInterface defId name' args')
  | opaqueReturn {args args' : List Ty} {bounds bounds' : ConstraintBounds} (defId : DefId)
      (fits : List.Forall₂ (Fits subst paired) args args') :
      Fits subst paired (.opaqueReturn defId args bounds) (.opaqueReturn defId args' bounds')
  | function {ret ret' : Ty} {params params' : List Ty} (isUnsafe : Bool) (abi : Option String)
      (fits : List.Forall₂ (Fits subst paired) (ret :: params) (ret' :: params')) :
      Fits subst paired (.function isUnsafe abi ret params) (.function isUnsafe abi ret' params')
  | closure {ret ret' : Ty} {params params' : List Ty} {constraints constraints' : ConstraintBounds}
      (fits : List.Forall₂ (Fits subst paired) (ret :: params) (ret' :: params'))
      (met : Met subst paired constraints.positive constraints'.positive)
      (metNegative : Met subst paired constraints.negative constraints'.negative) :
      Fits subst paired (.closure ret params constraints) (.closure ret' params' constraints')
  | standIn {ret ret' : Ty} {params params' captures : List Ty} {constraints : ConstraintBounds}
      {id : ClosureInstanceId} (free : constraints.isEmpty = true)
      (fits : List.Forall₂ (Fits subst paired) (ret :: params) (ret' :: params')) :
      Fits subst paired (.closure ret params constraints)
        (.closureInstance id ret' params' captures)
  | closureInstance {ret ret' : Ty} {params params' captures captures' : List Ty}
      (id : ClosureInstanceId)
      (fits : List.Forall₂ (Fits subst paired) (ret :: params) (ret' :: params'))
      (fitsCaptures : List.Forall₂ (Fits subst paired) captures captures') :
      Fits subst paired (.closureInstance id ret params captures)
        (.closureInstance id ret' params' captures')

/-- Each required constraint is met by one of the type's of the same name. -/
inductive Met (subst : TySubst) (paired : DefId → DefId → Prop) :
    List ConstraintRef → List ConstraintRef → Prop
  | nil (refs : List ConstraintRef) : Met subst paired [] refs
  | cons {required ref : ConstraintRef} {rest refs : List ConstraintRef} (member : ref ∈ refs)
      (sameName : required.name = ref.name) (related : paired required.defId ref.defId)
      (fits : List.Forall₂ (Fits subst paired) required.args ref.args)
        (more : Met subst paired rest refs) :
      Met subst paired (required :: rest) refs

end

theorem Fits.of_strip {subst : TySubst} {paired : DefId → DefId → Prop}
    (fits : Fits subst paired pattern actual.stripOpaqueState) :
    Fits subst paired pattern actual := by
  induction actual with
  | step actual ih =>
    cases actual with
    | opaqueState base state => exact .actualState state (ih base List.mem_cons_self fits)
    | _ => exact fits

/-- Some closure in the type has a constraint of the definition under the name. -/
def Ty.requires (ty : Ty) (name : String) (defId : DefId) : Bool :=
  ty.any fun
    | .closure _ _ constraints => (constraints.positive ++ constraints.negative).any fun ref =>
      ref.name == name && ref.defId == defId
    | _ => false

/-- Constraints of one name, in the pattern and in the type, have related definitions. -/
def Settles (paired : DefId → DefId → Prop) (pattern actual : Ty) : Prop :=
  ∀ name defId defId', pattern.requires name defId = true →
    actual.requires name defId' = true → paired defId defId'

section Settles

variable {paired : DefId → DefId → Prop} {pattern actual : Ty}

theorem Ty.any_of_part {p : Ty → Bool} {ty part : Ty} (member : part ∈ ty.children)
    (inPart : part.any p = true) : ty.any p = true := by
  rw [Ty.any_eq, Bool.or_eq_true, List.any_eq_true]
  exact .inr ⟨part, member, inPart⟩

theorem Ty.any_of_strip {p : Ty → Bool} {ty : Ty} (inside : ty.stripOpaqueState.any p = true) :
    ty.any p = true := by
  by_contra none
  rw [any_stripOpaqueState (Bool.not_eq_true _ ▸ none)] at inside
  cases inside

theorem Settles.part (settles : Settles paired pattern actual) {part part' : Ty}
    (member : part ∈ pattern.children) (member' : part' ∈ actual.stripOpaqueState.children) :
    Settles paired part part' := by
  intro name defId defId' inPattern inActual
  exact settles name defId defId' (Ty.any_of_part member inPattern)
    (Ty.any_of_strip (Ty.any_of_part member' inActual))

theorem Settles.parts (settles : Settles paired pattern actual) {parts parts' : List Ty}
    (inside : ∀ part ∈ parts, part ∈ pattern.children)
    (inside' : ∀ part ∈ parts', part ∈ actual.stripOpaqueState.children) :
    ∀ part ∈ parts, ∀ part' ∈ parts', Settles paired part part' :=
  fun part member part' member' => settles.part (inside part member) (inside' part' member')

theorem arg_mem_closure {part : Ty} (member : ref ∈ constraints.positive ++ constraints.negative)
    (inArgs : part ∈ ref.args) : part ∈ (Ty.closure ret params constraints).children :=
  List.mem_append_right _ (List.mem_flatMap.mpr ⟨ref, member, inArgs⟩)

theorem requires_closure (member : ref ∈ constraints.positive ++ constraints.negative) :
    (Ty.closure ret params constraints).requires ref.name ref.defId = true := by
  rw [Ty.requires, Ty.any_eq, Bool.or_eq_true]
  left
  exact List.any_eq_true.mpr ⟨ref, member, by simp⟩

/-- What is settled for closures is settled for each two of their constraints. -/
theorem Settles.constraint {ret' : Ty} {params' : List Ty} {constraints' : ConstraintBounds}
    (settles : Settles paired (.closure ret params constraints) actual)
    (form : actual.stripOpaqueState = .closure ret' params' constraints') {required : ConstraintRef}
    (member : required ∈ constraints.positive ++ constraints.negative)
    (member' : ref ∈ constraints'.positive ++ constraints'.negative) :
    (required.name = ref.name → paired required.defId ref.defId) ∧
      ∀ part ∈ required.args, ∀ part' ∈ ref.args, Settles paired part part' := by
  constructor
  · intro sameName
    have inActual : actual.requires ref.name ref.defId = true := by
      apply Ty.any_of_strip
      rw [form]
      exact requires_closure member'
    exact settles ref.name _ _ (sameName ▸ requires_closure member) inActual
  · refine settles.parts (fun _ => arg_mem_closure member) (fun _ inArgs => ?_)
    rw [form]
    exact arg_mem_closure member' inArgs

theorem Settles.base {base : Ty} {state : List (String × Ty)}
    (settles : Settles paired (.opaqueState base state) actual) : Settles paired base actual :=
  fun name defId defId' inPattern =>
    settles name defId defId' (Ty.any_of_part List.mem_cons_self inPattern)

end Settles

/-- What is true of a match, whatever the substitution grows to later. -/
structure Sound (pattern actual : Ty) (before after : TySubst) : Prop where
  grows : before.Extends after
  fits : ∀ {paired final}, after.Extends final → Settles paired pattern actual →
    Fits final paired pattern actual

/-- The same for lists of patterns and types. -/
structure SoundList (patterns actuals : List Ty) (before after : TySubst) : Prop where
  grows : before.Extends after
  fits : ∀ {paired final}, after.Extends final →
    (∀ pattern ∈ patterns, ∀ actual ∈ actuals, Settles paired pattern actual) →
      List.Forall₂ (Fits final paired) patterns actuals

/-- The same for required constraints and those of the type. -/
structure SoundRefs (required refs : List ConstraintRef) (before after : TySubst) : Prop where
  grows : before.Extends after
  met : ∀ {paired final}, after.Extends final →
    (∀ first ∈ required, ∀ ref ∈ refs, (first.name = ref.name → paired first.defId ref.defId) ∧
      ∀ pattern ∈ first.args, ∀ actual ∈ ref.args, Settles paired pattern actual) →
        Met final paired required refs

variable {after : TySubst}

theorem sound_generic {name : String}
    (bound : bindGeneric name actual.stripOpaqueState before = some after) :
    Sound (.generic name) actual before after := by
  obtain ⟨kept, newest, -⟩ := bindGeneric_spec bound
  refine ⟨kept, fun {paired final} later _ => .of_strip ?_⟩
  by_cases self : actual.stripOpaqueState = .generic name
  · rw [self]
    exact .rebound name
  · refine .parameter ?_
    rw [substituteTy, later name _ newest self]
    rfl

/-- Lists of patterns, if each of them matches soundly. -/
theorem sound_list {patterns actuals : List Ty} (each : ∀ pattern ∈ patterns, ∀ actual before after,
      unifyTy pattern actual before = some after → Sound pattern actual before after)
    (unified : unifyTys patterns actuals before = some after) :
    SoundList patterns actuals before after := by
  induction patterns generalizing actuals before with
  | nil => cases actuals with
    | nil =>
      cases unified
      exact ⟨.refl _, fun _ _ => .nil⟩
    | cons => cases unified
  | cons pattern patterns ih => cases actuals with
    | nil => cases unified
    | cons actual actuals =>
      obtain ⟨middle, first, rest⟩ := Option.bind_eq_some_iff.mp unified
      obtain ⟨here, later⟩ := List.forall_mem_cons.mp each
      have head := here actual before middle first
      have tail := ih later rest
      refine ⟨head.grows.trans tail.grows, fun final settles => ?_⟩
      have inTail (pattern : Ty) (member : pattern ∈ patterns) (actual : Ty)
          (member' : actual ∈ actuals) := settles pattern (List.mem_cons_of_mem _ member) actual
        (List.mem_cons_of_mem _ member')
      exact .cons (head.fits (tail.grows.trans final)
          (settles pattern List.mem_cons_self actual List.mem_cons_self))
        (tail.fits final inTail)

theorem unifyState_eq (patterns actuals : List (String × Ty)) (subst : TySubst) :
    unifyState patterns actuals subst =
      unifyTys (patterns.map Prod.snd) (actuals.map Prod.snd) subst := by
  induction patterns generalizing actuals subst with
  | nil => cases actuals <;> rfl
  | cons pattern patterns ih =>
    cases actuals with
    | nil => rfl
    | cons actual actuals =>
      have rest : unifyState patterns actuals =
          unifyTys (patterns.map Prod.snd) (actuals.map Prod.snd) := funext (ih actuals)
      rw [unifyState, unifyEntry, rest]
      rfl

theorem sound_refs {required refs : List ConstraintRef}
    (each : ∀ first ∈ required, ∀ pattern ∈ first.args, ∀ actual before after,
      unifyTy pattern actual before = some after → Sound pattern actual before after)
    (unified : unifyConstraintRefs required refs before = some after) :
    SoundRefs required refs before after := by
  induction required generalizing before with
  | nil =>
    cases unified
    exact ⟨.refl _, fun _ _ => .nil refs⟩
  | cons first rest ih =>
    obtain ⟨ref, member, found⟩ := List.exists_of_findSome?_eq_some unified
    obtain ⟨middle, matched, others⟩ := Option.bind_eq_some_iff.mp found
    obtain ⟨here, later⟩ := List.forall_mem_cons.mp each
    obtain ⟨defId, name, args⟩ := first
    rw [unifyConstraintRef] at matched
    split at matched
    next sameName =>
      have head := sound_list here matched
      have tail := ih later others
      refine ⟨head.grows.trans tail.grows, fun final settles => ?_⟩
      obtain ⟨settlesHere, settlesLater⟩ := List.forall_mem_cons.mp settles
      obtain ⟨sameDef, inArgs⟩ := settlesHere ref member
      exact .cons member sameName (sameDef sameName) (head.fits (tail.grows.trans final) inArgs)
        (tail.met final settlesLater)
    next => cases matched

/-- A pattern that is taken apart, if its parts are put together again. -/
theorem sound_node {parts parts' : List Ty}
    (each : ∀ part ∈ pattern.children, ∀ actual before after,
      unifyTy part actual before = some after → Sound part actual before after)
    (inside : ∀ part ∈ parts, part ∈ pattern.children)
    (inside' : ∀ part ∈ parts', part ∈ actual.stripOpaqueState.children)
    (unified : unifyTys parts parts' before = some after)
    (build : ∀ subst paired, List.Forall₂ (Fits subst paired) parts parts' →
      Fits subst paired pattern actual.stripOpaqueState) :
    Sound pattern actual before after := by
  have sound := sound_list (fun part member => each part (inside part member)) unified
  refine ⟨sound.grows, fun later settles => ?_⟩
  apply Fits.of_strip
  apply build
  exact sound.fits later (settles.parts inside inside')

/-- A closure: what it takes and gives first, then its constraints. -/
theorem sound_closure {ret' : Ty} {params' : List Ty} {constraints' : ConstraintBounds}
    (each : ∀ part ∈ (Ty.closure ret params constraints).children, ∀ actual before after,
      unifyTy part actual before = some after → Sound part actual before after)
    (form : actual.stripOpaqueState = .closure ret' params' constraints')
    (unified : ((unifyTy ret ret' before).bind (unifyTys params params')).bind
      (unifyConstraintBounds constraints constraints') = some after) :
    Sound (.closure ret params constraints) actual before after := by
  obtain ⟨positive, negative⟩ := constraints
  obtain ⟨first, signature, bounds⟩ := Option.bind_eq_some_iff.mp unified
  obtain ⟨second, inPositive, inNegative⟩ := Option.bind_eq_some_iff.mp bounds
  have signatureSound : SoundList (ret :: params) (ret' :: params') before first :=
    sound_list (fun part member => each part (List.mem_append_left _ member)) signature
  have positiveSound := sound_refs (fun required member part inArgs => each part
    (arg_mem_closure (List.mem_append_left _ member) inArgs)) inPositive
  have negativeSound := sound_refs (fun required member part inArgs => each part
    (arg_mem_closure (List.mem_append_right _ member) inArgs)) inNegative
  have afterSecond := negativeSound.grows
  have afterFirst := positiveSound.grows.trans afterSecond
  refine ⟨signatureSound.grows.trans afterFirst, fun later settles => .of_strip ?_⟩
  rw [form]
  refine .closure (signatureSound.fits (afterFirst.trans later) ?_)
    (positiveSound.met (afterSecond.trans later) ?_) (negativeSound.met later ?_)
  · exact settles.parts (fun _ => List.mem_append_left _)
      (fun _ member => by rw [form]; exact List.mem_append_left _ member)
  · intro required member ref member'
    exact settles.constraint form (List.mem_append_left _ member) (List.mem_append_left _ member')
  · intro required member ref member'
    exact settles.constraint form (List.mem_append_right _ member)
      (List.mem_append_right _ member')

/-- A closure instance: what it takes and gives first, then what it captures. -/
theorem sound_closureInstance {ret' : Ty} {params' captures captures' : List Ty}
    {id : ClosureInstanceId}
    (each : ∀ part ∈ (Ty.closureInstance id ret params captures).children, ∀ actual before after,
      unifyTy part actual before = some after → Sound part actual before after)
    (form : actual.stripOpaqueState = .closureInstance id ret' params' captures')
    (unified : ((unifyTy ret ret' before).bind (unifyTys params params')).bind
      (unifyTys captures captures') = some after) :
    Sound (.closureInstance id ret params captures) actual before after := by
  obtain ⟨middle, signature, inCaptures⟩ := Option.bind_eq_some_iff.mp unified
  have signatureSound : SoundList (ret :: params) (ret' :: params') before middle :=
    sound_list (fun part member => each part (List.mem_append_left _ member)) signature
  have capturesSound := sound_list
    (fun part member => each part (List.mem_append_right _ member)) inCaptures
  refine ⟨signatureSound.grows.trans capturesSound.grows,
    fun later settles => .of_strip ?_⟩
  rw [form]
  refine .closureInstance id (signatureSound.fits (capturesSound.grows.trans later) ?_)
    (capturesSound.fits later ?_)
  · exact settles.parts (fun _ => List.mem_append_left _)
      (fun _ member => by rw [form]; exact List.mem_append_left _ member)
  · exact settles.parts (fun _ => List.mem_append_right _)
      (fun _ member => by rw [form]; exact List.mem_append_right _ member)

theorem Fits.composite {subst : TySubst} {paired : DefId → DefId → Prop}
    (composite : pattern.head?.isSome = true)
    (heads : pattern.head? = actual.head?)
    (fits : List.Forall₂ (Fits subst paired) pattern.children actual.children) :
    Fits subst paired pattern actual := by
  cases pattern with
  | pointer | array | slice =>
    cases actual <;> cases heads
    cases fits with
    | cons fits => first | exact .pointer _ _ fits | exact .array _ fits | exact .slice _ fits
  | dynamicInterface | function =>
    cases actual <;> cases heads
    first | exact .dynamicInterface _ fits | exact .function _ _ fits
  | named =>
    cases actual with
    | named => exact .named (namedHead_eq.mpr (Option.some.inj heads)) fits
    | _ => cases heads
  | _ => cases composite

theorem sound_of_unifyTy (unified : unifyTy pattern actual before = some after) :
    Sound pattern actual before after := by
  induction pattern generalizing actual before after with
  | step pattern ih =>
    have each : ∀ part ∈ pattern.children, ∀ actual before after,
        unifyTy part actual before = some after → Sound part actual before after :=
      fun part member actual before after => ih part member
    cases pattern with
    | pointer | array | slice | named | dynamicInterface | function =>
      obtain ⟨heads, unified⟩ := unifyTy_composite rfl unified
      exact sound_node each (fun _ => id) (fun _ => id) unified fun _ _ => .composite rfl heads.symm
    | opaqueState base state =>
      have sound := ih base List.mem_cons_self unified
      exact ⟨sound.grows, fun later settles => .patternState _ (sound.fits later settles.base)⟩
    | hole id =>
      cases unified
      exact ⟨.refl before, fun _ _ => .hole id actual⟩
    | generic name => exact sound_generic unified
    | never | void | primitive | cSpelling | unknown =>
      simp only [unifyTy] at unified
      split at unified
      next same =>
        cases unified
        refine ⟨.refl before, fun _ _ => .of_strip ?_⟩
        rw [← same]
        exact .same rfl
      next => cases unified
    | generatedFuture name output cancelSafe abortable affineState state =>
      rw [unifyTy] at unified
      split at unified
      next output' _ _ _ state' form =>
        split at unified
        next same =>
          subst same
          have states : unifyState state state' =
              unifyTys (state.map Prod.snd) (state'.map Prod.snd) :=
            funext (unifyState_eq state state')
          rw [states] at unified
          refine sound_node each (fun _ member => member) (by simp [form, Ty.children])
            (show unifyTys (output :: _) (output' :: _) before = _ from unified) fun _ _ fits => ?_
          rw [form]
          exact .generatedFuture name fits
        next => cases unified
      next => cases unified
    | opaqueReturn defId args bounds =>
      rw [unifyTy] at unified
      split at unified
      next args' bounds' form =>
        split at unified
        next same =>
          subst same
          refine sound_node each (fun _ => List.mem_append_left _)
            (by simp +contextual [form, Ty.children]) unified fun _ _ fits => ?_
          rw [form]
          exact .opaqueReturn defId fits
        next => cases unified
      next => cases unified
    | closure ret params constraints =>
      rw [unifyTy] at unified
      split at unified
      next ret' params' constraints' form => exact sound_closure each form unified
      next id ret' params' captures form =>
        split at unified
        next free =>
          refine sound_node each (fun _ => List.mem_append_left _)
            (by simp +contextual [form, Ty.children])
            (show unifyTys (ret :: params) (ret' :: params') before = _ from unified) fun _ _
              fits => ?_
          rw [form]
          exact .standIn free fits
        next => cases unified
      next => cases unified
    | closureInstance id ret params captures =>
      rw [unifyTy] at unified
      split at unified
      next id' ret' params' captures' form =>
        split at unified
        next same =>
          subst same
          exact sound_closureInstance each form unified
        next => cases unified
      next => cases unified

/-- A successful match keeps the bindings there were, and its result makes the pattern
fit the type, except at places where both have the same parameter. Constraints that are
paired have one name, and one definition if those of one name do. -/
theorem unifyTy_fits (pattern actual : Ty) (before after : TySubst)
    (unified : unifyTy pattern actual before = some after) :
    before.Extends after ∧ Fits after (fun _ _ => True) pattern actual ∧
      ((∀ name defId defId', pattern.requires name defId = true →
        actual.requires name defId' = true → defId = defId') → Fits after Eq pattern actual) := by
  have sound := sound_of_unifyTy unified
  exact ⟨sound.grows, sound.fits (.refl after) fun _ _ _ _ _ => trivial, sound.fits (.refl after)⟩

/-- A closure that takes and gives a type, with one constraint on it. -/
def constrainedClosure (defId : DefId) (name : String) (ty : Ty) : Ty :=
  .closure ty [ty] (.mk [.mk defId name [ty]] [])

/-- A constrained closure of a parameter meets one of a type. -/
theorem constrainedClosure_fits :
    TySubst.Extends [("T", .generic "T")] [("T", .primitive .i64), ("T", .generic "T")] ∧
      Fits [("T", .primitive .i64), ("T", .generic "T")] Eq
        (constrainedClosure 7 "Show" (.generic "T"))
        (constrainedClosure 7 "Show" (.primitive .i64)) := by
  obtain ⟨grows, -, fits⟩ := unifyTy_fits (constrainedClosure 7 "Show" (.generic "T"))
    (constrainedClosure 7 "Show" (.primitive .i64)) [("T", .generic "T")]
    [("T", .primitive .i64), ("T", .generic "T")] (by decide)
  refine ⟨grows, fits fun name defId defId' required met => ?_⟩
  simp [constrainedClosure, Ty.requires, Ty.any, Ty.anyTys, Ty.anyBounds, Ty.anyRefs, Ty.anyRef,
    ConstraintBounds.positive, ConstraintBounds.negative, ConstraintRef.name,
    ConstraintRef.defId] at required met
  exact required.2.symm.trans met.2

/-- The type without opaque states, and with closures in place of closure instances. -/
def plainForm : Ty → Ty := rebuild fun _ mapped =>
  match mapped with
  | .opaqueState base _ => base
  | .closureInstance _ ret params _ => .closure ret params (.mk [] [])
  | other => other

/-- A match succeeds, and the pattern then differs from the type by more than its
opaque state and closure instances. -/
def matchesDifferent (pattern actual : Ty) (before : TySubst) : Bool :=
  (unifyTy pattern actual before).any fun after =>
    plainForm (substituteTy after pattern) != plainForm actual

/-- Not all matches make the pattern equal to the type, or keep every binding. A hole, a
closure with a constraint more, another flag of a generated future, other bounds of an
opaque return, an interface of the same name, and a parameter that met itself before it
met another type. -/
theorem unifyTy_not_exact :
    matchesDifferent (.hole 0) (.primitive .i64) [] = true ∧
    matchesDifferent (.closure .void [] (.mk [] [])) (.closure .void [] (.mk [.mk 7 "Show" []] []))
      [] = true ∧
    matchesDifferent (.generatedFuture "f" .void true true false [])
      (.generatedFuture "f" .void true true true []) [] = true ∧
    matchesDifferent (.opaqueReturn 3 [] (.mk [] []))
      (.opaqueReturn 3 [] (.mk [.mk 7 "Show" []] []))
      [] = true ∧
    matchesDifferent (constrainedClosure 7 "Show" .void) (constrainedClosure 8 "Show" .void) [] =
      true ∧
    matchesDifferent (.function false none .void [.generic "T", .generic "T"])
      (.function false none .void [.generic "T", .primitive .i64]) [] = true ∧
    unifyTy (.generic "T") (.primitive .i64) [("T", .generic "T")] =
      some [("T", .primitive .i64), ("T", .generic "T")] := by
  decide

end Ciel.Types
