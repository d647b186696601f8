import Ciel.Library.Lists
import Ciel.Types.Comparison

/-!
# The comparison that matches implementations

`ty_matches_ignoring_opaque_state` compares the arguments of an implementation with
those of the interface asked for. It drops one opaque state on each side and looks
into pointers, named types, dynamic interfaces, arrays and slices; any other pair of
types has to be equal. The type algebra's own comparison drops every opaque state and
looks into callables and futures too.

So the two agree on types that have their opaque states where the first comparison
drops them, and this is as far as they agree: any other type is told apart by the
first one from what is left of it without opaque states.
-/

namespace Ciel.Types

open Library (map_eq_map_iff_zip)

/-- One opaque state on top of a type is dropped. -/
def Ty.dropOpaqueState : Ty → Ty
  | .opaqueState base _ => base
  | ty => ty

mutual

/-- `ty_matches_ignoring_opaque_state`, where the right type has lost its opaque
state, and the left one still has to (`top`). -/
def matchesDropped : (top : Bool) → Ty → Ty → Bool
  | true, .opaqueState base _, right => matchesDropped false base right
  | _, .pointer nullable mutability inner, right => match right with
      | .pointer nullable' mutability' inner' => nullable == nullable' &&
          mutability == mutability' && matchesDropped true inner inner'.dropOpaqueState
      | _ => false
  | _, .named defId name args, right => match right with
      | .named defId' name' args' =>
        namedTyIdentityEq defId name defId' name' && matchTys args args'
      | _ => false
  | _, .dynamicInterface defId _ args, right => match right with
      | .dynamicInterface defId' _ args' => defId == defId' && matchTys args args'
      | _ => false
  | _, .array len elem, right => match right with
      | .array len' elem' => len == len' && matchesDropped true elem elem'.dropOpaqueState
      | _ => false
  | _, .slice mutability elem, right => match right with
      | .slice mutability' elem' =>
        mutability == mutability' && matchesDropped true elem elem'.dropOpaqueState
      | _ => false
  | _, left, right => decide (left = right)
termination_by structural _ left => left

def matchTys : List Ty → List Ty → Bool
  | [], [] => true
  | left :: lefts, right :: rights =>
    matchesDropped true left right.dropOpaqueState && matchTys lefts rights
  | _, _ => false
termination_by structural lefts => lefts

end

def tyMatchesIgnoringOpaqueState (left right : Ty) : Bool :=
  matchesDropped true left right.dropOpaqueState

/-- The pairs of parts that the comparison goes on with, if it looks into the two
types. -/
def partPairs : Ty → Ty → Option (List (Ty × Ty))
  | .pointer nullable mutability inner, .pointer nullable' mutability' inner' =>
    if nullable = nullable' ∧ mutability = mutability' then some [(inner, inner')] else none
  | .named defId name args, .named defId' name' args' =>
    if namedTyIdentityEq defId name defId' name' ∧ args.length = args'.length then
      some (args.zip args')
    else none
  | .dynamicInterface defId _ args, .dynamicInterface defId' _ args' =>
    if defId = defId' ∧ args.length = args'.length then some (args.zip args') else none
  | .array len elem, .array len' elem' => if len = len' then some [(elem, elem')] else none
  | .slice mutability elem, .slice mutability' elem' =>
    if mutability = mutability' then some [(elem, elem')] else none
  | _, _ => none

theorem matchTys_eq (lefts rights : List Ty) : matchTys lefts rights =
    (lefts.length == rights.length &&
      (lefts.zip rights).all fun pair => tyMatchesIgnoringOpaqueState pair.1 pair.2) := by
  induction lefts generalizing rights with
  | nil => cases rights <;> rfl
  | cons left lefts ih =>
    cases rights with
    | nil => rfl
    | cons right rights =>
      simp [matchTys, ih, tyMatchesIgnoringOpaqueState, Bool.and_left_comm]

theorem namedTyIdentityEq_self (defId : Option DefId) (name : String) :
    namedTyIdentityEq defId name defId name = true := by
  cases defId <;> simp [namedTyIdentityEq]

/-- What the comparison does with two types: it goes on with their parts, or asks
for equality. -/
theorem tyMatches_eq (left right : Ty) : tyMatchesIgnoringOpaqueState left right =
    match partPairs left.dropOpaqueState right.dropOpaqueState with
    | some pairs => pairs.all fun pair => tyMatchesIgnoringOpaqueState pair.1 pair.2
    | none => decide (left.dropOpaqueState = right.dropOpaqueState) := by
  have dropped : tyMatchesIgnoringOpaqueState left right =
      matchesDropped false left.dropOpaqueState right.dropOpaqueState := by
    cases left <;> rfl
  rw [dropped]
  generalize left.dropOpaqueState = l
  generalize right.dropOpaqueState = r
  cases l with
  | pointer | array | slice | named | dynamicInterface =>
    cases r <;> simp only [matchesDropped, partPairs, matchTys_eq, tyMatchesIgnoringOpaqueState] <;>
      grind [namedTyIdentityEq_self]
  | _ => cases r <;> rfl

theorem comparisonForm_dropOpaqueState (ty : Ty) :
    comparisonForm ty.dropOpaqueState = comparisonForm ty := by
  cases ty with
  | opaqueState base state => rw [comparisonForm_eq (.opaqueState base state)]; rfl
  | _ => rfl

/-- Types that the comparison looks into are the same if their parts are. -/
theorem comparisonForm_partPairs {left right : Ty} {pairs : List (Ty × Ty)}
    (looked : partPairs left right = some pairs) :
    comparisonForm left = comparisonForm right ↔
      ∀ pair ∈ pairs, comparisonForm pair.1 = comparisonForm pair.2 := by
  rw [comparisonForm_eq left, comparisonForm_eq right]
  unfold partPairs at looked
  split at looked
  case h_6 => cases looked
  all_goals
    split at looked
    case isFalse => cases looked
    rename_i same
    cases looked
  · simp [Ty.comparedWith, Ty.mapParts, same]
  · obtain ⟨rfl, known⟩ := namedTyIdentityEq_iff.1 same.1
    simp [Ty.comparedWith, known, map_eq_map_iff_zip same.2]
  · simp [Ty.comparedWith, same, map_eq_map_iff_zip]
  · simp [Ty.comparedWith, Ty.mapParts, same]
  · simp [Ty.comparedWith, Ty.mapParts, same]

theorem partPairs_children {left right : Ty} {pairs : List (Ty × Ty)}
    (looked : partPairs left right = some pairs) :
    ∀ pair ∈ pairs, pair.1 ∈ left.children ∧ pair.2 ∈ right.children := by
  unfold partPairs at looked
  split at looked
  case h_6 => cases looked
  all_goals
    split at looked
    case isFalse => cases looked
    cases looked
    intro pair member
    exact List.of_mem_zip member

/-! ## Opaque states that are seen -/

/-- What the type algebra compares part by part. -/
def Ty.comparedParts : Ty → List Ty
  | .closure ret params _ => ret :: params
  | .opaqueReturn _ _ _ => []
  | ty => ty.children

/-- The forms that the comparison of implementations looks into. -/
def Ty.isOpen : Ty → Bool
  | .pointer _ _ _ | .named _ _ _ | .dynamicInterface _ _ _ | .array _ _ | .slice _ _ => true
  | _ => false

/-- There is no opaque state in what is compared of the type. -/
inductive Ty.Bare : Ty → Prop
  | parts {ty : Ty} (form : ty.isOpaqueState = false)
    (bare : ∀ part ∈ ty.comparedParts, part.Bare) :
      Ty.Bare ty

/-- Opaque states stand only where the comparison of implementations drops them: not
below a function, a closure, a closure instance or a generated future, and not under
another opaque state. -/
inductive Ty.Shown : Ty → Prop
  | state {base : Ty} {state : List (String × Ty)} (form : base.isOpaqueState = false)
      (shown : base.Shown) : Ty.Shown (.opaqueState base state)
  | parts {ty : Ty} (isOpen : ty.isOpen = true) (shown : ∀ part ∈ ty.children, part.Shown) :
      Ty.Shown ty
  | bare {ty : Ty} (bare : ty.Bare) : Ty.Shown ty

/-- A definition that is known by its id has the name that it was given. -/
def Ty.headNamed (names : DefId → String) : Ty → Prop
  | .named (some defId) name _ => name = names defId
  | .dynamicInterface defId name _ => name = names defId
  | _ => True

inductive Ty.Named (names : DefId → String) : Ty → Prop
  | parts {ty : Ty} (head : ty.headNamed names)
      (named : ∀ part ∈ ty.comparedParts, part.Named names) : Ty.Named names ty

variable {names : DefId → String} {ty left right : Ty}

theorem Ty.comparedParts_of_isOpen (isOpen : ty.isOpen = true) :
    ty.comparedParts = ty.children := by
  cases ty with
  | closure | opaqueReturn => cases isOpen
  | _ => rfl

theorem Ty.comparedParts_subset (ty : Ty) : ty.comparedParts ⊆ ty.children := by
  cases ty with
  | closure => exact List.cons_subset_cons _ (List.subset_append_left _ _)
  | opaqueReturn => exact List.nil_subset _
  | _ => exact fun _ => id

theorem Ty.Shown.children (shown : ty.Shown) (isOpen : ty.isOpen = true) :
    ∀ part ∈ ty.children, part.Shown := by
  cases shown with
  | state => cases isOpen
  | parts _ shown => exact shown
  | bare bare =>
    obtain ⟨-, bare⟩ := bare
    rw [comparedParts_of_isOpen isOpen] at bare
    exact fun part member => .bare (bare part member)

theorem Ty.Named.children (named : ty.Named names) (isOpen : ty.isOpen = true) :
    ∀ part ∈ ty.children, part.Named names := by
  obtain ⟨-, named⟩ := named
  rwa [comparedParts_of_isOpen isOpen] at named

/-- One opaque state is all there is on top of a type. -/
theorem Ty.Shown.dropOpaqueState (shown : ty.Shown) :
    ty.dropOpaqueState.isOpaqueState = false ∧ ty.dropOpaqueState.Shown := by
  cases shown with
  | state form shown => exact ⟨form, shown⟩
  | parts isOpen shown =>
    cases ty with
    | opaqueState => cases isOpen
    | _ => exact ⟨rfl, .parts isOpen shown⟩
  | bare bare =>
    obtain ⟨form, parts⟩ := bare
    cases ty with
    | opaqueState => cases form
    | _ => exact ⟨rfl, .bare (.parts form parts)⟩

theorem dropOpaqueState_of_bare (bare : ty.Bare) : ty.dropOpaqueState = ty := by
  obtain ⟨form, -⟩ := bare
  cases ty with
  | opaqueState => cases form
  | _ => rfl

theorem Ty.Named.dropOpaqueState (named : ty.Named names) : ty.dropOpaqueState.Named names := by
  obtain ⟨head, named⟩ := named
  cases ty with
  | opaqueState base state => exact named base List.mem_cons_self
  | _ => exact .parts head named

theorem Ty.Shown.bare_of_not_isOpen (shown : ty.Shown) (form : ty.isOpaqueState = false)
    (shut : ty.isOpen = false) : ty.Bare := by
  cases shown with
  | state => cases form
  | parts isOpen => cases isOpen.symm.trans shut
  | bare bare => exact bare

/-- Put the names of definitions in again. -/
def withNames (names : DefId → String) : Ty → Ty :=
  rebuild fun original rebuilt => match original, rebuilt with
    | .closure _ _ constraints, .closure ret params _ => .closure ret params constraints
    | .opaqueReturn defId args bounds, _ => .opaqueReturn defId args bounds
    | _, .named (some defId) _ args => .named (some defId) (names defId) args
    | _, .dynamicInterface defId _ args => .dynamicInterface defId (names defId) args
    | _, other => other

/-- All that the comparison form of a bare type has lost are the names. -/
theorem withNames_comparisonForm (bare : ty.Bare) (named : ty.Named names) :
    withNames names (comparisonForm ty) = ty := by
  induction ty with
  | step ty ih =>
    obtain ⟨form, bare⟩ := bare
    obtain ⟨head, named⟩ := named
    have back : ∀ part ∈ ty.comparedParts, part ∈ ty.children →
        (withNames names ∘ comparisonForm) part = id part :=
      fun part member child => ih part child (bare part member) (named part member)
    have many {l : List Ty} (inside : ∀ part ∈ l, part ∈ ty.comparedParts ∧ part ∈ ty.children) :
        l.map (withNames names ∘ comparisonForm) = l := by
      rw [List.map_congr_left fun part member =>
        back part (inside part member).1 (inside part member).2,
        List.map_id]
    have whole (all : ty.children ⊆ ty.comparedParts) :
        (ty.mapParts comparisonForm).mapParts (withNames names) = ty := by
      rw [Ty.mapParts_mapParts, Ty.mapParts_congr fun part member => back part (all member) member,
        Ty.mapParts_id]
    rw [comparisonForm_eq, withNames, rebuild_eq, ← withNames]
    cases ty with
    | opaqueState => cases form
    | opaqueReturn => rfl
    | named defId name args =>
      have args := many (l := args) fun part member => ⟨member, member⟩
      cases defId with
      | none => simp [Ty.comparedWith, Ty.mapParts, knownName, args]
      | some defId => simp [Ty.comparedWith, Ty.mapParts, args, show name = names defId from head]
    | dynamicInterface defId name args =>
      have args := many (l := args) fun part member => ⟨member, member⟩
      simp [Ty.comparedWith, Ty.mapParts, args, show name = names defId from head]
    | closure ret params constraints =>
      have ret := back ret List.mem_cons_self List.mem_cons_self
      have params := many (l := params) fun part member =>
        ⟨List.mem_cons_of_mem _ member, List.mem_cons_of_mem _ (List.mem_append_left _ member)⟩
      simp [Ty.comparedWith, Ty.mapParts, params,
        show withNames names (comparisonForm _) = _ from ret]
    | _ => exact whole fun _ => id

/-- Types that are the same and have no opaque state on top are looked into together. -/
theorem looked_of_same (same : comparisonForm left = comparisonForm right)
    (form : left.isOpaqueState = false) (form' : right.isOpaqueState = false) :
    left.isOpen = right.isOpen ∧ (left.isOpen = true → (partPairs left right).isSome = true) := by
  rw [comparisonForm_eq left, comparisonForm_eq right] at same
  cases left with
  | opaqueState => cases form
  | named defId name args =>
    cases right <;> simp [Ty.comparedWith, Ty.mapParts, Ty.isOpaqueState] at same form'
    obtain ⟨rfl, known, parts⟩ := same
    have length := congrArg List.length parts
    rw [List.length_map, List.length_map] at length
    simp [Ty.isOpen, partPairs, namedTyIdentityEq_iff, known, length]
  | dynamicInterface defId name args =>
    cases right <;> simp [Ty.comparedWith, Ty.mapParts, Ty.isOpaqueState] at same form'
    obtain ⟨rfl, parts⟩ := same
    have length := congrArg List.length parts
    rw [List.length_map, List.length_map] at length
    simp [Ty.isOpen, partPairs, length]
  | _ =>
    cases right <;>
      simp_all [Ty.comparedWith, Ty.mapParts, Ty.isOpaqueState, Ty.isOpen, partPairs]

theorem isOpen_of_partPairs {pairs : List (Ty × Ty)} (looked : partPairs left right = some pairs) :
    left.isOpen = true ∧ right.isOpen = true := by
  unfold partPairs at looked
  split at looked
  case h_6 => cases looked
  all_goals exact ⟨rfl, rfl⟩

/-- On types that show their opaque states the two comparisons agree. -/
theorem tyMatches_of_shown (left right : Ty) (shown : left.Shown) (shown' : right.Shown)
    (named : left.Named names) (named' : right.Named names) :
    tyMatchesIgnoringOpaqueState left right = true ↔
      comparisonForm left = comparisonForm right := by
  rw [tyMatches_eq, ← comparisonForm_dropOpaqueState left, ← comparisonForm_dropOpaqueState right]
  obtain ⟨form, inner⟩ := shown.dropOpaqueState
  obtain ⟨form', inner'⟩ := shown'.dropOpaqueState
  have smaller : sizeOf left.dropOpaqueState ≤ sizeOf left := by
    cases left with
    | opaqueState => simp only [Ty.dropOpaqueState, Ty.opaqueState.sizeOf_spec]; omega
    | _ => exact Nat.le_refl _
  cases looked : partPairs left.dropOpaqueState right.dropOpaqueState with
  | some pairs =>
    obtain ⟨isOpen, isOpen'⟩ := isOpen_of_partPairs looked
    rw [comparisonForm_partPairs looked, List.all_eq_true]
    refine forall₂_congr fun pair member => ?_
    obtain ⟨child, child'⟩ := partPairs_children looked pair member
    have less := Ty.sizeOf_lt_of_mem_children child
    exact tyMatches_of_shown pair.1 pair.2 (inner.children isOpen _ child)
      (inner'.children isOpen' _ child') (named.dropOpaqueState.children isOpen _ child)
      (named'.dropOpaqueState.children isOpen' _ child')
  | none =>
    rw [decide_eq_true_eq]
    refine ⟨congrArg comparisonForm, fun same => ?_⟩
    obtain ⟨alike, both⟩ := looked_of_same same form form'
    cases shut : left.dropOpaqueState.isOpen with
    | true =>
      rw [looked] at both
      cases both shut
    | false =>
      have bare := inner.bare_of_not_isOpen form shut
      have bare' := inner'.bare_of_not_isOpen form' (alike.symm.trans shut)
      rw [← withNames_comparisonForm bare named.dropOpaqueState, same,
        withNames_comparisonForm bare' named'.dropOpaqueState]
termination_by sizeOf left

/-- The type without the opaque states in what is compared of it. -/
def withoutStates : Ty → Ty :=
  rebuild fun original rebuilt => match original, rebuilt with
    | .closure _ _ constraints, .closure ret params _ => .closure ret params constraints
    | .opaqueReturn defId args bounds, _ => .opaqueReturn defId args bounds
    | _, .opaqueState base _ => base
    | _, other => other

theorem withoutStates_opaqueState (base : Ty) (state : List (String × Ty)) :
    withoutStates (.opaqueState base state) = withoutStates base := by
  rw [withoutStates, rebuild_eq]
  rfl

theorem withoutStates_of_isOpen (isOpen : ty.isOpen = true) :
    withoutStates ty = ty.mapParts withoutStates := by
  rw [withoutStates, rebuild_eq]
  cases ty with
  | closure | opaqueReturn | opaqueState => cases isOpen
  | _ => rfl

theorem comparedParts_withoutStates (form : ty.isOpaqueState = false) :
    (withoutStates ty).isOpaqueState = false ∧
      (withoutStates ty).comparedParts = ty.comparedParts.map withoutStates := by
  have parts := Ty.children_mapParts withoutStates ty
  rw [withoutStates, rebuild_eq]
  cases ty with
  | opaqueState => cases form
  | closure => simp [Ty.mapParts, Ty.comparedParts, Ty.isOpaqueState]
  | opaqueReturn => exact ⟨rfl, rfl⟩
  | _ => exact ⟨rfl, parts⟩

theorem bare_withoutStates (ty : Ty) : (withoutStates ty).Bare := by
  induction ty with
  | step ty ih =>
    cases form : ty.isOpaqueState with
    | true =>
      cases ty with
      | opaqueState base state =>
        rw [withoutStates_opaqueState]
        exact ih base List.mem_cons_self
      | _ => cases form
    | false =>
      obtain ⟨form', parts⟩ := comparedParts_withoutStates form
      refine .parts form' fun part member => ?_
      rw [parts] at member
      obtain ⟨inner, inside, rfl⟩ := List.mem_map.1 member
      exact ih inner (Ty.comparedParts_subset ty inside)

theorem named_withoutStates (named : ty.Named names) : (withoutStates ty).Named names := by
  induction ty with
  | step ty ih =>
    obtain ⟨head, named⟩ := named
    cases form : ty.isOpaqueState with
    | true =>
      cases ty with
      | opaqueState base state =>
        rw [withoutStates_opaqueState]
        exact ih base List.mem_cons_self (named base List.mem_cons_self)
      | _ => cases form
    | false =>
      have headNamed : (withoutStates ty).headNamed names := by
        rw [withoutStates, rebuild_eq]
        cases ty with
        | opaqueState => cases form
        | named defId => cases defId <;> exact head
        | _ => exact head
      refine .parts headNamed fun part member => ?_
      rw [(comparedParts_withoutStates form).2] at member
      obtain ⟨inner, inside, rfl⟩ := List.mem_map.1 member
      exact ih inner (Ty.comparedParts_subset ty inside) (named inner inside)

theorem comparisonForm_withoutStates (ty : Ty) :
    comparisonForm (withoutStates ty) = comparisonForm ty := by
  induction ty with
  | step ty ih =>
    have many {l : List Ty} (inside : l ⊆ ty.children) :
        l.map (comparisonForm ∘ withoutStates) = l.map comparisonForm :=
      List.map_congr_left fun part member => ih part (inside member)
    have whole : (ty.mapParts withoutStates).mapParts comparisonForm =
        ty.mapParts comparisonForm := by
      rw [Ty.mapParts_mapParts]
      exact Ty.mapParts_congr ih
    rw [comparisonForm_eq, comparisonForm_eq ty, withoutStates, rebuild_eq, ← withoutStates]
    cases ty with
    | opaqueState base state =>
      exact (comparisonForm_eq _).symm.trans (ih base List.mem_cons_self)
    | opaqueReturn => rfl
    | named defId name args | dynamicInterface defId name args =>
      simpa [Ty.comparedWith, Ty.mapParts] using many (l := args) fun _ => id
    | closure ret params constraints =>
      have params := many (l := params) fun part member =>
        List.mem_cons_of_mem _ (List.mem_append_left _ member)
      simp [Ty.comparedWith, Ty.mapParts, ih ret List.mem_cons_self, params]
    | _ => exact whole

/-- A type that matches itself without its opaque states shows them. -/
theorem shown_of_tyMatches (matched : tyMatchesIgnoringOpaqueState ty (withoutStates ty) = true) :
    ty.Shown := by
  induction ty with
  | step ty ih =>
    have bare := bare_withoutStates ty
    rw [tyMatches_eq] at matched
    cases isOpen : ty.isOpen with
    | true =>
      refine .parts isOpen fun part member => ih part member ?_
      rw [withoutStates_of_isOpen isOpen] at matched
      cases ty with
      | pointer | array | slice =>
        obtain rfl := List.mem_singleton.1 member
        simpa [partPairs, Ty.mapParts, Ty.dropOpaqueState] using matched
      | named defId name args | dynamicInterface defId name args =>
        have pairs : ∀ pair ∈ args.zip (args.map withoutStates),
            tyMatchesIgnoringOpaqueState pair.1 pair.2 = true := by
          simpa [partPairs, Ty.mapParts, Ty.dropOpaqueState, namedTyIdentityEq_self] using matched
        refine pairs (part, withoutStates part) ?_
        rw [← List.map_prod_left_eq_zip]
        exact List.mem_map_of_mem member
      | _ => cases isOpen
    | false =>
      rw [dropOpaqueState_of_bare bare] at matched
      cases ty with
      | opaqueState base state =>
        rw [withoutStates_opaqueState] at matched bare
        cases form : base.isOpaqueState with
        | true =>
          have equal : base = withoutStates base := by
            cases base with
            | opaqueState => exact of_decide_eq_true matched
            | _ => cases form
          rw [← equal] at bare
          obtain ⟨plain, -⟩ := bare
          cases form.symm.trans plain
        | false =>
          refine .state form (ih base List.mem_cons_self ?_)
          rw [tyMatches_eq, dropOpaqueState_of_bare bare]
          cases base with
          | opaqueState => cases form
          | _ => exact matched
      | pointer | array | slice | named | dynamicInterface => cases isOpen
      | _ =>
        have equal := of_decide_eq_true matched
        rw [← equal] at bare
        exact .bare bare

/-- `Future<i64>`. -/
def futureOfI64 : Ty := .named (some 0) "Future" [.primitive .i64]

/-- What a call with one argument gives for a future. -/
def calledFuture : Ty := .opaqueState futureOfI64 [("argument 0", .primitive .i64)]

/-- A closure `void |()|` that has captured a value. -/
def capturing (capture : Ty) : Ty := .closureInstance ⟨.function 1, 0⟩ .void [] [capture]

theorem futureOfI64_bare : futureOfI64.Bare := bare_withoutStates futureOfI64

theorem futureOfI64_named : futureOfI64.Named fun _ => "Future" :=
  .parts rfl fun part member => by
    obtain rfl := List.mem_singleton.1 member
    exact .parts trivial nofun

end Ciel.Types
