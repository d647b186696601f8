import Ciel.Types.Comparison

/-!
# Assignment only weakens

A value may be assigned where the expected type is a weaker view of its own: a
pointer may become nullable, a view read-only, a function unsafe, a closure less
constrained, and a closure instance a closure. On the forms in which types are
compared this is the order `Weaker`; that `can_assign_from` decides it for types
without holes gives its laws.
-/

namespace Ciel.Types

variable {source ty : Ty}

/-- What a target may look like, seen from the source. Both are comparison forms. -/
inductive Weaker : Ty → Ty → Prop
  | refl (ty : Ty) : Weaker ty ty
  | pointer {nullable nullable' : Bool} {view view' : ViewMutability} {inner : Ty}
      (null : nullable' = true → nullable = true) (weak : pointerViewCanWeaken view view' = true) :
      Weaker (.pointer nullable view inner) (.pointer nullable' view' inner)
  | slice {view view' : ViewMutability} {elem : Ty}
      (weak : pointerViewCanWeaken view view' = true) :
        Weaker (.slice view elem) (.slice view' elem)
  | function {isUnsafe isUnsafe' : Bool} {abi : Option String} {ret ret' : Ty} {params : List Ty}
      (safe : isUnsafe' = true → isUnsafe = true) (weak : Weaker ret ret') :
      Weaker (.function isUnsafe abi ret params) (.function isUnsafe' abi ret' params)
  | closure {ret ret' : Ty} {params : List Ty} {constraints constraints' : ConstraintBounds}
      (weak : Weaker ret ret') (proves : constraints'.provesAll constraints = true) :
      Weaker (.closure ret params constraints) (.closure ret' params constraints')
  | closureInstance {ret ret' : Ty} {params captures : List Ty} {constraints : ConstraintBounds}
      {id : ClosureInstanceId} (weak : Weaker ret ret') (free : constraints.isEmpty = true) :
      Weaker (.closure ret params constraints) (.closureInstance id ret' params captures)

theorem pointerViewCanWeaken_iff {expected actual : ViewMutability} :
    pointerViewCanWeaken expected actual = true ↔ (expected = .writable → actual = .writable) := by
  cases expected <;> cases actual <;> decide

theorem ConstraintBounds.provesAll_iff {bounds required : ConstraintBounds} :
    bounds.provesAll required = true ↔
      required.positive ⊆ bounds.positive ∧ required.negative ⊆ bounds.negative := by
  simp [provesAll, List.subset_def]

theorem ConstraintBounds.provesAll_trans {a b c : ConstraintBounds}
    (first : b.provesAll a = true) (second : c.provesAll b = true) : c.provesAll a = true := by
  rw [provesAll_iff] at *
  exact ⟨List.Subset.trans first.1 second.1, List.Subset.trans first.2 second.2⟩

/-- Bounds that prove no more than nothing are empty. -/
theorem ConstraintBounds.isEmpty_of_provesAll {bounds required : ConstraintBounds}
    (free : bounds.isEmpty = true) (proves : bounds.provesAll required = true) :
    required.isEmpty = true := by
  rw [provesAll_iff] at proves
  rw [isEmpty, Bool.and_eq_true, List.isEmpty_iff, List.isEmpty_iff] at *
  rw [free.1, free.2] at proves
  exact ⟨List.subset_nil.mp proves.1, List.subset_nil.mp proves.2⟩

theorem Weaker.trans {a b c : Ty} (first : Weaker a b) (second : Weaker b c) : Weaker a c := by
  induction first generalizing c with
  | refl => exact second
  | pointer null weak =>
    cases second with
    | refl => exact .pointer null weak
    | pointer null' weak' =>
      rw [pointerViewCanWeaken_iff] at weak weak'
      exact .pointer (null ∘ null') (pointerViewCanWeaken_iff.mpr (weak' ∘ weak))
  | slice weak =>
    cases second with
    | refl => exact .slice weak
    | slice weak' =>
      rw [pointerViewCanWeaken_iff] at weak weak'
      exact .slice (pointerViewCanWeaken_iff.mpr (weak' ∘ weak))
  | function safe weak ih =>
    cases second with
    | refl => exact .function safe weak
    | function safe' weak' => exact .function (safe ∘ safe') (ih weak')
  | closure weak proves ih =>
    cases second with
    | refl => exact .closure weak proves
    | closure weak' proves' =>
      exact .closure (ih weak') (ConstraintBounds.provesAll_trans proves proves')
    | closureInstance weak' free =>
      exact .closureInstance (ih weak') (ConstraintBounds.isEmpty_of_provesAll free proves)
  | closureInstance weak free ih =>
    cases second with
    | refl => exact .closureInstance weak free

/-! ## The checker decides the order -/

/-- There is no hole in the type. -/
def Ty.holeFree (ty : Ty) : Prop := ty.any Ty.isHole = false

namespace Ty

theorem holeFree.part {part : Ty} (free : ty.holeFree) (member : part ∈ ty.children) :
    part.holeFree :=
  (any_eq_false.mp free).2 part member

theorem holeFree.strip (free : ty.holeFree) : ty.stripOpaqueState.holeFree := by
  induction ty with
  | step ty ih =>
    cases ty with
    | opaqueState base state => exact ih base List.mem_cons_self (free.part List.mem_cons_self)
    | _ => exact free

theorem holeFree.isHole (free : ty.holeFree) : ty.isHole = false :=
  (any_eq_false.mp free).1

end Ty

/-- The parameters of callables are compared. -/
theorem sameTys_iff_map {lefts rights : List Ty} :
    sameTys lefts rights = true ↔ lefts.map comparisonForm = rights.map comparisonForm :=
  sameTys_iff (fun left _ => sameIgnoringOpaqueState_iff left) rights

theorem pointerViewCanWeaken_refl (view : ViewMutability) : pointerViewCanWeaken view view = true :=
  pointerViewCanWeaken_iff.mpr id

theorem ConstraintBounds.provesAll_refl (bounds : ConstraintBounds) :
    bounds.provesAll bounds = true :=
  provesAll_iff.mpr ⟨List.Subset.refl _, List.Subset.refl _⟩

namespace Weaker

theorem pointer_iff {nullable : Bool} {view : ViewMutability} {inner : Ty} :
    Weaker (.pointer nullable view inner) source ↔
      ∃ nullable' view', source = .pointer nullable' view' inner ∧
        (nullable' = true → nullable = true) ∧ pointerViewCanWeaken view view' = true := by
  constructor
  · intro weaker
    cases weaker with
    | refl => exact ⟨nullable, view, rfl, id, pointerViewCanWeaken_refl view⟩
    | pointer null weak => exact ⟨_, _, rfl, null, weak⟩
  · rintro ⟨nullable', view', rfl, null, weak⟩
    exact .pointer null weak

theorem slice_iff {view : ViewMutability} {elem : Ty} :
    Weaker (.slice view elem) source ↔
      ∃ view', source = .slice view' elem ∧ pointerViewCanWeaken view view' = true := by
  constructor
  · intro weaker
    cases weaker with
    | refl => exact ⟨view, rfl, pointerViewCanWeaken_refl view⟩
    | slice weak => exact ⟨_, rfl, weak⟩
  · rintro ⟨view', rfl, weak⟩
    exact .slice weak

theorem function_iff {isUnsafe : Bool} {abi : Option String} {ret : Ty} {params : List Ty} :
    Weaker (.function isUnsafe abi ret params) source ↔
      ∃ isUnsafe' ret', source = .function isUnsafe' abi ret' params ∧
        (isUnsafe' = true → isUnsafe = true) ∧ Weaker ret ret' := by
  constructor
  · intro weaker
    cases weaker with
    | refl => exact ⟨isUnsafe, ret, rfl, id, .refl ret⟩
    | function safe weak => exact ⟨_, _, rfl, safe, weak⟩
  · rintro ⟨isUnsafe', ret', rfl, safe, weak⟩
    exact .function safe weak

theorem closure_iff {ret : Ty} {params : List Ty} {constraints : ConstraintBounds} :
    Weaker (.closure ret params constraints) source ↔
      (∃ ret' constraints', source = .closure ret' params constraints' ∧ Weaker ret ret' ∧
        constraints'.provesAll constraints = true) ∨
      ∃ id ret' captures, source = .closureInstance id ret' params captures ∧ Weaker ret ret' ∧
        constraints.isEmpty = true := by
  constructor
  · intro weaker
    cases weaker with
    | refl => exact .inl ⟨ret, constraints, rfl, .refl ret, constraints.provesAll_refl⟩
    | closure weak proves => exact .inl ⟨_, _, rfl, weak, proves⟩
    | closureInstance weak free => exact .inr ⟨_, _, _, rfl, weak, free⟩
  · rintro (⟨ret', constraints', rfl, weak, proves⟩ | ⟨id, ret', captures, rfl, weak, free⟩)
    · exact .closure weak proves
    · exact .closureInstance weak free

end Weaker

/-- The forms with a weaker view. -/
def Ty.isView : Ty → Bool
  | .pointer _ _ _ | .slice _ _ | .function _ _ _ _ | .closure _ _ _ => true
  | _ => false

theorem Weaker.eq_of_not_isView {target : Ty} (weaker : Weaker target source)
    (rigid : target.isView = false) : target = source := by
  cases weaker with
  | refl => rfl
  | _ => cases rigid

theorem canAssignFrom_iff {target : Ty} (freeTarget : target.holeFree)
    (freeSource : source.holeFree) :
    canAssignFrom target source = true ↔ Weaker (comparisonForm target)
      (comparisonForm source) := by
  induction target generalizing source with
  | step target ih =>
    have assigns {t s : Ty} (member : t ∈ target.children) (free : s.holeFree) :
        canAssignFrom t s = true ↔ Weaker (comparisonForm t) (comparisonForm s) :=
      ih t member (freeTarget.part member) free
    have noHole := freeTarget.isHole
    have noHole' := freeSource.strip.isHole
    have ne := stripOpaqueState_ne source
    have freeParts {s : Ty} (member : s ∈ source.stripOpaqueState.children) : s.holeFree :=
      freeSource.strip.part member
    rw [← comparisonForm_stripOpaqueState source, comparisonForm_eq target]
    cases target with
    | opaqueState base state =>
      rw [canAssignFrom, assigns List.mem_cons_self freeSource, comparisonForm_stripOpaqueState]
      rfl
    | pointer _ view inner | slice view inner =>
      have kept := pointerViewCanWeaken_refl view
      simp only [canAssignFrom, noHole', Bool.false_or, Bool.or_eq_true,
        sameIgnoringOpaqueState_iff _ _, comparisonForm_eq (.pointer _ _ _),
        comparisonForm_eq (.slice _ _)]
      generalize source.stripOpaqueState = stripped at ne
      simp only [Ty.comparedWith, Ty.mapParts, Weaker.pointer_iff, Weaker.slice_iff]
      rw [comparisonForm_eq stripped]
      cases stripped with
      | opaqueState => exact absurd rfl (ne _ _)
      | pointer | slice =>
        simp only [Ty.comparedWith, Ty.mapParts, sameIgnoringOpaqueState_iff _ _, Bool.and_eq_true,
          Bool.false_eq_true]
        grind
      | _ => simp [Ty.comparedWith, Ty.mapParts]
    | function isUnsafe abi ret params =>
      simp only [canAssignFrom, noHole', Bool.false_or, Bool.or_eq_true,
        sameIgnoringOpaqueState_iff _ _, comparisonForm_eq (.function _ _ _ _)]
      generalize source.stripOpaqueState = stripped at ne freeParts
      simp only [Ty.comparedWith, Ty.mapParts, Weaker.function_iff]
      rw [comparisonForm_eq stripped]
      cases stripped with
      | opaqueState => exact absurd rfl (ne _ _)
      | function isUnsafe' abi' ret' params' =>
        have inRet := assigns (t := ret) List.mem_cons_self
          (freeParts (s := ret') List.mem_cons_self)
        have kept := Weaker.refl (comparisonForm ret)
        simp only [Ty.comparedWith, Ty.mapParts, sameTys_iff_map, inRet, Bool.and_eq_true]
        grind
      | _ => simp [Ty.comparedWith, Ty.mapParts]
    | closure ret params constraints =>
      simp only [canAssignFrom, noHole', Bool.false_or, Bool.or_eq_true,
        sameIgnoringOpaqueState_iff _ _, comparisonForm_eq (.closure _ _ _)]
      generalize source.stripOpaqueState = stripped at ne freeParts
      simp only [Ty.comparedWith, Weaker.closure_iff]
      rw [comparisonForm_eq stripped]
      cases stripped with
      | opaqueState => exact absurd rfl (ne _ _)
      | closure ret' params' constraints' =>
        have inRet := assigns (t := ret) List.mem_cons_self
          (freeParts (s := ret') List.mem_cons_self)
        have kept := Weaker.refl (comparisonForm ret)
        have proven := constraints.provesAll_refl
        simp only [Ty.comparedWith, sameTys_iff_map, inRet, Bool.and_eq_true]
        grind
      | closureInstance id ret' params' captures =>
        have inRet := assigns (t := ret) List.mem_cons_self
          (freeParts (s := ret') List.mem_cons_self)
        simp only [Ty.comparedWith, Ty.mapParts, sameTys_iff_map, inRet, Bool.and_eq_true]
        constructor
        · rintro (same | ⟨⟨free, sameParams⟩, weak⟩)
          · cases same
          · exact .inr ⟨id, _, _, by rw [sameParams], weak, free⟩
        · rintro (⟨_, _, same, _⟩ | ⟨_, _, _, same, weak, free⟩)
          · cases same
          · obtain ⟨rfl, rfl, sameParams, rfl⟩ := Ty.closureInstance.inj same
            exact .inr ⟨⟨free, sameParams.symm⟩, weak⟩
      | _ => simp [Ty.comparedWith, Ty.mapParts]
    | _ =>
      simp only [canAssignFrom, noHole, noHole', Bool.false_or, sameIgnoringOpaqueState_iff _ _]
      rw [← comparisonForm_eq]
      constructor
      · intro same
        rw [same]
        exact .refl _
      · intro weaker
        exact weaker.eq_of_not_isView rfl

/-! ## Views -/

/-- What a pointer or a slice lets its holder do. -/
inductive View
  | pointer (nullable : Bool) (mutability : ViewMutability)
  | slice (mutability : ViewMutability)

/-- The target gives no more than the source: a pointer or slice is made from one of
the same kind, a writable view from a writable one, and a pointer that cannot be null
from one that cannot. -/
def View.KeepsView : Option View → Option View → Prop
  | some (.pointer nullable view), some (.pointer nullable' view') =>
    (view = .writable → view' = .writable) ∧ (nullable = false → nullable' = false)
  | some (.slice view), some (.slice view') => view = .writable → view' = .writable
  | none, none => True
  | _, _ => False

theorem View.KeepsView.refl : ∀ view : Option View, KeepsView view view
  | none => trivial
  | some (.pointer _ _) => ⟨id, id⟩
  | some (.slice _) => id

namespace Ty

def view : Ty → Option View
  | .pointer nullable mutability _ => some (.pointer nullable mutability)
  | .slice mutability _ => some (.slice mutability)
  | _ => none

/-- The type that `n` pointers and slices lead to, without annotations on top. -/
def behind : Nat → Ty → Option Ty
  | 0, ty => some ty.stripOpaqueState
  | n + 1, ty => match ty.stripOpaqueState with
    | .pointer _ _ inner => inner.behind n
    | .slice _ elem => elem.behind n
    | _ => none

end Ty

theorem stripOpaqueState_comparisonForm (ty : Ty) :
    (comparisonForm ty).stripOpaqueState = comparisonForm ty := by
  induction ty with
  | step ty ih =>
    rw [comparisonForm_eq ty]
    cases ty with
    | opaqueState base state => exact ih base List.mem_cons_self
    | _ => rfl

theorem view_comparisonForm (ne : ∀ base state, ty ≠ .opaqueState base state) :
    (comparisonForm ty).view = ty.view := by
  rw [comparisonForm_eq]
  cases ty with
  | opaqueState base state => exact absurd rfl (ne base state)
  | _ => rfl

/-- The comparison form has the same positions. -/
theorem behind_comparisonForm (n : Nat) (ty : Ty) :
    (comparisonForm ty).behind n = (ty.behind n).map comparisonForm := by
  induction n generalizing ty with
  | zero =>
    rw [Ty.behind, Ty.behind, stripOpaqueState_comparisonForm, Option.map_some,
      comparisonForm_stripOpaqueState]
  | succ n ih =>
    rw [Ty.behind, Ty.behind, stripOpaqueState_comparisonForm,
      ← comparisonForm_stripOpaqueState ty, comparisonForm_eq]
    have ne := stripOpaqueState_ne ty
    cases form : ty.stripOpaqueState with
    | opaqueState base state => exact absurd form (ne base state)
    | pointer _ _ inner => exact ih inner
    | slice _ elem => exact ih elem
    | _ => rfl

theorem behind_stripped {n : Nat} {reached : Ty} (found : ty.behind n = some reached) (base : Ty)
    (state : List (String × Ty)) : reached ≠ .opaqueState base state := by
  induction n generalizing ty with
  | zero =>
    obtain rfl := Option.some.inj found
    exact stripOpaqueState_ne ty base state
  | succ n ih =>
    rw [Ty.behind] at found
    split at found
    · exact ih found
    · exact ih found
    · cases found

theorem Weaker.keepsView {target : Ty} (weaker : Weaker target source) {n : Nat} {reached : Ty}
    (found : target.behind n = some reached) :
    ∃ reached', source.behind n = some reached' ∧ View.KeepsView reached.view reached'.view := by
  cases weaker with
  | refl => exact ⟨reached, found, .refl _⟩
  | pointer null weak =>
    cases n with
    | zero =>
      obtain rfl := Option.some.inj found
      refine ⟨_, rfl, pointerViewCanWeaken_iff.mp weak, fun nonNull => ?_⟩
      exact Bool.eq_false_iff.mpr fun isNull => Bool.eq_false_iff.mp nonNull (null isNull)
    -- what the view is of is the same on both sides
    | succ n => exact ⟨reached, found, .refl _⟩
  | slice weak =>
    cases n with
    | zero =>
      obtain rfl := Option.some.inj found
      exact ⟨_, rfl, pointerViewCanWeaken_iff.mp weak⟩
    | succ n => exact ⟨reached, found, .refl _⟩
  | function | closure | closureInstance =>
    cases n with
    | zero =>
      obtain rfl := Option.some.inj found
      exact ⟨_, rfl, trivial⟩
    | succ n => cases found

/-- On types without holes assignability is a preorder, and no position that pointers
and slices lead to becomes writable or non-null. -/
theorem canAssignFrom_weakens :
    (∀ ty : Ty, ty.holeFree → canAssignFrom ty ty = true) ∧
    (∀ a b c : Ty, a.holeFree → b.holeFree → c.holeFree → canAssignFrom a b = true →
      canAssignFrom b c = true → canAssignFrom a c = true) ∧
    ∀ target source : Ty, target.holeFree → source.holeFree → canAssignFrom target source = true →
      ∀ n reached, target.behind n = some reached →
        ∃ reached', source.behind n = some reached' ∧
          View.KeepsView reached.view reached'.view := by
  refine ⟨fun ty free => ?_, fun a b c freeA freeB freeC first second => ?_,
    fun target source freeTarget freeSource assigns n reached found => ?_⟩
  · exact (canAssignFrom_iff free free).mpr (.refl _)
  · rw [canAssignFrom_iff freeA freeB] at first
    rw [canAssignFrom_iff freeB freeC] at second
    exact (canAssignFrom_iff freeA freeC).mpr (first.trans second)
  · have weaker := (canAssignFrom_iff freeTarget freeSource).mp assigns
    have atForm : (comparisonForm target).behind n = some (comparisonForm reached) := by
      rw [behind_comparisonForm, found, Option.map_some]
    obtain ⟨reachedForm, foundForm, keeps⟩ := weaker.keepsView atForm
    rw [behind_comparisonForm] at foundForm
    obtain ⟨reached', found', rfl⟩ := Option.map_eq_some_iff.mp foundForm
    rw [view_comparisonForm (behind_stripped found), view_comparisonForm (behind_stripped found')]
      at keeps
    exact ⟨reached', found', keeps⟩

end Ciel.Types
