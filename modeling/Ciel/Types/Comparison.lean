import Ciel.Types.Parts

/-!
# The form in which types are compared

`same_ignoring_opaque_state` compares two types part by part and passes over their
opaque states. It is equality of a normal form: the type without opaque states, and
without the names of definitions that are known by their id. The comparison does not
look into opaque returns and into the constraints of closures; these are kept as they
are.
-/

namespace Ciel.Types

/-- What is compared of a type, if `f` says it for the parts. -/
def Ty.comparedWith (f : Ty → Ty) : Ty → Ty
  | .opaqueState base _ => f base
  | .named defId name args => .named defId (knownName defId name) (args.map f)
  | .dynamicInterface defId _ args => .dynamicInterface defId "" (args.map f)
  | .closure ret params constraints => .closure (f ret) (params.map f) constraints
  | .opaqueReturn defId args bounds => .opaqueReturn defId args bounds
  | other => other.mapParts f

/-- The normal form of the comparison. -/
def comparisonForm : Ty → Ty :=
  rebuild fun original rebuilt => match original, rebuilt with
    | .closure _ _ constraints, .closure ret params _ => .closure ret params constraints
    | .opaqueReturn defId args bounds, _ => .opaqueReturn defId args bounds
    | _, .opaqueState base _ => base
    | _, .named defId name args => .named defId (knownName defId name) args
    | _, .dynamicInterface defId _ args => .dynamicInterface defId "" args
    | _, other => other

theorem comparisonForm_eq (ty : Ty) : comparisonForm ty = ty.comparedWith comparisonForm := by
  rw [comparisonForm, rebuild_eq]
  cases ty <;> rfl

@[simp] theorem comparisonForm_stripOpaqueState (ty : Ty) :
    comparisonForm ty.stripOpaqueState = comparisonForm ty := by
  induction ty with
  | step ty ih =>
    cases ty with
    | opaqueState base state =>
      rw [Ty.stripOpaqueState, ih base List.mem_cons_self, comparisonForm_eq (.opaqueState _ _)]
      rfl
    | _ => rfl

/-- The comparison of `ty` with anything is equality of the normal forms. -/
def ComparesForms (ty : Ty) : Prop :=
  ∀ right, sameIgnoringOpaqueState ty right = true ↔ comparisonForm ty = comparisonForm right

theorem sameTys_iff {lefts : List Ty} (each : ∀ left ∈ lefts, ComparesForms left)
    (rights : List Ty) :
    sameTys lefts rights = true ↔ lefts.map comparisonForm = rights.map comparisonForm := by
  induction lefts generalizing rights with
  | nil => cases rights <;> simp [sameTys]
  | cons left lefts ih =>
    obtain ⟨here, later⟩ := List.forall_mem_cons.mp each
    cases rights with
    | nil => simp [sameTys]
    | cons right rights =>
      rw [sameTys, Bool.and_eq_true, here right, ih later rights, List.map_cons, List.map_cons,
        List.cons.injEq]

theorem sameState_iff {lefts : List (String × Ty)}
    (each : ∀ left ∈ lefts.map Prod.snd, ComparesForms left) (rights : List (String × Ty)) :
    sameState lefts rights = true ↔ mapState comparisonForm lefts =
      mapState comparisonForm rights := by
  induction lefts generalizing rights with
  | nil => cases rights <;> simp [sameState, mapState]
  | cons left lefts ih =>
    obtain ⟨name, ty⟩ := left
    obtain ⟨here, later⟩ := List.forall_mem_cons.mp each
    cases rights with
    | nil => simp [sameState, mapState]
    | cons right rights =>
      obtain ⟨name', ty'⟩ := right
      rw [sameState, sameEntry, Bool.and_eq_true, Bool.and_eq_true, beq_iff_eq, here ty',
        ih later rights]
      simp [mapState]

theorem namedTyIdentityEq_iff {left right : Option DefId} {leftName rightName : String} :
    namedTyIdentityEq left leftName right rightName = true ↔
      left = right ∧ knownName left leftName = knownName right rightName := by
  cases left <;> cases right <;> simp [namedTyIdentityEq, knownName]

theorem sameIgnoringOpaqueState_iff (ty : Ty) : ComparesForms ty := by
  induction ty with
  | step ty ih =>
    have one {u : Ty} (member : u ∈ ty.children) (right : Ty) :
        sameIgnoringOpaqueState u right = true ↔ comparisonForm u = comparisonForm right :=
      ih u member right
    have many {l : List Ty} (inside : l ⊆ ty.children) (rights : List Ty) :
        sameTys l rights = true ↔ l.map comparisonForm = rights.map comparisonForm :=
      sameTys_iff (fun part member => ih part (inside member)) rights
    have states {l : List (String × Ty)} (inside : l.map Prod.snd ⊆ ty.children)
        (rights : List (String × Ty)) :
        sameState l rights = true ↔ mapState comparisonForm l = mapState comparisonForm rights :=
      sameState_iff (fun part member => ih part (inside member)) rights
    intro right
    -- the annotations on top of the right type do not matter to either side
    rw [← comparisonForm_stripOpaqueState right, comparisonForm_eq ty,
      comparisonForm_eq right.stripOpaqueState]
    have ne := stripOpaqueState_ne right
    cases ty with
    | opaqueState base state =>
      have inBase := one (u := base) List.mem_cons_self right
      rw [sameIgnoringOpaqueState, Bool.or_eq_true, decide_eq_true_eq, inBase,
        ← comparisonForm_eq right.stripOpaqueState, comparisonForm_stripOpaqueState]
      constructor
      · rintro (rfl | same)
        · exact (comparisonForm_eq (.opaqueState base state)).symm
        · exact same
      · exact .inr
    | _ =>
      simp only [Ty.children, List.cons_append] at one many states
      simp only [sameIgnoringOpaqueState]
      generalize right.stripOpaqueState = stripped at ne
      cases stripped with
      | opaqueState => exact absurd rfl (ne _ _)
      | _ =>
        simp [Ty.comparedWith, Ty.mapParts, namedTyIdentityEq_iff, one, many, states, and_assoc,
          and_left_comm, and_comm]

end Ciel.Types
