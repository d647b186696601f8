import Ciel.Types.Composition

/-!
# Canonical forms and opaque states

The canonical form of a type is meant to be the type without its opaque-state
annotations, at every depth. Here the type without annotations is defined apart
from the compiler's function, and the two are compared.

They differ at one form. The generic map over a type's parts copies the constraints
of a closure, where it goes into those of an opaque return, so an annotation in the
argument of a closure constraint stays in the canonical form. Everywhere else the
canonical form is the type without annotations.
-/

namespace Ciel.Types

variable {ty : Ty}

namespace Ty

/-- There is an opaque state somewhere in the type. -/
def annotated (ty : Ty) : Bool := ty.any isOpaqueState

end Ty

/-- The type without its opaque states, wherever they stand. -/
def eraseOpaqueState : Ty → Ty :=
  rebuild fun _ rebuilt => match rebuilt with
    | .opaqueState base _ => base
    | other => other

theorem eraseOpaqueState_opaqueState (base : Ty) (state : List (String × Ty)) :
    eraseOpaqueState (.opaqueState base state) = eraseOpaqueState base := by
  rw [eraseOpaqueState, rebuild_eq]
  rfl

theorem eraseOpaqueState_eq_mapParts (ordinary : ty.isOpaqueState = false) :
    eraseOpaqueState ty = ty.mapParts eraseOpaqueState := by
  rw [eraseOpaqueState, rebuild_eq]
  cases ty with
  | opaqueState => cases ordinary
  | _ => rfl

theorem annotated_eraseOpaqueState (ty : Ty) : (eraseOpaqueState ty).annotated = false := by
  induction ty with
  | step ty ih =>
    cases ty with
    | opaqueState base state =>
      rw [eraseOpaqueState_opaqueState]
      exact ih base List.mem_cons_self
    | _ =>
      rw [eraseOpaqueState_eq_mapParts rfl, Ty.annotated, Ty.any_eq_false, Ty.children_mapParts]
      refine ⟨rfl, fun part member => ?_⟩
      obtain ⟨old, inside, rfl⟩ := List.mem_map.mp member
      exact ih old inside

/-- Without annotations nothing is erased. -/
theorem eraseOpaqueState_of_not_annotated (clean : ty.annotated = false) :
    eraseOpaqueState ty = ty := by
  induction ty with
  | step ty ih =>
    obtain ⟨here, inside⟩ := Ty.any_eq_false.mp clean
    rw [eraseOpaqueState_eq_mapParts here]
    calc ty.mapParts eraseOpaqueState
      _ = ty.mapParts id := Ty.mapParts_congr fun part member => ih part member (inside part member)
      _ = ty := ty.mapParts_id

/-! ## The canonical form -/

theorem canonicalState_eq (state : List (String × Ty)) :
    canonicalState state = mapState canonicalTypeIdentityTy state := by
  induction state with
  | nil => rfl
  | cons entry state ih =>
    cases entry
    rw [canonicalState, ih]
    rfl

theorem canonicalBounds_eq (bounds : ConstraintBounds) :
    canonicalBounds bounds = bounds.mapArgs canonicalTypeIdentityTy := by
  have each (refs : List ConstraintRef) :
      canonicalRefs refs = refs.map (ConstraintRef.mapArgs canonicalTypeIdentityTy) := by
    induction refs with
    | nil => rfl
    | cons ref refs ih =>
      cases ref
      rw [canonicalRefs, ih, canonicalRef, canonicalTys_eq_map]
      rfl
  cases bounds
  rw [canonicalBounds, each, each]
  rfl

namespace Ty

/-- The forms of which canonicalisation drops or copies a part. -/
def isStateOrClosure : Ty → Bool
  | .opaqueState _ _ | .closure _ _ _ => true
  | _ => false

/-- The parts that canonicalisation goes into. -/
def visitedParts : Ty → List Ty
  | .opaqueState base _ => [base]
  | .closure ret params _ => ret :: params
  | other => other.children

theorem visitedParts_subset (ty : Ty) : ty.visitedParts ⊆ ty.children := by
  cases ty <;> simp [visitedParts, children]

theorem visitedParts_of_ordinary (ordinary : ty.isStateOrClosure = false) :
    ty.visitedParts = ty.children := by
  cases ty with
  | opaqueState | closure => cases ordinary
  | _ => rfl

/-- A type that canonicalisation comes to. -/
inductive Visits : Ty → Ty → Prop
  | here (ty : Ty) : Visits ty ty
  | inside {ty part visited : Ty} (member : part ∈ ty.visitedParts) (visits : Visits part visited) :
      Visits ty visited

/-- No closure that canonicalisation comes to is constrained by a type with an
opaque state. -/
def PlainBounds (ty : Ty) : Prop :=
  ∀ ret params constraints, Visits ty (.closure ret params constraints) →
    ∀ arg ∈ constraints.tys, arg.annotated = false

theorem PlainBounds.part {part : Ty} (plain : ty.PlainBounds) (member : part ∈ ty.visitedParts) :
    part.PlainBounds :=
  fun ret params constraints visits => plain ret params constraints (.inside member visits)

/-- A type that is no closure has plain bounds if its parts do. -/
theorem plainBounds_of_parts (noClosure : ∀ ret params constraints,
      ty = .closure ret params constraints → ∀ arg ∈ constraints.tys, arg.annotated = false)
    (parts : ∀ part ∈ ty.visitedParts, part.PlainBounds) : ty.PlainBounds := by
  intro ret params constraints visits
  cases visits with
  | here => exact noClosure ret params constraints rfl
  | inside member visits => exact parts _ member ret params constraints visits

end Ty

theorem canonical_eq_mapParts (ordinary : ty.isStateOrClosure = false) :
    canonicalTypeIdentityTy ty = ty.mapParts canonicalTypeIdentityTy := by
  cases ty with
  | opaqueState | closure => cases ordinary
  | _ =>
    simp [canonicalTypeIdentityTy, Ty.mapParts, canonicalTys_eq_map, canonicalState_eq,
      canonicalBounds_eq]

theorem canonical_canonical (ty : Ty) :
    canonicalTypeIdentityTy (canonicalTypeIdentityTy ty) = canonicalTypeIdentityTy ty := by
  induction ty with
  | step ty ih =>
    cases ty with
    | opaqueState base state => exact ih base List.mem_cons_self
    | closure ret params constraints =>
      have inParams : params.map (canonicalTypeIdentityTy ∘ canonicalTypeIdentityTy) =
          params.map canonicalTypeIdentityTy :=
        List.map_congr_left fun ty member => ih ty (by simp [Ty.children, member])
      simp only [canonicalTypeIdentityTy, canonicalTys_eq_map, List.map_map, inParams,
        ih ret List.mem_cons_self]
    | _ =>
      rw [canonical_eq_mapParts rfl, canonical_eq_mapParts rfl, Ty.mapParts_mapParts]
      exact Ty.mapParts_congr ih

/-- With plain bounds the canonical form is the type without annotations. -/
theorem canonical_eq_erase (plain : ty.PlainBounds) :
    canonicalTypeIdentityTy ty = eraseOpaqueState ty := by
  induction ty with
  | step ty ih =>
    have inPart (part : Ty) (member : part ∈ ty.visitedParts) :
        canonicalTypeIdentityTy part = eraseOpaqueState part :=
      ih part (ty.visitedParts_subset member) (plain.part member)
    cases ty with
    | opaqueState base state =>
      rw [canonicalTypeIdentityTy, eraseOpaqueState_opaqueState]
      exact inPart base List.mem_cons_self
    | closure ret params constraints =>
      have inParams : params.map canonicalTypeIdentityTy = params.map eraseOpaqueState :=
        List.map_congr_left fun ty member => inPart ty (List.mem_cons_of_mem _ member)
      -- the copied constraints have nothing to erase
      have copied : constraints = constraints.mapArgs eraseOpaqueState := by
        calc constraints
          _ = constraints.mapArgs id := constraints.mapArgs_id.symm
          _ = constraints.mapArgs eraseOpaqueState :=
            ConstraintBounds.mapArgs_congr fun arg member =>
              (eraseOpaqueState_of_not_annotated
                (plain ret params constraints (.here _) arg member)).symm
      rw [canonicalTypeIdentityTy, eraseOpaqueState_eq_mapParts rfl, Ty.mapParts, ← copied,
        canonicalTys_eq_map, inParams, inPart ret List.mem_cons_self]
    | _ =>
      rw [canonical_eq_mapParts rfl, eraseOpaqueState_eq_mapParts rfl]
      exact Ty.mapParts_congr inPart

/-- An annotation in the constraints of a visited closure stays. -/
theorem plainBounds_of_canonical (clean : (canonicalTypeIdentityTy ty).annotated = false) :
    ty.PlainBounds := by
  induction ty with
  | step ty ih =>
    cases ty with
    | opaqueState base state =>
      refine Ty.plainBounds_of_parts (fun _ _ _ closure => by cases closure) ?_
      intro part member
      obtain rfl := List.mem_singleton.mp member
      exact ih part List.mem_cons_self clean
    | closure ret params constraints =>
      rw [canonicalTypeIdentityTy, canonicalTys_eq_map, Ty.annotated, Ty.any_eq_false] at clean
      simp only [Ty.children, List.cons_append, List.mem_cons, List.mem_append,
        List.mem_map] at clean
      obtain ⟨-, inside⟩ := clean
      apply Ty.plainBounds_of_parts
      · rintro _ _ _ ⟨⟩ arg member
        exact inside arg (.inr (.inr member))
      · intro part member
        apply ih part (Ty.visitedParts_subset _ member)
        obtain rfl | inParams := List.mem_cons.mp member
        · exact inside _ (.inl rfl)
        · exact inside _ (.inr (.inl ⟨part, inParams, rfl⟩))
    | _ =>
      rw [canonical_eq_mapParts rfl, Ty.annotated, Ty.any_eq_false, Ty.children_mapParts] at clean
      refine Ty.plainBounds_of_parts (fun _ _ _ closure => by cases closure) ?_
      intro part member
      rw [Ty.visitedParts_of_ordinary rfl] at member
      exact ih part member (clean.2 _ (List.mem_map_of_mem member))

/-- What a canonical form is for, for two types: it has no annotations, it is its
own canonical form, and the two have the same one if they differ in annotations
only. -/
structure IdentifiesUpToState (left right : Ty) : Prop where
  left_clean : (canonicalTypeIdentityTy left).annotated = false
  right_clean : (canonicalTypeIdentityTy right).annotated = false
  idempotent : canonicalTypeIdentityTy (canonicalTypeIdentityTy left) = canonicalTypeIdentityTy left
  same : eraseOpaqueState left = eraseOpaqueState right →
    canonicalTypeIdentityTy left = canonicalTypeIdentityTy right

/-- Canonical forms identify two types up to annotations exactly if the closures
they visit have plain constraints. -/
theorem identifiesUpToState_iff (left right : Ty) :
    IdentifiesUpToState left right ↔ left.PlainBounds ∧ right.PlainBounds := by
  constructor
  · intro identifies
    exact ⟨plainBounds_of_canonical identifies.left_clean,
      plainBounds_of_canonical identifies.right_clean⟩
  · rintro ⟨plainLeft, plainRight⟩
    have leftForm := canonical_eq_erase plainLeft
    have rightForm := canonical_eq_erase plainRight
    refine ⟨?_, ?_, canonical_canonical left, ?_⟩
    · rw [leftForm]
      exact annotated_eraseOpaqueState left
    · rw [rightForm]
      exact annotated_eraseOpaqueState right
    · intro same
      rw [leftForm, rightForm, same]

/-- `void |()|` constrained by an interface of `arg`. -/
def constrainedBy (arg : Ty) : Ty := .closure .void [] (.mk [.mk 0 "Sink" [arg]] [])

/-- `i64` with a hidden state. -/
def hiddenI64 : Ty := .opaqueState (.primitive .i64) [("s", .void)]

/-- The canonical form of a closure constrained by an annotated type keeps the
annotation, and is not that of the closure constrained by the type itself. -/
theorem constrainedBy_hidden_kept :
    (canonicalTypeIdentityTy (constrainedBy hiddenI64)).annotated = true ∧
      eraseOpaqueState (constrainedBy hiddenI64) =
        eraseOpaqueState (constrainedBy (.primitive .i64)) ∧
      canonicalTypeIdentityTy (constrainedBy hiddenI64) ≠
        canonicalTypeIdentityTy (constrainedBy (.primitive .i64)) := by
  decide

end Ciel.Types
