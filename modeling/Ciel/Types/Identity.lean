import Ciel.Types.Unify

/-!
# The head of a type

What a type says apart from its parts. Definitions that are known by their id say
nothing by their names. A property of some part of a type is one of the type itself
or of a part of its parts.
-/

namespace Ciel.Types

variable {ty : Ty}

/-- What a type says apart from its parts, for the forms that are compared part by part. -/
inductive TyHead
  | pointer (nullable : Bool) (mutability : ViewMutability)
  | array (len : Nat)
  | slice (mutability : ViewMutability)
  | named (defId : Option DefId) (name : String)
  | dynamicInterface (defId : DefId)
  | function (isUnsafe : Bool) (abi : Option String)

/-- A definition is known by its id if it has one, and by its name otherwise. -/
def knownName : Option DefId → String → String
  | some _, _ => ""
  | none, name => name

abbrev namedHead (defId : Option DefId) (name : String) : TyHead :=
  .named defId (knownName defId name)

namespace Ty

theorem anyTys_eq (p : Ty → Bool) (tys : List Ty) : anyTys p tys = tys.any (·.any p) := by
  induction tys with
  | nil => rfl
  | cons ty tys ih => rw [anyTys, ih, List.any_cons]

theorem anyState_eq (p : Ty → Bool) (state : List (String × Ty)) :
    anyState p state = (state.map Prod.snd).any (·.any p) := by
  induction state with
  | nil => rfl
  | cons entry entries ih =>
    obtain ⟨name, ty⟩ := entry
    rw [anyState, ih, List.map_cons, List.any_cons, anyEntry]

theorem anyBounds_eq (p : Ty → Bool) (bounds : ConstraintBounds) :
    anyBounds p bounds = bounds.tys.any (·.any p) := by
  have refs (entries : List ConstraintRef) :
      anyRefs p entries = (entries.flatMap ConstraintRef.args).any (·.any p) := by
    induction entries with
    | nil => rfl
    | cons entry entries ih =>
      obtain ⟨defId, name, args⟩ := entry
      rw [anyRefs, ih, List.flatMap_cons, List.any_append, anyRef, anyTys_eq]
      rfl
  obtain ⟨positive, negative⟩ := bounds
  rw [anyBounds, refs, refs, ConstraintBounds.tys, List.flatMap_append, List.any_append]
  rfl

theorem any_eq (p : Ty → Bool) (ty : Ty) : ty.any p = (p ty || ty.children.any (·.any p)) := by
  cases ty with
  | hole | never | void | primitive | cSpelling | generic | unknown => simp [any, children]
  | pointer | array | slice => simp [any, children]
  | named | dynamicInterface => simp [any, children, anyTys_eq]
  | generatedFuture | opaqueState => simp [any, children, anyState_eq, Bool.or_assoc]
  | opaqueReturn | closure => simp [any, children, anyTys_eq, anyBounds_eq, Bool.or_assoc]
  | function | closureInstance => simp [any, children, anyTys_eq, Bool.or_assoc]

theorem any_eq_false {p : Ty → Bool} :
    ty.any p = false ↔ p ty = false ∧ ∀ part ∈ ty.children, part.any p = false := by
  rw [any_eq, Bool.or_eq_false_iff, List.any_eq_false]
  simp

end Ty

/-- What the forms say that are compared part by part. -/
def Ty.head? : Ty → Option TyHead
  | .pointer nullable mutability _ => some (.pointer nullable mutability)
  | .array len _ => some (.array len)
  | .slice mutability _ => some (.slice mutability)
  | .named defId name _ => some (namedHead defId name)
  | .dynamicInterface defId _ _ => some (.dynamicInterface defId)
  | .function isUnsafe abi _ _ => some (.function isUnsafe abi)
  | _ => none

theorem namedHead_eq {left right : Option DefId} {leftName rightName : String} :
    namedTyIdentityEq left leftName right rightName = true ↔
      namedHead left leftName = namedHead right rightName := by
  cases left <;> cases right <;> simp [namedTyIdentityEq, knownName]

end Ciel.Types
