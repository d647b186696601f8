import Ciel.Library.Lists
import Ciel.Types.Composition

/-!
# Shapes and heights of types

The shape of a type is what it says apart from its parts. A type is determined by its
shape and its parts, so finitely many types have a bounded height and shapes from a
finite set. Substitution in a pattern adds up heights and brings in no other shapes than
those of the pattern and of what is put in.
-/

namespace Ciel.Types

namespace Ty

/-- A type without its parts. -/
def shape (ty : Ty) : Ty := ty.mapParts fun _ => .void

theorem shape_mapParts (f : Ty → Ty) (ty : Ty) : (ty.mapParts f).shape = ty.shape :=
  mapParts_mapParts f _ ty

theorem state_ext {state other : List (String × Ty)}
    (names : mapState (fun _ => .void) state = mapState (fun _ => .void) other)
    (tys : state.map Prod.snd = other.map Prod.snd) : state = other := by
  induction state generalizing other with
  | nil =>
    cases other with
    | nil => rfl
    | cons => cases tys
  | cons entry state ih =>
    cases other with
    | nil => cases tys
    | cons entry' other =>
      obtain ⟨name, ty⟩ := entry
      obtain ⟨name', ty'⟩ := entry'
      simp only [mapState, List.map_cons, List.cons.injEq, Prod.mk.injEq] at names tys
      rw [ih names.2 tys.2, names.1.1, tys.1]

theorem refs_ext {refs other : List ConstraintRef}
    (shapes : refs.map (ConstraintRef.mapArgs fun _ => .void) =
      other.map (ConstraintRef.mapArgs fun _ => .void)) {rest rest' : List Ty}
    (args : refs.flatMap ConstraintRef.args ++ rest = other.flatMap ConstraintRef.args ++ rest') :
    refs = other ∧ rest = rest' := by
  induction refs generalizing other with
  | nil =>
    cases other with
    | nil => exact ⟨rfl, args⟩
    | cons => cases shapes
  | cons ref refs ih =>
    cases other with
    | nil => cases shapes
    | cons ref' other =>
      obtain ⟨defId, name, mine⟩ := ref
      obtain ⟨defId', name', others⟩ := ref'
      simp only [List.map_cons, List.cons.injEq, ConstraintRef.mapArgs, ConstraintRef.mk.injEq]
        at shapes
      have lengths : mine.length = others.length := by
        simpa using congrArg List.length shapes.1.2.2
      simp only [List.flatMap_cons, ConstraintRef.args, List.append_assoc] at args
      obtain ⟨rfl, later⟩ := List.append_inj args lengths
      obtain ⟨rfl, sameRest⟩ := ih shapes.2 later
      rw [shapes.1.1, shapes.1.2.1]
      exact ⟨rfl, sameRest⟩

theorem bounds_ext {bounds other : ConstraintBounds}
    (shapes : bounds.mapArgs (fun _ => .void) = other.mapArgs fun _ => .void)
    (tys : bounds.tys = other.tys) : bounds = other := by
  obtain ⟨positive, negative⟩ := bounds
  obtain ⟨positive', negative'⟩ := other
  simp only [ConstraintBounds.mapArgs, ConstraintBounds.mk.injEq] at shapes
  simp only [ConstraintBounds.tys, ConstraintBounds.positive, ConstraintBounds.negative,
    List.flatMap_append] at tys
  obtain ⟨samePositive, rest⟩ := refs_ext shapes.1 tys
  obtain ⟨sameNegative, -⟩ := refs_ext shapes.2 (congrArg (· ++ []) rest)
  rw [samePositive, sameNegative]

/-- A type is determined by its shape and its parts. -/
theorem ext_of_shape {ty other : Ty} (shapes : ty.shape = other.shape)
    (parts : ty.children = other.children) : ty = other := by
  cases ty with
  | hole | never | void | primitive | cSpelling | generic | unknown =>
    cases other <;> first | exact shapes | cases shapes
  | pointer | array | slice =>
    cases other <;> simp_all [shape, mapParts, children]
  | named | dynamicInterface =>
    cases other <;> simp_all [shape, mapParts, children]
  | generatedFuture | opaqueState =>
    cases other <;> simp_all [shape, mapParts, children]
    exact state_ext (by simp_all) (by simp_all)
  | opaqueReturn =>
    cases other <;> simp [shape, mapParts, children] at shapes parts ⊢
    obtain ⟨args, bounds⟩ := List.append_inj parts shapes.2.1
    exact ⟨shapes.1, args, bounds_ext shapes.2.2 bounds⟩
  | function =>
    cases other <;> simp_all [shape, mapParts, children]
  | closure =>
    cases other <;> simp [shape, mapParts, children] at shapes parts ⊢
    obtain ⟨args, bounds⟩ := List.append_inj parts.2 shapes.1
    exact ⟨parts.1, args, bounds_ext shapes.2 bounds⟩
  | closureInstance =>
    cases other <;> simp [shape, mapParts, children] at shapes parts ⊢
    obtain ⟨params, captures⟩ := List.append_inj parts.2 shapes.2.1
    exact ⟨shapes.1, parts.1, params, captures⟩

/-- The height is at most the number, and all shapes are in the set. -/
def Within (shapes : Set Ty) : Nat → Ty → Prop
  | 0, ty => ty.shape ∈ shapes ∧ ty.children = []
  | n + 1, ty => ty.shape ∈ shapes ∧ ∀ part ∈ ty.children, part.Within shapes n

variable {shapes : Set Ty} {n m : Nat} {ty : Ty}

theorem Within.shape_mem (within : ty.Within shapes n) : ty.shape ∈ shapes := by
  cases n with
  | zero => exact within.1
  | succ n => exact within.1

theorem Within.part (within : ty.Within shapes (n + 1)) :
    ∀ part ∈ ty.children, part.Within shapes n :=
  within.2

theorem Within.succ (within : ty.Within shapes n) : ty.Within shapes (n + 1) := by
  induction n generalizing ty with
  | zero => exact ⟨within.1, by simp [within.2]⟩
  | succ n ih => exact ⟨within.1, fun part inside => ih (within.2 part inside)⟩

theorem Within.mono (within : ty.Within shapes n) (le : n ≤ m) : ty.Within shapes m := by
  induction le with
  | refl => exact within
  | step _ ih => exact ih.succ

theorem Within.subset {more : Set Ty} (within : ty.Within shapes n) (sub : shapes ⊆ more) :
    ty.Within more n := by
  induction n generalizing ty with
  | zero => exact ⟨sub within.1, within.2⟩
  | succ n ih => exact ⟨sub within.1, fun part inside => ih (within.2 part inside)⟩

theorem Within.of_child (within : ty.Within shapes n) :
    ∀ part ∈ ty.children, part.Within shapes n := by
  intro part inside
  cases n with
  | zero =>
    rw [within.2] at inside
    cases inside
  | succ n => exact (within.2 part inside).succ

/-- Finitely many types have finitely many shapes and a greatest height. -/
theorem exists_within (tys : List Ty) :
    ∃ shapes : Set Ty, ∃ n, shapes.Finite ∧ ∀ ty ∈ tys, ty.Within shapes n := by
  have list {tys : List Ty} (each : ∀ ty ∈ tys, ∃ shapes : Set Ty, ∃ n, shapes.Finite ∧
      ty.Within shapes n) : ∃ shapes : Set Ty, ∃ n, shapes.Finite ∧ ∀ ty ∈ tys,
        ty.Within shapes n := by
    induction tys with
    | nil => exact ⟨∅, 0, Set.finite_empty, by simp⟩
    | cons ty tys ih =>
      obtain ⟨here, later⟩ := List.forall_mem_cons.mp each
      obtain ⟨shapes, n, finite, within⟩ := here
      obtain ⟨shapes', m, finite', within'⟩ := ih later
      refine ⟨shapes ∪ shapes', max n m, finite.union finite', List.forall_mem_cons.mpr ⟨?_, ?_⟩⟩
      · exact (within.subset Set.subset_union_left).mono (Nat.le_max_left n m)
      · exact fun ty inside => ((within' ty inside).subset Set.subset_union_right).mono
          (Nat.le_max_right n m)
  have one (ty : Ty) : ∃ shapes : Set Ty, ∃ n, shapes.Finite ∧ ty.Within shapes n := by
    induction ty with
    | step ty ih =>
      obtain ⟨shapes, n, finite, within⟩ := list ih
      refine ⟨insert ty.shape shapes, n + 1, finite.insert _, Set.mem_insert _ _,
        fun part inside => ?_⟩
      exact (within part inside).subset (Set.subset_insert _ _)
  exact list fun ty _ => one ty

theorem finite_within (finite : shapes.Finite) (n : Nat) :
    {ty : Ty | ty.Within shapes n}.Finite := by
  -- types are put in place of their shape and parts
  have injective : Function.Injective fun ty : Ty => (ty.shape, ty.children) := by
    intro ty other same
    exact ext_of_shape (congrArg Prod.fst same) (congrArg Prod.snd same)
  induction n with
  | zero =>
    refine Set.Finite.of_finite_image ((finite.prod (Set.finite_singleton [])).subset ?_)
      injective.injOn
    rintro _ ⟨ty, within, rfl⟩
    exact ⟨within.1, within.2⟩
  | succ n ih =>
    obtain ⟨width, widest⟩ := (finite.image fun ty : Ty => ty.children.length).bddAbove
    refine Set.Finite.of_finite_image ((finite.prod
      (Library.finite_lists ih width)).subset ?_) injective.injOn
    rintro _ ⟨ty, within, rfl⟩
    have length : ty.children.length = ty.shape.children.length := by simp [shape]
    exact ⟨within.1, length.trans_le (widest (Set.mem_image_of_mem _ within.1)), within.2⟩

theorem Within.generic {subst : TySubst} (within : ty.Within shapes n)
    (noState : ty.any isOpaqueState = false) (form : ty.isGenericOrState = true)
    (values : ∀ name value, ty.mentions name = true → subst.lookup name = some value →
      value.Within shapes m) : (substituteTy subst ty).Within shapes (max n m) := by
  cases ty with
  | generic name =>
    rw [substituteTy]
    cases found : subst.lookup name with
    | none => exact within.mono (Nat.le_max_left n m)
    | some value =>
      exact (values name value (by simp [mentions, any]) found).mono (Nat.le_max_right n m)
  | opaqueState => cases (any_eq_false.mp noState).1
  | _ => cases form

/-- Substitution adds the heights of a pattern and of what is put in. -/
theorem Within.substituteTy {subst : TySubst} (within : ty.Within shapes n)
    (noState : ty.any isOpaqueState = false)
    (values : ∀ name value, ty.mentions name = true → subst.lookup name = some value →
      value.Within shapes m) : (substituteTy subst ty).Within shapes (n + m) := by
  induction n generalizing ty with
  | zero =>
    cases form : ty.isGenericOrState with
    | true => exact (within.generic noState form values).mono (by omega)
    | false =>
      rw [substituteTy_eq_mapParts form]
      have leaf : (ty.mapParts (Types.substituteTy subst)).Within shapes 0 :=
        ⟨by rw [shape_mapParts]; exact within.1, by rw [children_mapParts, within.2]; rfl⟩
      exact leaf.mono (Nat.zero_le _)
  | succ n ih =>
    cases form : ty.isGenericOrState with
    | true => exact (within.generic noState form values).mono (by omega)
    | false =>
      rw [substituteTy_eq_mapParts form, show n + 1 + m = n + m + 1 by omega]
      refine ⟨by rw [shape_mapParts]; exact within.1, fun part member => ?_⟩
      rw [children_mapParts] at member
      obtain ⟨old, inside, rfl⟩ := List.mem_map.mp member
      refine ih (within.2 old inside) ((any_eq_false.mp noState).2 old inside) fun name value
        isPart => ?_
      refine values name value ?_
      rw [mentions, any_eq, Bool.or_eq_true, List.any_eq_true]
      exact .inr ⟨old, inside, isPart⟩

end Ty

end Ciel.Types
