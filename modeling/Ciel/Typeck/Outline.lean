import Mathlib.Data.List.Forall2
import Ciel.Typeck.Patterns

/-!
# What patterns see of a type

The outline of a type keeps its enums, arrays and erased parts by value and
drops everything else, opaque states included. Two types with the same outline
have the same variants with payloads of the same outlines, and erase the same
parts. The projection of hidden state to a payload keeps the outline, unless it
puts in a type that no variant pattern is accepted for.
-/

namespace Ciel.Typeck.Patterns

open Ciel.Types

inductive Outline
  | void
  | array (elem : Outline)
  | named (name : String) (args : List Outline)
  | hole
  | other

variable (program : Program)

mutual

def outline : Ty → Outline
  | .void => .void
  | .array _ elem => .array (outline elem)
  | .opaqueState base _ => outline base
  | .named defId name args => .named (program.nameOf defId name) (outlines args)
  | .hole _ => .hole
  | _ => .other

def outlines : List Ty → List Outline
  | [] => []
  | ty :: tys => outline ty :: outlines tys

end

theorem outlines_eq_map (tys : List Ty) : outlines program tys = tys.map (outline program) := by
  induction tys with
  | nil => rfl
  | cons ty tys ih => simp [outlines, ih]

variable {program}

def Outline.isErased : Outline → Bool
  | .void => true
  | .array elem => elem.isErased
  | _ => false

theorem isErased_outline (ty : Ty) : (outline program ty).isErased = ty.isErasedValue := by
  fun_induction Ty.isErasedValue ty with
  | case1 => rfl
  | case2 len elem ih => exact ih
  | case3 base state ih => exact ih
  | case4 ty notVoid notArray notOpaque => cases ty <;> simp_all [outline, Outline.isErased]

theorem isErasedValue_congr {left right : Ty}
    (same : outline program left = outline program right) :
    left.isErasedValue = right.isErasedValue := by
  rw [← isErased_outline, same, isErased_outline]

theorem outline_stripOpaqueState (ty : Ty) :
    outline program ty.stripOpaqueState = outline program ty := by
  fun_induction Ty.stripOpaqueState ty with
  | case1 base state ih => exact ih
  | case2 ty notOpaque => rfl

def Outline.isHole : Outline → Bool
  | .hole => true
  | _ => false

theorem isHole_congr {left right : Ty} (same : outline program left = outline program right) :
    left.stripOpaqueState.isHole = right.stripOpaqueState.isHole := by
  have isHole_outline (ty : Ty) :
      ty.stripOpaqueState.isHole = (outline program ty).isHole := by
    fun_induction Ty.stripOpaqueState ty with
    | case1 base state ih => exact ih
    | case2 ty notOpaque => cases ty <;> first | rfl | exact (notOpaque _ _ rfl).elim
  rw [isHole_outline, same, isHole_outline]

theorem outline_opaqueStateTy (base : Ty) (state : List (String × Ty)) :
    outline program (opaqueStateTy base state) = outline program base := by
  unfold opaqueStateTy
  split
  · rfl
  · cases base <;> rfl

theorem nameOf_congr {leftId rightId : Option DefId} {left right : String}
    (same : namedTyIdentityEq leftId left rightId right = true) :
    program.nameOf leftId left = program.nameOf rightId right := by
  cases leftId <;> cases rightId <;> simp_all [namedTyIdentityEq, Program.nameOf]

theorem outlines_of_sameTys {lefts rights : List Ty}
    (each : ∀ left ∈ lefts, ∀ right, sameIgnoringOpaqueState left right = true →
      outline program left = outline program right)
    (same : sameTys lefts rights = true) : outlines program lefts = outlines program rights := by
  induction lefts generalizing rights with
  | nil => cases rights <;> simp_all [sameTys]
  | cons left lefts ih =>
    cases rights with
    | nil => simp [sameTys] at same
    | cons right rights =>
      rw [sameTys, Bool.and_eq_true] at same
      rw [outlines, outlines, each left List.mem_cons_self right same.1,
        ih (fun other member => each other (List.mem_cons_of_mem _ member)) same.2]

/-- Types that are the same up to opaque state have the same outline. -/
theorem outline_of_same (left right : Ty) (same : sameIgnoringOpaqueState left right = true) :
    outline program left = outline program right := by
  induction left generalizing right with
  | step left ih =>
    rw [← outline_stripOpaqueState right]
    cases left with
    | opaqueState base state =>
      rw [outline_stripOpaqueState]
      rw [sameIgnoringOpaqueState, Bool.or_eq_true, decide_eq_true_eq] at same
      obtain rfl | same := same
      · rfl
      · exact ih base (by simp [Ty.children]) right same
    | array len elem =>
      rw [sameIgnoringOpaqueState] at same
      split at same
      next len' elem' stripped =>
        rw [Bool.and_eq_true] at same
        rw [stripped, outline, outline, ih elem (by simp [Ty.children]) elem' same.2]
      next => cases same
    | named defId name args =>
      rw [sameIgnoringOpaqueState] at same
      split at same
      next defId' name' args' stripped =>
        rw [Bool.and_eq_true] at same
        have inArgs : outlines program args = outlines program args' :=
          outlines_of_sameTys ih same.2
        rw [stripped, outline, outline, nameOf_congr same.1, inArgs]
      next => cases same
    -- these forms have no parts in the outline
    | pointer | slice | generatedFuture | dynamicInterface | function | closure
    | closureInstance =>
      rw [sameIgnoringOpaqueState] at same
      split at same
      next stripped => rw [stripped]; rfl
      next => cases same
    | _ =>
      simp only [sameIgnoringOpaqueState, decide_eq_true_eq] at same
      rw [← same]

/-- What is assigned has the outline of the expected type, unless one of the
two is still to be inferred. -/
theorem outline_of_canAssignFrom {expected source : Ty}
    (assigns : canAssignFrom expected source = true) :
    expected.stripOpaqueState.isHole = true ∨ source.stripOpaqueState.isHole = true ∨
      outline program expected = outline program source := by
  induction expected with
  | step expected ih =>
    rw [← outline_stripOpaqueState source]
    have same (h : sameIgnoringOpaqueState expected source.stripOpaqueState = true) :
        outline program expected = outline program source.stripOpaqueState :=
      outline_of_same _ _ h
    cases expected with
    | opaqueState base state =>
      rw [outline_stripOpaqueState source]
      exact ih base (by simp [Ty.children]) assigns
    -- the views that weaken a type are of forms without parts in the outline
    | pointer | slice | function | closure =>
      simp only [canAssignFrom, Bool.or_eq_true] at assigns
      obtain (hole | equal) | view := assigns
      · exact .inr (.inl hole)
      · exact .inr (.inr (same equal))
      · split at view
        all_goals first
          | cases view
          | next stripped => rw [stripped]; exact .inr (.inr rfl)
    | _ =>
      simp only [canAssignFrom, Bool.or_eq_true] at assigns
      obtain (hole | hole) | equal := assigns
      · exact .inl hole
      · exact .inr (.inl hole)
      · exact .inr (.inr (same equal))

/-- Substitutions that agree up to outlines give types of the same outline. -/
theorem outline_substituteTy {left right : TySubst}
    (agree : ∀ name, (left.lookup name).map (outline program) =
      (right.lookup name).map (outline program)) (ty : Ty) :
    outline program (substituteTy left ty) = outline program (substituteTy right ty) := by
  induction ty with
  | step ty ih =>
    cases ty with
    | generic name =>
      have := agree name
      rw [substituteTy, substituteTy]
      cases inLeft : left.lookup name <;> cases inRight : right.lookup name <;>
        simp_all
    | array len elem =>
      rw [substituteTy, substituteTy, outline, outline, ih elem (by simp [Ty.children])]
    | opaqueState base state =>
      rw [substituteTy, substituteTy, outline_opaqueStateTy, outline_opaqueStateTy]
      exact ih base (by simp [Ty.children])
    | named defId name args =>
      have inArgs : args.map (outline program ∘ substituteTy left) =
          args.map (outline program ∘ substituteTy right) := List.map_congr_left ih
      rw [substituteTy, substituteTy, outline, outline, outlines_eq_map, outlines_eq_map,
        substituteTys_eq_map, substituteTys_eq_map, List.map_map, List.map_map, inArgs]
    | _ => rfl

theorem lookup_zip_outline {generics : List String} {left right : List Ty}
    (same : outlines program left = outlines program right) (name : String) :
    ((generics.zip left).lookup name).map (outline program) =
      ((generics.zip right).lookup name).map (outline program) := by
  induction generics generalizing left right with
  | nil => rfl
  | cons generic generics ih =>
    cases left with
    | nil =>
      cases right with
      | nil => rfl
      | cons => cases same
    | cons first left =>
      cases right with
      | nil => cases same
      | cons second right =>
        rw [outlines, outlines, List.cons.injEq] at same
        rw [List.zip_cons_cons, List.zip_cons_cons, List.lookup_cons, List.lookup_cons]
        cases name == generic
        · exact ih same.2
        · exact congrArg some same.1

/-- A pattern that was checked at the first type stands for a column of the
second. -/
def Stands (program : Program) (expected column : Ty) : Prop :=
  outline program expected = outline program column ∨
    ((∀ defId name args, (splitOpaqueState expected).1 ≠ .named defId name args) ∧
      expected.isErasedValue = false ∧ column.isErasedValue = false)

theorem Stands.isErasedValue_eq {expected column : Ty} (stands : Stands program expected column) :
    expected.isErasedValue = column.isErasedValue := by
  obtain same | ⟨-, left, right⟩ := stands
  · exact isErasedValue_congr same
  · rw [left, right]

theorem Stands.trans {expected ty column : Ty} (stands : Stands program expected ty)
    (same : outline program ty = outline program column) : Stands program expected column := by
  obtain equal | ⟨notNamed, left, right⟩ := stands
  · exact .inl (equal.trans same)
  · exact .inr ⟨notNamed, left, by rw [← isErasedValue_congr same, right]⟩

theorem outline_splitOpaqueState (ty : Ty) :
    outline program (splitOpaqueState ty).1 = outline program ty := by
  cases ty <;> rfl

theorem futureAcceptsGenerated_inv {expected actual : Ty}
    (accepts : futureAcceptsGenerated program expected actual = true) :
    (∀ defId name args, (splitOpaqueState actual).1 ≠ .named defId name args) ∧
      actual.isErasedValue = false := by
  unfold futureAcceptsGenerated at accepts
  split at accepts
  · exact ⟨nofun, rfl⟩
  · exact ⟨nofun, rfl⟩
  · cases accepts

/-- The projection of hidden state to a payload stands for the payload. -/
theorem projectOpaqueStateTy_stands {column : Ty} (stored : column.isErasedValue = false)
    (inferred : column.stripOpaqueState.isHole = false) (selected : List (String × Ty)) :
    Stands program (projectOpaqueStateTy program column selected) column := by
  have annotated (state : List (String × Ty)) :
      Stands program (opaqueStateTy column state) column :=
    .inl (outline_opaqueStateTy column state)
  have generated {source : Ty} (accepts : futureAcceptsGenerated program column source = true) :
      Stands program source column :=
    .inr ⟨(futureAcceptsGenerated_inv accepts).1, (futureAcceptsGenerated_inv accepts).2, stored⟩
  unfold projectOpaqueStateTy
  split
  · exact .inl rfl
  next name source =>
    split
    · split
      · exact annotated _
      · split
        next accepts => exact generated accepts
        next => exact annotated _
    next notOpaque =>
      split
      next accepts =>
        obtain accepts | assigns := Bool.or_eq_true _ _ |>.mp accepts
        · exact generated accepts
        · obtain hole | hole | same := @outline_of_canAssignFrom program _ _ assigns
          · rw [inferred] at hole
            cases hole
          · cases form : source with
            | opaqueState base state => exact (notOpaque base state form).elim
            | hole => exact .inr ⟨nofun, rfl, stored⟩
            | _ => rw [form] at hole; cases hole
          · exact .inl same.symm
      next => exact annotated _
  · exact annotated _

end Ciel.Typeck.Patterns
