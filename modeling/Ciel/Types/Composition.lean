import Ciel.Types.Parts

/-!
# Substitutions compose

Substituting twice is substituting once with the composed substitution. The only
form where this is not plain is an annotated type: its base may be replaced by a
type that is annotated itself, and then the two annotations become one. Merging
is associative, so it does not matter how often it happens.
-/

namespace Ciel.Types

/-- First `s`, then `t`: the names of `s` go to the images of their types, and the
others where `t` sends them. -/
def TySubst.andThen (s t : TySubst) : TySubst :=
  s.map (fun entry => (entry.1, substituteTy t entry.2)) ++ t

theorem TySubst.lookup_andThen (s t : TySubst) (name : String) :
    (s.andThen t).lookup name =
      ((s.lookup name).map (substituteTy t)).or (t.lookup name) := by
  induction s with
  | nil => rfl
  | cons entry s ih =>
    obtain ⟨key, ty⟩ := entry
    rw [andThen] at ih
    rw [andThen, List.map_cons, List.cons_append, List.lookup_cons, List.lookup_cons]
    cases name == key with
    | true => rfl
    | false => exact ih

theorem opaqueStateTy_nil (base : Ty) : opaqueStateTy base [] = base := rfl

/-- Annotating twice is annotating once with both states. -/
theorem opaqueStateTy_opaqueStateTy (base : Ty) (first second : List (String × Ty)) :
    opaqueStateTy (opaqueStateTy base first) second = opaqueStateTy base (first ++ second) := by
  cases first with
  | nil => rfl
  | cons entry first =>
    cases second with
    | nil => rw [opaqueStateTy_nil, List.append_nil]
    | cons entry' second => cases base <;> simp [opaqueStateTy]

theorem substituteTy_opaqueState (subst : TySubst) (base : Ty) (state : List (String × Ty)) :
    substituteTy subst (.opaqueState base state) =
      opaqueStateTy (substituteTy subst base) (mapState (substituteTy subst) state) := by
  rw [substituteTy, substituteState_eq]

theorem substituteTy_opaqueStateTy (subst : TySubst) (base : Ty) (state : List (String × Ty)) :
    substituteTy subst (opaqueStateTy base state) =
      opaqueStateTy (substituteTy subst base) (mapState (substituteTy subst) state) := by
  cases state with
  | nil => rfl
  | cons entry state =>
    cases base with
    | opaqueState inner existing =>
      rw [opaqueStateTy, List.isEmpty_cons, if_neg Bool.false_ne_true, substituteTy_opaqueState,
        substituteTy_opaqueState, opaqueStateTy_opaqueStateTy, mapState_append]
    -- no other form has an annotation to merge with
    | _ => exact substituteTy_opaqueState subst _ _

theorem substituteTy_substituteTy (s t : TySubst) (ty : Ty) :
    substituteTy t (substituteTy s ty) = substituteTy (s.andThen t) ty := by
  induction ty with
  | step ty ih =>
    cases ty with
    | generic name =>
      rw [substituteTy, substituteTy, TySubst.lookup_andThen]
      cases s.lookup name <;> rfl
    | opaqueState base state =>
      have inState : mapState (substituteTy t ∘ substituteTy s) state =
          mapState (substituteTy (s.andThen t)) state :=
        mapState_congr fun ty member => ih ty (List.mem_cons_of_mem _ member)
      rw [substituteTy_opaqueState, substituteTy_opaqueStateTy, ih base List.mem_cons_self,
        mapState_mapState, inState, substituteTy_opaqueState]
    | _ =>
      rw [substituteTy_eq_mapParts rfl, substituteTy_eq_mapParts rfl,
        substituteTy_eq_mapParts rfl, Ty.mapParts_mapParts]
      exact Ty.mapParts_congr ih

/-- The parameter stands somewhere in the type. -/
def Ty.mentions (ty : Ty) (name : String) : Bool := ty.any fun part => decide (part = .generic name)

theorem any_opaqueStateTy {p : Ty → Bool} {base : Ty} {state : List (String × Ty)}
    (annotated : ∀ base state, p (.opaqueState base state) = false) (inBase : base.any p = false)
    (inState : ∀ ty ∈ state.map Prod.snd, ty.any p = false) :
    (opaqueStateTy base state).any p = false := by
  cases state with
  | nil => exact inBase
  | cons entry state =>
    cases base with
    | opaqueState inner existing =>
      obtain ⟨-, inside⟩ := Ty.any_eq_false.mp inBase
      apply Ty.any_eq_false.mpr
      refine ⟨annotated _ _, fun part member => ?_⟩
      change part ∈ inner :: (existing ++ entry :: state).map Prod.snd at member
      rw [List.mem_cons, List.map_append, List.mem_append] at member
      obtain rfl | old | new := member
      · exact inside part List.mem_cons_self
      · exact inside part (List.mem_cons_of_mem _ old)
      · exact inState part new
    | _ =>
      apply Ty.any_eq_false.mpr
      refine ⟨annotated _ _, fun part member => ?_⟩
      obtain rfl | new := List.mem_cons.mp member
      · exact inBase
      · exact inState part new

/-- A substitution that gives every parameter of the type a closed type closes it. -/
theorem containsGeneric_substituteTy {s : TySubst} {ty : Ty}
    (closed : ∀ name, ty.mentions name = true →
      ∃ image, s.lookup name = some image ∧ containsGeneric image = false) :
    containsGeneric (substituteTy s ty) = false := by
  induction ty with
  | step ty ih =>
    have inPart (part : Ty) (member : part ∈ ty.children) :
        containsGeneric (substituteTy s part) = false := by
      apply ih part member
      intro name mentioned
      apply closed name
      rw [Ty.mentions, Ty.any_eq, Bool.or_eq_true, List.any_eq_true]
      exact .inr ⟨part, member, mentioned⟩
    cases ty with
    | generic name =>
      obtain ⟨image, found, closedImage⟩ := closed name (by simp [Ty.mentions, Ty.any])
      rw [substituteTy, found]
      exact closedImage
    | opaqueState base state =>
      rw [substituteTy_opaqueState]
      apply any_opaqueStateTy (fun _ _ => rfl) (inPart base List.mem_cons_self)
      rw [map_snd_mapState]
      intro ty member
      obtain ⟨part, inState, rfl⟩ := List.mem_map.mp member
      exact inPart part (List.mem_cons_of_mem _ inState)
    | _ =>
      rw [containsGeneric, substituteTy_eq_mapParts rfl, Ty.any_eq_false, Ty.children_mapParts]
      refine ⟨rfl, fun part member => ?_⟩
      obtain ⟨old, inside, rfl⟩ := List.mem_map.mp member
      exact inPart old inside

/-- The two laws of substitution. -/
theorem substitution_laws (s t : TySubst) (ty : Ty) :
    substituteTy t (substituteTy s ty) = substituteTy (s.andThen t) ty ∧
      ((∀ name, ty.mentions name = true →
        ∃ image, s.lookup name = some image ∧ containsGeneric image = false) →
          containsGeneric (substituteTy s ty) = false) :=
  ⟨substituteTy_substituteTy s t ty, containsGeneric_substituteTy⟩

end Ciel.Types
