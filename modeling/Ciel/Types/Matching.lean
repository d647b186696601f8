import Ciel.Types.Comparison

/-!
# Single steps of matching

Binding a parameter keeps what other parameters are bound to. A pattern that is
compared part by part matches a type with the same head, part by part.
-/

namespace Ciel.Types

variable {before after : TySubst}

/-- Bindings other than of a parameter to itself are kept. -/
def TySubst.Extends (before after : TySubst) : Prop :=
  ∀ name ty, before.lookup name = some ty → ty ≠ .generic name → after.lookup name = some ty

theorem TySubst.Extends.refl (subst : TySubst) : subst.Extends subst := fun _ _ found _ => found

theorem TySubst.Extends.trans {a b c : TySubst} (first : a.Extends b) (second : b.Extends c) :
    a.Extends c :=
  fun name ty found proper => second name ty (first name ty found proper) proper

theorem any_stripOpaqueState {p : Ty → Bool} {ty : Ty} (none : ty.any p = false) :
    ty.stripOpaqueState.any p = false := by
  induction ty with
  | step ty ih =>
    cases ty with
    | opaqueState base state =>
      exact ih base (by simp [Ty.children]) ((Ty.any_eq_false.mp none).2 base
        (by simp [Ty.children]))
    | _ => exact none

/-- A parameter is bound, unless it was bound to the type before. -/
theorem bindGeneric_spec {name : String} {ty : Ty}
    (bound : bindGeneric name ty before = some after) :
    before.Extends after ∧ after.lookup name = some ty ∧
      ∀ entry ∈ after, entry ∈ before ∨ entry = (name, ty) := by
  have added (old : ∀ ty, before.lookup name = some ty → ty = .generic name) :
      before.Extends ((name, ty) :: before) ∧ List.lookup name ((name, ty) :: before) = some ty ∧
        ∀ entry ∈ (name, ty) :: before, entry ∈ before ∨ entry = (name, ty) := by
    refine ⟨fun other ty found notSelf => ?_, by simp, by grind⟩
    by_cases same : other = name
    · subst same
      exact absurd (old ty found) notSelf
    · have differ : (other == name) = false := by simpa using same
      rw [List.lookup_cons, differ]
      exact found
  rw [bindGeneric] at bound
  split at bound
  next existing found =>
    split at bound
    next isSelf =>
      cases bound
      exact added fun ty found' => Option.some.inj (found'.symm.trans found) ▸ isSelf
    next =>
      split at bound
      next same =>
        cases bound
        exact ⟨.refl before, same ▸ found, fun entry => .inl⟩
      next => cases bound
  next missing =>
    cases bound
    exact added fun ty found => by cases missing.symm.trans found

theorem unifyTys_singleton (pattern actual : Ty) (subst : TySubst) :
    unifyTys [pattern] [actual] subst = unifyTy pattern actual subst := by
  rw [unifyTys]
  cases unifyTy pattern actual subst <;> rfl

/-- A pattern that is compared part by part. -/
theorem unifyTy_composite {pattern actual : Ty} {head : TyHead}
    (found : pattern.head? = some head) (unified : unifyTy pattern actual before = some after) :
    actual.stripOpaqueState.head? = some head ∧
      unifyTys pattern.children actual.stripOpaqueState.children before = some after := by
  rw [← found]
  cases pattern with
  | pointer | array | slice | named | dynamicInterface | function =>
    rw [unifyTy] at unified
    split at unified
    next form =>
      split at unified
      next heads =>
        rw [form]
        simp_all [Ty.head?, Ty.children, unifyTys, unifyTys_singleton, namedHead_eq]
      next => cases unified
    next => cases unified
  | _ => cases found

end Ciel.Types
