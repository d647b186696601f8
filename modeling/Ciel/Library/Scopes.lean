import Mathlib.Data.List.Forall2
import Mathlib.Data.Option.Defs

/-!
# Stacks of scopes

A stack of scopes is a list of association lists, the innermost scope first.
A name is looked up in the innermost scope that declares it.

Two stacks over different values are compared by `Rel`: the same names in the
same places, and related values under each name. Every operation on a stack
has one lemma that says how it acts on a related pair; an analysis that keeps
one stack and an execution that keeps another are compared with these alone.
-/

namespace Library

variable {κ α β γ : Type*}
variable {m : List (κ × β)} {l : List (κ × α)} {g : β → β}

/-- Scopes, innermost first; each lists its entries, newest first. -/
abbrev Scopes (κ α : Type*) := List (List (κ × α))

namespace Scopes

section Operations

variable [DecidableEq κ]

/-- The value of a name in the innermost scope that declares it. -/
def get? (s : Scopes κ α) (x : κ) : Option α := s.findSome? (List.lookup x)

/-- Change the newest entry of a name in one scope. -/
def modifyScope (x : κ) (f : α → α) : List (κ × α) → List (κ × α)
  | [] => []
  | (y, a) :: scope =>
    if x = y then (y, f a) :: scope else (y, a) :: modifyScope x f scope

/-- Change the entry that `get?` finds; nothing happens if there is none. -/
def modify (x : κ) (f : α → α) : Scopes κ α → Scopes κ α
  | [] => []
  | scope :: s =>
    if (scope.lookup x).isSome then modifyScope x f scope :: s
    else scope :: modify x f s

end Operations

/-- Open a scope. -/
def push (s : Scopes κ α) : Scopes κ α := [] :: s

/-- Close the innermost scope. -/
def pop (s : Scopes κ α) : Scopes κ α := s.tail

/-- Add an entry to the innermost scope. -/
def declare (x : κ) (a : α) : Scopes κ α → Scopes κ α
  | [] => [[(x, a)]]
  | scope :: s => ((x, a) :: scope) :: s

/-- Entry by entry combination of two stacks with the same names. -/
def combine (f : α → α → α) (s t : Scopes κ α) : Scopes κ α :=
  List.zipWith (List.zipWith fun p q => (p.1, f p.2 q.2)) s t

@[simp] theorem pop_push (s : Scopes κ α) : s.push.pop = s := rfl

@[simp] theorem pop_declare (x : κ) (a : α) (s : Scopes κ α) :
    (declare x a s).pop = s.pop := by
  cases s <;> rfl

/-- The same names in the same places, with related values. -/
def Rel (R : κ → α → β → Prop) : Scopes κ α → Scopes κ β → Prop :=
  List.Forall₂ (List.Forall₂ fun p q => p.1 = q.1 ∧ R p.1 p.2 q.2)

namespace Rel

variable {R : κ → α → β → Prop} {s : Scopes κ α} {t : Scopes κ β}

theorem mono {R' : κ → α → β → Prop} (h : Rel R s t)
    (imp : ∀ x a b, R x a b → R' x a b) : Rel R' s t :=
  List.Forall₂.imp (fun _ _ scopes => List.Forall₂.imp
    (fun _ _ entry => ⟨entry.1, imp _ _ _ entry.2⟩) scopes) h

theorem refl {R : κ → α → α → Prop} (self : ∀ x a, R x a a) (s : Scopes κ α) : Rel R s s :=
  List.forall₂_same.2 fun _ _ => List.forall₂_same.2 fun _ _ => ⟨rfl, self _ _⟩

theorem and {R' : κ → α → β → Prop} (left : Rel R s t) (right : Rel R' s t) :
    Rel (fun x a b => R x a b ∧ R' x a b) s t := by
  induction left with
  | nil => exact .nil
  | cons scope _ ih =>
    cases right with
    | cons scope' rest =>
      refine .cons ?_ (ih rest)
      clear ih rest
      induction scope with
      | nil => exact .nil
      | cons entry _ ih =>
        cases scope' with
        | cons entry' rest => exact .cons ⟨entry.1, entry.2, entry'.2⟩ (ih rest)

theorem push (h : Rel R s t) : Rel R s.push t.push := .cons .nil h

theorem pop (h : Rel R s t) : Rel R s.pop t.pop := by
  cases h with
  | nil => exact .nil
  | cons _ rest => exact rest

theorem declare (h : Rel R s t) {x : κ} {a : α} {b : β} (entry : R x a b) :
    Rel R (declare x a s) (declare x b t) := by
  cases h with
  | nil => exact .cons (.cons ⟨rfl, entry⟩ .nil) .nil
  | cons scope rest => exact .cons (.cons ⟨rfl, entry⟩ scope) rest

private theorem scope_trans {R' : κ → β → γ → Prop} {S : κ → α → γ → Prop}
    (imp : ∀ x a b c, R x a b → R' x b c → S x a c) {n : List (κ × γ)}
    (first : List.Forall₂ (fun p q => p.1 = q.1 ∧ R p.1 p.2 q.2) l m)
    (second : List.Forall₂ (fun p q => p.1 = q.1 ∧ R' p.1 p.2 q.2) m n) :
    List.Forall₂ (fun p q => p.1 = q.1 ∧ S p.1 p.2 q.2) l n := by
  induction first generalizing n with
  | nil => cases second; exact .nil
  | @cons p q _ _ entry _ ih =>
    cases second with
    | cons entry' rest =>
      refine .cons ⟨entry.1.trans entry'.1, imp _ _ _ _ entry.2 ?_⟩ (ih rest)
      rw [entry.1]
      exact entry'.2

/-- Relations compose along a chain of stacks. -/
theorem trans {R' : κ → β → γ → Prop} {S : κ → α → γ → Prop} {u : Scopes κ γ}
    (first : Rel R s t) (second : Rel R' t u)
    (imp : ∀ x a b c, R x a b → R' x b c → S x a c) : Rel S s u := by
  induction first generalizing u with
  | nil => cases second; exact .nil
  | cons scope _ ih =>
    cases second with
    | cons scope' rest => exact .cons (scope_trans imp scope scope') (ih rest)

theorem symm (h : Rel R s t) : Rel (fun x b a => R x a b) t s :=
  List.Forall₂.flip (List.Forall₂.imp (fun _ _ scope => List.Forall₂.flip
    (List.Forall₂.imp (fun _ _ entry => ⟨entry.1.symm, by rw [← entry.1]; exact entry.2⟩) scope)) h)

/-- A fact about the left values alone. -/
theorem diag {P : κ → α → Prop} (h : Rel R s t) (imp : ∀ x a b, R x a b → P x a) :
    Rel (fun x a a' => a' = a ∧ P x a) s s := by
  induction h with
  | nil => exact .nil
  | cons scope _ ih =>
    refine .cons ?_ ih
    induction scope with
    | nil => exact .nil
    | cons entry _ ih => exact .cons ⟨rfl, rfl, imp _ _ _ entry.2⟩ ih

section Combine

variable {f : β → β → β} {R' R'' : κ → α → β → Prop} {t' : Scopes κ β}

/-- A combination of two stacks that relate to a third. -/
theorem combine (left : Rel R s t) (right : Rel R' s t')
    (imp : ∀ x a b b', R x a b → R' x a b' → R'' x a (f b b')) : Rel R'' s (combine f t t') := by
  induction left generalizing t' with
  | nil => cases right; exact .nil
  | @cons _ _ _ _ scope _ ih =>
    cases right with
    | @cons _ m' _ _ scope' rest =>
      refine .cons ?_ (ih rest)
      clear ih rest
      induction scope generalizing m' with
      | nil => cases scope'; exact .nil
      | cons entry _ ih =>
        cases scope' with
        | cons entry' rest =>
          exact .cons ⟨entry.1, imp _ _ _ _ entry.2 entry'.2⟩ (ih rest)

/-- A combination of several stacks of the same shape satisfies what one of them
does, if that survives combination with any stack of the shape. -/
theorem foldl_combine {S : κ → α → β → Prop}
    (keepLeft : ∀ x a b b', R x a b → S x a b' → R x a (f b b'))
    (keepRight : ∀ x a b b', S x a b → R x a b' → R x a (f b b'))
    (shape : ∀ x a b b', S x a b → S x a b' → S x a (f b b'))
    (first : Scopes κ β) (rest : List (Scopes κ β)) (all : ∀ t ∈ first :: rest, Rel S s t)
    (one : ∃ t ∈ first :: rest, Rel R s t) :
    Rel R s (rest.foldl (Scopes.combine f) first) := by
  induction rest generalizing first with
  | nil =>
    obtain ⟨t, mem, related⟩ := one
    rw [List.mem_singleton.1 mem] at related
    exact related
  | cons next rest ih =>
    have shapeFirst := all first (by simp)
    have shapeNext := all next (by simp)
    apply ih (Scopes.combine f first next)
    · intro t mem
      obtain rfl | mem := List.mem_cons.1 mem
      · exact shapeFirst.combine shapeNext shape
      · exact all t (by simp [mem])
    · obtain ⟨t, mem, related⟩ := one
      obtain rfl | mem := List.mem_cons.1 mem
      · exact ⟨_, List.mem_cons_self, related.combine shapeNext keepLeft⟩
      · obtain rfl | mem := List.mem_cons.1 mem
        · exact ⟨_, List.mem_cons_self, shapeFirst.combine related keepRight⟩
        · exact ⟨t, by simp [mem], related⟩

end Combine

section Lookup

variable [DecidableEq κ]

private theorem scope_lookup (x : κ) (h : List.Forall₂ (fun p q => p.1 = q.1 ∧ R p.1 p.2 q.2) l m) :
    Option.Rel (R x) (l.lookup x) (m.lookup x) := by
  induction h with
  | nil => exact .none
  | @cons p q _ _ entry _ ih =>
    obtain ⟨y, a⟩ := p
    obtain ⟨z, b⟩ := q
    obtain ⟨names, related⟩ := entry
    obtain rfl : y = z := names
    rw [List.lookup_cons, List.lookup_cons]
    by_cases found : x = y
    · subst found
      simpa using Option.Rel.some related
    · simpa [beq_false_of_ne found] using ih

/-- Related stacks find related values. -/
theorem get? (h : Rel R s t) (x : κ) : Option.Rel (R x) (s.get? x) (t.get? x) := by
  induction h with
  | nil => exact .none
  | @cons l m _ _ scope _ ih =>
    have found := scope_lookup x scope
    simp only [Scopes.get?, List.findSome?_cons]
    cases left : l.lookup x <;> cases right : m.lookup x <;> rw [left, right] at found
    · exact ih
    · cases found
    · cases found
    · exact found

private theorem scope_modify {x : κ} {f : α → α}
    (h : List.Forall₂ (fun p q => p.1 = q.1 ∧ R p.1 p.2 q.2) l m)
    (keep : ∀ a b, l.lookup x = some a → m.lookup x = some b → R x a b → R x (f a) (g b)) :
    List.Forall₂ (fun p q => p.1 = q.1 ∧ R p.1 p.2 q.2)
      (modifyScope x f l) (modifyScope x g m) := by
  induction h with
  | nil => exact .nil
  | @cons p q _ _ entry rest ih =>
    obtain ⟨y, a⟩ := p
    obtain ⟨z, b⟩ := q
    obtain ⟨names, related⟩ := entry
    obtain rfl : y = z := names
    simp only [modifyScope]
    by_cases found : x = y
    · subst found
      rw [if_pos rfl, if_pos rfl]
      exact .cons ⟨rfl, keep a b (by simp) (by simp) related⟩ rest
    · rw [if_neg found, if_neg found]
      refine .cons ⟨rfl, related⟩ (ih fun a' b' left right => keep a' b' ?_ ?_)
      · simpa [List.lookup_cons, beq_false_of_ne found] using left
      · simpa [List.lookup_cons, beq_false_of_ne found] using right

/-- Changing the entry of one name on both sides keeps the stacks related, if
the changes keep the two entries found related. -/
theorem modify {x : κ} {f : α → α} (h : Rel R s t)
    (keep : ∀ a b, s.get? x = some a → t.get? x = some b → R x a b → R x (f a) (g b)) :
    Rel R (modify x f s) (modify x g t) := by
  induction h with
  | nil => exact .nil
  | @cons l m _ _ scope rest ih =>
    have found := scope_lookup x scope
    simp only [Scopes.get?, List.findSome?_cons] at keep
    simp only [Scopes.modify]
    cases left : l.lookup x <;> cases right : m.lookup x <;>
      simp only [left, right] at found keep
    · exact .cons scope (ih keep)
    · cases found
    · cases found
    · refine .cons (scope_modify scope fun a b hl hr related => keep a b ?_ ?_ related) rest
      · rw [← left, hl]
      · rw [← right, hr]

end Lookup

end Rel

section Modify

variable [DecidableEq κ]

private theorem modifyScope_id (x : κ) (l : List (κ × α)) : modifyScope x id l = l := by
  induction l with
  | nil => rfl
  | cons p l ih => simp [modifyScope, ih]

theorem modify_id (x : κ) (s : Scopes κ α) : modify x id s = s := by
  induction s with
  | nil => rfl
  | cons scope s ih => simp [modify, modifyScope_id, ih]

/-- Changing one entry on the right only. -/
theorem Rel.modify_right {R : κ → α → β → Prop} {s : Scopes κ α} {t : Scopes κ β} {x : κ}
    (h : Rel R s t) (keep : ∀ a b, s.get? x = some a → t.get? x = some b → R x a b → R x a (g b)) :
    Rel R s (Scopes.modify x g t) := by
  have both := h.modify (f := id) keep
  rwa [modify_id] at both

end Modify

end Scopes

end Library
