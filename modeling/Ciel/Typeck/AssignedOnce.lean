import Ciel.Typeck.Discipline
import Ciel.Typeck.Immutable

/-!
# Immutable locals are assigned once

The checker keeps its promise about immutable locals on bodies whose assignments
are apart: the value assigned to an immutable local does not assign the local
itself, and code that is checked ahead of its turn, the place of an assignment or
the receiver of an interface call, shares no assignment of an immutable local with
the code that runs before it and does not jump past such an assignment.
-/

namespace Ciel.Typeck

open Library (Scopes Outcome Runs)
open Library.Runs (Meets)

/-! ## The condition -/

section

variable (fixed : LocalId → Bool)

/-- Code with the first occurrences is checked before code with the second, but
runs after it: they assign no local of `fixed` in common, and the late code jumps
nowhere if the early code assigns any. -/
def apartFrom (calm : Bool) (late early : List (Use × LocalId)) : Bool :=
  assignsOnly (fun x => !(fixed x && late.contains (.assign, x))) early &&
    (calm || assignsOnly (fun x => !fixed x) early)

mutual

def Expr.apart : Expr → Bool
  | .constant | .bool _ | .name _ | .closure _ _ => true
  | .cast inner | .question inner => inner.apart
  | .strict _ args => args.apart
  | .and left right | .or left right => left.apart && right.apart
  | .unsafeBlock body value => body.apart && value.apart
  | .receiverCall _ interface _ before receiver after =>
    before.apart && receiver.apart && after.apart &&
      (!interface || apartFrom fixed (receiver.calm true) receiver.uses before.uses)
  | .select _ arms => arms.apart

def Args.apart : Args → Bool
  | .nil => true
  | .cons _ first rest => first.apart && rest.apart

def Arms.apart : Arms → Bool
  | .nil => true
  | .cons future _ body rest => future.apart && body.apart && rest.apart

def Stmt.apart : Stmt → Bool
  | .skip | .breakStmt | .continueStmt | .declare _ => true
  | .seq first rest => first.apart && rest.apart
  | .block body => body.apart
  | .init _ value | .ret value | .expr value => value.apart
  -- the target is validated before the value is looked at
  | .assign x value => value.apart && !(fixed x && value.uses.contains (.assign, x))
  | .store place value =>
    place.apart && value.apart && apartFrom fixed (place.calm true) place.uses value.uses
  | .ifElse cond thenBlock elseBlock => cond.apart && thenBlock.apart && elseBlock.apart
  | .whileLoop cond body => cond.apart && body.apart
  | .forLoop init cond step body => init.apart && cond.apart && step.apart && body.apart
  | .switch scrutinee cases _ _ default => scrutinee.apart && cases.apart && default.apart
  | .defer args => args.apart

def Cases.apart : Cases → Bool
  | .nil => true
  | .cons _ body rest => body.apart && rest.apart

end

end

variable {locals : Locals} {M U : LocalId → Prop}

theorem includes_append {l m : List (Use × LocalId)} :
    Includes M U (l ++ m) ↔ Includes M U l ∧ Includes M U m := by
  simp only [Includes, Assigned, List.mem_append]
  exact ⟨fun h => ⟨fun x mem => h x (.inl mem), fun x mem => h x (.inr mem)⟩,
    fun h x mem => mem.elim (h.1 x) (h.2 x)⟩

theorem Includes.tight {uses : List (Use × LocalId)} (h : Includes M U uses) :
    Includes M (Assigned uses) uses := fun x mem => ⟨(h x mem).1, mem⟩

/-- Handing a value over assigns nothing. -/
theorem includes_operand {e : Expr} {mode : Mode} (h : Includes M U e.uses) :
    Includes M U (Code.operand mode e).uses := by
  refine includes_append.2 ⟨h, fun x mem => ?_⟩
  cases mode <;> simp [Assigned, Expr.moveUses] at mem

theorem not_assigned_of_assignsOnly {good : LocalId → Bool} {uses : List (Use × LocalId)}
    {x : LocalId} (only : assignsOnly good uses = true) (bad : good x = false) :
    ¬Assigned uses x := by
  intro mem
  have := List.all_eq_true.1 only _ mem
  simp [bad] at this

theorem apartFrom_iff {fixed : LocalId → Bool} {calm : Bool} {late early : List (Use × LocalId)} :
    apartFrom fixed calm late early = true →
      (∀ x, fixed x = true → Assigned late x → ¬Assigned early x) ∧
        (calm = true ∨ ∀ x, fixed x = true → ¬Assigned early x) := by
  intro apart
  obtain ⟨disjoint, jumps⟩ := Bool.and_eq_true_iff.1 apart
  refine ⟨fun x isFixed mem => not_assigned_of_assignsOnly disjoint ?_,
    (Bool.or_eq_true _ _ ▸ jumps).imp_right fun none x isFixed =>
      not_assigned_of_assignsOnly none ?_⟩
  · simp [isFixed, show (Use.assign, x) ∈ late from mem]
  · simp [isFixed]

/-! ## Accepted bodies do not assign again -/

/-- `apart`, for any piece of code. -/
def Code.apart (fixed : LocalId → Bool) : Code → Bool
  | .expr e | .operand _ e => e.apart fixed
  | .args operands => operands.apart fixed
  | .arms branches => branches.apart fixed
  | .stmt st => st.apart fixed
  | .cases clauses => clauses.apart fixed

namespace Locals

/-- Assignments that are apart, of locals in the index's two sets. -/
def Apart (locals : Locals) (i : (LocalId → Prop) × (LocalId → Prop)) (_ : Context) (code : Code) :
    Prop :=
  code.apart locals.fixed = true ∧ Includes i.1 i.2 code.uses

theorem apart_parts {i : (LocalId → Prop) × (LocalId → Prop)} {ctx : Context} {code : Code}
    (h : locals.Apart i ctx code) : code.Each (locals.Apart i) ctx := by
  obtain ⟨apart, includes⟩ := h
  cases code with
  | expr e =>
    cases e <;> simp_all [Code.Each, Apart, Code.apart, Code.uses, Expr.apart, Expr.uses,
      includes_append]
  | operand mode e => exact ⟨apart, (includes_append.1 includes).1⟩
  | args operands =>
    cases operands <;> simp_all [Code.Each, Apart, Code.apart, Code.uses, Args.apart, Args.uses,
      includes_append]
  | arms branches =>
    cases branches <;> simp_all [Code.Each, Apart, Code.apart, Code.uses, Arms.apart, Arms.uses,
      includes_append]
  | stmt st =>
    cases st <;> simp_all [Code.Each, Apart, Code.apart, Code.uses, Stmt.apart, Stmt.uses,
      includes_append]
  | cases clauses =>
    cases clauses <;> simp_all [Code.Each, Apart, Code.apart, Code.uses, Cases.apart, Cases.uses,
      includes_append]

/-- Immutable locals are assigned once, if assignments are apart. -/
def discipline (locals : Locals) : Discipline locals (fun _ _ => false) (assignedAgain locals) where
  Index := (LocalId → Prop) × (LocalId → Prop)
  bridge i := locals.bridge i.1 i.2
  Okay := locals.Apart
  parts := apart_parts
  tracks _ := later_tracks
  depth_switch _ _ := rfl
  kept_switch kept := kept
  loops _ _ := loops
  bind inserted agrees := Agrees.insert agrees inserted id
  handOver _ _ consumed := handOver_meets consumed
  name _ checked := sound_readLocal checked
  closure := by
    intro i ctx allow captures s u t _ _ moved
    refine Meets.seq readCaptures_meets (Meets.update fun σ pre => ⟨⟨rfl, ?_⟩, ?_⟩)
      (fun _ _ kept => kept) fun _ _ _ => Kept.trans
    · have kept : locals.Kept ctx (fun _ => False) σ _ := Kept.consumeAll captures σ
      exact (Agrees.untouched pre kept).ahead
        (moveCaptures_drift later_tracks moved (.refl later_tracks.refl s))
    · exact Kept.consumeAll captures σ
  declare _ inserted agrees := Agrees.insert agrees inserted id
  assign := by
    intro i ctx x value u s v c ⟨apart, includes⟩ sound valid checked consumed
    simp only [Code.uses, Stmt.uses, includes_append] at includes
    obtain ⟨valueApart, self⟩ := Bool.and_eq_true_iff.1 apart
    have own := includes.2 x List.mem_cons_self
    exact sound_assign valid (V := Assigned value.uses)
      (sound (i.1, Assigned value.uses) ⟨valueApart, includes_operand includes.1.1.tight⟩ s v c
        checked consumed)
      (fun y mem => (includes.1.1 y mem).2) own.1 own.2
      fun isFixed (mem : (Use.assign, x) ∈ value.uses) => by simp [isFixed, mem] at self
  ret := by
    intro i ctx value s v c ⟨apart, includes⟩ sound checked consumed
    -- the permission to move out of loops does not concern assignments
    have operand : (locals.bridge i.1 i.2).Sound id ctx.returning s _ c :=
      sound i ⟨apart, includes⟩ s v c checked consumed
    exact Meets.seq operand Meets.jump_returns (fun _ _ kept => kept) fun _ _ _ => Kept.trans
  step _ checked isStep agrees := Agrees.ahead agrees
    ((checkStmt_drift later_tracks _ (assignsOnly_any _) checked).2 isStep).scopes
  resolve _ checked agrees := Agrees.ahead agrees
    (checkExpr_drift later_tracks _ (assignsOnly_any _) checked).scopes
  receiver := by
    intro i ctx prechecks mode before receiver after s p b ⟨apart, includes⟩ sound args checked
      first
    simp only [Code.uses, Expr.uses, includes_append] at includes
    simp only [Code.apart, Expr.apart, Bool.and_eq_true] at apart
    obtain ⟨⟨⟨beforeApart, receiverApart⟩, -⟩, late⟩ := apart
    obtain ⟨disjoint, jumps⟩ := apartFrom_iff late
    exact Locals.late (fun M' only =>
      sound (M', Assigned receiver.uses) ⟨receiverApart, fun x mem => ⟨only x mem, mem⟩⟩
        s p checked)
      (args (i.1, Assigned before.uses) ⟨beforeApart, includes.1.tight⟩ p.scopes b first)
      (checkExpr_drift later_tracks receiver (assignsOnly_any _) checked).scopes
      (checkArgs_drift later_tracks before (assignsOnly_any _) first).scopes
      includes.2.1.1 (fun x mem => (includes.1 x mem).2) disjoint
        (jumps.imp_left (guardedExpr_quiet receiver))
  store := by
    intro i ctx place value s p v c ⟨apart, includes⟩ sound operand target checked consumed
    simp only [Code.uses, Stmt.uses, includes_append] at includes
    simp only [Code.apart, Stmt.apart, Bool.and_eq_true] at apart
    obtain ⟨⟨placeApart, valueApart⟩, late⟩ := apart
    obtain ⟨disjoint, jumps⟩ := apartFrom_iff late
    have drift := consumeAs_drift later_tracks consumed
      (checkExpr_drift later_tracks value (assignsOnly_any _) checked)
    exact Locals.late (fun M' only => sound (M', Assigned place.uses)
        ⟨placeApart, fun x mem => ⟨only x mem, mem⟩⟩ s p target)
      (operand (i.1, Assigned value.uses) ⟨valueApart, includes_operand includes.1.1.tight⟩ p.scopes
        v c checked consumed)
      (checkExpr_drift later_tracks place (assignsOnly_any _) target).scopes drift.scopes includes.2
      (fun x mem => (includes.1.1 x mem).2) disjoint (jumps.imp_left (guardedExpr_quiet place))

end Locals

/-- Immutable locals that hold plain values. -/
def constantLocals : Locals := fun _ => ⟨false, .immutable⟩

/-- `i64 x; if (f()) { x = 1; } else { x = 2; } while (f()) { i64 y; y = x; }`. -/
def assignedInBranches : Stmt :=
  .seq (.declare 0) (.seq (.ifElse .callNone (.assign 0 .constant) (.assign 0 .constant))
    (.whileLoop .callNone (.seq (.declare 1) (.assign 1 (.name 0)))))

/-- `i64 x; x = unsafe { x = 1; 2 };`. -/
def assignedInOwnValue : Stmt :=
  .seq (.declare 0) (.assign 0 (.unsafeBlock (.assign 0 .constant) .constant))

end Ciel.Typeck
