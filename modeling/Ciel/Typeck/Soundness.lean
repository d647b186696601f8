import Ciel.Typeck.Discipline
import Ciel.Typeck.Judgement

/-!
# Accepted bodies do not fault

The main theorem of the flow checker: no path through an accepted, orderly body
reads a watched cell. Orderly code is a `Discipline`: what happens to a single local
is in the rules of the soundness judgement, and code that is checked ahead of its
turn leaves alone what it could disturb.
-/

namespace Ciel.Typeck

open Library (Scopes Outcome Runs)
open Library.Runs (Meets)

variable {uses : List (Use × LocalId)}

/-! ## The condition as a statement about occurrences -/

theorem assignsOnly_iff {good : LocalId → Bool} :
    assignsOnly good uses = true ↔ AssignsOnly (fun x => good x = true) uses := by
  simp [assignsOnly, AssignsOnly, imp_iff_not_or]

theorem movesNone_iff {fragile : LocalId → Bool} :
    movesNone fragile uses = true ↔ ∀ x, Moved uses x → fragile x = false := by
  simp only [movesNone, Moved, List.all_eq_true, Prod.forall, Bool.or_eq_true, bne_iff_ne,
    Bool.not_eq_true']
  constructor
  · intro h x mem
    exact (h _ x mem).resolve_left fun other => other rfl
  · intro h kind x mem
    by_cases moves : kind = Use.move
    · subst moves
      exact .inr (h x mem)
    · exact .inl moves

theorem touchesNone_iff {fragile : LocalId → Bool} :
    touchesNone fragile uses = true ↔
      ∀ x, Moved uses x ∨ Watch.Mentioned uses x → fragile x = false := by
  simp only [touchesNone, Moved, Watch.Mentioned, List.all_eq_true, Prod.forall, Bool.or_eq_true,
    Bool.and_eq_true, bne_iff_ne, Bool.not_eq_true']
  constructor
  · rintro h x (mem | mem)
    · exact (h _ x mem).resolve_left fun other => other.1 rfl
    · exact (h _ x mem).resolve_left fun other => other.2 rfl
  · intro h kind x mem
    cases kind with
    | move => exact .inr (h x (.inl mem))
    | mention => exact .inr (h x (.inr mem))
    | assign | bare => exact .inl (by simp)

/-- No loop and no jump, in any piece of code. -/
def Code.calm : Code → Bool
  | .expr e | .operand _ e => e.calm false
  | .args operands => operands.calm false
  | .arms branches => branches.calm false
  | .stmt st => st.calm false
  | .cases clauses => clauses.calm false

def Code.orderly (steady fragile : LocalId → Bool) : Code → Bool
  | .expr e | .operand _ e => e.orderly steady fragile
  | .args operands => operands.orderly steady fragile
  | .arms branches => branches.orderly steady fragile
  | .stmt st => st.orderly steady fragile
  | .cases clauses => clauses.orderly steady fragile

namespace Watch

variable {w : Watch} {locals : Locals}

/-- Orderly code whose occurrences the two sets of the index cover. -/
def OrderlyIn (w : Watch) (i : (LocalId → Prop) × (LocalId → Prop)) (ctx : Context) (code : Code) :
    Prop :=
  code.orderly w.steady w.fragile = true ∧ w.Settled ctx i.2 code.calm ∧ w.Covers i.1 i.2 code.uses

theorem orderlyIn_parts {i : (LocalId → Prop) × (LocalId → Prop)} {ctx : Context} {code : Code}
    (h : w.OrderlyIn i ctx code) : code.Each (w.OrderlyIn i) ctx := by
  obtain ⟨orderly, settled, covers⟩ := h
  cases code with
  | expr e =>
    cases e <;> simp_all [Code.Each, OrderlyIn, Code.orderly, Code.calm, Code.uses, Expr.orderly,
      Expr.calm, Expr.uses, covers_append, settled_and]
  | operand mode e => exact ⟨orderly, settled, (covers_append.1 covers).1⟩
  | args operands =>
    cases operands <;> simp_all [Code.Each, OrderlyIn, Code.orderly, Code.calm, Code.uses,
      Args.orderly, Args.calm, Args.uses, covers_append, settled_and]
  | arms branches =>
    cases branches <;> simp_all [Code.Each, OrderlyIn, Code.orderly, Code.calm, Code.uses,
      Arms.orderly, Arms.calm, Arms.uses, covers_append, settled_and]
  | stmt st =>
    have moves : ∀ {ctx' calm}, ctx'.returnLoopMove = ctx.returnLoopMove →
        w.Settled ctx i.2 false → w.Settled ctx' i.2 calm :=
      fun same h ret => .inr (h.sturdy (same ▸ ret))
    cases st with
    | whileLoop cond body =>
      simp only [Code.uses, Stmt.uses, covers_append] at covers
      obtain ⟨condOrderly, bodyOrderly⟩ := Bool.and_eq_true_iff.1 orderly
      exact ⟨⟨condOrderly, moves rfl settled, covers.1⟩, bodyOrderly, moves rfl settled, covers.2⟩
    | forLoop init cond step body =>
      simp only [Code.uses, Stmt.uses, covers_append] at covers
      simp only [Code.orderly, Stmt.orderly, Bool.and_eq_true] at orderly
      obtain ⟨⟨⟨⟨initOrderly, condOrderly⟩, stepOrderly⟩, bodyOrderly⟩, -⟩ := orderly
      exact ⟨⟨initOrderly, moves rfl settled, covers.1⟩,
        ⟨condOrderly, moves rfl settled, covers.2.1.1⟩,
        ⟨stepOrderly, moves rfl settled, covers.2.1.2⟩, bodyOrderly, moves rfl settled, covers.2.2⟩
    | switch scrutinee clauses exhaustive hasDefault default =>
      simp only [Code.uses, Stmt.uses, covers_append] at covers
      simp only [Code.calm, Stmt.calm, settled_and] at settled
      simp only [Code.orderly, Stmt.orderly, Bool.and_eq_true] at orderly
      exact ⟨⟨orderly.1.1, settled.1.1, covers_append.2 covers.1⟩,
        ⟨orderly.1.2, settled.1.2, covers.2.1⟩, orderly.2, settled.2, covers.2.2⟩
    | _ =>
      simp_all [Code.Each, OrderlyIn, Code.orderly, Code.calm, Code.uses, Stmt.orderly,
        Stmt.calm, Stmt.uses, covers_append, settled_and]
  | cases clauses =>
    cases clauses <;> simp_all [Code.Each, OrderlyIn, Code.orderly, Code.calm, Code.uses,
      Cases.orderly, Cases.calm, Cases.uses, covers_append, settled_and]

/-- Watched reads do not fault in orderly code. -/
def discipline (w : Watch) (locals : Locals) : Discipline locals w.bad (fun _ _ => false) where
  Index := (LocalId → Prop) × (LocalId → Prop)
  bridge i := w.plainBridge i.1 i.2
  Okay := w.OrderlyIn
  parts := orderlyIn_parts
  tracks _ := gains_tracks
  depth_switch _ _ := rfl
  kept_switch kept := kept
  loops okay loop := Watch.loops fun ret => Settled.sturdy (loop ▸ okay.2.1) ret
  bind {i ctx x s t σ} inserted agrees :=
    Agrees.insert agrees inserted id fun _ => w.assigned_ok x ctx.loopDepth
  handOver _ okay consumed := handOver_meets consumed (covers_append.1 okay.2.2).2
  name okay checked := readLocal_sound checked ((okay.2.2 _ List.mem_cons_self).1 rfl)
  closure := by
    intro i ctx allow captures s u t okay captured moved
    have covers := covers_append.1 okay.2.2
    have mentioned : ∀ x ∈ captures, i.1 x := fun x mem =>
      (covers.1 (.mention, x) (List.mem_map_of_mem mem)).1 rfl
    have moves : ∀ x ∈ captures, i.2 x := fun x mem =>
      (covers.2 (.move, x) (List.mem_map_of_mem mem)).2.1 rfl
    refine Meets.seq (readCaptures_meets captured mentioned) (Meets.update fun σ pre => ?_)
      (fun _ _ kept => kept) fun _ _ _ => Kept.trans
    obtain ⟨agrees, kept⟩ := moveCaptures_keeps pre moves moved
    exact ⟨⟨rfl, agrees⟩, kept⟩
  declare okay inserted agrees := Agrees.insert agrees inserted id fun steady =>
    (okay.2.2 _ List.mem_cons_self).2.2 rfl steady _
  assign := by
    intro i ctx x value u s v c ⟨orderly, settled, covers⟩ sound _ checked consumed
    have operand := sound i ⟨orderly, settled, (covers_append.1 covers).1⟩ s v c checked consumed
    refine Meets.seq operand ?_ (fun _ _ kept => kept) fun _ _ _ => Kept.trans
    rw [writeLocal_unbarred]
    exact Meets.update fun σ pre => ⟨⟨rfl, pre.2.assign⟩, Kept.assign σ⟩
  ret := by
    intro i ctx value s v c ⟨orderly, _, covers⟩ sound checked consumed
    simp only [Code.orderly, Stmt.orderly, Bool.and_eq_true, Bool.or_eq_true] at orderly
    have final : value.calm false = true ∨
        w.Sturdy (Moved (value.uses ++ value.moveUses .consumed)) :=
      orderly.2.imp_right movesNone_iff.1
    have operand := sound (i.1, Moved _) ⟨orderly.1, fun _ => final, covers.tight⟩ s v c checked
      consumed
    refine Sound.returned operand (final.imp_left fun calm => ?_)
    exact (guardedExpr_quiet value calm).seq (handOver_quiet .consumed value)
  step := by
    intro i ctx init cond step body s n σ okay checked isStep agrees
    have onlySteady := (Bool.and_eq_true_iff.1 okay.1).2
    have gains :=
      (checkStmt_drift gains_tracks step (assignsOnly_iff.1 onlySteady) checked).2 isStep
    exact Agrees.ahead agrees gains.scopes fun _ st => st
  resolve := by
    intro i ctx prechecks interface mode before receiver after s r σ okay checked agrees
    have onlySteady := (Bool.and_eq_true_iff.1 (Bool.and_eq_true_iff.1 okay.1).1).2
    have gains := checkExpr_drift gains_tracks receiver (assignsOnly_iff.1 onlySteady) checked
    exact Agrees.ahead agrees gains.scopes fun _ st => st
  receiver := by
    intro i ctx prechecks mode before receiver after s p b okay sound args checked first
    obtain ⟨orderly, settled, covers⟩ := okay
    simp only [Code.uses, Expr.uses, covers_append] at covers
    simp only [Code.calm, Expr.calm, settled_and] at settled
    simp only [Code.orderly, Expr.orderly, Bool.and_eq_true] at orderly
    obtain ⟨⟨⟨⟨beforeOrderly, receiverOrderly⟩, -⟩, onlySteady⟩, late⟩ := orderly
    cases before with
    | nil =>
      -- with no argument before it, the receiver is evaluated when it is checked
      simp only [checkArgs, Except.ok.injEq] at first
      subst first
      exact ⟨_, Meets.skip (fun _ pre => pre) Kept.refl,
        sound i ⟨receiverOrderly, settled.1.2, covers.2.1.1⟩ s p checked⟩
    | cons argMode arg rest =>
      simp only [Args.isEmpty, Bool.not_true, Bool.false_or, Bool.and_eq_true,
        Bool.or_eq_true] at late
      have untouched := touchesNone_iff.1 late.1
      exact Watch.late
        (fun M' cov => sound (M', Moved receiver.uses)
          ⟨receiverOrderly, settled.1.2.shrink fun x => covers.2.1.1.moved, cov⟩ s p checked)
        (args (i.1, Moved _) ⟨beforeOrderly, settled.1.1.shrink fun x => covers.1.moved,
          covers.1.tight⟩ p.scopes b first)
        (checkExpr_drift gains_tracks receiver (assignsOnly_iff.1 onlySteady) checked).scopes
        (fun _ st => st)
        covers.2.1.1 (fun x moved => covers.1.moved moved)
        (fun x moved => untouched x (.inl (List.mem_append_left _ moved)))
        (fun x mentioned fragile _ => by
          rw [untouched x (.inr (List.mem_append_left _ mentioned))] at fragile
          cases fragile)
        (late.2.imp (guardedExpr_quiet receiver) movesNone_iff.1)
  store := by
    intro i ctx place value s p v c ⟨orderly, settled, covers⟩ sound operand target checked consumed
    have ⟨valueCovers, placeCovers⟩ := covers_append.1 covers
    simp only [Code.calm, Stmt.calm, settled_and] at settled
    simp only [Code.orderly, Stmt.orderly, Bool.and_eq_true, Bool.or_eq_true] at orderly
    obtain ⟨⟨⟨⟨⟨placeOrderly, valueOrderly⟩, onlySteady⟩, unmoved⟩, apart⟩, breaks⟩ := orderly
    exact Watch.late
      (fun M' cov => sound (M', Moved place.uses)
        ⟨placeOrderly, settled.1.shrink fun x => placeCovers.moved, cov⟩ s p target)
      (operand (i.1, Moved _) ⟨valueOrderly, settled.2.shrink fun x => valueCovers.moved,
        valueCovers.tight⟩ p.scopes v c checked consumed)
      (checkExpr_drift gains_tracks place (assignsOnly_iff.1 onlySteady) target).scopes
      (fun _ st => st)
      placeCovers (fun x moved => valueCovers.moved moved) (movesNone_iff.1 unmoved)
      (fun x mentioned fragile moved => by
        have := movesNone_iff.1 apart x moved
        simp [fragile, show (Use.mention, x) ∈ place.uses from mentioned] at this)
      (breaks.imp (guardedExpr_quiet place) movesNone_iff.1)

/-- An accepted, orderly function body has no path to a fault. -/
theorem checkFunctionBody_safe {kind : ReturnKind} {params : List LocalId} {body : Stmt}
    {r : Checked} (accepted : checkFunctionBody locals kind params body = .ok r)
    (orderly : body.orderly w.steady w.fragile = true) (heads : body.calmHeads = true)
    (bare : ∀ x, (Use.bare, x) ∈ body.uses → w.steady x = true →
      ∀ depth, w.bad x ⟨false, false, depth⟩ = false) :
    ¬runFunctionBody locals w.bad params body .fault := by
  have covers : w.Covers (fun _ => True) (fun _ => True) body.uses := by
    rintro ⟨kind, x⟩ mem
    refine ⟨fun _ => trivial, fun _ => trivial, ?_⟩
    rintro rfl
    exact bare x mem
  rw [← guardedFunctionBody_unbarred]
  exact Discipline.no_fault (D := w.discipline locals) (i := (fun _ => True, fun _ => True))
    accepted
    ⟨orderly, nofun, covers⟩ heads (.cons .nil .nil) rfl id

end Watch

end Ciel.Typeck
