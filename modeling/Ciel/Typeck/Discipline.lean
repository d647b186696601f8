import Ciel.Typeck.Assignments
import Ciel.Typeck.Bridge

/-!
# One induction for every property of accepted bodies

A property that the checker is to establish on all paths comes with a way to
compare scopes and stores, a `Bridge`, and with a condition on the code. The
comparison can be relative to what is known of the code around, the index. Most
forms are put together from pieces that are checked in the order in which they run,
and for these the rules of a bridge are enough. A `Discipline` supplies the rest:
what happens to a single local, and the forms that are checked ahead of their turn.

From these parts every check of code that meets the condition, and has no jump in the
condition or the step of a loop, is `Sound` for its paths, by recursion on the code.
-/

namespace Ciel.Typeck

open Library (Scopes Outcome Runs)
open Library.Runs (Meets)

/-- A piece of a body. An operand is an expression and the way its value is handed
over. -/
inductive Code where
  | expr (e : Expr)
  | operand (mode : Mode) (e : Expr)
  | args (args : Args)
  | arms (arms : Arms)
  | stmt (st : Stmt)
  | cases (cases : Cases)

def Code.uses : Code → List (Use × LocalId)
  | .expr e => e.uses
  | .operand mode e => e.uses ++ e.moveUses mode
  | .args operands => operands.uses
  | .arms branches => branches.uses
  | .stmt st => st.uses
  | .cases clauses => clauses.uses

/-- `P` holds of the pieces of the code, each in its context. An assignment and a
`return` say themselves what they ask of their pieces. -/
def Code.Each (P : Context → Code → Prop) (ctx : Context) : Code → Prop
  | .expr (.cast inner) => P ctx (.expr inner)
  | .expr (.strict _ operands) => P ctx (.args operands)
  | .expr (.and left right) | .expr (.or left right) => P ctx (.expr left) ∧ P ctx (.expr right)
  | .expr (.unsafeBlock body value) => P ctx (.stmt body) ∧ P ctx (.expr value)
  | .expr (.receiverCall _ _ mode before receiver after) =>
    P ctx (.args before) ∧ P ctx (.operand mode receiver) ∧ P ctx (.args after)
  | .expr (.question inner) => P ctx (.operand .taken inner)
  | .expr (.select _ branches) => P ctx (.arms branches)
  | .operand _ e => P ctx (.expr e)
  | .args (.cons mode first rest) => P ctx (.operand mode first) ∧ P ctx (.args rest)
  | .arms (.cons future _ body rest) =>
    P ctx (.operand .taken future) ∧ P ctx (.operand .consumed body) ∧ P ctx (.arms rest)
  | .stmt (.seq first rest) => P ctx (.stmt first) ∧ P ctx (.stmt rest)
  | .stmt (.block body) => P ctx (.stmt body)
  | .stmt (.init _ value) | .stmt (.expr value) => P ctx (.operand .consumed value)
  | .stmt (.ifElse cond thenBlock elseBlock) =>
    P ctx (.expr cond) ∧ P ctx (.stmt thenBlock) ∧ P ctx (.stmt elseBlock)
  | .stmt (.whileLoop cond body) => P ctx.inLoop (.expr cond) ∧ P ctx.loopBody (.stmt body)
  | .stmt (.forLoop init cond step body) =>
    P ctx (.stmt init) ∧ P ctx.inLoop (.expr cond) ∧ P ctx.inLoop (.stmt step) ∧
      P ctx.loopBody (.stmt body)
  | .stmt (.switch scrutinee clauses _ _ default) =>
    P ctx (.operand .taken scrutinee) ∧ P ctx.switchBody (.cases clauses) ∧
      P ctx.switchBody (.stmt default)
  | .stmt (.defer operands) => P ctx (.args operands)
  | .cases (.cons _ body rest) => P ctx (.stmt body) ∧ P ctx (.cases rest)
  | _ => True

/-- `calmHeads`, for any piece of code. -/
def Code.calmHeads : Code → Bool
  | .expr e | .operand _ e => e.calmHeads
  | .args operands => operands.calmHeads
  | .arms branches => branches.calmHeads
  | .stmt st => st.calmHeads
  | .cases clauses => clauses.calmHeads

section

variable (locals : Locals) (bad barred : LocalId → Cell → Bool)

/-- Every check of the code is sound for its paths. -/
def Bridge.Holds (k : Bridge) (ctx : Context) : Code → Prop
  | .expr e => ∀ s r, checkExpr locals ctx e s = .ok r →
      k.Sound id ctx s (guardedExpr locals bad barred (k.depth ctx) e) r
  | .operand mode e => ∀ s v r, checkExpr locals ctx e s = .ok v →
      consumeAs locals ctx mode e v = .ok r → k.Sound id ctx s
        (Runs.seq (guardedExpr locals bad barred (k.depth ctx) e) (handOver locals mode e)) r
  | .args args => ∀ s r, checkArgs locals ctx args s = .ok r →
      k.Sound id ctx s (guardedArgs locals bad barred (k.depth ctx) args) r
  | .arms arms =>
    (∀ s r, checkFutures locals ctx arms s = .ok r →
      k.Sound id ctx s (guardedFutures locals bad barred (k.depth ctx) arms) r) ∧
    ∀ s rs, checkBodies locals ctx arms s = .ok rs →
      k.SoundAny ctx s (guardedBodies locals bad barred (k.depth ctx) arms) rs rs
  | .stmt st => ∀ s r, checkStmt locals ctx st s = .ok r →
      k.Sound Scopes.pop ctx s (guardedStmt locals bad barred (k.depth ctx) st) r ∧
        (st.isStep = true → k.Sound id ctx s (guardedStmt locals bad barred (k.depth ctx) st) r)
  | .cases cases => ∀ s rs, checkCases locals ctx cases s = .ok rs →
      k.SoundAny ctx s (guardedCases locals bad barred (k.depth ctx) cases) rs rs

structure Discipline where
  /-- What is known of the code around. -/
  Index : Type
  bridge : Index → Bridge
  /-- The condition on the code. -/
  Okay : Index → Context → Code → Prop
  parts : ∀ {i ctx code}, Okay i ctx code → code.Each (Okay i) ctx
  tracks : ∀ i, Tracks (fun _ => True) (bridge i).Drifts
  depth_switch : ∀ i ctx, (bridge i).depth ctx.switchBody = (bridge i).depth ctx
  kept_switch : ∀ {i ctx σ τ}, (bridge i).Kept ctx.switchBody σ τ → (bridge i).Kept ctx σ τ
  loops : ∀ {i ctx st}, Okay i ctx (.stmt st) → st.calm false = false → (bridge i).Loops ctx
  bind : ∀ {i ctx x s t σ}, insert locals ctx x true s = .ok t →
    (bridge i).Agrees ctx.loopDepth σ s →
    (bridge i).Agrees ctx.loopDepth (Typeck.bind ((bridge i).depth ctx) x σ) t
  handOver : ∀ {i ctx mode e r r'} B, Okay i ctx (.operand mode e) →
    consumeAs locals ctx mode e r = .ok r' →
    Meets (bridge i).Faults ((bridge i).Ends ctx.loopDepth r) (Typeck.handOver locals mode e)
      ((bridge i).Ends ctx.loopDepth r') B ((bridge i).Kept ctx)
  name : ∀ {i ctx x s r}, Okay i ctx (.expr (.name x)) → checkName locals x s = .ok r →
    (bridge i).Sound id ctx s (readLocal bad x) r
  closure : ∀ {i ctx allow captures s u t}, Okay i ctx (.expr (.closure allow captures)) →
    checkCaptures s captures = .ok u → moveCaptures locals ctx allow captures s = .ok t →
    (bridge i).Sound id ctx s
      (Runs.seq (readCaptures bad captures) (Runs.update (consumeAll locals captures))) (.done t)
  declare : ∀ {i ctx x s t σ}, Okay i ctx (.stmt (.declare x)) →
    insert locals ctx x false s = .ok t → (bridge i).Agrees ctx.loopDepth σ s →
    (bridge i).Agrees ctx.loopDepth (σ.declare x ⟨false, false, (bridge i).depth ctx⟩) t
  assign : ∀ {i ctx x value u s v c}, Okay i ctx (.stmt (.assign x value)) →
    (∀ j, Okay j ctx (.operand .consumed value) →
      (bridge j).Holds locals bad barred ctx (.operand .consumed value)) →
    validateAssignmentTarget ctx x s = .ok u → checkExpr locals ctx value s = .ok v →
    consumeAs locals ctx .consumed value v = .ok c →
    (bridge i).Sound id ctx s
      (guardedStmt locals bad barred ((bridge i).depth ctx) (.assign x value))
      ⟨c.scopes.modify x Binding.markAssigned, true, c.breaks⟩
  ret : ∀ {i ctx value s v c}, Okay i ctx (.stmt (.ret value)) →
    (∀ j, Okay j ctx.returning (.operand .consumed value) →
      (bridge j).Holds locals bad barred ctx.returning (.operand .consumed value)) →
    checkExpr locals ctx.returning value s = .ok v →
    consumeAs locals ctx.returning .consumed value v = .ok c →
    (bridge i).Sound id ctx s (guardedStmt locals bad barred ((bridge i).depth ctx) (.ret value))
      { c with falls := false }
  /-- The step of a `for` is checked before its body. -/
  step : ∀ {i ctx init cond step body s n σ}, Okay i ctx (.stmt (.forLoop init cond step body)) →
    checkStmt locals ctx.inLoop step s = .ok n → step.isStep = true →
    (bridge i).Agrees ctx.loopDepth σ s → (bridge i).Agrees ctx.loopDepth σ n.scopes
  /-- A receiver is checked to resolve a selector. -/
  resolve : ∀ {i ctx prechecks interface mode before receiver after s r σ},
    Okay i ctx (.expr (.receiverCall prechecks interface mode before receiver after)) →
    checkExpr locals ctx receiver s = .ok r →
    (bridge i).Agrees ctx.loopDepth σ s → (bridge i).Agrees ctx.loopDepth σ r.scopes
  receiver : ∀ {i ctx prechecks mode before receiver after s p b},
    Okay i ctx (.expr (.receiverCall prechecks true mode before receiver after)) →
    (∀ j, Okay j ctx (.expr receiver) → (bridge j).Holds locals bad barred ctx (.expr receiver)) →
    (∀ j, Okay j ctx (.args before) → (bridge j).Holds locals bad barred ctx (.args before)) →
    checkExpr locals ctx receiver s = .ok p → checkArgs locals ctx before p.scopes = .ok b →
    (bridge i).Late ctx s (guardedArgs locals bad barred ((bridge i).depth ctx) before)
      (guardedExpr locals bad barred ((bridge i).depth ctx) receiver) p b
  store : ∀ {i ctx place value s p v c}, Okay i ctx (.stmt (.store place value)) →
    (∀ j, Okay j ctx (.expr place) → (bridge j).Holds locals bad barred ctx (.expr place)) →
    (∀ j, Okay j ctx (.operand .consumed value) →
      (bridge j).Holds locals bad barred ctx (.operand .consumed value)) →
    checkExpr locals ctx place s = .ok p → checkExpr locals ctx value p.scopes = .ok v →
    consumeAs locals ctx .consumed value v = .ok c →
    (bridge i).Late ctx s (Runs.seq (guardedExpr locals bad barred ((bridge i).depth ctx) value)
      (Typeck.handOver locals .consumed value))
      (guardedExpr locals bad barred ((bridge i).depth ctx) place) p c

end

/-- What a check keeps of the scopes, any number of checks keep. -/
theorem precheck_keeps {check : Check} {P : LocalScopes → Prop}
    (each : ∀ s r, check s = .ok r → P s → P r.scopes) {n : Nat} {s : LocalScopes} {p : Checked}
    (h : precheck check n s = .ok p) (start : P s) : P p.scopes := by
  induction n generalizing s p with
  | zero =>
    cases h
    exact start
  | succ n ih =>
    simp only [precheck, bind_eq_ok, pure_eq_ok] at h
    obtain ⟨first, checked, rest, again, rfl⟩ := h
    have kept := ih again (each s first checked start)
    exact kept

namespace Discipline

variable {locals : Locals} {bad barred : LocalId → Cell → Bool}
variable {D : Discipline locals bad barred} {i : D.Index} {ctx : Context} {s t : LocalScopes}
variable {e : Expr} {mode : Mode} {σ : Store} {a : Runs Store} {v r : Checked}

theorem bindAll {bindings : List LocalId} (inserted : insertAll locals ctx bindings s = .ok t)
    (h : (D.bridge i).Agrees ctx.loopDepth σ s) :
    (D.bridge i).Agrees ctx.loopDepth (Typeck.bindAll ((D.bridge i).depth ctx) bindings σ) t := by
  induction bindings generalizing σ s with
  | nil => cases inserted; exact h
  | cons x rest ih =>
    simp only [insertAll, bind_eq_ok] at inserted
    obtain ⟨u, first, rest⟩ := inserted
    exact ih rest (D.bind first h)

/-- What is asked of code: the condition of the discipline, and no jumps in the
conditions and steps of loops. -/
def Fine (D : Discipline locals bad barred) (i : D.Index) (ctx : Context) (code : Code) : Prop :=
  D.Okay i ctx code ∧ code.calmHeads = true

theorem fine_parts {code : Code} (fine : D.Fine i ctx code) : code.Each (D.Fine i) ctx := by
  obtain ⟨okay, heads⟩ := fine
  have parts := D.parts okay
  cases code with
  | expr e => cases e <;> simp_all [Code.Each, Fine, Code.calmHeads, Expr.calmHeads]
  | operand mode e => exact ⟨parts, heads⟩
  | args operands => cases operands <;> simp_all [Code.Each, Fine, Code.calmHeads, Args.calmHeads]
  | arms branches => cases branches <;> simp_all [Code.Each, Fine, Code.calmHeads, Arms.calmHeads]
  | stmt st => cases st <;> simp_all [Code.Each, Fine, Code.calmHeads, Stmt.calmHeads]
  | cases clauses => cases clauses <;> simp_all [Code.Each, Fine, Code.calmHeads, Cases.calmHeads]

/-- An operand: the expression, and then the hand-over. -/
theorem operand (fine : D.Fine i ctx (.operand mode e))
    (value : (D.bridge i).Holds locals bad barred ctx (.expr e)) :
    (D.bridge i).Holds locals bad barred ctx (.operand mode e) := by
  intro s v r checked consumed
  have same : (D.bridge i).Breaks ctx.loopDepth r = (D.bridge i).Breaks ctx.loopDepth v := by
    funext τ
    rw [Bridge.Breaks, Bridge.Breaks, consumeAs_breaks consumed]
  rw [Bridge.Sound, same]
  exact Bridge.seq (value s v checked) (D.handOver _ fine.1 consumed)

/-- The body of a switch runs in the context of the switch. -/
theorem switched {view : Store → Store} (h : (D.bridge i).Sound view ctx.switchBody s a r) :
    (D.bridge i).Sound view ctx s a r :=
  Meets.onFrame h fun _ _ kept => D.kept_switch kept

theorem switchedAny {ends broken : List Checked}
    (h : (D.bridge i).SoundAny ctx.switchBody s a ends broken) :
    (D.bridge i).SoundAny ctx s a ends broken :=
  Meets.onFrame h fun _ _ kept => D.kept_switch kept

mutual

theorem expr_holds (e : Expr) {i : D.Index} {ctx : Context} (fine : D.Fine i ctx (.expr e)) :
    (D.bridge i).Holds locals bad barred ctx (.expr e) := by
  intro s r h
  have tracks := D.tracks i
  cases e <;> try simp only [checkExpr, bind_eq_ok, pure_eq_ok, Except.ok.injEq] at h
  case constant | bool literal =>
    exact h ▸ Bridge.Sound.skip
  case name x =>
    exact D.name fine.1 h
  case cast inner =>
    exact expr_holds inner (fine_parts fine) s r h
  case strict never args =>
    obtain ⟨a, checked, rfl⟩ := h
    exact (args_holds args (fine_parts fine) s a checked).strict
  case and left right | or left right =>
    obtain ⟨leftFine, rightFine⟩ := fine_parts fine
    obtain ⟨l, first, r, next, rfl⟩ := h
    exact (expr_holds left leftFine s l first).shortCircuit
      (expr_holds right rightFine l.scopes r next)
      (checkExpr_drift tracks right (assignsOnly_any _) next).scopes
  case unsafeBlock body value =>
    obtain ⟨bodyFine, valueFine⟩ := fine_parts fine
    obtain ⟨b, first, h⟩ := h
    have inner := (stmt_holds body bodyFine s.push b first).1
    split at h
    · simp only [bind_eq_ok, pure_eq_ok] at h
      obtain ⟨v, next, rfl⟩ := h
      exact (inner.andThen (expr_holds value valueFine b.scopes v next).below).inScope
    · rename_i stuck
      cases h
      exact (inner.unreached stuck).inScope
  case closure allow captures =>
    obtain ⟨_, captured, t, moved, rfl⟩ := h
    exact D.closure fine.1 captured moved
  case receiverCall prechecks interface mode before receiver after =>
    obtain ⟨beforeFine, operandFine, afterFine⟩ := fine_parts fine
    have resolves : ∀ s r, checkExpr locals ctx receiver s = .ok r →
        (∀ σ, (D.bridge i).Agrees ctx.loopDepth σ s → _) := fun _ _ h σ =>
          @D.resolve _ _ _ _ _ _ _ _ _ _ σ fine.1 h
    cases interface with
    | false =>
      simp only [checkExpr, bind_eq_ok, pure_eq_ok] at h
      obtain ⟨p, prechecked, b, first, v, checked, c, consumed, a, last, rfl⟩ := h
      have called := (args_holds before beforeFine p.scopes b first).andThen
        ((operand operandFine (expr_holds receiver (fine_parts operandFine)) b.scopes v c checked
          consumed).andThen (args_holds after afterFine c.scopes a last))
      refine (called.ahead fun σ => precheck_keeps (fun s r h => resolves s r h σ)
        prechecked).weaken rfl (fun _ => rfl) fun t mem => ?_
      simp only [Checked.andThen, consumeAs_breaks consumed, List.mem_append] at mem ⊢
      tauto
    | true =>
      simp only [checkExpr, bind_eq_ok, pure_eq_ok] at h
      obtain ⟨p, prechecked, v, checked, b, first, -, -, c, consumed, a, last, rfl⟩ := h
      have called := (D.receiver fine.1 (fun _ part => expr_holds receiver ⟨part, operandFine.2⟩)
        (fun _ part => args_holds before ⟨part, beforeFine.2⟩)
        checked first).receiver (fun B => D.handOver B operandFine.1 consumed)
        (args_holds after afterFine c.scopes a last)
      refine (called.ahead fun σ => precheck_keeps (fun s r h => resolves s r h σ)
        prechecked).weaken rfl (fun _ => rfl) fun t mem => ?_
      simp only [List.mem_append] at mem ⊢
      tauto
  case question inner =>
    have innerFine := fine_parts fine
    obtain ⟨v, checked, c, consumed, rfl⟩ := h
    exact (operand innerFine (expr_holds inner (fine_parts innerFine)) s v c checked
      consumed).question
  case select typed arms =>
    obtain ⟨futuresHold, bodiesHold⟩ := arms_holds arms (fine_parts fine)
    obtain ⟨-, -, f, futures, bodies, checked, rfl⟩ := h
    have drifts := checkBodies_drift tracks arms (assignsOnly_any _) checked
    have joined : (D.bridge i).Sound id ctx f.scopes
        (guardedBodies locals bad barred ((D.bridge i).depth ctx) arms)
        ⟨f.scopes.mergeReachableFlows (bodies.map Checked.scopes),
          typed || bodies.any Checked.falls, bodies.flatMap Checked.breaks⟩ := by
      refine (bodiesHold f.scopes bodies checked).join (fun t mem => ?_)
        (fun r mem falls => ⟨List.mem_map_of_mem mem, ?_⟩)
        fun r mem t inside => List.mem_flatMap.2 ⟨r, mem, inside⟩
      · obtain ⟨r, inside, rfl⟩ := List.mem_map.1 mem
        exact (drifts r inside).scopes
      · rw [List.any_eq_true.2 ⟨r, mem, falls⟩, Bool.or_true]
    exact ((futuresHold s f futures).andThen joined).weaken rfl
      (fun falls => (Bool.and_eq_true_iff.1 falls).2) fun _ mem => mem

theorem args_holds (args : Args) {i : D.Index} {ctx : Context} (fine : D.Fine i ctx (.args args)) :
    (D.bridge i).Holds locals bad barred ctx (.args args) := by
  intro s r h
  cases args with
  | nil =>
    simp only [checkArgs, Except.ok.injEq] at h
    exact h ▸ Bridge.Sound.skip
  | cons mode first rest =>
    obtain ⟨firstFine, restFine⟩ := fine_parts fine
    simp only [checkArgs, bind_eq_ok, pure_eq_ok] at h
    obtain ⟨v, checked, c, consumed, n, next, rfl⟩ := h
    exact (operand firstFine (expr_holds first (fine_parts firstFine)) s v c checked
      consumed).andThen (args_holds rest restFine c.scopes n next)

theorem arms_holds (arms : Arms) {i : D.Index} {ctx : Context} (fine : D.Fine i ctx (.arms arms)) :
    (D.bridge i).Holds locals bad barred ctx (.arms arms) := by
  cases arms with
  | nil =>
    refine ⟨fun s r h => ?_, fun s rs h => Meets.never⟩
    simp only [checkFutures, Except.ok.injEq] at h
    exact h ▸ Bridge.Sound.skip
  | cons future binding body rest =>
    obtain ⟨futureFine, bodyFine, restFine⟩ := fine_parts fine
    obtain ⟨futuresHold, bodiesHold⟩ := arms_holds rest restFine
    constructor
    · intro s r h
      simp only [checkFutures, bind_eq_ok, pure_eq_ok] at h
      obtain ⟨v, checked, c, consumed, n, next, rfl⟩ := h
      exact (operand futureFine (expr_holds future (fine_parts futureFine)) s v c checked
        consumed).andThen (futuresHold c.scopes n next)
    · intro s rs h
      simp only [checkBodies, bind_eq_ok, pure_eq_ok] at h
      obtain ⟨bound, inserted, v, checked, c, consumed, n, next, rfl⟩ := h
      have inner := operand bodyFine (expr_holds body (fine_parts bodyFine)) bound v c checked
        consumed
      have arm : (D.bridge i).Sound Scopes.pop ctx s.push _ c := Bridge.Sound.bound
        (fun σ agrees => D.bind inserted agrees) (fun σ => Scopes.pop_declare ..) inner.below
      exact Bridge.SoundAny.cons arm.inScope (bodiesHold s n next)

theorem stmt_holds (st : Stmt) {i : D.Index} {ctx : Context} (fine : D.Fine i ctx (.stmt st)) :
    (D.bridge i).Holds locals bad barred ctx (.stmt st) := by
  intro s r h
  have tracks := D.tracks i
  cases st <;>
    simp only [checkStmt, bind_eq_ok, pure_eq_ok, require_eq_ok, Except.ok.injEq] at h
  case skip =>
    exact h ▸ ⟨Bridge.Sound.skip, fun _ => Bridge.Sound.skip⟩
  case seq first rest =>
    obtain ⟨firstFine, restFine⟩ := fine_parts fine
    obtain ⟨f, checked, n, next, rfl⟩ := h
    exact ⟨(stmt_holds first firstFine s f checked).1.andThen
      (stmt_holds rest restFine f.scopes n next).1, nofun⟩
  case block body =>
    obtain ⟨b, checked, rfl⟩ := h
    exact ⟨(stmt_holds body (fine_parts fine) s.push b checked).1.inScope.below, nofun⟩
  case declare x =>
    obtain ⟨t, inserted, rfl⟩ := h
    refine ⟨Meets.update fun σ agrees => ⟨⟨rfl, D.declare fine.1 inserted agrees⟩, ?_⟩, nofun⟩
    rw [Scopes.pop_declare]
    exact (D.bridge i).kept_refl ctx σ.pop
  case init x value =>
    have valueFine := fine_parts fine
    obtain ⟨v, checked, c, consumed, t, inserted, rfl⟩ := h
    have initial :=
      operand valueFine (expr_holds value (fine_parts valueFine)) s v c checked consumed
    refine ⟨Bridge.seq initial.below (Meets.update fun σ pre => ⟨⟨rfl, ?_⟩, ?_⟩), nofun⟩
    · rw [pre.1] at inserted
      exact D.bind inserted pre.2
    · rw [Typeck.bind, Scopes.pop_declare]
      exact (D.bridge i).kept_refl ctx σ.pop
  case assign x value =>
    obtain ⟨_, valid, v, checked, c, consumed, rfl⟩ := h
    have whole := D.assign fine.1
      (fun _ part => operand ⟨part, fine.2⟩ (expr_holds value (fine_parts ⟨part, fine.2⟩)))
      valid checked consumed
    exact ⟨whole.below, fun _ => whole⟩
  case store place value =>
    obtain ⟨p, target, v, checked, c, consumed, rfl⟩ := h
    obtain ⟨placeHeads, valueHeads⟩ := Bool.and_eq_true_iff.1 fine.2
    have whole := (D.store fine.1 (fun _ part => expr_holds place ⟨part, placeHeads⟩)
      (fun _ part => operand ⟨part, valueHeads⟩ (expr_holds value (fine_parts ⟨part, valueHeads⟩)))
      target checked consumed).store
    exact ⟨whole.below, fun _ => whole⟩
  case ifElse cond thenBlock elseBlock =>
    obtain ⟨condFine, thenFine, elseFine⟩ := fine_parts fine
    obtain ⟨c, checked, t, first, e, second, rfl⟩ := h
    have thenSound := (stmt_holds thenBlock thenFine c.scopes.push t first).1.inScope
    have elseSound := (stmt_holds elseBlock elseFine c.scopes.push e second).1.inScope
    have branches : (D.bridge i).SoundAny ctx c.scopes _ [t.pop, e.pop] [t.pop, e.pop] :=
      Meets.choice (thenSound.any List.mem_cons_self List.mem_cons_self)
        (elseSound.any (List.mem_cons_of_mem _ List.mem_cons_self)
          (List.mem_cons_of_mem _ List.mem_cons_self))
    have drifts : ∀ r ∈ [t.pop, e.pop], Scopes.Rel (D.bridge i).Drifts c.scopes r.scopes := by
      intro r mem
      obtain rfl | mem := List.mem_cons.1 mem
      · exact (checkStmt_drift tracks thenBlock (assignsOnly_any _) first).1.scopes
      · rw [List.mem_singleton.1 mem]
        exact (checkStmt_drift tracks elseBlock (assignsOnly_any _) second).1.scopes
    have whole := (expr_holds cond condFine s c checked).andThen (branches.joinFalling drifts)
    refine ⟨Bridge.Sound.below ?_, nofun⟩
    exact whole.weaken rfl (fun falls => (Bool.and_eq_true_iff.1 falls).2) fun _ mem => mem
  case whileLoop cond body =>
    obtain ⟨condFine, bodyFine⟩ := fine_parts fine
    obtain ⟨c, checked, b, inner, rfl⟩ := h
    have calm : cond.calm true = true :=
      (Bool.and_eq_true_iff.1 (Bool.and_eq_true_iff.1 fine.2).1).1
    have loops := D.loops fine.1 rfl
    have condSound := expr_holds cond condFine s c checked
    have bodySound := (stmt_holds body bodyFine c.scopes.push b inner).1.inScope
    rw [loops.depth_inLoop] at condSound
    rw [loops.depth_loopBody] at bodySound
    have whole : (D.bridge i).Sound id ctx s (guardedStmt locals bad barred ((D.bridge i).depth ctx)
        (.whileLoop cond body)) _ :=
      Bridge.Sound.loop loops (guardedExpr_quiet cond calm) .skip condSound Bridge.Sound.skip
        bodySound fun _ pre => pre
    refine ⟨Bridge.Sound.below ?_, nofun⟩
    refine whole.weaken rfl (fun falls => ?_) nofun
    simpa [Checked.pop] using falls
  case forLoop init cond step body =>
    obtain ⟨initFine, condFine, stepFine, bodyFine⟩ := fine_parts fine
    obtain ⟨-, -, v, first, c, checked, -, isStep, n, next, b, inner, rfl⟩ := h
    have heads := fine.2
    simp only [Code.calmHeads, Stmt.calmHeads, Bool.and_eq_true] at heads
    obtain ⟨⟨⟨⟨⟨condCalm, stepCalm⟩, -⟩, -⟩, -⟩, -⟩ := heads
    have loops := D.loops fine.1 rfl
    have condSound := expr_holds cond condFine v.scopes c checked
    have stepSound := (stmt_holds step stepFine c.scopes n next).2 isStep
    have bodySound := (stmt_holds body bodyFine n.scopes.push b inner).1.inScope
    rw [loops.depth_inLoop] at condSound stepSound
    rw [loops.depth_loopBody] at bodySound
    have looped : (D.bridge i).Sound id ctx v.scopes
        (Runs.loop (cond.boolLiteralIs false = false) (cond.boolLiteralIs true = false) _ _ _) _ :=
      Bridge.Sound.loop loops (guardedExpr_quiet cond condCalm) (guardedStmt_quiet step stepCalm)
        condSound stepSound bodySound fun _ => D.step fine.1 next isStep
    have whole := ((stmt_holds init initFine s.push v first).1.andThen looped.below).inScope
    refine ⟨Bridge.Sound.below ?_, nofun⟩
    refine whole.weaken rfl (fun falls => ?_) fun t mem => ?_
    · simpa [Checked.pop, Checked.andThen] using (Bool.and_eq_true_iff.1 falls).2
    · simp only [Checked.pop, Checked.andThen, List.map_append, List.mem_append] at mem ⊢
      simp_all
  case switch scrutinee cases exhaustive hasDefault default =>
    obtain ⟨headFine, casesFine, defaultFine⟩ := fine_parts fine
    obtain ⟨v, checked, e, consumed, cs, clauses, -, -, d, last, rfl⟩ := h
    have head :=
      operand headFine (expr_holds scrutinee (fine_parts headFine)) s v e checked consumed
    have drifts : ∀ r ∈ cs ++ [d.pop], Drift (D.bridge i).Drifts e.scopes r := by
      intro r mem
      obtain mem | mem := List.mem_append.1 mem
      · exact checkCases_drift tracks cases (assignsOnly_any _) clauses r mem
      · rw [List.mem_singleton.1 mem]
        exact (checkStmt_drift tracks default (assignsOnly_any _) last).1
    have casesSound := switchedAny (cases_holds cases casesFine e.scopes cs clauses)
    have defaultSound := (switched (stmt_holds default defaultFine e.scopes.push d last).1).inScope
    rw [D.depth_switch] at casesSound defaultSound
    have whole := head.andThen (casesSound.switch exhaustive hasDefault defaultSound drifts)
    refine ⟨Bridge.Sound.below ?_, nofun⟩
    refine whole.weaken rfl (fun falls => (Bool.and_eq_true_iff.1 falls).2) fun t mem => ?_
    simpa [Checked.andThen] using mem
  case defer args =>
    obtain ⟨a, checked, rfl⟩ := h
    have whole : (D.bridge i).Sound id ctx s _ { a with falls := true } :=
      (args_holds args (fine_parts fine) s a checked).weaken rfl (fun _ => rfl) fun _ mem => mem
    exact ⟨whole.below, nofun⟩
  case ret value =>
    obtain ⟨-, -, v, checked, c, consumed, -, -, rfl⟩ := h
    exact ⟨(D.ret fine.1
      (fun _ part => operand ⟨part, fine.2⟩ (expr_holds value (fine_parts ⟨part, fine.2⟩)))
      checked consumed).below, nofun⟩
  case breakStmt =>
    obtain ⟨-, -, rfl⟩ := h
    exact ⟨Meets.jump_breaks (fun σ agrees => ⟨s, List.mem_cons_self, agrees⟩)
      fun σ => (D.bridge i).kept_refl ctx σ.pop, nofun⟩
  case continueStmt =>
    obtain ⟨-, -, rfl⟩ := h
    exact ⟨Meets.jump_continues fun σ => (D.bridge i).kept_refl ctx σ.pop, nofun⟩
  case expr value =>
    have valueFine := fine_parts fine
    obtain ⟨v, checked, consumed⟩ := h
    have whole := operand valueFine (expr_holds value (fine_parts valueFine)) s v r checked consumed
    exact ⟨whole.below, fun _ => whole⟩

theorem cases_holds (cases : Cases) {i : D.Index} {ctx : Context}
    (fine : D.Fine i ctx (.cases cases)) :
    (D.bridge i).Holds locals bad barred ctx (.cases cases) := by
  intro s rs h
  cases cases with
  | nil => exact Meets.never
  | cons bindings body rest =>
    obtain ⟨bodyFine, restFine⟩ := fine_parts fine
    simp only [checkCases, bind_eq_ok, pure_eq_ok] at h
    obtain ⟨bound, inserted, b, checked, n, next, rfl⟩ := h
    have clause : (D.bridge i).Sound Scopes.pop ctx s.push _ b := Bridge.Sound.bound
      (fun σ agrees => bindAll inserted agrees) (fun σ => bindAll_pop ..)
      (stmt_holds body bodyFine bound b checked).1
    exact Bridge.SoundAny.cons clause.inScope (cases_holds rest restFine s n next)

end

/-- No path through an accepted body that meets the condition faults. -/
theorem no_fault {kind : ReturnKind} {params : List LocalId} {body : Stmt}
    (accepted : checkFunctionBody locals kind params body = .ok r)
    (okay : D.Okay i (.function kind) (.stmt body)) (heads : body.calmHeads = true)
    (empty : (D.bridge i).Agrees 0 [[]] [[]])
    (outside : (D.bridge i).depth (.function kind) = 0) (safe : ¬(D.bridge i).Faults) :
    ¬guardedFunctionBody locals bad barred params body .fault := by
  rintro ⟨σ', path⟩
  simp only [checkFunctionBody, bind_eq_ok, pure_eq_ok] at accepted
  obtain ⟨s, bound, c, checked, -, -, rfl⟩ := accepted
  have sound := (stmt_holds body ⟨okay, heads⟩ s c checked).1
  have start := bindAll bound empty
  rw [outside] at sound start
  exact safe ((sound _ _ σ' start path).1 rfl)

end Discipline

end Ciel.Typeck
