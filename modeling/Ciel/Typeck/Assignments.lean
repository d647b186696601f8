import Ciel.Typeck.Orderly

/-!
# Paths on which assignments are watched

The paths of `Paths` end early where a local is read that must not be. To speak
about the assignments on a path, the same paths are described once more with a
second predicate: an assignment to a cell that `barred` rejects ends the path with
a `fault` too. Where nothing is barred, the paths are those of `Paths`.
-/

namespace Ciel.Typeck

open Library (Scopes Outcome Runs)
open Library.Runs

variable (locals : Locals) (bad barred : LocalId → Cell → Bool)

/-- A local is assigned as a whole. -/
def writeLocal (x : LocalId) : Runs Store := fun σ out σ' =>
  if (σ.get? x).any (barred x) then out = .fault ∧ σ' = σ
  else out = .normal ∧ σ' = σ.modify x Cell.assign

mutual

def guardedExpr (depth : Nat) : Expr → Runs Store
  | .constant | .bool _ => skip
  | .name x => readLocal bad x
  | .cast inner => guardedExpr depth inner
  | .strict isNever args => seq (guardedArgs depth args) (if isNever then never else skip)
  | .and left right =>
    seq (guardedExpr depth left) (choice (guard (left.boolLiteralIs true = false) skip)
      (guard (left.boolLiteralIs false = false) (guardedExpr depth right)))
  | .or left right =>
    seq (guardedExpr depth left) (choice (guard (left.boolLiteralIs false = false) skip)
      (guard (left.boolLiteralIs true = false) (guardedExpr depth right)))
  | .unsafeBlock body value => inScope (seq (guardedStmt depth body) (guardedExpr depth value))
  | .closure _ captures => seq (readCaptures bad captures) (update (consumeAll locals captures))
  | .receiverCall _ _ mode before receiver after =>
    seq (guardedArgs depth before)
      (seq (seq (guardedExpr depth receiver) (handOver locals mode receiver))
        (guardedArgs depth after))
  | .question inner =>
    seq (seq (guardedExpr depth inner) (handOver locals .taken inner))
      (choice skip (jump .returns))
  | .select _ arms => seq (guardedFutures depth arms) (guardedBodies depth arms)

def guardedArgs (depth : Nat) : Args → Runs Store
  | .nil => skip
  | .cons mode first rest =>
    seq (seq (guardedExpr depth first) (handOver locals mode first)) (guardedArgs depth rest)

def guardedFutures (depth : Nat) : Arms → Runs Store
  | .nil => skip
  | .cons future _ _ rest =>
    seq (seq (guardedExpr depth future) (handOver locals .taken future))
      (guardedFutures depth rest)

def guardedBodies (depth : Nat) : Arms → Runs Store
  | .nil => never
  | .cons _ binding body rest =>
    choice (inScope (seq (update (bind depth binding))
      (seq (guardedExpr depth body) (handOver locals .consumed body)))) (guardedBodies depth rest)

def guardedStmt (depth : Nat) : Stmt → Runs Store
  | .skip => Runs.skip
  | .seq first rest => Runs.seq (guardedStmt depth first) (guardedStmt depth rest)
  | .block body => inScope (guardedStmt depth body)
  | .declare x => update (Scopes.declare x ⟨false, false, depth⟩)
  | .init x value =>
    Runs.seq (Runs.seq (guardedExpr depth value) (handOver locals .consumed value))
      (update (bind depth x))
  | .assign x value =>
    Runs.seq (Runs.seq (guardedExpr depth value) (handOver locals .consumed value))
      (writeLocal barred x)
  | .store place value =>
    Runs.seq (Runs.seq (guardedExpr depth value) (handOver locals .consumed value))
      (guardedExpr depth place)
  | .ifElse cond thenBlock elseBlock =>
    Runs.seq (guardedExpr depth cond)
      (choice (inScope (guardedStmt depth thenBlock)) (inScope (guardedStmt depth elseBlock)))
  | .whileLoop cond body =>
    loop (cond.boolLiteralIs false = false) (cond.boolLiteralIs true = false)
      (guardedExpr (depth + 1) cond) (inScope (guardedStmt (depth + 1) body)) Runs.skip
  | .forLoop init cond step body =>
    inScope (Runs.seq (guardedStmt depth init)
      (loop (cond.boolLiteralIs false = false) (cond.boolLiteralIs true = false)
        (guardedExpr (depth + 1) cond) (inScope (guardedStmt (depth + 1) body))
        (guardedStmt (depth + 1) step)))
  | .switch scrutinee cases exhaustive hasDefault default =>
    Runs.seq (Runs.seq (guardedExpr depth scrutinee) (handOver locals .taken scrutinee))
      (catchBreak (choice (guardedCases depth cases)
        (guard (hasDefault = true ∧ exhaustive = false) (inScope (guardedStmt depth default)))))
  | .defer args => guardedArgs depth args
  | .ret value =>
    Runs.seq (Runs.seq (guardedExpr depth value) (handOver locals .consumed value))
      (jump .returns)
  | .breakStmt => jump .breaks
  | .continueStmt => jump .continues
  | .expr value => Runs.seq (guardedExpr depth value) (handOver locals .consumed value)

def guardedCases (depth : Nat) : Cases → Runs Store
  | .nil => never
  | .cons bindings body rest =>
    choice (inScope (Runs.seq (update (bindAll depth bindings)) (guardedStmt depth body)))
      (guardedCases depth rest)

end

/-- A path through a function body on which assignments are watched. -/
def guardedFunctionBody (params : List LocalId) (body : Stmt) (out : Outcome) : Prop :=
  ∃ σ', guardedStmt locals bad barred 0 body (bindAll 0 params [[]]) out σ'

/-! ## Watching changes nothing else -/

variable {locals bad barred}

theorem writeLocal_unbarred (x : LocalId) :
    writeLocal (fun _ _ => false) x = update (Scopes.modify x Cell.assign) := by
  funext σ out σ'
  cases cell : σ.get? x <;> simp [writeLocal, update, cell]

mutual

theorem guardedExpr_unbarred (e : Expr) (depth : Nat) :
    guardedExpr locals bad (fun _ _ => false) depth e = runExpr locals bad depth e := by
  cases e with
  | constant | bool | name | closure => rfl
  | cast inner => exact guardedExpr_unbarred inner depth
  | strict isNever args => rw [guardedExpr, runExpr, guardedArgs_unbarred args depth]
  | and left right | or left right =>
    rw [guardedExpr, runExpr, guardedExpr_unbarred left depth, guardedExpr_unbarred right depth]
  | unsafeBlock body value =>
    rw [guardedExpr, runExpr, guardedStmt_unbarred body depth, guardedExpr_unbarred value depth]
  | receiverCall prechecks interface mode before receiver after =>
    rw [guardedExpr, runExpr, guardedArgs_unbarred before depth,
      guardedExpr_unbarred receiver depth, guardedArgs_unbarred after depth]
  | question inner => rw [guardedExpr, runExpr, guardedExpr_unbarred inner depth]
  | select typed arms =>
    rw [guardedExpr, runExpr, guardedFutures_unbarred arms depth, guardedBodies_unbarred arms depth]

theorem guardedArgs_unbarred (args : Args) (depth : Nat) :
    guardedArgs locals bad (fun _ _ => false) depth args = runArgs locals bad depth args := by
  cases args with
  | nil => rfl
  | cons mode first rest =>
    rw [guardedArgs, runArgs, guardedExpr_unbarred first depth, guardedArgs_unbarred rest depth]

theorem guardedFutures_unbarred (arms : Arms) (depth : Nat) :
    guardedFutures locals bad (fun _ _ => false) depth arms = runFutures locals bad depth arms := by
  cases arms with
  | nil => rfl
  | cons future binding body rest =>
    rw [guardedFutures, runFutures, guardedExpr_unbarred future depth,
      guardedFutures_unbarred rest depth]

theorem guardedBodies_unbarred (arms : Arms) (depth : Nat) :
    guardedBodies locals bad (fun _ _ => false) depth arms = runBodies locals bad depth arms := by
  cases arms with
  | nil => rfl
  | cons future binding body rest =>
    rw [guardedBodies, runBodies, guardedExpr_unbarred body depth,
      guardedBodies_unbarred rest depth]

theorem guardedStmt_unbarred (st : Stmt) (depth : Nat) :
    guardedStmt locals bad (fun _ _ => false) depth st = runStmt locals bad depth st := by
  cases st with
  | skip | declare | breakStmt | continueStmt => rfl
  | seq first rest =>
    rw [guardedStmt, runStmt, guardedStmt_unbarred first depth, guardedStmt_unbarred rest depth]
  | block body => rw [guardedStmt, runStmt, guardedStmt_unbarred body depth]
  | init x value | ret value | expr value =>
    rw [guardedStmt, runStmt, guardedExpr_unbarred value depth]
  | assign x value =>
    rw [guardedStmt, runStmt, guardedExpr_unbarred value depth, writeLocal_unbarred]
  | store place value =>
    rw [guardedStmt, runStmt, guardedExpr_unbarred place depth, guardedExpr_unbarred value depth]
  | ifElse cond thenBlock elseBlock =>
    rw [guardedStmt, runStmt, guardedExpr_unbarred cond depth, guardedStmt_unbarred thenBlock depth,
      guardedStmt_unbarred elseBlock depth]
  | whileLoop cond body =>
    rw [guardedStmt, runStmt, guardedExpr_unbarred cond, guardedStmt_unbarred body]
  | forLoop init cond step body =>
    rw [guardedStmt, runStmt, guardedStmt_unbarred init depth, guardedExpr_unbarred cond,
      guardedStmt_unbarred body, guardedStmt_unbarred step]
  | switch scrutinee cases exhaustive hasDefault default =>
    rw [guardedStmt, runStmt, guardedExpr_unbarred scrutinee depth,
      guardedCases_unbarred cases depth, guardedStmt_unbarred default depth]
  | defer args => rw [guardedStmt, runStmt, guardedArgs_unbarred args depth]

theorem guardedCases_unbarred (cases : Cases) (depth : Nat) :
    guardedCases locals bad (fun _ _ => false) depth cases = runCases locals bad depth cases := by
  cases cases with
  | nil => rfl
  | cons bindings body rest =>
    rw [guardedCases, runCases, guardedStmt_unbarred body depth, guardedCases_unbarred rest depth]

end

/-- Where nothing is barred, the paths are those of `Paths`. -/
theorem guardedFunctionBody_unbarred (params : List LocalId) (body : Stmt) :
    guardedFunctionBody locals bad (fun _ _ => false) params body =
      runFunctionBody locals bad params body := by
  funext out
  rw [guardedFunctionBody, runFunctionBody, guardedStmt_unbarred]

/-! ## Calm code does not jump to a loop -/

theorem writeLocal_quiet (x : LocalId) : (writeLocal barred x).Quiet := by
  intro σ out σ' path
  simp only [writeLocal] at path
  split at path <;> exact path.1 ▸ ⟨nofun, nofun⟩

mutual

theorem guardedExpr_quiet (e : Expr) {depth : Nat} {loops : Bool} (h : e.calm loops = true) :
    (guardedExpr locals bad barred depth e).Quiet := by
  cases e with
  | constant | bool => exact .skip
  | name x => exact readLocal_quiet x
  | cast inner => exact guardedExpr_quiet inner h
  | strict never args =>
    refine (guardedArgs_quiet args h).seq ?_
    split
    · exact .never
    · exact .skip
  | and left right | or left right =>
    obtain ⟨hl, hr⟩ := Bool.and_eq_true_iff.1 h
    exact (guardedExpr_quiet left hl).seq
      (.choice (.guard .skip) (.guard (guardedExpr_quiet right hr)))
  | unsafeBlock body value =>
    obtain ⟨hb, hv⟩ := Bool.and_eq_true_iff.1 h
    exact .within ((guardedStmt_quiet body hb).seq (guardedExpr_quiet value hv))
  | closure allow captures => exact (readCaptures_quiet captures).seq .update
  | receiverCall prechecks interface mode before receiver after =>
    simp only [Expr.calm, Bool.and_eq_true] at h
    exact (guardedArgs_quiet before h.1.1).seq
      (((guardedExpr_quiet receiver h.1.2).seq (handOver_quiet mode receiver)).seq
        (guardedArgs_quiet after h.2))
  | question inner =>
    exact ((guardedExpr_quiet inner h).seq (handOver_quiet .taken inner)).seq
      (.choice .skip .returns)
  | select typed arms => exact (guardedFutures_quiet arms h).seq (guardedBodies_quiet arms h)

theorem guardedArgs_quiet (args : Args) {depth : Nat} {loops : Bool}
    (h : args.calm loops = true) :
    (guardedArgs locals bad barred depth args).Quiet := by
  cases args with
  | nil => exact .skip
  | cons mode first rest =>
    obtain ⟨hf, hr⟩ := Bool.and_eq_true_iff.1 h
    exact ((guardedExpr_quiet first hf).seq (handOver_quiet mode first)).seq
      (guardedArgs_quiet rest hr)

theorem guardedFutures_quiet (arms : Arms) {depth : Nat} {loops : Bool}
    (h : arms.calm loops = true) :
    (guardedFutures locals bad barred depth arms).Quiet := by
  cases arms with
  | nil => exact .skip
  | cons future binding body rest =>
    simp only [Arms.calm, Bool.and_eq_true] at h
    exact ((guardedExpr_quiet future h.1.1).seq (handOver_quiet .taken future)).seq
      (guardedFutures_quiet rest h.2)

theorem guardedBodies_quiet (arms : Arms) {depth : Nat} {loops : Bool}
    (h : arms.calm loops = true) :
    (guardedBodies locals bad barred depth arms).Quiet := by
  cases arms with
  | nil => exact .never
  | cons future binding body rest =>
    simp only [Arms.calm, Bool.and_eq_true] at h
    exact .choice (.within (.seq .update
      ((guardedExpr_quiet body h.1.2).seq (handOver_quiet .consumed body))))
        (guardedBodies_quiet rest h.2)

theorem guardedStmt_quiet (st : Stmt) {depth : Nat} {loops : Bool}
    (h : st.calm loops = true) :
    (guardedStmt locals bad barred depth st).Quiet := by
  cases st with
  | skip => exact .skip
  | declare x => exact .update
  | seq first rest =>
    obtain ⟨hf, hr⟩ := Bool.and_eq_true_iff.1 h
    exact (guardedStmt_quiet first hf).seq (guardedStmt_quiet rest hr)
  | block body => exact .within (guardedStmt_quiet body h)
  | init x value =>
    exact ((guardedExpr_quiet value h).seq (handOver_quiet .consumed value)).seq .update
  | assign x value =>
    exact ((guardedExpr_quiet value h).seq (handOver_quiet .consumed value)).seq
      (writeLocal_quiet x)
  | store place value =>
    obtain ⟨hp, hv⟩ := Bool.and_eq_true_iff.1 h
    exact ((guardedExpr_quiet value hv).seq (handOver_quiet .consumed value)).seq
      (guardedExpr_quiet place hp)
  | ifElse cond thenBlock elseBlock =>
    simp only [Stmt.calm, Bool.and_eq_true] at h
    exact (guardedExpr_quiet cond h.1.1).seq
      (.choice (.within (guardedStmt_quiet thenBlock h.1.2))
        (.within (guardedStmt_quiet elseBlock h.2)))
  | switch scrutinee cases exhaustive hasDefault default =>
    simp only [Stmt.calm, Bool.and_eq_true] at h
    exact ((guardedExpr_quiet scrutinee h.1.1).seq (handOver_quiet .taken scrutinee)).seq
      (.catchBreak (.choice (guardedCases_quiet cases h.1.2)
        (.guard (.within (guardedStmt_quiet default h.2)))))
  | defer args => exact guardedArgs_quiet args h
  | ret value =>
    exact ((guardedExpr_quiet value h).seq (handOver_quiet .consumed value)).seq .returns
  | expr value => exact (guardedExpr_quiet value h).seq (handOver_quiet .consumed value)
  | whileLoop => exact .loop
  | forLoop init cond step body =>
    exact .within ((guardedStmt_quiet init (Bool.and_eq_true_iff.1 h).2).seq .loop)
  | breakStmt | continueStmt => cases h

theorem guardedCases_quiet (cases : Cases) {depth : Nat} {loops : Bool}
    (h : cases.calm loops = true) :
    (guardedCases locals bad barred depth cases).Quiet := by
  cases cases with
  | nil => exact .never
  | cons bindings body rest =>
    obtain ⟨hb, hr⟩ := Bool.and_eq_true_iff.1 h
    exact .choice (.within (.seq .update (guardedStmt_quiet body hb))) (guardedCases_quiet rest hr)

end

end Ciel.Typeck
