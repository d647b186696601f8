import Ciel.Library.Paths
import Ciel.Library.Scopes
import Ciel.Typeck.Syntax

/-!
# The paths through a body

What the language says about the order in which locals are declared, assigned,
read and consumed. A path is any sequence of choices: both sides of a branch,
every case, every number of iterations, an operand of `?` that returns early.
Values are left out, so a condition that is not a literal may go either way.

The order is the language's, not the checker's: the value of an assignment is
evaluated before the place it is stored to, the operands of a call in their
order whichever of them is the receiver, and the step of a `for` after its
body, also when the body ends in `continue`. A `break` or `continue` anywhere in a
loop, also in its condition or its step, is the loop's own.

A cell of the store records what has happened to one declared local. Reading a
local in a cell that the `bad` predicate rejects ends the path with a `fault`:
with a predicate for cells that hold no value it stands for the read of an
unassigned local, with one for cells that have been consumed for a second use.
-/

namespace Ciel.Typeck

open Library (Scopes Outcome Runs)
open Library.Runs

/-- One execution of a declaration: whether the local was assigned since, and
whether it was consumed after its last assignment. The number of loops around
the declaration is recorded for the proofs; no step depends on it. -/
structure Cell where
  assigned : Bool
  consumed : Bool
  loopDepth : Nat
  deriving DecidableEq, Repr

namespace Cell

def assign (c : Cell) : Cell := { c with assigned := true, consumed := false }

def consume (c : Cell) : Cell := { c with consumed := true }

end Cell

abbrev Store := Scopes LocalId Cell

/-- Code with a scope of its own. -/
def inScope (a : Runs Store) : Runs Store := within Scopes.push Scopes.pop a

variable (locals : Locals) (bad : LocalId → Cell → Bool)

/-- A local is read. -/
def readLocal (x : LocalId) : Runs Store := fun σ out σ' =>
  σ' = σ ∧ out = if (σ.get? x).all (bad x) then .fault else .normal

/-- A closure reads the locals it captures where it is created. -/
def readCaptures (captures : List LocalId) : Runs Store := fun σ out σ' =>
  σ' = σ ∧ out = if captures.any fun x => (σ.get? x).any (bad x) then .fault else .normal

/-- A resource changes hands; other values are copied. -/
def consumeLocal (x : LocalId) (σ : Store) : Store :=
  if (locals x).affine then σ.modify x Cell.consume else σ

def consumeAll : List LocalId → Store → Store
  | [], σ => σ
  | x :: rest, σ => consumeAll rest (consumeLocal locals x σ)

/-- The value of an operand is handed over: if it is a local, that is consumed. -/
def handOver (mode : Mode) (e : Expr) : Runs Store :=
  match mode, e.moveRoot with
  | .plain, _ | _, none => skip
  | _, some x => update (consumeLocal locals x)

/-- A fresh cell that holds a value. -/
def bind (depth : Nat) (x : LocalId) : Store → Store := Scopes.declare x ⟨true, false, depth⟩

def bindAll (depth : Nat) : List LocalId → Store → Store
  | [], σ => σ
  | x :: rest, σ => bindAll depth rest (bind depth x σ)

mutual

def runExpr (depth : Nat) : Expr → Runs Store
  | .constant | .bool _ => skip
  | .name x => readLocal bad x
  | .cast inner => runExpr depth inner
  | .strict isNever args => seq (runArgs depth args) (if isNever then never else skip)
  | .and left right =>
    seq (runExpr depth left) (choice (guard (left.boolLiteralIs true = false) skip)
      (guard (left.boolLiteralIs false = false) (runExpr depth right)))
  | .or left right =>
    seq (runExpr depth left) (choice (guard (left.boolLiteralIs false = false) skip)
      (guard (left.boolLiteralIs true = false) (runExpr depth right)))
  | .unsafeBlock body value => inScope (seq (runStmt depth body) (runExpr depth value))
  | .closure _ captures => seq (readCaptures bad captures) (update (consumeAll locals captures))
  | .receiverCall _ _ mode before receiver after =>
    seq (runArgs depth before)
      (seq (seq (runExpr depth receiver) (handOver locals mode receiver)) (runArgs depth after))
  | .question inner =>
    seq (seq (runExpr depth inner) (handOver locals .taken inner)) (choice skip (jump .returns))
  | .select _ arms => seq (runFutures depth arms) (runBodies depth arms)

def runArgs (depth : Nat) : Args → Runs Store
  | .nil => skip
  | .cons mode first rest =>
    seq (seq (runExpr depth first) (handOver locals mode first)) (runArgs depth rest)

def runFutures (depth : Nat) : Arms → Runs Store
  | .nil => skip
  | .cons future _ _ rest =>
    seq (seq (runExpr depth future) (handOver locals .taken future)) (runFutures depth rest)

/-- One arm wins and runs its body with the result bound. -/
def runBodies (depth : Nat) : Arms → Runs Store
  | .nil => never
  | .cons _ binding body rest =>
    choice (inScope (seq (update (bind depth binding))
      (seq (runExpr depth body) (handOver locals .consumed body)))) (runBodies depth rest)

def runStmt (depth : Nat) : Stmt → Runs Store
  | .skip => Runs.skip
  | .seq first rest => Runs.seq (runStmt depth first) (runStmt depth rest)
  | .block body => inScope (runStmt depth body)
  | .declare x => update (Scopes.declare x ⟨false, false, depth⟩)
  | .init x value =>
    Runs.seq (Runs.seq (runExpr depth value) (handOver locals .consumed value))
      (update (bind depth x))
  | .assign x value =>
    Runs.seq (Runs.seq (runExpr depth value) (handOver locals .consumed value))
      (update (Scopes.modify x Cell.assign))
  | .store place value =>
    Runs.seq (Runs.seq (runExpr depth value) (handOver locals .consumed value))
      (runExpr depth place)
  | .ifElse cond thenBlock elseBlock =>
    Runs.seq (runExpr depth cond)
      (choice (inScope (runStmt depth thenBlock)) (inScope (runStmt depth elseBlock)))
  | .whileLoop cond body =>
    loop (cond.boolLiteralIs false = false) (cond.boolLiteralIs true = false)
      (runExpr (depth + 1) cond) (inScope (runStmt (depth + 1) body)) Runs.skip
  | .forLoop init cond step body =>
    inScope (Runs.seq (runStmt depth init)
      (loop (cond.boolLiteralIs false = false) (cond.boolLiteralIs true = false)
        (runExpr (depth + 1) cond) (inScope (runStmt (depth + 1) body))
        (runStmt (depth + 1) step)))
  -- the cases of an exhaustive switch leave nothing to its default
  | .switch scrutinee cases exhaustive hasDefault default =>
    Runs.seq (Runs.seq (runExpr depth scrutinee) (handOver locals .taken scrutinee))
      (catchBreak (choice (runCases depth cases)
        (guard (hasDefault = true ∧ exhaustive = false) (inScope (runStmt depth default)))))
  -- the call itself is made when the block is left
  | .defer args => runArgs depth args
  | .ret value =>
    Runs.seq (Runs.seq (runExpr depth value) (handOver locals .consumed value)) (jump .returns)
  | .breakStmt => jump .breaks
  | .continueStmt => jump .continues
  | .expr value => Runs.seq (runExpr depth value) (handOver locals .consumed value)

/-- One case is chosen; its pattern binds locals in the case's own scope. -/
def runCases (depth : Nat) : Cases → Runs Store
  | .nil => never
  | .cons bindings body rest =>
    choice (inScope (Runs.seq (update (bindAll depth bindings)) (runStmt depth body)))
      (runCases depth rest)

end

/-- A path through a function body, from its arguments. -/
def runFunctionBody (params : List LocalId) (body : Stmt) (out : Outcome) : Prop :=
  ∃ σ', runStmt locals bad 0 body (bindAll 0 params [[]]) out σ'

end Ciel.Typeck
