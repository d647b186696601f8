import Ciel.Library.Scopes
import Ciel.Typeck.Syntax

/-!
# The flow part of the checker

`check_stmt`, `check_expr` and their helpers, as far as they decide which
locals are assigned, moved or neither at each point, and whether control can
fall through. A diagnostic rejects the body, so checking stops at the first
one.

The mutable parts of the checker become arguments and results. The loop depth,
the return exemption and the jump targets are the `Context`; the break scopes
that `record_break_scope` leaves with the innermost loop or switch are the
`breaks` of a result, and closing a scope closes it in them too.
-/

namespace Ciel.Typeck

open Library (Scopes)

/-! ## Flow states and scopes -/

inductive InitState where
  | unassigned
  | assigned
  | moved
  | maybeAssigned
  | maybeMoved
  deriving DecidableEq, Repr

namespace InitState

def ofAssigned (assigned : Bool) : InitState := if assigned then .assigned else .unassigned

def isMoved (s : InitState) : Bool := s = .moved || s = .maybeMoved

def merge : InitState → InitState → InitState
  | .assigned, .assigned => .assigned
  | .unassigned, .unassigned => .unassigned
  | .moved, .moved => .moved
  | .assigned, .moved | .moved, .assigned | .maybeMoved, _ | _, .maybeMoved => .maybeMoved
  | _, _ => .maybeAssigned

/-- A join is assigned only if both sides are. -/
theorem merge_eq_assigned {a b : InitState} :
    a.merge b = .assigned ↔ a = .assigned ∧ b = .assigned := by
  cases a <;> cases b <;> decide

end InitState

structure Binding where
  initState : InitState
  mutability : BindingMutability
  declaredLoopDepth : Nat
  deriving DecidableEq, Repr

namespace Binding

def markAssigned (b : Binding) : Binding := { b with initState := .assigned }

def markMoved (b : Binding) : Binding := { b with initState := .moved }

def merge (a b : Binding) : Binding := { a with initState := a.initState.merge b.initState }

end Binding

/-- `LocalScopes`: the bindings of the open scopes, innermost first. -/
abbrev LocalScopes := Scopes LocalId Binding

namespace LocalScopes

/-- `merge_assigned_intersection`. Both sides continue the same scopes, so their
entries correspond one to one. -/
def mergeAssignedIntersection (left right : LocalScopes) : LocalScopes :=
  Scopes.combine Binding.merge left right

/-- `merge_reachable_flows`; with no flow the scopes stay as they are. -/
def mergeReachableFlows (before : LocalScopes) : List LocalScopes → LocalScopes
  | [] => before
  | first :: rest => rest.foldl mergeAssignedIntersection first

end LocalScopes

/-! ## Diagnostics, contexts and results -/

inductive Diagnostic where
  | unresolvedName (x : LocalId)
  | notDefinitelyAssigned (x : LocalId)
  | useOfMovedResource (x : LocalId)
  | movedInsideLoop (x : LocalId)
  | capturedNotAssigned (x : LocalId)
  | capturedResource (x : LocalId)
  | capturedInsideLoop (x : LocalId)
  | duplicateLocal (x : LocalId)
  | immutableFromLoop (x : LocalId)
  | immutableReassigned (x : LocalId) (state : InitState)
  | selectWithoutCases
  | switchNotExhaustive
  | forStepDeclares
  | notAForInit
  | breakOutside
  | continueOutside
  | mustReturn
  | neverReturns
  | returnedTypeMismatch
  deriving DecidableEq, Repr

/-- Whether a function must hand back a value on every path. -/
inductive ReturnKind where
  | erased
  | value
  | never
  deriving DecidableEq, Repr

/-- The parts of the checker's state that only change for the duration of a
nested check. -/
structure Context where
  /-- `current_loop_depth`. -/
  loopDepth : Nat
  /-- Whether `return_loop_move_depth` is positive. -/
  returnLoopMove : Bool
  canBreak : Bool
  canContinue : Bool
  /-- The return type of the function. -/
  returns : ReturnKind
  deriving DecidableEq, Repr

namespace Context

/-- A returned value, and all that is nested in it, may move out of loops. -/
def returning (ctx : Context) : Context := { ctx with returnLoopMove := true }

/-- Loop conditions and steps are checked one loop deeper, before the loop
becomes a jump target. -/
def inLoop (ctx : Context) : Context := { ctx with loopDepth := ctx.loopDepth + 1 }

def loopBody (ctx : Context) : Context :=
  { ctx with loopDepth := ctx.loopDepth + 1, canBreak := true, canContinue := true }

def switchBody (ctx : Context) : Context := { ctx with canBreak := true }

end Context

/-- What checking leaves behind: the scopes afterwards, whether control comes out
at the end (for an expression, whether its type is not `never`), and the scopes
at the breaks that leave it. -/
structure Checked where
  scopes : LocalScopes
  falls : Bool
  breaks : List LocalScopes
  deriving DecidableEq, Repr

namespace Checked

/-- Nothing happened. -/
def done (s : LocalScopes) : Checked := ⟨s, true, []⟩

def andThen (first next : Checked) : Checked :=
  ⟨next.scopes, first.falls && next.falls, first.breaks ++ next.breaks⟩

def pop (r : Checked) : Checked := ⟨r.scopes.pop, r.falls, r.breaks.map Scopes.pop⟩

end Checked

abbrev Check := LocalScopes → Except Diagnostic Checked

variable (locals : Locals)

/-- `LocalScopes::insert`. -/
def insert (ctx : Context) (x : LocalId) (assigned : Bool) (s : LocalScopes) :
    Except Diagnostic LocalScopes :=
  if ((s.headD []).lookup x).isSome then .error (.duplicateLocal x)
  else .ok (s.declare x ⟨.ofAssigned assigned, (locals x).mutability, ctx.loopDepth⟩)

/-- Pattern bindings and parameters hold a value from the start. -/
def insertAll (ctx : Context) : List LocalId → LocalScopes → Except Diagnostic LocalScopes
  | [], s => .ok s
  | x :: rest, s => do insertAll ctx rest (← insert locals ctx x true s)

/-- The use of a local by name. -/
def checkName (x : LocalId) (s : LocalScopes) : Except Diagnostic Checked :=
  match s.get? x with
  | none => .error (.unresolvedName x)
  | some b =>
    if b.initState = .assigned then .ok (.done s)
    else if b.initState.isMoved && (locals x).affine then .error (.useOfMovedResource x)
    else .error (.notDefinitelyAssigned x)

/-- `consume_affine_expr` on a checked expression. Only a local of affine type is
marked; an expression of type `never` is not affine. -/
def consumeAffineExpr (ctx : Context) (allowLoopMove : Bool) (e : Expr) (r : Checked) :
    Except Diagnostic Checked :=
  match e.moveRoot with
  | none => .ok r
  | some x =>
    if r.falls && (locals x).affine then
      if (r.scopes.get? x).any (·.declaredLoopDepth < ctx.loopDepth) && !allowLoopMove then
        .error (.movedInsideLoop x)
      else .ok { r with scopes := r.scopes.modify x Binding.markMoved }
    else .ok r

/-- What follows the check of an operand, by the way it is handed over. -/
def consumeAs (ctx : Context) (mode : Mode) (e : Expr) (r : Checked) :
    Except Diagnostic Checked :=
  match mode with
  | .plain => .ok r
  | .consumed => consumeAffineExpr locals ctx ctx.returnLoopMove e r
  | .taken => consumeAffineExpr locals ctx false e r

/-- A condition whose failure is a diagnostic. -/
def require (holds : Bool) (diagnostic : Diagnostic) : Except Diagnostic Unit :=
  if holds then .ok () else .error diagnostic

/-- `diagnose_prechecked_affine_expr_moved`, for a receiver that is a local. It is
only called for a receiver with arguments before it. -/
def diagnosePrechecked : Args → Expr → LocalScopes → Except Diagnostic Unit
  | .cons .., .name x, s =>
    require (!(locals x).affine || (s.get? x).all (·.initState = .assigned))
      (.useOfMovedResource x)
  | _, _, _ => .ok ()

/-- Captured locals hold a value where the closure is created. -/
def checkCaptures (s : LocalScopes) : List LocalId → Except Diagnostic Unit
  | [] => .ok ()
  | x :: rest =>
    if (s.get? x).any (·.initState ≠ .assigned) then .error (.capturedNotAssigned x)
    else checkCaptures s rest

/-- Captured resources move into the closure, where that is allowed. -/
def moveCaptures (ctx : Context) (allowResourceCaptures : Bool) :
    List LocalId → LocalScopes → Except Diagnostic LocalScopes
  | [], s => .ok s
  | x :: rest, s =>
    if (locals x).affine then
      if (s.get? x).isSome && !allowResourceCaptures then .error (.capturedResource x)
      else if (s.get? x).any (·.declaredLoopDepth < ctx.loopDepth) then
        .error (.capturedInsideLoop x)
      else moveCaptures ctx allowResourceCaptures rest (s.modify x Binding.markMoved)
    else moveCaptures ctx allowResourceCaptures rest s

/-- `validate_assignment_target` for a whole local: an immutable one is
initialised once, and not from a loop around which it was declared. -/
def validateAssignmentTarget (ctx : Context) (x : LocalId) (s : LocalScopes) :
    Except Diagnostic Unit :=
  match s.get? x with
  | none => .error (.unresolvedName x)
  | some b =>
    match b.mutability with
    | .mutable => .ok ()
    | .immutable =>
      if b.initState = .unassigned then
        if b.declaredLoopDepth < ctx.loopDepth then .error (.immutableFromLoop x) else .ok ()
      else .error (.immutableReassigned x b.initState)

/-- The checks of a receiver that only serve to resolve a selector. -/
def precheck (check : Check) : Nat → Check
  | 0, s => .ok (.done s)
  | n + 1, s => do
      let first ← check s
      return first.andThen (← precheck check n first.scopes)

/-! ## Statements and expressions -/

mutual

/-- `check_expr`. -/
def checkExpr (ctx : Context) : Expr → Check
  | .constant, s | .bool _, s => .ok (.done s)
  | .name x, s => checkName locals x s
  | .cast inner, s => checkExpr ctx inner s
  | .strict never args, s => do
      return { ← checkArgs ctx args s with falls := !never }
  | .and left right, s => do
      let l ← checkExpr ctx left s
      let r ← checkExpr ctx right l.scopes
      let after :=
        if left.boolLiteralIs true then r.scopes
        else if left.boolLiteralIs false then l.scopes
        else l.scopes.mergeAssignedIntersection r.scopes
      return ⟨after, true, l.breaks ++ r.breaks⟩
  | .or left right, s => do
      let l ← checkExpr ctx left s
      let r ← checkExpr ctx right l.scopes
      let after :=
        if left.boolLiteralIs false then r.scopes
        else if left.boolLiteralIs true then l.scopes
        else l.scopes.mergeAssignedIntersection r.scopes
      return ⟨after, true, l.breaks ++ r.breaks⟩
  -- the value is checked only if the statements can fall through
  | .unsafeBlock body value, s => do
      let b ← checkStmt ctx body s.push
      if b.falls then
        return (b.andThen (← checkExpr ctx value b.scopes)).pop
      else return b.pop
  | .closure allowResourceCaptures captures, s => do
      checkCaptures s captures
      return .done (← moveCaptures locals ctx allowResourceCaptures captures s)
  | .receiverCall prechecks true mode before receiver after, s => do
      let p ← precheck (checkExpr ctx receiver) prechecks s
      let r ← checkExpr ctx receiver p.scopes
      let b ← checkArgs ctx before r.scopes
      diagnosePrechecked locals before receiver b.scopes
      let c ← consumeAs locals ctx mode receiver { b with falls := r.falls }
      let a ← checkArgs ctx after c.scopes
      return ⟨a.scopes, true, p.breaks ++ r.breaks ++ b.breaks ++ a.breaks⟩
  | .receiverCall prechecks false mode before receiver after, s => do
      let p ← precheck (checkExpr ctx receiver) prechecks s
      let b ← checkArgs ctx before p.scopes
      let r ← checkExpr ctx receiver b.scopes
      let c ← consumeAs locals ctx mode receiver r
      let a ← checkArgs ctx after c.scopes
      return ⟨a.scopes, true, p.breaks ++ b.breaks ++ r.breaks ++ a.breaks⟩
  | .question inner, s => do
      let r ← checkExpr ctx inner s
      return { ← consumeAs locals ctx .taken inner r with falls := true }
  | .select typed arms, s => do
      require (!arms.isEmpty) .selectWithoutCases
      let f ← checkFutures ctx arms s
      let bodies ← checkBodies ctx arms f.scopes
      return ⟨f.scopes.mergeReachableFlows (bodies.map Checked.scopes),
        typed || bodies.any Checked.falls, f.breaks ++ bodies.flatMap Checked.breaks⟩

/-- Operands in order, each handed over in its mode. -/
def checkArgs (ctx : Context) : Args → Check
  | .nil, s => .ok (.done s)
  | .cons mode first rest, s => do
      let r ← checkExpr ctx first s
      let c ← consumeAs locals ctx mode first r
      return c.andThen (← checkArgs ctx rest c.scopes)

/-- The futures of a `select`, all of them before any body. -/
def checkFutures (ctx : Context) : Arms → Check
  | .nil, s => .ok (.done s)
  | .cons future _ _ rest, s => do
      let r ← checkExpr ctx future s
      let c ← consumeAs locals ctx .taken future r
      return c.andThen (← checkFutures ctx rest c.scopes)

/-- The arm bodies of a `select`, each from the scopes after the futures. -/
def checkBodies (ctx : Context) : Arms → LocalScopes → Except Diagnostic (List Checked)
  | .nil, _ => .ok []
  | .cons _ binding body rest, s => do
      let bound ← insert locals ctx binding true s.push
      let r ← checkExpr ctx body bound
      let c ← consumeAs locals ctx .consumed body r
      return c.pop :: (← checkBodies ctx rest s)

/-- `check_stmt` and `check_statement_sequence`. -/
def checkStmt (ctx : Context) : Stmt → Check
  | .skip, s => .ok (.done s)
  -- a rest that cannot be reached is checked all the same
  | .seq first rest, s => do
      let f ← checkStmt ctx first s
      return f.andThen (← checkStmt ctx rest f.scopes)
  | .block body, s => do return (← checkStmt ctx body s.push).pop
  | .declare x, s => do return .done (← insert locals ctx x false s)
  | .init x value, s => do
      let r ← checkExpr ctx value s
      let c ← consumeAs locals ctx .consumed value r
      return ⟨← insert locals ctx x c.falls c.scopes, true, c.breaks⟩
  | .assign x value, s => do
      validateAssignmentTarget ctx x s
      let r ← checkExpr ctx value s
      let c ← consumeAs locals ctx .consumed value r
      return ⟨c.scopes.modify x Binding.markAssigned, true, c.breaks⟩
  -- the place is checked first, though the value is evaluated first
  | .store place value, s => do
      let p ← checkExpr ctx place s
      let r ← checkExpr ctx value p.scopes
      let c ← consumeAs locals ctx .consumed value r
      return ⟨c.scopes, true, p.breaks ++ c.breaks⟩
  | .ifElse cond thenBlock elseBlock, s => do
      let c ← checkExpr ctx cond s
      let t ← checkStmt ctx thenBlock c.scopes.push
      let e ← checkStmt ctx elseBlock c.scopes.push
      let branches := [t.pop, e.pop]
      let reachable := (branches.filter Checked.falls).map Checked.scopes
      return ⟨c.scopes.mergeReachableFlows reachable, !reachable.isEmpty,
        c.breaks ++ branches.flatMap Checked.breaks⟩
  | .whileLoop cond body, s => do
      let c ← checkExpr ctx.inLoop cond s
      let b ← checkStmt ctx.loopBody body c.scopes.push
      return ⟨c.scopes, !(cond.boolLiteralIs true && b.breaks.isEmpty), c.breaks⟩
  -- the step is checked before the body, though it runs after it
  | .forLoop init cond step body, s => do
      require init.isForInit .notAForInit
      let i ← checkStmt ctx init s.push
      let c ← checkExpr ctx.inLoop cond i.scopes
      require step.isStep .forStepDeclares
      let n ← checkStmt ctx.inLoop step c.scopes
      let b ← checkStmt ctx.loopBody body n.scopes.push
      return ⟨c.scopes.pop, !(cond.boolLiteralIs true && b.breaks.isEmpty),
        (i.breaks ++ c.breaks ++ n.breaks).map Scopes.pop⟩
  | .switch scrutinee cases exhaustive hasDefault default, s => do
      let e ← checkExpr ctx scrutinee s
      let e ← consumeAs locals ctx .taken scrutinee e
      let cs ← checkCases ctx.switchBody cases e.scopes
      require (hasDefault || exhaustive) .switchNotExhaustive
      let d ← checkStmt ctx.switchBody default e.scopes.push
      let ends := if hasDefault && !exhaustive then cs ++ [d.pop] else cs
      let broken := if hasDefault && exhaustive then cs else cs ++ [d.pop]
      let reachable :=
        (ends.filter Checked.falls).map Checked.scopes ++ broken.flatMap Checked.breaks
      return ⟨e.scopes.mergeReachableFlows reachable, !reachable.isEmpty, e.breaks⟩
  | .defer args, s => do return { ← checkArgs ctx args s with falls := true }
  -- no type but `never` itself can be assigned from a value of type `never`
  | .ret value, s => do
      require (ctx.returns != .never) .neverReturns
      let r ← checkExpr ctx.returning value s
      let c ← consumeAs locals ctx.returning .consumed value r
      require c.falls .returnedTypeMismatch
      return { c with falls := false }
  | .breakStmt, s => do
      require ctx.canBreak .breakOutside
      return ⟨s, false, [s]⟩
  | .continueStmt, s => do
      require ctx.canContinue .continueOutside
      return ⟨s, false, []⟩
  | .expr value, s => do
      let r ← checkExpr ctx value s
      consumeAs locals ctx .consumed value r

/-- The cases of a switch, each from the scopes after the scrutinee. -/
def checkCases (ctx : Context) : Cases → LocalScopes → Except Diagnostic (List Checked)
  | .nil, _ => .ok []
  | .cons bindings body rest, s => do
      let bound ← insertAll locals ctx bindings s.push
      let b ← checkStmt ctx body bound
      return b.pop :: (← checkCases ctx rest s)

end

/-- Outside of every loop and switch. -/
def Context.function (kind : ReturnKind) : Context := ⟨0, false, false, false, kind⟩

/-- `check_function_body`: the parameters and the outermost locals share a scope. -/
def checkFunctionBody (kind : ReturnKind) (params : List LocalId) (body : Stmt) :
    Except Diagnostic Checked := do
  let s ← insertAll locals (.function kind) params [[]]
  let r ← checkStmt locals (.function kind) body s
  require (kind = .erased || !r.falls) .mustReturn
  return r

end Ciel.Typeck
