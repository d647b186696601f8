import Mathlib.Init

/-!
# Bodies as the flow checker sees them

The part of a function body that definite assignment, moves and control flow
depend on: which locals are declared, assigned, read and consumed, in which
order, and under which branches, loops and jumps. Types enter through two
attributes of a local (`LocalInfo`); an operator, a literal, a struct, a call
and an `await` are all `strict` nodes, whose operands are evaluated from left
to right.

A statement list is written with `seq` and `skip`, a missing `else` is `skip`,
a missing loop condition is the literal `true`, and a missing value of a
block or a `return` is `constant`.
-/

namespace Ciel.Typeck

/-- Locals are numbered by the resolver; a number is declared once per body. -/
abbrev LocalId := Nat

inductive BindingMutability where
  | «mutable»
  | immutable
  deriving DecidableEq, Repr

/-- What the checker knows of a local besides its flow state. -/
structure LocalInfo where
  affine : Bool
  mutability : BindingMutability
  deriving DecidableEq, Repr

abbrev Locals := LocalId → LocalInfo

/-- How an operand is handed to its node: only read, or consumed. A `consumed`
operand is checked by `check_consumed_expr`, which lets it move out of a loop
under a `return`; a `taken` one goes through `consume_affine_expr` without that
permission. -/
inductive Mode where
  | plain
  | consumed
  | taken
  deriving DecidableEq, Repr

mutual

inductive Expr where
  /-- A literal other than a boolean, or the name of a function. -/
  | constant
  | bool (literal : Bool)
  | name (x : LocalId)
  /-- A cast that keeps the type, or a boxed error: moves go through it. -/
  | cast (inner : Expr)
  /-- Operands from left to right; `never` if the node itself does not return. -/
  | strict (never : Bool) (args : Args)
  | and (left right : Expr)
  | or (left right : Expr)
  | unsafeBlock (body : Stmt) (value : Expr)
  /-- Only what happens at creation; the closure's body is a body of its own. -/
  | closure (allowResourceCaptures : Bool) (captures : List LocalId)
  /-- A call that names a receiver. The receiver is checked `prechecks` times to
  resolve a selector, and an interface call checks it once more, ahead of the
  arguments before it. It is `plain` if its address is passed instead. -/
  | receiverCall (prechecks : Nat) (interface : Bool) (mode : Mode) (before : Args)
      (receiver : Expr) (after : Args)
  /-- `inner?`. -/
  | question (inner : Expr)
  /-- `await select`; `typed` if the context expects a type. -/
  | select (typed : Bool) (arms : Arms)

inductive Args where
  | nil
  | cons (mode : Mode) (first : Expr) (rest : Args)

inductive Arms where
  | nil
  | cons (future : Expr) (binding : LocalId) (body : Expr) (rest : Arms)

inductive Stmt where
  | skip
  | seq (first rest : Stmt)
  | block (body : Stmt)
  | declare (x : LocalId)
  | init (x : LocalId) (value : Expr)
  | assign (x : LocalId) (value : Expr)
  /-- Assignment to a field, an element or through a pointer. -/
  | store (place value : Expr)
  | ifElse (cond : Expr) (thenBlock elseBlock : Stmt)
  | whileLoop (cond : Expr) (body : Stmt)
  | forLoop (init : Stmt) (cond : Expr) (step body : Stmt)
  /-- `exhaustive` is the answer of `patterns_exhaustive_for_type`. -/
  | switch (scrutinee : Expr) (cases : Cases) (exhaustive hasDefault : Bool) (default : Stmt)
  | defer (args : Args)
  | ret (value : Expr)
  | breakStmt
  | continueStmt
  | expr (value : Expr)

inductive Cases where
  | nil
  | cons (bindings : List LocalId) (body : Stmt) (rest : Cases)

end

/-- `f()`: nothing is known of its value. -/
def Expr.callNone : Expr := .strict false .nil

/-- `f(x)`, with the argument handed over. -/
def Expr.callWith (x : LocalId) : Expr := .strict false (.cons .consumed (.name x) .nil)

/-- `bool_literal_is`. -/
def Expr.boolLiteralIs : Expr → Bool → Bool
  | .bool literal, expected => literal == expected
  | _, _ => false

def Args.isEmpty : Args → Bool
  | .nil => true
  | .cons .. => false

def Arms.isEmpty : Arms → Bool
  | .nil => true
  | .cons .. => false

/-- The local whose value the expression is, through blocks and casts: the one
that `consume_affine_expr` marks. -/
def Expr.moveRoot : Expr → Option LocalId
  | .name x => some x
  | .cast inner => inner.moveRoot
  | .unsafeBlock _ value => value.moveRoot
  | _ => none

/-- The statements a `for` may have as its step; a declaration is not one. -/
def Stmt.isStep : Stmt → Bool
  | .skip | .assign .. | .store .. | .expr .. => true
  | _ => false

/-- The statements a `for` may start with. -/
def Stmt.isForInit : Stmt → Bool
  | .declare .. | .init .. => true
  | s => s.isStep

/-! ## Occurrences of locals -/

/-- A local can be read, moved, assigned as a whole, or declared without a value. -/
inductive Use where
  | mention
  | move
  | assign
  | bare
  deriving DecidableEq, Repr

/-- Consuming an operand moves the local that its value is. -/
def Expr.moveUses (e : Expr) : Mode → List (Use × LocalId)
  | .plain => []
  | _ => e.moveRoot.toList.map (Use.move, ·)

mutual

def Expr.uses : Expr → List (Use × LocalId)
  | .constant | .bool _ => []
  | .name x => [(.mention, x)]
  | .cast inner => inner.uses
  | .strict _ args => args.uses
  | .and left right | .or left right => left.uses ++ right.uses
  | .unsafeBlock body value => body.uses ++ value.uses
  | .closure _ captures => captures.map (Use.mention, ·) ++ captures.map (Use.move, ·)
  | .receiverCall _ _ mode before receiver after =>
    before.uses ++ (receiver.uses ++ receiver.moveUses mode ++ after.uses)
  | .question inner => inner.uses ++ inner.moveUses .taken
  | .select _ arms => arms.uses

def Args.uses : Args → List (Use × LocalId)
  | .nil => []
  | .cons mode first rest => first.uses ++ first.moveUses mode ++ rest.uses

def Arms.uses : Arms → List (Use × LocalId)
  | .nil => []
  | .cons future _ body rest =>
    future.uses ++ future.moveUses .taken ++ (body.uses ++ body.moveUses .consumed) ++ rest.uses

def Stmt.uses : Stmt → List (Use × LocalId)
  | .skip | .breakStmt | .continueStmt => []
  | .seq first rest => first.uses ++ rest.uses
  | .block body => body.uses
  | .declare x => [(.bare, x)]
  | .init _ value | .ret value | .expr value => value.uses ++ value.moveUses .consumed
  | .assign x value => value.uses ++ value.moveUses .consumed ++ [(.assign, x)]
  | .store place value => value.uses ++ value.moveUses .consumed ++ place.uses
  | .ifElse cond thenBlock elseBlock => cond.uses ++ (thenBlock.uses ++ elseBlock.uses)
  | .whileLoop cond body => cond.uses ++ body.uses
  | .forLoop init cond step body => init.uses ++ (cond.uses ++ step.uses ++ body.uses)
  | .switch scrutinee cases _ _ default =>
    scrutinee.uses ++ scrutinee.moveUses .taken ++ (cases.uses ++ default.uses)
  | .defer args => args.uses

def Cases.uses : Cases → List (Use × LocalId)
  | .nil => []
  | .cons _ body rest => body.uses ++ rest.uses

end

end Ciel.Typeck
