import Ciel.Typeck.Paths

/-!
# Bodies that run in the order they are checked

The checker visits three pieces of code before code that runs earlier: the step
of a `for` before the body, the place of an assignment before the value, and
the receiver of a call before the arguments in front of it. It also lets a
`return` move a local out of a loop, on the grounds that the loop is then left.

`orderly` asks that nothing depends on these four. It is relative to two sets of
locals: `steady` ones, whose reads are harmless at any time, and `fragile` ones,
which are harmed by being consumed.
-/

namespace Ciel.Typeck

open Library (Scopes Outcome Runs)

/-! ## Code without jumps to a loop -/

section

variable (loops : Bool)

mutual

/-- No `break` and no `continue` occurs outside of the loops in the code, and no loop
either unless `loops`. -/
def Expr.calm : Expr → Bool
  | .constant | .bool _ | .name _ | .closure _ _ => true
  | .cast inner | .question inner => inner.calm
  | .strict _ args => args.calm
  | .and left right | .or left right => left.calm && right.calm
  | .unsafeBlock body value => body.calm && value.calm
  | .receiverCall _ _ _ before receiver after => before.calm && receiver.calm && after.calm
  | .select _ arms => arms.calm

def Args.calm : Args → Bool
  | .nil => true
  | .cons _ first rest => first.calm && rest.calm

def Arms.calm : Arms → Bool
  | .nil => true
  | .cons future _ body rest => future.calm && body.calm && rest.calm

def Stmt.calm : Stmt → Bool
  | .skip | .declare _ => true
  | .breakStmt | .continueStmt => false
  | .whileLoop _ _ => loops
  | .forLoop init _ _ _ => loops && init.calm
  | .seq first rest => first.calm && rest.calm
  | .block body => body.calm
  | .init _ value | .assign _ value | .ret value | .expr value => value.calm
  | .store place value => place.calm && value.calm
  | .ifElse cond thenBlock elseBlock => cond.calm && thenBlock.calm && elseBlock.calm
  | .switch scrutinee cases _ _ default => scrutinee.calm && cases.calm && default.calm
  | .defer args => args.calm

def Cases.calm : Cases → Bool
  | .nil => true
  | .cons _ body rest => body.calm && rest.calm

end

end

mutual

/-- No jump in the condition or the step of a loop. The language leaves that loop
there, the checker takes the jump for one of the code around it. -/
def Expr.calmHeads : Expr → Bool
  | .constant | .bool _ | .name _ | .closure _ _ => true
  | .cast inner | .question inner => inner.calmHeads
  | .strict _ args => args.calmHeads
  | .and left right | .or left right => left.calmHeads && right.calmHeads
  | .unsafeBlock body value => body.calmHeads && value.calmHeads
  | .receiverCall _ _ _ before receiver after =>
    before.calmHeads && receiver.calmHeads && after.calmHeads
  | .select _ arms => arms.calmHeads

def Args.calmHeads : Args → Bool
  | .nil => true
  | .cons _ first rest => first.calmHeads && rest.calmHeads

def Arms.calmHeads : Arms → Bool
  | .nil => true
  | .cons future _ body rest => future.calmHeads && body.calmHeads && rest.calmHeads

def Stmt.calmHeads : Stmt → Bool
  | .skip | .breakStmt | .continueStmt | .declare _ => true
  | .seq first rest => first.calmHeads && rest.calmHeads
  | .block body => body.calmHeads
  | .init _ value | .assign _ value | .ret value | .expr value => value.calmHeads
  | .store place value => place.calmHeads && value.calmHeads
  | .ifElse cond thenBlock elseBlock =>
    cond.calmHeads && thenBlock.calmHeads && elseBlock.calmHeads
  | .whileLoop cond body => cond.calm true && cond.calmHeads && body.calmHeads
  | .forLoop init cond step body =>
    cond.calm true && step.calm true && init.calmHeads && cond.calmHeads && step.calmHeads &&
      body.calmHeads
  | .switch scrutinee cases _ _ default =>
    scrutinee.calmHeads && cases.calmHeads && default.calmHeads
  | .defer args => args.calmHeads

def Cases.calmHeads : Cases → Bool
  | .nil => true
  | .cons _ body rest => body.calmHeads && rest.calmHeads

end

/-! ## The condition -/

/-- Every local assigned as a whole is one of the given ones. -/
def assignsOnly (good : LocalId → Bool) (uses : List (Use × LocalId)) : Bool :=
  uses.all fun u => u.1 != .assign || good u.2

/-- No local of the given ones is moved. -/
def movesNone (fragile : LocalId → Bool) (uses : List (Use × LocalId)) : Bool :=
  uses.all fun u => u.1 != .move || !fragile u.2

/-- No local of the given ones is moved or mentioned. -/
def touchesNone (fragile : LocalId → Bool) (uses : List (Use × LocalId)) : Bool :=
  uses.all fun u => (u.1 != .move && u.1 != .mention) || !fragile u.2

section

variable (steady fragile : LocalId → Bool)

mutual

def Expr.orderly : Expr → Bool
  | .constant | .bool _ | .name _ | .closure _ _ => true
  | .cast inner | .question inner => inner.orderly
  | .strict _ args => args.orderly
  | .and left right | .or left right => left.orderly && right.orderly
  | .unsafeBlock body value => body.orderly && value.orderly
  -- a receiver is checked ahead; an interface call does not check it again
  | .receiverCall _ interface mode before receiver after =>
    before.orderly && receiver.orderly && after.orderly && assignsOnly steady receiver.uses &&
      (!interface || before.isEmpty ||
        touchesNone fragile (receiver.uses ++ receiver.moveUses mode) &&
          (receiver.calm true || movesNone fragile before.uses))
  | .select _ arms => arms.orderly

def Args.orderly : Args → Bool
  | .nil => true
  | .cons _ first rest => first.orderly && rest.orderly

def Arms.orderly : Arms → Bool
  | .nil => true
  | .cons future _ body rest => future.orderly && body.orderly && rest.orderly

def Stmt.orderly : Stmt → Bool
  | .skip | .breakStmt | .continueStmt | .declare _ => true
  | .seq first rest => first.orderly && rest.orderly
  | .block body => body.orderly
  | .init _ value | .assign _ value | .expr value => value.orderly
  -- the place is checked first and evaluated last
  | .store place value =>
    place.orderly && value.orderly && assignsOnly steady place.uses &&
      movesNone fragile place.uses &&
      movesNone (fun x => fragile x && place.uses.contains (.mention, x))
        (value.uses ++ value.moveUses .consumed) &&
      (place.calm true || movesNone fragile (value.uses ++ value.moveUses .consumed))
  | .ifElse cond thenBlock elseBlock => cond.orderly && thenBlock.orderly && elseBlock.orderly
  | .whileLoop cond body => cond.orderly && body.orderly
  -- the step is checked before the body and runs after it
  | .forLoop init cond step body =>
    init.orderly && cond.orderly && step.orderly && body.orderly && assignsOnly steady step.uses
  | .switch scrutinee cases _ _ default => scrutinee.orderly && cases.orderly && default.orderly
  | .defer args => args.orderly
  -- a move out of a loop is final only if the return is
  | .ret value =>
    value.orderly &&
      (value.calm false || movesNone fragile (value.uses ++ value.moveUses .consumed))

def Cases.orderly : Cases → Bool
  | .nil => true
  | .cons _ body rest => body.orderly && rest.orderly

end

end

/-! ## Calm code does not jump to a loop -/

variable {locals : Locals} {bad : LocalId → Cell → Bool}

theorem readLocal_quiet (x : LocalId) : (readLocal bad x).Quiet := by
  rintro σ out σ' ⟨-, rfl⟩
  split <;> simp

theorem readCaptures_quiet (xs : List LocalId) : (readCaptures bad xs).Quiet := by
  rintro σ out σ' ⟨-, rfl⟩
  split <;> simp

theorem handOver_cases (mode : Mode) (e : Expr) : handOver locals mode e = Runs.skip ∨
    ∃ x, handOver locals mode e = Runs.update (consumeLocal locals x) := by
  simp only [handOver]
  split
  · exact .inl rfl
  · exact .inl rfl
  · exact .inr ⟨_, rfl⟩

theorem handOver_quiet (mode : Mode) (e : Expr) : (handOver locals mode e).Quiet := by
  obtain skipped | ⟨x, moved⟩ := @handOver_cases locals mode e
  · exact skipped ▸ .skip
  · exact moved ▸ .update

end Ciel.Typeck
