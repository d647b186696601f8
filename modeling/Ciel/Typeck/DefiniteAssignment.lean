import Ciel.Typeck.Soundness

/-!
# Definite assignment

The checker is meant to accept only bodies in which every read of a local comes
after an assignment of it. It checks the step of a `for` before the body, so a
step that assigns a local hides that the first iteration reads it unassigned.
The place of an assignment and the receiver of a call are checked early as well.

A jump in the condition or the step of a loop leaves that loop, where the checker
takes it for one of the loop around.

If every local assigned in such a position has been declared with a value, and no
condition or step jumps, the checker is right on all paths.
-/

namespace Ciel.Typeck

/-- A cell of a local that was not assigned since its declaration. -/
def unassignedRead (_ : LocalId) (c : Cell) : Bool := !c.assigned

/-- No declaration of the local leaves it without a value. -/
def declaredWithValue (body : Stmt) (x : LocalId) : Bool := !body.uses.contains (.bare, x)

/-- The reads of unassigned locals. Consuming a local does not unassign it, so no
local is fragile. -/
def assignmentWatch (body : Stmt) : Watch where
  bad := unassignedRead
  steady := declaredWithValue body
  fragile := fun _ => false
  assigned_ok := fun _ _ => rfl
  consume_ok := fun _ _ _ ok => ok
  steady_sturdy := fun _ _ => rfl

/-- Plain mutable locals. -/
def plainLocals : Locals := fun _ => ⟨false, .mutable⟩

/-- `i64 @x; if (c) { x = 1; } else { x = 2; } for (i64 @i = 0; c; i = i + 1) { use(x); }`. -/
def branchesAssign : Stmt :=
  .seq (.declare 0) (.seq
    (.ifElse .callNone (.assign 0 .constant) (.assign 0 .constant))
    (.forLoop (.init 1 .constant) .callNone
      (.assign 1 (.strict false (.cons .plain (.name 1) .nil)))
      (.expr (.callWith 0))))

/-- `i64 @x; for (; c; x = 1) { use(x); }`. -/
def stepAssigns : Stmt :=
  .seq (.declare 0) (.forLoop .skip .callNone (.assign 0 .constant)
    (.expr (.callWith 0)))

end Ciel.Typeck
