import Ciel.Typeck.Soundness

/-!
# Resources are used once

A local of affine type holds a resource: handing it over consumes it, and it may
not be used again before it is assigned anew. Moving a local out of a loop
around which it was declared is refused, except in a returned value, where the
checker takes it that the loop is left. A block nested in the returned value can
go on with the loop instead.

If returned values that move a resource hold no loop and no jump, and the code
that is checked ahead of its turn leaves resources alone, the checker is right
on all paths. Every consumption is preceded by a read of the same local, so it
is enough to watch the reads.
-/

namespace Ciel.Typeck

/-- A cell of a resource that was handed over and not assigned since. -/
def consumedRead (locals : Locals) (x : LocalId) (c : Cell) : Bool :=
  (locals x).affine && c.consumed

/-- The reads of consumed resources. -/
def affineWatch (locals : Locals) : Watch where
  bad := consumedRead locals
  steady := fun x => !(locals x).affine
  fragile := fun x => (locals x).affine
  assigned_ok := fun _ _ => Bool.and_false _
  consume_ok := fun _ _ plain _ => by simp only [consumedRead, plain, Bool.false_and]
  steady_sturdy := fun _ plain => by simpa only [Bool.not_eq_true'] using plain

/-- Mutable locals that hold resources. -/
def resourceLocals : Locals := fun _ => ⟨true, .mutable⟩

/-- `while (c) { if (c) { return consume(x); } } Res @y = open(); consume(x); x = y; return x;`. -/
def returnFromLoop : Stmt :=
  .seq (.whileLoop .callNone (.ifElse .callNone (.ret (.callWith 0)) .skip))
    (.seq (.init 1 .callNone)
      (.seq (.expr (.callWith 0)) (.seq (.assign 0 (.name 1)) (.ret (.name 0)))))

/-- `return unsafe { consume(x); if (c()) { continue; } };`. -/
def continuingReturn : Stmt :=
  .ret (.unsafeBlock
    (.seq (.expr (.callWith 0)) (.ifElse .callNone .continueStmt .skip)) .constant)

end Ciel.Typeck
