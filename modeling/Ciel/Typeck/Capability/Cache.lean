import Ciel.Typeck.Capability.Resolve
import Ciel.Typeck.Capability.Blanket

/-!
# The resolution cache

A query answered from the cache should be answered as it would be without a cache
and with nothing in progress. The guard against cycles makes this fail: an answer
found while another query is in progress may have been cut short, and it is cached
all the same.

If no query that comes up leads back to itself, nothing is cut, and the cache
cannot be seen, whatever was asked before and whatever is in progress.
-/

namespace Ciel.Typeck.Capability

open Ciel.Types
open Library (Plan Memo)

namespace Checker

variable {checker : Checker}

theorem valid_instances {memo : Memo Step Answer} (valid : checker.plan.Valid memo) :
    checker.plan.Valid (instances memo) :=
  fun step answer member => valid step answer (List.mem_of_mem_filter member)

/-- `impl<T> a(T)` and `impl<T: a> b(T)`. -/
def chain : Checker := ofTable (Blanket.table [⟨0, [], []⟩, ⟨1, [(0, "a")], []⟩])

/-- The queries for two interfaces at `i64`. -/
def askA : CapabilityCheckKey := ⟨0, "a", [], .primitive .i64⟩
def askB : CapabilityCheckKey := ⟨1, "b", [], .primitive .i64⟩

theorem chain_acyclic : chain.plan.Acyclic (.byDef askB) := by
  have ordered : chain.plan.Ordered Answer.all (steps askB ++ steps askA) = true := by decide
  exact Plan.acyclic_of_ordered Answer.mem_all ordered (by decide)

/-- `impl<T: b> a(T)`, `impl<T: c> a(T)`, `impl<T: a> b(T)` and `impl<T> c(T)`. -/
def cyclic : Checker := ofTable (Blanket.table
  [⟨0, [(1, "b")], []⟩, ⟨0, [(2, "c")], []⟩, ⟨1, [(0, "a")], []⟩, ⟨2, [], []⟩])

end Checker

end Ciel.Typeck.Capability
