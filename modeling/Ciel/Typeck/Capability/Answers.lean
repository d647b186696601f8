import Ciel.Typeck.Capability.Blanket

/-!
# What the answers of the search mean

On a table where every query is decided, the queries answered satisfied should be
those with an implementation whose constraints they satisfy. A query in progress
is taken not to be satisfied, and a negative constraint turns this into a reason
to accept: `q` if not `n`, and `n` if `q`, has no consistent answer at all, and the
search answers yes to both.

If no negative constraint takes part in a cycle, the answers are a fixpoint. It
need not be the least one, since more satisfied queries can refute others; it is
the least one with the same answers for the queries of negative constraints.
-/

namespace Ciel.Typeck.Capability

open Ciel.Types
open Library (Goal Rules Plan)

namespace ImplTable

/-- No negative constraint takes part in a cycle: the query it forbids does not
depend on the query it is a constraint of. -/
abbrev NegationAcyclic (table : ImplTable) : Prop := table.rules.Layered

/-- The query of a negative constraint of an implementation that matches some
query. -/
def Forbidden (table : ImplTable) (key : CapabilityCheckKey) : Prop :=
  ∃ query, ∃ body ∈ table.rules query, .neg key ∈ body

variable {table : ImplTable}

/-- The answers are a fixpoint of the implementations, and the least one that
answers the queries of negative constraints alike. -/
theorem satisfied_fixpoint (ends : table.AllTerminate) (acyclic : table.NegationAcyclic) :
    (∀ key, table.Satisfied key ↔ table.Implemented table.Satisfied key) ∧
      ∀ S : CapabilityCheckKey → Prop, (∀ key, S key ↔ table.Implemented S key) →
        (∀ key, table.Forbidden key → (S key ↔ table.Satisfied key)) →
          ∀ key, table.Satisfied key → S key := by
  constructor
  · intro key
    rw [← fires_iff_implemented]
    exact Rules.found_iff_fires acyclic ends
  · intro S fixpoint agree key satisfied
    have derives := (Rules.found_iff_derives acyclic ends).mp satisfied
    refine Rules.derives_least (fun query fires => ?_) (fun query body member other negated => ?_)
      derives
    · exact (fixpoint query).mpr (fires_iff_implemented.mp fires)
    · exact (agree other ⟨query, body, member, negated⟩).mp

end ImplTable

namespace Blanket

variable {blankets : List Blanket}

/-- Every query is decided in a table of blanket implementations. -/
theorem allTerminate_table (blankets : List Blanket) : (table blankets).AllTerminate := by
  intro key
  exact Plan.search_terminates (fun _ => 0) (fun _ _ guarded => by cases guarded)
    ((finite_reaches blankets key).subset fun _ => Plan.Pursues.reaches) []

theorem implemented_table {S : CapabilityCheckKey → Prop} {key : CapabilityCheckKey} :
    (table blankets).Implemented S key ↔
      ∃ blanket ∈ blankets, blanket.Fits key ∧
        (∀ entry ∈ blanket.required, S (capabilityAt key.receiverTy.stripOpaqueState entry)) ∧
          ∀ entry ∈ blanket.forbidden, ¬S (capabilityAt key.receiverTy.stripOpaqueState entry) := by
  have met (blanket : Blanket) (receiverTy : Ty) :
      (∀ goal ∈ blanket.goals receiverTy, goal.HoldsIn S) ↔
        (∀ entry ∈ blanket.required, S (capabilityAt receiverTy entry)) ∧
          ∀ entry ∈ blanket.forbidden, ¬S (capabilityAt receiverTy entry) := by
    simp only [goals, List.forall_mem_cons, List.mem_append, or_imp, forall_and,
      List.forall_mem_map]
    exact and_iff_right rfl
  rw [← ImplTable.fires_iff_implemented]
  constructor
  · rintro ⟨body, member, holds⟩
    obtain ⟨blanket, inside, fits, rfl⟩ := mem_rules_table.mp member
    exact ⟨blanket, inside, fits, (met blanket _).mp holds⟩
  · rintro ⟨blanket, inside, fits, holds⟩
    exact ⟨_, mem_rules_table.mpr ⟨blanket, inside, fits, rfl⟩, (met blanket _).mpr holds⟩

/-- No cycle goes through an interface that no bounds name. -/
theorem negationAcyclic_table
    (unnamed : ∀ blanket ∈ blankets, blanket.forbidden ≠ [] →
      ∀ entry ∈ interfaces blankets, entry.1 ≠ blanket.interfaceDef) :
    (table blankets).NegationAcyclic := by
  intro key body member other negated depends
  obtain ⟨blanket, inside, fits, rfl⟩ := mem_rules_table.mp member
  obtain ⟨entry, inForbidden, rfl⟩ : ∃ entry ∈ blanket.forbidden,
      capabilityAt key.receiverTy.stripOpaqueState entry = other := by
    simpa [goals] using negated
  have named : entry ∈ interfaces blankets :=
    List.mem_flatMap.mpr ⟨blanket, inside, List.mem_append_right _ inForbidden⟩
  have notNamed := unnamed blanket inside (List.ne_nil_of_mem inForbidden)
  obtain same | ⟨target, inInterfaces, same⟩ := depends_table depends
  · exact notNamed entry named (fits.1.trans (congrArg (·.interfaceDef) same)).symm
  · exact notNamed target inInterfaces (fits.1.trans (congrArg (·.interfaceDef) same)).symm

/-- Three interfaces. -/
def a : DefId × String := (0, "a")
def b : DefId × String := (1, "b")
def c : DefId × String := (2, "c")

/-- `impl<T> a(T)`, `impl<T: a + !c> b(T)` and `impl<T: c> c(T)`. -/
def layers : List Blanket := [⟨0, [], []⟩, ⟨1, [a], [c]⟩, ⟨2, [c], []⟩]

theorem satisfied_fixpoint_layers :
    (table layers).AllTerminate ∧ (table layers).NegationAcyclic ∧
      (table layers).Satisfied (capabilityAt (.primitive .i64) b) ∧
        (table layers).Implemented (table layers).Satisfied (capabilityAt (.primitive .i64) b) := by
  have ends := allTerminate_table layers
  have acyclic : (table layers).NegationAcyclic := negationAcyclic_table (by decide)
  have satisfied : (table layers).Satisfied (capabilityAt (.primitive .i64) b) := ⟨4, by decide⟩
  exact ⟨ends, acyclic, satisfied, ((ImplTable.satisfied_fixpoint ends acyclic).1 _).mp satisfied⟩

/-- `impl<T: !b> a(T)` and `impl<T: a> b(T)`. -/
def contradiction : List Blanket := [⟨0, [], [b]⟩, ⟨1, [a], []⟩]

/-- `impl<T: a> a(T)` and `impl<T: !a> b(T)`. -/
def selfSupport : List Blanket := [⟨0, [a], []⟩, ⟨1, [], [a]⟩]

/-- The queries for `a`. -/
def asksA (key : CapabilityCheckKey) : Prop :=
  key.interfaceDef = 0 ∧ key.args = [] ∧ containsGeneric key.receiverTy.stripOpaqueState = false

theorem asksA_fixpoint (key : CapabilityCheckKey) :
    asksA key ↔ (table selfSupport).Implemented asksA key := by
  have same := Ty.stripOpaqueState_idem key.receiverTy
  rw [implemented_table]
  constructor
  · rintro ⟨isA, plain, closed⟩
    refine ⟨⟨0, [a], []⟩, by simp [selfSupport], ⟨isA.symm, plain, closed⟩, ?_, by simp⟩
    simp [asksA, capabilityAt, a, same, closed]
  · rintro ⟨blanket, member, ⟨isFor, plain, closed⟩, -, forbids⟩
    have asks : asksA (capabilityAt key.receiverTy.stripOpaqueState a) := by
      simp [asksA, capabilityAt, a, same, closed]
    obtain rfl | rfl : blanket = ⟨0, [a], []⟩ ∨ blanket = ⟨1, [], [a]⟩ := by
      simpa [selfSupport] using member
    · exact ⟨isFor.symm, plain, closed⟩
    · exact absurd asks (forbids a List.mem_cons_self)

/-- With a negative cycle the answers are no fixpoint: `a` is answered satisfied,
and so is `b`, which its only implementation forbids. Without one they need not be
the least fixpoint: `b` is answered satisfied because `a` is not, but `a` supports
itself. -/
theorem answers_not_least_fixpoint :
    ((table contradiction).AllTerminate ∧
      (table contradiction).Satisfied (capabilityAt (.primitive .i64) a) ∧
        ¬(table contradiction).Implemented (table contradiction).Satisfied
          (capabilityAt (.primitive .i64) a)) ∧
      (table selfSupport).AllTerminate ∧ (table selfSupport).NegationAcyclic ∧
        (∀ key, asksA key ↔ (table selfSupport).Implemented asksA key) ∧
          (table selfSupport).Satisfied (capabilityAt (.primitive .i64) b) ∧
            ¬asksA (capabilityAt (.primitive .i64) b) := by
  refine ⟨⟨allTerminate_table _, ⟨4, by decide⟩, ?_⟩, allTerminate_table _,
    negationAcyclic_table (by decide), asksA_fixpoint, ⟨4, by decide⟩, by
      simp [asksA, capabilityAt, b]⟩
  rw [implemented_table]
  rintro ⟨blanket, member, fits, -, forbids⟩
  have satisfied : (table contradiction).Satisfied (capabilityAt (.primitive .i64) b) :=
    ⟨4, by decide⟩
  obtain rfl | rfl : blanket = ⟨0, [], [b]⟩ ∨ blanket = ⟨1, [a], []⟩ := by
    simpa [contradiction] using member
  · exact forbids b List.mem_cons_self satisfied
  · cases fits.1

end Blanket

end Ciel.Typeck.Capability
