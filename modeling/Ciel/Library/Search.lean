import Mathlib.Logic.Relation

/-!
# Depth-first search with a cycle guard

A query is decided by a plan that may ask other queries and goes on according to
their answers. The search keeps the guarded queries in progress on a stack and
cuts a query that is already there short with a fixed answer. It is given fuel,
because nothing bounds the queries that a plan asks for.

The answer depends on the stack only through the guarded queries that can be
reached.
-/

namespace Library

variable {fuel : Nat}

/-- The largest amount of fuel among finitely many. -/
theorem exists_common_fuel {α : Type*} {P : α → Nat → Prop} {items : List α}
    (each : ∀ item ∈ items, ∃ fuel, ∀ more, fuel ≤ more → P item more) :
    ∃ fuel, ∀ more, fuel ≤ more → ∀ item ∈ items, P item more := by
  induction items with
  | nil => exact ⟨0, by simp⟩
  | cons item items ih =>
    obtain ⟨first, head⟩ := each item List.mem_cons_self
    obtain ⟨second, tail⟩ := ih fun other member => each other (List.mem_cons_of_mem _ member)
    refine ⟨max first second, fun more le other member => ?_⟩
    obtain rfl | member := List.mem_cons.mp member
    · exact head more (by omega)
    · exact tail more (by omega) other member

variable {Q A B : Type}

/-- A computation that asks queries and continues with their answers. -/
inductive Ask (Q A B : Type) where
  | done (result : B)
  | ask (query : Q) (next : A → Ask Q A B)

namespace Ask

def bind {C : Type} : Ask Q A B → (B → Ask Q A C) → Ask Q A C
  | done result, rest => rest result
  | ask query next, rest => ask query fun answer => (next answer).bind rest

instance : Monad (Ask Q A) where
  pure := done
  bind := bind

/-- Run a computation with a way to answer its queries. -/
def run (f : Q → Option A) : Ask Q A B → Option B
  | done result => some result
  | ask query next => (f query).bind fun answer => (next answer).run f

/-- The computation asks the query, if the queries before it are answered in some
way. -/
inductive Asks (query : Q) : Ask Q A B → Prop
  | here {next : A → Ask Q A B} : Asks query (ask query next)
  | later {first : Q} {next : A → Ask Q A B} {answer : A} (rest : Asks query (next answer)) :
      Asks query (ask first next)

/-- The computation asks the query after answers that are possible. -/
inductive AsksAmong (P : Q → A → Prop) (query : Q) : Ask Q A B → Prop
  | here {next : A → Ask Q A B} : AsksAmong P query (ask query next)
  | later {first : Q} {next : A → Ask Q A B} {answer : A} (possible : P first answer)
      (rest : AsksAmong P query (next answer)) : AsksAmong P query (ask first next)

/-- The computation comes to the result with answers that are possible. -/
inductive Yields (P : Q → A → Prop) (result : B) : Ask Q A B → Prop
  | done : Yields P result (done result)
  | ask {first : Q} {next : A → Ask Q A B} {answer : A} (possible : P first answer)
      (rest : Yields P result (next answer)) : Yields P result (ask first next)

theorem AsksAmong.asks {P : Q → A → Prop} {query : Q} {plan : Ask Q A B}
    (asks : plan.AsksAmong P query) : plan.Asks query := by
  induction asks with
  | here => exact .here
  | later _ _ ih => exact .later ih

theorem Yields.mono {P P' : Q → A → Prop} (more : ∀ query answer, P query answer → P' query answer)
    {result : B} {plan : Ask Q A B} (yields : plan.Yields P result) : plan.Yields P' result := by
  induction yields with
  | done => exact .done
  | ask possible _ ih => exact .ask (more _ _ possible) ih

/-- The queries that the computation may ask, if the answers are among those of a
list. -/
def queries (answers : List A) : Ask Q A B → List Q
  | done _ => []
  | ask query next => query :: answers.flatMap fun answer => (next answer).queries answers

theorem mem_queries {answers : List A} (all : ∀ answer, answer ∈ answers) {plan : Ask Q A B}
    {query : Q} (asks : plan.Asks query) : query ∈ plan.queries answers := by
  induction asks with
  | here => exact List.mem_cons_self
  | later _ ih => exact List.mem_cons_of_mem _ (List.mem_flatMap.mpr ⟨_, all _, ih⟩)

theorem asks_bind {C : Type} {first : Ask Q A B} {rest : B → Ask Q A C} {query : Q}
    (asks : (first >>= rest).Asks query) :
    first.Asks query ∨ ∃ result, (rest result).Asks query := by
  induction first with
  | done result => exact .inr ⟨result, asks⟩
  | ask query' next ih =>
    cases asks with
    | here => exact .inl .here
    | later asks =>
      obtain early | late := ih _ asks
      · exact .inl (.later early)
      · exact .inr late

theorem run_bind {C : Type} (f : Q → Option A) (first : Ask Q A B) (rest : B → Ask Q A C) :
    (first >>= rest).run f = (first.run f).bind fun result => (rest result).run f := by
  induction first with
  | done => rfl
  | ask query next ih =>
    rw [run, Option.bind_assoc]
    exact congrArg _ (funext ih)

/-- Test the items in order up to the first with the given answer. -/
def upTo {I : Type} (stop : Bool) (test : I → Ask Q A Bool) : List I → Ask Q A Bool
  | [] => pure !stop
  | item :: rest => do
      if (← test item) = stop then pure stop else upTo stop test rest

section UpTo

variable {I : Type} {f : Q → Option A} {stop : Bool} {test : I → Ask Q A Bool} {items : List I}

theorem run_upTo (ran : (upTo stop test items).run f = some stop) :
    ∃ item ∈ items, (test item).run f = some stop := by
  induction items with
  | nil => cases stop <;> cases ran
  | cons item rest ih =>
    rw [upTo, run_bind] at ran
    obtain ⟨answer, found, after⟩ := Option.bind_eq_some_iff.mp ran
    split at after
    next same => exact ⟨item, List.mem_cons_self, same ▸ found⟩
    next =>
      obtain ⟨other, member, holds⟩ := ih after
      exact ⟨other, List.mem_cons_of_mem _ member, holds⟩

theorem run_upTo_not (ran : (upTo stop test items).run f = some !stop) :
    ∀ item ∈ items, (test item).run f = some !stop := by
  induction items with
  | nil => simp
  | cons item rest ih =>
    rw [upTo, run_bind] at ran
    obtain ⟨answer, found, after⟩ := Option.bind_eq_some_iff.mp ran
    split at after
    next => cases stop <;> cases after
    next other =>
      rw [Bool.eq_not.mpr other] at found
      exact List.forall_mem_cons.mpr ⟨found, ih after⟩

theorem asks_upTo {query : Q} (asks : (upTo stop test items).Asks query) :
    ∃ item ∈ items, (test item).Asks query := by
  induction items with
  | nil => cases asks
  | cons item rest ih =>
    obtain first | ⟨answer, after⟩ := asks_bind asks
    · exact ⟨item, List.mem_cons_self, first⟩
    · split at after
      next => cases after
      next =>
        obtain ⟨other, member, asks⟩ := ih after
        exact ⟨other, List.mem_cons_of_mem _ member, asks⟩

end UpTo

theorem run_mono {f g : Q → Option A} (more : ∀ query answer, f query = some answer →
    g query = some answer) {plan : Ask Q A B} {result : B} (ran : plan.run f = some result) :
    plan.run g = some result := by
  induction plan with
  | done => exact ran
  | ask query next ih =>
    obtain ⟨first, found, rest⟩ := Option.bind_eq_some_iff.mp ran
    exact Option.bind_eq_some_iff.mpr ⟨first, more query first found, ih first rest⟩

theorem run_congr {f g : Q → Option A} {plan : Ask Q A B}
    (same : ∀ query, plan.Asks query → f query = g query) : plan.run f = plan.run g := by
  induction plan with
  | done => rfl
  | ask query next ih =>
    rw [run, run, same query .here]
    congr 1
    funext answer
    exact ih answer fun other asks => same other (.later asks)

end Ask

/-- How queries are decided: by a computation for each, with the queries that are
guarded against a cycle and the answer given where one is found. -/
structure Plan (Q A : Type) where
  body : Q → Ask Q A A
  guarded : Q → Bool
  cut : A

namespace Plan

/-- A query can lead to another. -/
abbrev Reaches (plan : Plan Q A) : Q → Q → Prop :=
  Relation.ReflTransGen fun query other => (plan.body query).Asks other

/-- A set of answers that deciding a query from them, or cutting it short, does not leave. -/
structure Covers (plan : Plan Q A) (P : Q → A → Prop) : Prop where
  cut : ∀ query, plan.guarded query = true → P query plan.cut
  body : ∀ query answer, (plan.body query).Yields P answer → P query answer

/-- The answers that a query can have, whatever is in progress: the least such set. -/
def Possible (plan : Plan Q A) (query : Q) (answer : A) : Prop :=
  ∀ P : Q → A → Prop, plan.Covers P → P query answer

theorem covers_possible (plan : Plan Q A) : plan.Covers plan.Possible where
  cut query guarded _ covers := covers.cut query guarded
  body query answer yields P covers :=
    covers.body query answer (yields.mono fun _ _ possible => possible P covers)

/-- A query can lead to another, with answers that are possible on the way. -/
abbrev Pursues (plan : Plan Q A) : Q → Q → Prop :=
  Relation.ReflTransGen fun query other => (plan.body query).AsksAmong plan.Possible other

theorem Pursues.reaches {plan : Plan Q A} {query other : Q} (pursues : plan.Pursues query other) :
    plan.Reaches query other :=
  Relation.ReflTransGen.mono (fun _ _ asks => asks.asks) _ _ pursues

/-- Put a query in progress, if it is guarded. -/
def enter (plan : Plan Q A) (stack : List Q) (query : Q) : List Q :=
  if plan.guarded query then query :: stack else stack

variable {stack : List Q}

theorem mem_enter {plan : Plan Q A} {query other : Q} : other ∈ plan.enter stack query ↔
      (plan.guarded query = true ∧ other = query) ∨ other ∈ stack := by
  cases guarded : plan.guarded query <;> simp [enter, guarded]

variable [DecidableEq Q]

/-- The query is guarded and in progress. -/
def cuts (plan : Plan Q A) (stack : List Q) (query : Q) : Bool :=
  plan.guarded query && decide (query ∈ stack)

/-- Decide a query with the given queries in progress. -/
def search (plan : Plan Q A) : Nat → List Q → Q → Option A
  | 0, _, _ => none
  | fuel + 1, stack, query =>
    if plan.cuts stack query then some plan.cut
    else (plan.body query).run (plan.search fuel (plan.enter stack query))

variable {plan : Plan Q A}

theorem cuts_iff {query : Q} :
    plan.cuts stack query = true ↔ plan.guarded query = true ∧ query ∈ stack := by
  simp [cuts]

theorem search_succ {query : Q} {answer : A} (found : plan.search fuel stack query = some answer) :
    plan.search (fuel + 1) stack query = some answer := by
  induction fuel generalizing stack query answer with
  | zero => cases found
  | succ fuel ih =>
    rw [search] at found ⊢
    split
    next cuts => rwa [if_pos cuts] at found
    next fresh =>
      rw [if_neg fresh] at found
      exact Ask.run_mono (fun _ _ inner => ih inner) found

theorem search_mono {more : Nat} (le : fuel ≤ more) {query : Q} {answer : A}
    (found : plan.search fuel stack query = some answer) :
    plan.search more stack query = some answer := by
  induction le with
  | refl => exact found
  | step _ ih => exact search_succ ih

/-- The answer does not depend on the fuel. -/
theorem search_unique {more : Nat} {query : Q} {answer answer' : A}
    (found : plan.search fuel stack query = some answer)
    (found' : plan.search more stack query = some answer') : answer = answer' := by
  have left := search_mono (Nat.le_max_left fuel more) found
  have right := search_mono (Nat.le_max_right fuel more) found'
  exact Option.some.inj (left.symm.trans right)

/-- Only the guarded queries that can be reached matter on the stack. -/
theorem search_congr_stack {query : Q} {stack stack' : List Q}
    (same : ∀ other, plan.guarded other = true → plan.Reaches query other →
      (other ∈ stack ↔ other ∈ stack')) :
    plan.search fuel stack query = plan.search fuel stack' query := by
  induction fuel generalizing query stack stack' with
  | zero => rfl
  | succ fuel ih =>
    have cuts : plan.cuts stack query = plan.cuts stack' query := by
      rw [Bool.eq_iff_iff, cuts_iff, cuts_iff]
      exact and_congr_right fun guarded => same query guarded .refl
    rw [search, search, cuts]
    split
    · rfl
    · refine Ask.run_congr fun inner asks => ih fun other guarded reaches => ?_
      rw [mem_enter, mem_enter, same other guarded (.head asks reaches)]

end Plan

end Library
