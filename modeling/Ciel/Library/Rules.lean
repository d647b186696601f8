import Ciel.Library.Search

/-!
# Rules with negation as failure

A query holds if one of its rules does, and a rule holds if all its goals do: a
side condition that is already decided, a query that must hold, or one that must
not. The guarded search tries the rules in order, the goals of a rule in order,
and takes a query that is already in progress not to hold.

Where no negated query depends on the query that negates it, the queries that the
search finds to hold are those that can be derived by the rules, with the search's
own answers for the negated queries. So they are a fixpoint of the rules, and
every closed set that agrees with them on the negated queries contains them.
-/

namespace Library

variable {Q : Type}
variable {query : Q} {stack : List Q}

inductive Goal (Q : Type) where
  | check (ok : Bool)
  | pos (query : Q)
  | neg (query : Q)
  deriving DecidableEq, Repr

namespace Goal

/-- The goal is met if the queries of the first set hold where they must not be
met, and those of the second where they must be. -/
def under (refuted proved : Q → Prop) : Goal Q → Prop
  | check ok => ok = true
  | pos query => proved query
  | neg query => ¬refuted query

/-- The goal is met by a set of queries. -/
abbrev HoldsIn (S : Q → Prop) : Goal Q → Prop := under S S

theorem under_mono {refuted proved proved' : Q → Prop}
    (more : ∀ query, proved query → proved' query)
    {goal : Goal Q} (holds : goal.under refuted proved) : goal.under refuted proved' := by
  cases goal with
  | pos query => exact more query holds
  | check | neg => exact holds

def query? : Goal Q → Option Q
  | check _ => none
  | pos query | neg query => some query

def ask : Goal Q → Ask Q Bool Bool
  | check ok => .done ok
  | pos query => .ask query .done
  | neg query => .ask query fun answer => .done !answer

/-- All goals, up to the first that is not met. -/
def askAll : List (Goal Q) → Ask Q Bool Bool
  | [] => pure true
  | goal :: rest => do
      if ← goal.ask then askAll rest else pure false

/-- The rules one after the other, up to the first that holds. -/
def askAny : List (List (Goal Q)) → Ask Q Bool Bool
  | [] => pure false
  | body :: rest => do
      if ← askAll body then pure true else askAny rest

variable {f : Q → Option Bool}

@[simp] theorem run_ask_pos (query : Q) : (pos query).ask.run f = f query := by
  cases found : f query <;> simp [ask, Ask.run, found]

@[simp] theorem run_ask_neg {answer : Bool} :
    (neg query).ask.run f = some answer ↔ f query = some !answer := by
  cases found : f query <;> simp [ask, Ask.run, found, Bool.not_eq_eq_eq_not]

theorem askAll_eq (goals : List (Goal Q)) : askAll goals = Ask.upTo false ask goals := by
  induction goals with
  | nil => rfl
  | cons goal rest ih =>
    refine congrArg _ (funext fun met => ?_)
    cases met with
    | false => rfl
    | true => exact ih

theorem askAny_eq (rules : List (List (Goal Q))) : askAny rules = Ask.upTo true askAll rules := by
  induction rules with
  | nil => rfl
  | cons body rest ih =>
    refine congrArg _ (funext fun met => ?_)
    cases met with
    | false => exact ih
    | true => rfl

theorem run_askAll_true {goals : List (Goal Q)} (ran : (askAll goals).run f = some true) :
    ∀ goal ∈ goals, goal.ask.run f = some true :=
  Ask.run_upTo_not (askAll_eq goals ▸ ran)

theorem run_askAll_false {goals : List (Goal Q)} (ran : (askAll goals).run f = some false) :
    ∃ goal ∈ goals, goal.ask.run f = some false :=
  Ask.run_upTo (askAll_eq goals ▸ ran)

theorem run_askAny_true {rules : List (List (Goal Q))} (ran : (askAny rules).run f = some true) :
    ∃ body ∈ rules, (askAll body).run f = some true :=
  Ask.run_upTo (askAny_eq rules ▸ ran)

theorem run_askAny_false {rules : List (List (Goal Q))} (ran : (askAny rules).run f = some false) :
    ∀ body ∈ rules, (askAll body).run f = some false :=
  Ask.run_upTo_not (askAny_eq rules ▸ ran)

theorem asks_askAll {goals : List (Goal Q)} (asks : (askAll goals).Asks query) :
    ∃ goal ∈ goals, goal.query? = some query := by
  obtain ⟨goal, member, first⟩ := Ask.asks_upTo (askAll_eq goals ▸ asks)
  refine ⟨goal, member, ?_⟩
  cases goal with
  | check => cases first
  | pos other | neg other =>
    cases first with
    | here => rfl
    | later none => cases none

theorem asks_askAny {rules : List (List (Goal Q))} (asks : (askAny rules).Asks query) :
    ∃ body ∈ rules, ∃ goal ∈ body, goal.query? = some query := by
  obtain ⟨body, member, inside⟩ := Ask.asks_upTo (askAny_eq rules ▸ asks)
  exact ⟨body, member, asks_askAll inside⟩

end Goal

/-- The rules of every query. -/
def Rules (Q : Type) := Q → List (List (Goal Q))

namespace Rules

def plan (rules : Rules Q) : Plan Q Bool where
  body query := Goal.askAny (rules query)
  guarded _ := true
  cut := false

/-- A goal of a rule for the first query mentions the second. -/
def Mentions (rules : Rules Q) (query other : Q) : Prop :=
  ∃ body ∈ rules query, ∃ goal ∈ body, goal.query? = some other

/-- The first query depends on the second through any number of rules. -/
abbrev Depends (rules : Rules Q) : Q → Q → Prop := Relation.ReflTransGen rules.Mentions

/-- No query is negated by a rule of a query it depends on. -/
def Layered (rules : Rules Q) : Prop :=
  ∀ query, ∀ body ∈ rules query, ∀ other, .neg other ∈ body → ¬rules.Depends other query

/-- Some rule of the query is met by a set. -/
def Fires (rules : Rules Q) (S : Q → Prop) (query : Q) : Prop :=
  ∃ body ∈ rules query, ∀ goal ∈ body, goal.HoldsIn S

/-- A query can be derived in a number of steps, with the negated queries of a
fixed set taken to hold. -/
def DerivesIn (rules : Rules Q) (refuted : Q → Prop) : Nat → Q → Prop
  | 0, _ => False
  | n + 1, query => ∃ body ∈ rules query, ∀ goal ∈ body,
      goal.under refuted (rules.DerivesIn refuted n)

def Derives (rules : Rules Q) (refuted : Q → Prop) (query : Q) : Prop :=
  ∃ n, rules.DerivesIn refuted n query

variable {rules : Rules Q} {refuted : Q → Prop}

/-- Every query is guarded. -/
theorem enter_eq : rules.plan.enter stack query = query :: stack := rfl

theorem depends_of_reaches {other : Q} (reaches : rules.plan.Reaches query other) :
    rules.Depends query other :=
  Relation.ReflTransGen.mono (fun _ _ asks => Goal.asks_askAny asks) _ _ reaches

theorem above_cons {other : Q} (above : ∀ earlier ∈ stack, rules.Depends earlier query)
    (mentions : rules.Mentions query other) :
    ∀ earlier ∈ query :: stack, rules.Depends earlier other := by
  refine List.forall_mem_cons.mpr ⟨.single mentions, fun earlier member => ?_⟩
  exact (above earlier member).tail mentions

theorem derivesIn_mono {n m : Nat} (le : n ≤ m) (derives : rules.DerivesIn refuted n query) :
    rules.DerivesIn refuted m query := by
  induction m generalizing n query with
  | zero => rwa [Nat.le_zero.mp le] at derives
  | succ m ih =>
    cases n with
    | zero => exact derives.elim
    | succ n =>
      obtain ⟨body, member, met⟩ := derives
      refine ⟨body, member, fun goal inBody => ?_⟩
      exact Goal.under_mono (fun _ => ih (Nat.le_of_succ_le_succ le)) (met goal inBody)

theorem exists_least_derivation {n : Nat} (derives : rules.DerivesIn refuted n query) :
    ∃ m < n, rules.DerivesIn refuted (m + 1) query ∧ ¬rules.DerivesIn refuted m query := by
  induction n with
  | zero => exact derives.elim
  | succ n ih =>
    by_cases fewer : rules.DerivesIn refuted n query
    · obtain ⟨m, less, least⟩ := ih fewer
      exact ⟨m, by omega, least⟩
    · exact ⟨n, by omega, derives, fewer⟩

/-- The goals of a rule can be derived in one number of steps. -/
theorem derivesIn_goals {goals : List (Goal Q)}
    (met : ∀ goal ∈ goals, goal.under refuted (rules.Derives refuted)) :
    ∃ n, ∀ goal ∈ goals, goal.under refuted (rules.DerivesIn refuted n) := by
  induction goals with
  | nil => exact ⟨0, by simp⟩
  | cons goal rest ih =>
    obtain ⟨first, others⟩ := List.forall_mem_cons.mp met
    obtain ⟨n, met⟩ := ih others
    obtain ⟨m, here⟩ : ∃ m, goal.under refuted (rules.DerivesIn refuted m) := by
      cases goal with
      | pos => exact first
      | check | neg => exact ⟨0, first⟩
    refine ⟨max n m, List.forall_mem_cons.mpr ⟨?_, fun other member => ?_⟩⟩
    · exact Goal.under_mono (fun _ => derivesIn_mono (Nat.le_max_right n m)) here
    · exact Goal.under_mono (fun _ => derivesIn_mono (Nat.le_max_left n m)) (met other member)

/-- A query is derived if and only if one of its rules is met by what is derived. -/
theorem derives_iff : rules.Derives refuted query ↔
    ∃ body ∈ rules query, ∀ goal ∈ body, goal.under refuted (rules.Derives refuted) := by
  constructor
  · rintro ⟨_ | n, derives⟩
    · exact derives.elim
    · obtain ⟨body, member, met⟩ := derives
      exact ⟨body, member, fun goal inBody =>
        Goal.under_mono (fun _ derives => ⟨n, derives⟩) (met goal inBody)⟩
  · rintro ⟨body, member, met⟩
    obtain ⟨n, met⟩ := derivesIn_goals met
    exact ⟨n + 1, body, member, met⟩

/-- What is derived lies in every closed set that agrees on the negated queries. -/
theorem derives_least {S : Q → Prop} (closed : ∀ query, rules.Fires S query → S query)
    (agree : ∀ query, ∀ body ∈ rules query, ∀ other, .neg other ∈ body → S other → refuted other)
    (derives : rules.Derives refuted query) : S query := by
  obtain ⟨n, derives⟩ := derives
  induction n generalizing query with
  | zero => exact derives.elim
  | succ n ih =>
    obtain ⟨body, member, met⟩ := derives
    refine closed query ⟨body, member, fun goal inBody => ?_⟩
    have goalMet := met goal inBody
    cases goal with
    | check => exact goalMet
    | pos other => exact ih goalMet
    | neg other => exact fun inside => goalMet (agree query body member other inBody inside)

section Search

variable [DecidableEq Q]

/-- The search finds the query to hold with nothing in progress. -/
def Found (rules : Rules Q) (query : Q) : Prop :=
  ∃ fuel, rules.plan.search fuel [] query = some true

section

variable (layered : rules.Layered)

include layered

/-- A negated query is answered as with nothing in progress, since it does not
depend on the queries that lead to it. -/
theorem search_negated {other : Q}
    (above : ∀ earlier ∈ stack, rules.Depends earlier query) {body : List (Goal Q)}
    (member : body ∈ rules query) (negated : .neg other ∈ body) (fuel : Nat) :
    rules.plan.search fuel (query :: stack) other = rules.plan.search fuel [] other := by
  refine Plan.search_congr_stack fun inner _ reaches => iff_of_false (fun inside => ?_) (by simp)
  apply layered query body member other negated
  have down := depends_of_reaches reaches
  obtain rfl | earlier := List.mem_cons.mp inside
  · exact down
  · exact down.trans (above inner earlier)

theorem derives_of_search {fuel : Nat} (above : ∀ earlier ∈ stack, rules.Depends earlier query)
    (found : rules.plan.search fuel stack query = some true) :
    rules.Derives rules.Found query := by
  induction fuel generalizing stack query with
  | zero => cases found
  | succ fuel ih =>
    rw [Plan.search] at found
    split at found
    next => cases found
    next =>
      obtain ⟨body, member, ran⟩ := Goal.run_askAny_true found
      refine derives_iff.mpr ⟨body, member, fun goal inBody => ?_⟩
      have goalRan := Goal.run_askAll_true ran goal inBody
      cases goal with
      | check ok => exact Option.some.inj goalRan
      | pos other =>
        rw [Goal.run_ask_pos] at goalRan
        exact ih (above_cons above ⟨body, member, _, inBody, rfl⟩) goalRan
      | neg other =>
        have fails := Goal.run_ask_neg.mp goalRan
        rw [enter_eq, search_negated layered above member inBody] at fails
        rintro ⟨more, holds⟩
        cases Plan.search_unique fails holds

/-- A query that can be derived is not refuted, if none in progress can be derived
in as few steps. -/
theorem search_of_derivesIn {n fuel : Nat} (above : ∀ earlier ∈ stack, rules.Depends earlier query)
    (higher : ∀ earlier ∈ stack, ¬rules.DerivesIn rules.Found n earlier)
    (derives : rules.DerivesIn rules.Found n query) :
    rules.plan.search fuel stack query ≠ some false := by
  induction fuel generalizing n stack query with
  | zero => simp [Plan.search]
  | succ fuel ih =>
    -- a shortest derivation of the query, so that the query itself is no obstacle to its goals
    obtain ⟨m, less, derives', minimal⟩ := exists_least_derivation derives
    rw [Plan.search]
    split
    next cuts =>
      exact absurd derives (higher query (Plan.cuts_iff.mp cuts).2)
    next =>
      intro ran
      obtain ⟨body, member, met⟩ := derives'
      obtain ⟨goal, inBody, goalRan⟩ :=
        Goal.run_askAll_false (Goal.run_askAny_false ran body member)
      have goalMet := met goal inBody
      cases goal with
      | check ok => exact Bool.false_ne_true ((Option.some.inj goalRan).symm.trans goalMet)
      | pos other =>
        rw [Goal.run_ask_pos] at goalRan
        refine ih (above_cons above ⟨body, member, _, inBody, rfl⟩) ?_ goalMet goalRan
        refine List.forall_mem_cons.mpr ⟨minimal, fun earlier inside low => ?_⟩
        exact higher earlier inside (derivesIn_mono (by omega) low)
      | neg other =>
        have holds := Goal.run_ask_neg.mp goalRan
        rw [enter_eq, search_negated layered above member inBody] at holds
        exact goalMet ⟨fuel, holds⟩

/-- Where every search ends, what it finds is what can be derived. -/
theorem found_iff_derives
    (ends : ∀ query, ∃ fuel answer, rules.plan.search fuel [] query = some answer) :
    rules.Found query ↔ rules.Derives rules.Found query := by
  constructor
  · rintro ⟨fuel, found⟩
    exact derives_of_search layered (by simp) found
  · rintro ⟨n, derives⟩
    obtain ⟨fuel, answer, found⟩ := ends query
    cases answer with
    | true => exact ⟨fuel, found⟩
    | false => exact absurd found (search_of_derivesIn layered (by simp) (by simp) derives)

/-- What the search finds is a fixpoint of the rules. -/
theorem found_iff_fires
    (ends : ∀ query, ∃ fuel answer, rules.plan.search fuel [] query = some answer) :
    rules.Found query ↔ rules.Fires rules.Found query := by
  have same : rules.Derives rules.Found = rules.Found := by
    funext other
    exact propext (found_iff_derives layered ends).symm
  rw [found_iff_derives layered ends, derives_iff, same]
  rfl

end

end Search

end Rules

end Library
