import Ciel.Library.Memo

/-!
# Hunts

A hunt looks for a goal from query to query: a query is a goal, or points to others
that are tried in order. The guarded queries in progress are not tried again. What
was not found below such a query is forgotten when the search leaves it, so a query
may be gone through several times, with other queries in progress.

The answer does not depend on the way to the query. On a shortest way to a goal no
query comes twice, so none of them is cut off.
-/

namespace Library

variable {Q : Type} {look : Q → Option (List Q)} {guarded : Q → Bool} {query : Q}

/-- Hunt from query to query; a query at which there is nothing to try is a goal. -/
def Plan.hunt (look : Q → Option (List Q)) (guarded : Q → Bool) : Plan Q Bool where
  body query := match look query with
    | none => .done true
    | some others => .upTo true (fun other => .ask other .done) others
  guarded := guarded
  cut := false

namespace Hunt

def Points (look : Q → Option (List Q)) (query other : Q) : Prop :=
  ∃ others, look query = some others ∧ other ∈ others

/-- A goal can be reached. -/
def Succeeds (look : Q → Option (List Q)) (query : Q) : Prop :=
  ∃ goal, Relation.ReflTransGen (Points look) query goal ∧ look goal = none

/-- A goal is fewer than the given number of steps away. -/
def Near (look : Q → Option (List Q)) : Nat → Q → Prop
  | 0, _ => False
  | n + 1, query => look query = none ∨ ∃ other, Points look query other ∧ Near look n other

theorem Near.mono {n m : Nat} (le : n ≤ m) (near : Near look n query) : Near look m query := by
  induction m generalizing n query with
  | zero => rwa [Nat.le_zero.mp le] at near
  | succ m ih =>
    cases n with
    | zero => exact near.elim
    | succ n =>
      refine near.imp_right ?_
      rintro ⟨other, points, near⟩
      exact ⟨other, points, ih (Nat.le_of_succ_le_succ le) near⟩

theorem Succeeds.near (succeeds : Succeeds look query) : ∃ n, Near look n query := by
  obtain ⟨goal, way, isGoal⟩ := succeeds
  induction way using Relation.ReflTransGen.head_induction_on with
  | refl => exact ⟨1, .inl isGoal⟩
  | head points _ ih =>
    obtain ⟨n, near⟩ := ih
    exact ⟨n + 1, .inr ⟨_, points, near⟩⟩

/-- Two descriptions of what is hunted agree from the queries of a closed set, if they
have the same goals there and lead on alike from what is no goal. -/
theorem succeeds_iff {D L : Q → Prop} {R : Q → Q → Prop}
    (inside : ∀ {query other}, D query → R query other → D other)
    (goals : ∀ {query}, D query → (look query = none ↔ L query))
    (points : ∀ {query other}, D query → ¬L query → (Points look query other ↔ R query other))
    (start : D query) :
    Succeeds look query ↔ ∃ goal, Relation.ReflTransGen R query goal ∧ L goal := by
  constructor
  · rintro ⟨goal, way, isGoal⟩
    induction way using Relation.ReflTransGen.head_induction_on with
    | refl => exact ⟨goal, .refl, (goals start).mp isGoal⟩
    | @head first next step _ ih =>
      have noGoal : ¬L first := fun atGoal => by
        obtain ⟨others, some, -⟩ := step
        cases ((goals start).mpr atGoal).symm.trans some
      have step := (points start noGoal).mp step
      obtain ⟨found, way, isGoal⟩ := ih (inside start step)
      exact ⟨found, .head step way, isGoal⟩
  · rintro ⟨goal, way, isGoal⟩
    induction way using Relation.ReflTransGen.head_induction_on with
    | refl => exact ⟨goal, .refl, (goals start).mpr isGoal⟩
    | @head first next step _ ih =>
      -- a goal on the way is good enough
      by_cases here : L first
      · exact ⟨first, .refl, (goals start).mpr here⟩
      · obtain ⟨found, way, isGoal⟩ := ih (inside start step)
        exact ⟨found, .head ((points start here).mpr step) way, isGoal⟩

theorem points_of_asks {other : Q} (asks : ((Plan.hunt look guarded).body query).Asks other) :
    Points look query other := by
  dsimp only [Plan.hunt] at asks
  split at asks
  next => cases asks
  next others some =>
    obtain ⟨_, member, first⟩ := Ask.asks_upTo asks
    cases first with
    | here => exact ⟨others, some, member⟩
    | later none => cases none

theorem run_ask (f : Q → Option Bool) (other : Q) :
    (Ask.ask other Ask.done : Ask Q Bool Bool).run f = f other := by
  cases found : f other <;> simp [Ask.run, found]

theorem run_single (f : Q → Option Bool) (other : Q) :
    (Ask.upTo true (fun other => Ask.ask other Ask.done) [other] : Ask Q Bool Bool).run f =
      f other := by
  rw [Ask.upTo, Ask.run_bind, run_ask]
  cases found : f other with
  | none => rfl
  | some answer => cases answer <;> rfl

variable [DecidableEq Q] {fuel : Nat} {stack : List Q}

theorem succeeds_of_search (found : (Plan.hunt look guarded).search fuel stack query = some true) :
    Succeeds look query := by
  induction fuel generalizing stack query with
  | zero => cases found
  | succ fuel ih =>
    rw [Plan.search] at found
    split at found
    · cases found
    dsimp only [Plan.hunt] at found
    split at found
    next isGoal => exact ⟨query, .refl, isGoal⟩
    next others some =>
      obtain ⟨other, member, ran⟩ := Ask.run_upTo found
      rw [run_ask] at ran
      obtain ⟨goal, way, isGoal⟩ := ih ran
      exact ⟨goal, .head ⟨others, some, member⟩ way, isGoal⟩

/-- A failed search is right for the goals that are nearer than from any query in
progress. -/
theorem far_of_search (found : (Plan.hunt look guarded).search fuel stack query = some false)
    {n : Nat} (far : ∀ earlier ∈ stack, ¬Near look n earlier) : ¬Near look n query := by
  induction fuel generalizing n stack query with
  | zero => cases found
  | succ fuel ih =>
    rw [Plan.search] at found
    split at found
    next cuts => exact far query (Plan.cuts_iff.mp cuts).2
    dsimp only [Plan.hunt] at found
    split at found
    next => cases found
    next others some =>
      -- by the number of steps, so that the query itself is far enough for what it points to
      induction n with
      | zero => exact id
      | succ n less =>
        have farther := less fun earlier inside near => far earlier inside (near.mono n.le_succ)
        rintro (isGoal | ⟨other, ⟨others', some', member⟩, near⟩)
        · cases isGoal.symm.trans some
        obtain rfl := Option.some.inj (some.symm.trans some')
        have ran := Ask.run_upTo_not found other member
        rw [run_ask] at ran
        refine ih ran (fun earlier inside => ?_) near
        obtain ⟨-, rfl⟩ | inside := Plan.mem_enter.mp inside
        · exact farther
        · exact fun near => far earlier inside (near.mono n.le_succ)

/-- An answer of the search is right. -/
theorem search_iff {answer : Bool}
    (found : (Plan.hunt look guarded).search fuel [] query = some answer) :
    answer = true ↔ Succeeds look query := by
  cases answer with
  | true => exact iff_of_true rfl (succeeds_of_search found)
  | false =>
    refine iff_of_false (by simp) fun succeeds => ?_
    obtain ⟨n, near⟩ := succeeds.near
    exact far_of_search found (by simp) near

/-- The search ends if finitely many queries can be reached and unguarded queries
point to queries of smaller rank. -/
theorem search_ends (rank : Q → Nat) (descends : ∀ query other, guarded query = false →
      Points look query other → rank other < rank query)
    (finite : {other | Relation.ReflTransGen (Points look) query other}.Finite) :
    ∃ fuel answer, (Plan.hunt look guarded).search fuel [] query = some answer := by
  refine Plan.search_terminates rank (fun query other free asks => ?_) (finite.subset ?_) []
  · exact descends query other free (points_of_asks asks)
  · exact Relation.ReflTransGen.mono (fun _ _ asks => points_of_asks asks.asks) query

end Hunt

end Library
