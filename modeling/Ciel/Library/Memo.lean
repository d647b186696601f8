import Mathlib.Data.Finset.Lattice.Fold
import Mathlib.Data.Finset.Card
import Mathlib.Data.Set.Finite.Basic
import Ciel.Library.Search

/-!
# Guarded search with a memo

The search of a plan, with answers that are kept and given again when a query is
asked a second time. What is kept may depend on the query and on its answer.

The search ends if only finitely many queries can be reached with answers that are
possible and no chain of unguarded queries goes on for ever, whatever was asked before
and whatever is in progress.

An answer found while other queries are in progress may have been cut short, so
keeping it is not safe in general. If no guarded query that can be reached leads
back to itself, nothing is ever cut: the search with the memo ends exactly when
the one without does, with the same answer, whatever was asked before.
-/

namespace Library

variable {Q A B : Type}
variable {query : Q} {fuel : Nat} {answer : A} {rank : Q → Nat} {plan : Ask Q A B}

/-- Answers that were kept, the newest first. -/
abbrev Memo (Q A : Type) := List (Q × A)

namespace Ask

/-- Run a computation whose queries are answered with a state. -/
def runState {σ : Type} (f : Q → σ → Option (A × σ)) : Ask Q A B → σ → Option (B × σ)
  | done result, s => some (result, s)
  | ask query next, s => (f query s).bind fun answered => (next answered.1).runState f answered.2

/-- If answering a query with a state gives an answer that is also found without,
at some level of effort, the same is true of a computation. -/
theorem run_of_runState {σ : Type} {f : Q → σ → Option (A × σ)} {g : Nat → Q → Option A}
    {Good : σ → Prop} (mono : ∀ {n m : Nat}, n ≤ m → ∀ query answer, g n query = some answer →
      g m query = some answer)
    (each : ∀ query, plan.Asks query → ∀ s answer s', Good s → f query s = some (answer, s') →
      Good s' ∧ ∃ n, g n query = some answer) {s s' : σ} {result : B} (good : Good s)
    (ran : plan.runState f s = some (result, s')) :
    Good s' ∧ ∃ n, plan.run (g n) = some result := by
  induction plan generalizing s with
  | done =>
    cases ran
    exact ⟨good, 0, rfl⟩
  | ask query next ih =>
    obtain ⟨⟨answer, middle⟩, first, rest⟩ := Option.bind_eq_some_iff.mp ran
    obtain ⟨good', n, found⟩ := each query .here s answer middle good first
    obtain ⟨good'', m, found'⟩ := ih answer (fun other asks => each other (.later asks)) good' rest
    refine ⟨good'', max n m, Option.bind_eq_some_iff.mpr ⟨answer, ?_, ?_⟩⟩
    · exact mono (Nat.le_max_left n m) query answer found
    · exact run_mono (mono (Nat.le_max_right n m)) found'

/-- If a query that is answered without a state is answered the same with one, so
is a computation. -/
theorem runState_of_run {σ : Type} {f : Q → σ → Option (A × σ)} {g : Q → Option A} {Good : σ → Prop}
    (each : ∀ query, plan.Asks query → ∀ s answer, Good s → g query = some answer →
      ∃ s', f query s = some (answer, s') ∧ Good s') {s : σ} {result : B} (good : Good s)
    (ran : plan.run g = some result) :
    ∃ s', plan.runState f s = some (result, s') ∧ Good s' := by
  induction plan generalizing s with
  | done =>
    cases ran
    exact ⟨s, rfl, good⟩
  | ask query next ih =>
    obtain ⟨answer, first, rest⟩ := Option.bind_eq_some_iff.mp ran
    obtain ⟨middle, found, good'⟩ := each query .here s answer good first
    obtain ⟨s', found', good''⟩ :=
      ih answer (fun other asks => each other (.later asks)) good' rest
    exact ⟨s', Option.bind_eq_some_iff.mpr ⟨(answer, middle), found, found'⟩, good''⟩

section Possible

variable {σ : Type} {f : Q → σ → Option (A × σ)} {P : Q → A → Prop} {Good : σ → Prop}

/-- A computation whose queries have possible answers comes to a result with possible
answers. -/
theorem yields_of_runState (each : ∀ query s answer s', Good s → f query s = some (answer, s') →
      P query answer ∧ Good s') {s s' : σ} {result : B} (good : Good s)
    (ran : plan.runState f s = some (result, s')) : plan.Yields P result ∧ Good s' := by
  induction plan generalizing s with
  | done =>
    cases ran
    exact ⟨.done, good⟩
  | ask query next ih =>
    obtain ⟨⟨answer, middle⟩, first, rest⟩ := Option.bind_eq_some_iff.mp ran
    obtain ⟨possible, good'⟩ := each query s answer middle good first
    obtain ⟨yields, good''⟩ := ih answer good' rest
    exact ⟨.ask possible yields, good''⟩

theorem runState_ne_none (each : ∀ query s answer s', Good s → f query s = some (answer, s') →
      P query answer ∧ Good s')
    (all : ∀ query, plan.AsksAmong P query → ∀ s, Good s → f query s ≠ none) {s : σ}
    (good : Good s) : plan.runState f s ≠ none := by
  induction plan generalizing s with
  | done => exact Option.some_ne_none _
  | ask query next ih =>
    obtain ⟨⟨answer, middle⟩, found⟩ := Option.ne_none_iff_exists'.mp (all query .here s good)
    obtain ⟨possible, good'⟩ := each query s answer middle good found
    rw [runState, found]
    exact ih answer (fun other asks => all other (.later possible asks)) good'

end Possible

end Ask

namespace Plan

variable (plan : Plan Q A)

/-- One query leads to another through at least one question. -/
abbrev LeadsTo : Q → Q → Prop :=
  Relation.TransGen fun query other => (plan.body query).Asks other

/-- No guarded query that can be reached leads back to itself. -/
def Acyclic (query : Q) : Prop :=
  ∀ other, plan.Reaches query other → plan.guarded other = true → ¬plan.LeadsTo other other

variable {plan} in
theorem Acyclic.of_asks {other : Q} (acyclic : plan.Acyclic query)
    (asks : (plan.body query).Asks other) : plan.Acyclic other :=
  fun inner reaches => acyclic inner (.head asks reaches)

/-- Nothing leads back to itself from a query whose questions come to an end. -/
theorem acyclic_of_acc {plan : Plan Q A}
    (ends : Acc (fun other query => (plan.body query).Asks other) query) : plan.Acyclic query := by
  induction ends with
  | intro query _ ih =>
    intro other reaches guarded leads
    obtain same | ⟨next, asks, reaches⟩ := Relation.ReflTransGen.cases_head_iff.mp reaches
    · subst same
      obtain ⟨next, asks, back⟩ := Relation.TransGen.head'_iff.mp leads
      exact ih next asks query back guarded leads
    · exact ih next asks other reaches guarded leads

/-- The steps of a list, the later first, ask only for later ones. -/
def Ordered [DecidableEq Q] (answers : List A) : List Q → Bool
  | [] => true
  | query :: rest =>
    ((plan.body query).queries answers).all (fun other => decide (other ∈ rest)) &&
      Ordered answers rest

theorem acyclic_of_ordered [DecidableEq Q] {plan : Plan Q A} {answers : List A}
    (all : ∀ answer, answer ∈ answers) {queries : List Q} (ordered : plan.Ordered answers queries)
    (member : query ∈ queries) : plan.Acyclic query := by
  apply acyclic_of_acc
  induction queries generalizing query with
  | nil => cases member
  | cons first rest ih =>
    obtain ⟨here, later⟩ := Bool.and_eq_true_iff.mp ordered
    obtain rfl | member := List.mem_cons.mp member
    · refine ⟨_, fun other asks => ih later ?_⟩
      simpa using List.all_eq_true.mp here other (Ask.mem_queries all asks)
    · exact ih later member

/-- The queries of a list ask only for queries of the list. -/
def Closed [DecidableEq Q] (answers : List A) (queries : List Q) : Bool :=
  queries.all fun query =>
    ((plan.body query).queries answers).all fun other => decide (other ∈ queries)

theorem finite_of_closed [DecidableEq Q] {plan : Plan Q A} {answers : List A}
    (all : ∀ answer, answer ∈ answers) {queries : List Q} (closed : plan.Closed answers queries)
    (member : query ∈ queries) : {other | plan.Reaches query other}.Finite := by
  apply (List.finite_toSet queries).subset
  intro other reaches
  induction reaches with
  | refl => exact member
  | tail _ asks ih =>
    have inside := List.all_eq_true.mp closed _ ih
    simpa using List.all_eq_true.mp inside _ (Ask.mem_queries all asks)

variable [DecidableEq Q]

/-- Decide a query with the given queries in progress and answers kept. -/
def memoSearch (keep : Q → A → Bool) : Nat → List Q → Q → Memo Q A → Option (A × Memo Q A)
  | 0, _, _, _ => none
  | fuel + 1, stack, query, memo =>
    match memo.lookup query with
    | some answer => some (answer, memo)
    | none =>
      if plan.cuts stack query then some (plan.cut, memo)
      else
        ((plan.body query).runState (memoSearch keep fuel (plan.enter stack query)) memo).map
          fun answered =>
            (answered.1,
              if keep query answered.1 then (query, answered.1) :: answered.2 else answered.2)

/-- Nothing is found in an empty memo, and nothing is put into it if no answer is
kept: this is the search without a memo. -/
theorem memoSearch_keep_none (fuel : Nat) (stack : List Q) (query : Q) :
    plan.memoSearch (fun _ _ => false) fuel stack query [] =
      (plan.search fuel stack query).map fun answer => (answer, []) := by
  induction fuel generalizing stack query with
  | zero => rfl
  | succ fuel ih =>
    have ran (body : Ask Q A A) :
        body.runState (plan.memoSearch (fun _ _ => false) fuel (plan.enter stack query)) [] =
          (body.run (plan.search fuel (plan.enter stack query))).map fun answer =>
            (answer, []) := by
      induction body with
      | done => rfl
      | ask other next inner =>
        rw [Ask.runState, Ask.run, ih]
        cases plan.search fuel (plan.enter stack query) other with
        | none => rfl
        | some answer => exact inner answer
    rw [memoSearch, search, List.lookup_nil]
    cases plan.cuts stack query with
    | true => rfl
    | false =>
      show Option.map _ ((plan.body query).runState _ []) = _
      rw [ran, Option.map_map]
      rfl

section Termination

variable {plan : Plan Q A} {keep : Q → A → Bool} {pool : Finset Q}

/-- Entering a fresh guarded query leaves fewer of the pool's. -/
theorem card_fresh_enter {stack : List Q} (member : query ∈ pool)
    (guarded : plan.guarded query = true) (fresh : query ∉ stack) :
    (pool.filter (· ∉ plan.enter stack query)).card < (pool.filter (· ∉ stack)).card := by
  apply Finset.card_lt_card
  refine Finset.ssubset_iff_of_subset ?_ |>.mpr ⟨query, by simp [member, fresh], ?_⟩
  · intro other
    simp only [Finset.mem_filter, mem_enter, not_or]
    exact fun inside => ⟨inside.1, inside.2.2⟩
  · simp [mem_enter, guarded]

/-- The answers that were kept are possible. -/
def Plausible (plan : Plan Q A) (memo : Memo Q A) : Prop :=
  ∀ entry ∈ memo, plan.Possible entry.1 entry.2

/-- The search only gives answers that are possible. -/
theorem memoSearch_possible {stack : List Q} {memo memo' : Memo Q A} (kept : plan.Plausible memo)
    (found : plan.memoSearch keep fuel stack query memo = some (answer, memo')) :
    plan.Possible query answer ∧ plan.Plausible memo' := by
  induction fuel generalizing stack query answer memo memo' with
  | zero => cases found
  | succ fuel ih =>
    rw [memoSearch] at found
    split at found
    next known =>
      cases found
      obtain ⟨before, after, rfl, -⟩ := List.lookup_eq_some_iff.mp known
      exact ⟨kept _ (List.mem_append_right _ List.mem_cons_self), kept⟩
    split at found
    next cut =>
      cases found
      exact ⟨plan.covers_possible.cut query (cuts_iff.mp cut).1, kept⟩
    next =>
      obtain ⟨⟨result, middle⟩, ran, same⟩ := Option.map_eq_some_iff.mp found
      cases same
      have each (other : Q) (memo : Memo Q A) (answer : A) (memo' : Memo Q A)
          (kept : plan.Plausible memo) (found : plan.memoSearch keep fuel (plan.enter stack query)
            other memo = some (answer, memo')) :
          plan.Possible other answer ∧ plan.Plausible memo' := ih kept found
      obtain ⟨yields, kept'⟩ := Ask.yields_of_runState each kept ran
      have possible := plan.covers_possible.body query _ yields
      refine ⟨possible, ?_⟩
      split
      · exact List.forall_mem_cons.mpr ⟨possible, kept'⟩
      · exact kept'

/-- If the queries asked for stay in a finite pool and an unguarded query asks for
queries of smaller rank only, the search ends. -/
theorem memoSearch_ne_none_of_pool {top : Nat}
    (closed : ∀ query ∈ pool, ∀ other, (plan.body query).AsksAmong plan.Possible other →
      other ∈ pool)
    (bounded : ∀ query ∈ pool, rank query ≤ top)
    (descends : ∀ query other, plan.guarded query = false → (plan.body query).Asks other →
      rank other < rank query) {stack : List Q} (member : query ∈ pool)
    (enough : (pool.filter (· ∉ stack)).card * (top + 1) + rank query < fuel) {memo : Memo Q A}
    (kept : plan.Plausible memo) : plan.memoSearch keep fuel stack query memo ≠ none := by
  induction fuel generalizing stack query memo with
  | zero => omega
  | succ fuel ih =>
    rw [memoSearch]
    split
    · exact Option.some_ne_none _
    split
    · exact Option.some_ne_none _
    next free =>
      rw [Ne, Option.map_eq_none_iff]
      refine Ask.runState_ne_none (fun _ _ _ _ kept found => memoSearch_possible kept found) ?_ kept
      intro other asks memo kept
      have inside := closed query member other asks
      refine ih inside ?_ kept
      cases guarded : plan.guarded query with
      | true =>
        have fresh : query ∉ stack := fun inside => free (cuts_iff.mpr ⟨guarded, inside⟩)
        have fewer := Nat.mul_le_mul_right (top + 1)
          (Nat.succ_le_of_lt (card_fresh_enter member guarded fresh))
        rw [Nat.succ_mul] at fewer
        have := bounded other inside
        omega
      | false =>
        have same : plan.enter stack query = stack := by simp [enter, guarded]
        have := descends query other guarded asks.asks
        rw [same]
        omega

/-- The search ends if only finitely many queries can be reached. -/
theorem memoSearch_terminates (rank : Q → Nat)
    (descends : ∀ query other, plan.guarded query = false → (plan.body query).Asks other →
      rank other < rank query) (finite : {other | plan.Pursues query other}.Finite) (stack : List Q)
    {memo : Memo Q A} (kept : plan.Plausible memo) :
    ∃ fuel answered, plan.memoSearch keep fuel stack query memo = some answered := by
  have closed : ∀ inner ∈ finite.toFinset, ∀ other,
      (plan.body inner).AsksAmong plan.Possible other → other ∈ finite.toFinset := by
    intro inner member other asks
    have pursues : plan.Pursues query inner := by simpa using member
    simpa using pursues.tail asks
  have member : query ∈ finite.toFinset := by simpa using Relation.ReflTransGen.refl
  exact ⟨_, Option.ne_none_iff_exists'.mp
    (memoSearch_ne_none_of_pool closed (fun _ => Finset.le_sup) descends member
      (Nat.lt_succ_self _) kept)⟩

theorem search_terminates (rank : Q → Nat)
    (descends : ∀ query other, plan.guarded query = false → (plan.body query).Asks other →
      rank other < rank query) (finite : {other | plan.Pursues query other}.Finite)
        (stack : List Q) :
    ∃ fuel answer, plan.search fuel stack query = some answer := by
  have nothing : plan.Plausible [] := by simp [Plausible]
  obtain ⟨fuel, answered, found⟩ := memoSearch_terminates rank descends finite stack nothing
  rw [memoSearch_keep_none] at found
  obtain ⟨answer, plain, -⟩ := Option.map_eq_some_iff.mp found
  exact ⟨fuel, answer, plain⟩

end Termination

/-- Every answer that was kept is the one found with nothing in progress. -/
def Valid (memo : Memo Q A) : Prop :=
  ∀ query answer, (query, answer) ∈ memo → ∃ fuel, plan.search fuel [] query = some answer

variable {plan} {keep : Q → A → Bool}

theorem Valid.cons {memo : Memo Q A} (valid : plan.Valid memo)
    (found : plan.search fuel [] query = some answer) : plan.Valid ((query, answer) :: memo) := by
  intro other kept member
  obtain same | member := List.mem_cons.mp member
  · cases same
    exact ⟨fuel, found⟩
  · exact valid other kept member

theorem Valid.lookup {memo : Memo Q A} (valid : plan.Valid memo)
    (hit : memo.lookup query = some answer) : ∃ fuel, plan.search fuel [] query = some answer := by
  obtain ⟨before, after, rfl, -⟩ := List.lookup_eq_some_iff.mp hit
  exact valid query answer (by simp)

section Acyclic

variable {stack : List Q} {query : Q}

/-- The queries in progress lead to the one asked, so none of them can be reached
again. -/
theorem search_of_acyclic (acyclic : plan.Acyclic query)
    (above : ∀ earlier ∈ stack, plan.LeadsTo earlier query) (fuel : Nat) :
    plan.search fuel stack query = plan.search fuel [] query := by
  apply search_congr_stack
  intro other guarded reaches
  refine iff_of_false (fun inside => ?_) (by simp)
  exact acyclic other reaches guarded ((above other inside).trans_left reaches)

theorem cuts_of_acyclic (acyclic : plan.Acyclic query)
    (above : ∀ earlier ∈ stack, plan.LeadsTo earlier query) : plan.cuts stack query = false := by
  rw [Bool.eq_false_iff]
  intro cuts
  obtain ⟨guarded, inside⟩ := cuts_iff.mp cuts
  exact acyclic query .refl guarded (above query inside)

omit [DecidableEq Q] in
theorem above_enter (above : ∀ earlier ∈ stack, plan.LeadsTo earlier query) {other : Q}
    (asks : (plan.body query).Asks other) :
    ∀ earlier ∈ plan.enter stack query, plan.LeadsTo earlier other := by
  intro earlier inside
  obtain ⟨-, rfl⟩ | inside := mem_enter.mp inside
  · exact .single asks
  · exact (above earlier inside).tail asks

/-- With a memo whose answers are right, the search gives the answer found
without, and keeps right answers only. -/
theorem search_of_memoSearch (acyclic : plan.Acyclic query)
    (above : ∀ earlier ∈ stack, plan.LeadsTo earlier query) {memo memo' : Memo Q A}
    (valid : plan.Valid memo)
    (found : plan.memoSearch keep fuel stack query memo = some (answer, memo')) :
    plan.Valid memo' ∧ ∃ more, plan.search more [] query = some answer := by
  induction fuel generalizing stack query memo memo' answer with
  | zero => cases found
  | succ fuel ih =>
    rw [memoSearch] at found
    split at found
    next hit =>
      cases found
      exact ⟨valid, valid.lookup hit⟩
    rw [cuts_of_acyclic acyclic above] at found
    obtain ⟨⟨answer', middle⟩, ran, same⟩ := Option.map_eq_some_iff.mp found
    obtain ⟨valid', n, plain⟩ : plan.Valid middle ∧ ∃ n,
        (plan.body query).run (plan.search n (plan.enter stack query)) = some answer' := by
      have mono {n m : Nat} (le : n ≤ m) (other : Q) (inner : A) :
          plan.search n (plan.enter stack query) other = some inner →
            plan.search m (plan.enter stack query) other = some inner := search_mono le
      refine Ask.run_of_runState mono ?_ valid ran
      intro other asks s inner s' good sub
      have above' := above_enter above asks
      obtain ⟨good', more, plain⟩ := ih (acyclic.of_asks asks) above' good sub
      refine ⟨good', more, ?_⟩
      rw [search_of_acyclic (acyclic.of_asks asks) above']
      exact plain
    have here : plan.search (n + 1) [] query = some answer' := by
      rw [← search_of_acyclic acyclic above, search, cuts_of_acyclic acyclic above]
      exact plain
    cases same
    refine ⟨?_, n + 1, here⟩
    split
    · exact valid'.cons here
    · exact valid'

/-- What the search finds without a memo, it finds with one. -/
theorem memoSearch_of_search (acyclic : plan.Acyclic query)
    (above : ∀ earlier ∈ stack, plan.LeadsTo earlier query) {memo : Memo Q A}
    (valid : plan.Valid memo) (found : plan.search fuel [] query = some answer) :
    ∃ memo', plan.memoSearch keep fuel stack query memo = some (answer, memo') ∧
      plan.Valid memo' := by
  induction fuel generalizing stack query memo answer with
  | zero => cases found
  | succ fuel ih =>
    rw [memoSearch]
    split
    next kept hit =>
      obtain ⟨more, right⟩ := valid.lookup hit
      cases search_unique right found
      exact ⟨memo, rfl, valid⟩
    next =>
      have here := found
      rw [← search_of_acyclic acyclic above, search, cuts_of_acyclic acyclic above] at found
      rw [cuts_of_acyclic acyclic above]
      obtain ⟨middle, ran, valid'⟩ : ∃ middle, (plan.body query).runState
          (plan.memoSearch keep fuel (plan.enter stack query)) memo = some (answer, middle) ∧
            plan.Valid middle := by
        refine Ask.runState_of_run ?_ valid found
        intro other asks s inner good sub
        have above' := above_enter above asks
        rw [search_of_acyclic (acyclic.of_asks asks) above'] at sub
        exact ih (acyclic.of_asks asks) above' good sub
      refine ⟨_, Option.map_eq_some_iff.mpr ⟨_, ran, rfl⟩, ?_⟩
      show plan.Valid (if keep query answer then (query, answer) :: middle else middle)
      split
      · exact valid'.cons here
      · exact valid'

end Acyclic

/-- The memos that come up when queries are asked one after another, also while
others are in progress. -/
inductive Session (plan : Plan Q A) (keep : Q → A → Bool) (Asked : Q → Prop) : Memo Q A → Prop
  | start : Session plan keep Asked []
  | query {memo memo' : Memo Q A} {fuel : Nat} {stack : List Q} {query : Q} {answer : A}
      (before : Session plan keep Asked memo) (asked : Asked query)
      (above : ∀ earlier ∈ stack, plan.LeadsTo earlier query)
      (found : plan.memoSearch keep fuel stack query memo = some (answer, memo')) :
      Session plan keep Asked memo'

theorem Session.valid {memo : Memo Q A} (session : plan.Session keep plan.Acyclic memo) :
    plan.Valid memo := by
  induction session with
  | start => exact fun _ _ member => absurd member (by simp)
  | query _ acyclic above found ih => exact (search_of_memoSearch acyclic above ih found).1

theorem Session.plausible {Asked : Q → Prop} {memo : Memo Q A}
    (session : plan.Session keep Asked memo) : plan.Plausible memo := by
  induction session with
  | start => exact fun _ member => absurd member (by simp)
  | query _ _ _ found ih => exact (memoSearch_possible ih found).2

end Plan

end Library
