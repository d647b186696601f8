import Mathlib.Data.Finset.Card
import Mathlib.Data.Finset.Union
import Mathlib.Data.Finset.Option
import Mathlib.Data.Set.Finite.Lattice
import Mathlib.Logic.Relation

/-!
# Traversals that remember where they have been

A traversal enters a node with a state. It is done with the node at once, or it goes
through the parts of the node in turn and leaves the node with the state it has then.
Some nodes have a key, which the state remembers: a node whose key has been seen is
not gone into again.

Such a traversal ends if only finitely many nodes can be reached and no chain of
nodes without a key goes on for ever. If it ends without having dropped anything, and
keys tell nodes apart, this is so.
-/

namespace Library.Traversal

variable {S V K : Type}
variable {node : V} {quiet : S → Prop} {fuel : Nat} {R : Set V} {keys : Set K} {s t : S}
  {pool : Finset K} {nodes : List V}

/-- What entering a node comes to. -/
inductive Entry (S V : Type) where
  | done (state : S)
  | into (state : S) (parts : List V) (leave : S → S)

/-- Go through nodes in turn. -/
def visitAll (visit : S → V → Option S) : S → List V → Option S
  | s, [] => some s
  | s, node :: rest => (visit s node).bind fun s => visitAll visit s rest

/-- Go through a node. -/
def visit (enter : S → V → Entry S V) : Nat → S → V → Option S
  | 0, _, _ => none
  | fuel + 1, s, node =>
    match enter s node with
    | .done s => some s
    | .into s parts leave => (visitAll (visit enter fuel) s parts).map leave

theorem visitAll_mono {f g : S → V → Option S}
    (more : ∀ s node t, f s node = some t → g s node = some t) (ran : visitAll f s nodes = some t) :
    visitAll g s nodes = some t := by
  induction nodes generalizing s with
  | nil => exact ran
  | cons node rest ih =>
    obtain ⟨middle, first, later⟩ := Option.bind_eq_some_iff.mp ran
    exact Option.bind_eq_some_iff.mpr ⟨middle, more s node middle first, ih later⟩

section Visit

variable {enter : S → V → Entry S V}

/-- A traversal does not come past a part that it does not end in. -/
theorem visit_eq_none {part : V} {rest : List V} {leave : S → S}
    (entered : enter s node = .into t (part :: rest) leave)
    (endless : visit enter fuel t part = none) : visit enter (fuel + 1) s node = none := by
  rw [visit, entered]
  simp [visitAll, endless]

theorem visit_succ (ran : visit enter fuel s node = some t) :
    visit enter (fuel + 1) s node = some t := by
  induction fuel generalizing s t node with
  | zero => cases ran
  | succ fuel ih =>
    rw [visit] at ran ⊢
    cases entry : enter s node with
    | done state =>
      rw [entry] at ran
      exact ran
    | into state parts leave =>
      rw [entry] at ran
      obtain ⟨last, all, left⟩ := Option.map_eq_some_iff.mp ran
      exact Option.map_eq_some_iff.mpr ⟨last, visitAll_mono (fun _ _ _ => ih) all, left⟩

theorem visit_mono {more : Nat} (le : fuel ≤ more) (ran : visit enter fuel s node = some t) :
    visit enter more s node = some t := by
  induction le with
  | refl => exact ran
  | step _ ih => exact visit_succ ih

/-- Going through nodes in turn comes to an end if each of them does, in every state
that the ones before may leave. -/
theorem exists_visitAll {Good : S → Prop}
    (each : ∀ node ∈ nodes, ∀ s, Good s → ∃ fuel t, visit enter fuel s node = some t ∧ Good t)
    (good : Good s) : ∃ fuel t, visitAll (visit enter fuel) s nodes = some t ∧ Good t := by
  induction nodes generalizing s with
  | nil => exact ⟨0, s, rfl, good⟩
  | cons node rest ih =>
    obtain ⟨here, later⟩ := List.forall_mem_cons.mp each
    obtain ⟨fuel, middle, first, good'⟩ := here s good
    obtain ⟨more, t, others, good''⟩ := ih later good'
    refine ⟨max fuel more, t, Option.bind_eq_some_iff.mpr ⟨middle, ?_, ?_⟩, good''⟩
    · exact visit_mono (Nat.le_max_left fuel more) first
    · exact visitAll_mono (fun _ _ _ => visit_mono (Nat.le_max_right fuel more)) others

/-- What entering and leaving nodes keeps, a traversal keeps. -/
theorem visit_keeps {Inv : S → Prop} (done : ∀ {s node t}, enter s node = .done t → Inv s → Inv t)
    (into : ∀ {s node t parts leave}, enter s node = .into t parts leave → Inv s → Inv t)
    (leaves : ∀ {s node t parts leave}, enter s node = .into t parts leave →
      ∀ u, Inv u → Inv (leave u)) (ran : visit enter fuel s node = some t) (start : Inv s) :
    Inv t := by
  induction fuel generalizing s t node with
  | zero => cases ran
  | succ fuel ih =>
    rw [visit] at ran
    cases entry : enter s node with
    | done state =>
      rw [entry] at ran
      cases ran
      exact done entry start
    | into state parts leave =>
      rw [entry] at ran
      obtain ⟨last, all, rfl⟩ := Option.map_eq_some_iff.mp ran
      have all' : ∀ parts s, visitAll (visit enter fuel) s parts = some last → Inv s →
          Inv last := by
        intro parts
        induction parts with
        | nil =>
          rintro s ⟨⟩ inv
          exact inv
        | cons part rest ih' =>
          intro s ran inv
          obtain ⟨middle, first, later⟩ := Option.bind_eq_some_iff.mp ran
          exact ih' middle later (ih first inv)
      exact leaves entry last (all' parts state all (into entry start))

/-- What a traversal must keep to for its keys to be a guard: what has been seen stays
seen, the parts of a node are among its successors, and a node is gone into only if
its key is new. -/
structure Guarded (enter : S → V → Entry S V) (key : V → Option K) (seen : S → Set K)
    (next : V → V → Prop) : Prop where
  done : ∀ {s node t}, enter s node = .done t → seen s ⊆ seen t
  into : ∀ {s node t parts leave}, enter s node = .into t parts leave →
    seen s ⊆ seen t ∧ ∀ part ∈ parts, next node part
  leave : ∀ {s node t parts leave}, enter s node = .into t parts leave → ∀ u,
    seen u ⊆ seen (leave u)
  fresh : ∀ {s node t parts leave k}, enter s node = .into t parts leave → key node = some k →
    k ∉ seen s ∧ k ∈ seen t

variable {key : V → Option K} {seen : S → Set K} {next : V → V → Prop}

/-- One node leads to another without passing a key. -/
def Opens (key : V → Option K) (next : V → V → Prop) (node part : V) : Prop :=
  key node = none ∧ next node part

open Classical in
/-- The number of keys that have not been seen. -/
noncomputable def unseen (pool : Finset K) (keys : Set K) : Nat := (pool.filter (· ∉ keys)).card

theorem unseen_mono {more : Set K} (sub : keys ⊆ more) :
    unseen pool more ≤ unseen pool keys := by
  classical
  refine Finset.card_le_card fun k inside => ?_
  rw [Finset.mem_filter] at inside ⊢
  exact ⟨inside.1, fun old => inside.2 (sub old)⟩

theorem unseen_lt {more : Set K} (sub : keys ⊆ more) {k : K} (inPool : k ∈ pool) (new : k ∉ keys)
    (seen : k ∈ more) : unseen pool more < unseen pool keys := by
  classical
  refine Finset.card_lt_card ⟨fun k inside => ?_, fun back => ?_⟩
  · rw [Finset.mem_filter] at inside ⊢
    exact ⟨inside.1, fun old => inside.2 (sub old)⟩
  · exact (Finset.mem_filter.mp (back (Finset.mem_filter.mpr ⟨inPool, new⟩))).2 seen

theorem Guarded.visit_terminates (guarded : Guarded enter key seen next)
    (closed : ∀ node ∈ R, ∀ part, next node part → part ∈ R)
    (inPool : ∀ node ∈ R, ∀ k, key node = some k → k ∈ pool)
    (ends : ∀ node ∈ R, Acc (fun part node => Opens key next node part) node) (inside : node ∈ R)
    (s : S) : ∃ fuel t, visit enter fuel s node = some t ∧ seen s ⊆ seen t := by
  -- by the number of unseen keys, and then along the nodes without a key
  suffices all : ∀ n, ∀ node ∈ R, ∀ s, unseen pool (seen s) ≤ n →
      ∃ fuel t, visit enter fuel s node = some t ∧ seen s ⊆ seen t from
    all _ node inside s le_rfl
  intro n
  induction n using Nat.strong_induction_on with
  | _ n fewer =>
    intro node inside
    induction ends node inside with
    | intro node _ smaller =>
      intro s few
      cases entry : enter s node with
      | done t => exact ⟨1, t, by rw [visit, entry], guarded.done entry⟩
      | into t parts leave =>
        obtain ⟨kept, isNext⟩ := guarded.into entry
        have each : ∀ part ∈ parts, ∀ u, seen t ⊆ seen u →
            ∃ fuel v, visit enter fuel u part = some v ∧ seen t ⊆ seen v := by
          intro part isPart u later
          have inR := closed node inside part (isNext part isPart)
          have ended : ∃ fuel v, visit enter fuel u part = some v ∧ seen u ⊆ seen v := by
            cases hasKey : key node with
            | none =>
              refine smaller part ⟨hasKey, isNext part isPart⟩ inR u ?_
              exact (unseen_mono (kept.trans later)).trans few
            | some k =>
              obtain ⟨new, now⟩ := guarded.fresh entry hasKey
              have less := unseen_lt (kept.trans later) (inPool node inside k hasKey) new
                (later now)
              exact fewer (unseen pool (seen u)) (by omega) part inR u le_rfl
          obtain ⟨fuel, v, ran, grown⟩ := ended
          exact ⟨fuel, v, ran, later.trans grown⟩
        obtain ⟨fuel, u, ran, grown⟩ := exists_visitAll each (Set.Subset.refl (seen t))
        refine ⟨fuel + 1, leave u, ?_, kept.trans (grown.trans (guarded.leave entry u))⟩
        rw [visit, entry]
        exact Option.map_eq_some_iff.mpr ⟨u, ran, rfl⟩

/-- What can be reached from a node. -/
def reach (next : V → V → Prop) (node : V) : Set V := {part | Relation.ReflTransGen next node part}

theorem reach_closed : ∀ v ∈ reach next node, ∀ w, next v w → w ∈ reach next node :=
  fun _ reached _ isNext => reached.tail isNext

/-- Finitely many nodes can be reached, and none of them leads on for ever without
passing a key. -/
structure Bounded (key : V → Option K) (next : V → V → Prop) (node : V) : Prop where
  finite : (reach next node).Finite
  ends : ∀ v ∈ reach next node, Acc (fun part node => Opens key next node part) v

theorem Guarded.visit_ends (guarded : Guarded enter key seen next) (bounded : Bounded key next node)
    (s : S) : ∃ fuel t, visit enter fuel s node = some t := by
  classical
  let pool : Finset K := bounded.finite.toFinset.biUnion fun v => (key v).toFinset
  have inPool : ∀ v ∈ reach next node, ∀ k, key v = some k → k ∈ pool := by
    intro v reached k hasKey
    refine Finset.mem_biUnion.mpr ⟨v, bounded.finite.mem_toFinset.mpr reached, ?_⟩
    rw [hasKey, Option.toFinset_some, Finset.mem_singleton]
  obtain ⟨fuel, t, ran, -⟩ :=
    guarded.visit_terminates reach_closed inPool bounded.ends Relation.ReflTransGen.refl s
  exact ⟨fuel, t, ran⟩

/-! ### Traversals that end -/

/-- What a traversal must keep to for its keys to be all that it saw. It may drop a
node, if its state is not quiet afterwards. -/
structure Complete (enter : S → V → Entry S V) (key : V → Option K) (seen : S → Set K)
    (next : V → V → Prop) (quiet : S → Prop) : Prop where
  done : ∀ {s node t}, enter s node = .done t → quiet t →
    quiet s ∧ seen t ⊆ seen s ∧
      ((∃ k ∈ seen t, key node = some k) ∨ (key node = none ∧ ∀ part, ¬next node part))
  into : ∀ {s node t parts leave}, enter s node = .into t parts leave →
    (quiet t → quiet s) ∧ (∀ part, next node part → part ∈ parts) ∧
      ∀ k ∈ seen t, k ∈ seen s ∨ key node = some k
  leave : ∀ {s node t parts leave}, enter s node = .into t parts leave → ∀ u,
    (quiet (leave u) → quiet u) ∧ (seen t ⊆ seen u → seen (leave u) ⊆ seen u)

/-- All ways from a node come to a key that was seen. -/
inductive Covered (key : V → Option K) (next : V → V → Prop) (keys : Set K) : V → Prop
  | seen {node : V} {k : K} (hasKey : key node = some k) (inside : k ∈ keys) :
      Covered key next keys node
  | opens {node : V} (noKey : key node = none)
      (parts : ∀ part, next node part → Covered key next keys part) : Covered key next keys node

theorem Covered.mono {more : Set K} (sub : keys ⊆ more) (covered : Covered key next keys node) :
    Covered key next more node := by
  induction covered with
  | seen hasKey inside => exact .seen hasKey (sub inside)
  | opens noKey _ ih => exact .opens noKey ih

/-- A node of a key that was seen, with all its successors covered. -/
def Finished (key : V → Option K) (next : V → V → Prop) (keys : Set K) (R : Set V) (k : K) : Prop :=
  ∃ node ∈ R, key node = some k ∧ ∀ part, next node part → Covered key next keys part

theorem Finished.mono {more : Set K} (sub : keys ⊆ more) {k : K}
    (finished : Finished key next keys R k) : Finished key next more R k := by
  obtain ⟨node, inside, hasKey, parts⟩ := finished
  exact ⟨node, inside, hasKey, fun part isNext => (parts part isNext).mono sub⟩

/-- A traversal that has gone through a node quietly has covered it, and finished
every key that is new. -/
structure Explored (key : V → Option K) (next : V → V → Prop) (seen : S → Set K) (quiet : S → Prop)
    (R : Set V) (s t : S) : Prop where
  quiet : quiet s
  kept : seen s ⊆ seen t
  finished : ∀ k ∈ seen t, k ∈ seen s ∨ Finished key next (seen t) R k

theorem Explored.trans {u : S} (first : Explored key next seen quiet R s t)
    (second : Explored key next seen quiet R t u) :
    Explored key next seen quiet R s u where
  quiet := first.quiet
  kept := first.kept.trans second.kept
  finished := by
    intro k inside
    obtain old | new := second.finished k inside
    · exact (first.finished k old).imp_right (Finished.mono second.kept)
    · exact .inr new

theorem explored_visitAll {f : S → V → Option S}
    (each : ∀ node ∈ nodes, ∀ s t, f s node = some t → quiet t →
      Explored key next seen quiet R s t ∧ Covered key next (seen t) node)
    (ran : visitAll f s nodes = some t) (isQuiet : quiet t) :
    Explored key next seen quiet R s t ∧ ∀ node ∈ nodes, Covered key next (seen t) node := by
  induction nodes generalizing s with
  | nil =>
    cases ran
    exact ⟨⟨isQuiet, Set.Subset.refl _, fun k inside => .inl inside⟩, by simp⟩
  | cons node rest ih =>
    obtain ⟨here, later⟩ := List.forall_mem_cons.mp each
    obtain ⟨middle, first, others⟩ := Option.bind_eq_some_iff.mp ran
    obtain ⟨explored, covered⟩ := ih later others
    obtain ⟨explored', covered'⟩ := here s middle first explored.quiet
    refine ⟨explored'.trans explored, List.forall_mem_cons.mpr ⟨?_, covered⟩⟩
    exact covered'.mono explored.kept

theorem explored_visit (guarded : Guarded enter key seen next)
    (complete : Complete enter key seen next quiet)
    (closed : ∀ node ∈ R, ∀ part, next node part → part ∈ R) (inside : node ∈ R)
    (ran : visit enter fuel s node = some t) (isQuiet : quiet t) :
    Explored key next seen quiet R s t ∧ Covered key next (seen t) node := by
  induction fuel generalizing node s t with
  | zero => cases ran
  | succ fuel ih =>
    rw [visit] at ran
    cases entry : enter s node with
    | done state =>
      rw [entry] at ran
      cases ran
      obtain ⟨before, nothing, covered⟩ := complete.done entry isQuiet
      refine ⟨⟨before, guarded.done entry, fun k inside => .inl (nothing inside)⟩, ?_⟩
      obtain ⟨k, old, hasKey⟩ | ⟨noKey, noParts⟩ := covered
      · exact .seen hasKey old
      · exact .opens noKey fun part isNext => absurd isNext (noParts part)
    | into state parts leave =>
      rw [entry] at ran
      obtain ⟨last, all, rfl⟩ := Option.map_eq_some_iff.mp ran
      obtain ⟨kept, isNext⟩ := guarded.into entry
      obtain ⟨before, covers, onlyKey⟩ := complete.into entry
      obtain ⟨quietLast, nothing⟩ := complete.leave entry last
      obtain ⟨explored, covered⟩ := explored_visitAll
        (fun part isPart s t ran isQuiet =>
          ih (closed node inside part (isNext part isPart)) ran isQuiet) all (quietLast isQuiet)
      have same : seen (leave last) = seen last :=
        Set.Subset.antisymm (nothing explored.kept) (guarded.leave entry last)
      have successors : ∀ part, next node part → Covered key next (seen last) part :=
        fun part isNext => covered part (covers part isNext)
      rw [same]
      refine ⟨⟨before explored.quiet, kept.trans (same ▸ explored.kept), fun k member => ?_⟩, ?_⟩
      · rw [same] at member ⊢
        obtain old | new := explored.finished k member
        · exact (onlyKey k old).imp_right fun hasKey => ⟨node, inside, hasKey, successors⟩
        · exact .inr new
      · cases hasKey : key node with
        | none => exact .opens hasKey successors
        | some k => exact .seen hasKey (explored.kept (guarded.fresh entry hasKey).2)

/-- If a traversal that has seen nothing goes through a node quietly, and keys tell
the nodes apart, it has covered all that can be reached. -/
theorem Complete.covered (complete : Complete enter key seen next quiet)
    (guarded : Guarded enter key seen next) (fresh : seen s = ∅)
    (distinct : ∀ v ∈ reach next node, ∀ w ∈ reach next node, ∀ k,
      key v = some k → key w = some k → v = w) (ran : visit enter fuel s node = some t)
    (isQuiet : quiet t) :
    ∀ v ∈ reach next node, Covered key next (seen t) v := by
  obtain ⟨explored, first⟩ := explored_visit guarded complete reach_closed .refl ran isQuiet
  have finished (k : K) (inside : k ∈ seen t) : Finished key next (seen t) (reach next node) k :=
    (explored.finished k inside).resolve_left (by simp [fresh])
  -- a node whose key was seen is the one that was gone into for this key
  have onward {v : V} (reached : v ∈ reach next node) (covered : Covered key next (seen t) v)
      (w : V) (isNext : next v w) : Covered key next (seen t) w := by
    cases covered with
    | opens _ parts => exact parts w isNext
    | seen hasKey inside =>
      obtain ⟨u, reached', hasKey', parts⟩ := finished _ inside
      cases distinct v reached u reached' _ hasKey hasKey'
      exact parts w isNext
  intro v reached
  induction reached with
  | refl => exact first
  | tail reached isNext ih => exact onward reached ih _ isNext

/-- A finite set that is closed and in which a rank goes down along the nodes without
a key bounds its members. -/
theorem Bounded.of_rank (finite : R.Finite) (closed : ∀ v ∈ R, ∀ w, next v w → w ∈ R)
    (rank : V → Nat) (falls : ∀ v ∈ R, key v = none → ∀ w, next v w → rank w < rank v)
    (inside : node ∈ R) :
    Bounded key next node := by
  have within : reach next node ⊆ R := by
    intro v reached
    induction reached with
    | refl => exact inside
    | tail _ isNext ih => exact closed _ ih _ isNext
  refine ⟨finite.subset within, fun v reached => ?_⟩
  have member := within reached
  clear reached
  induction h : rank v using Nat.strong_induction_on generalizing v with
  | _ n ih =>
    refine ⟨_, fun w opens => ?_⟩
    subst h
    exact ih (rank w) (falls v member opens.1 w opens.2) w (closed v member w opens.2) rfl

end Visit

end Library.Traversal
