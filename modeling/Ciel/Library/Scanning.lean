import Mathlib.Logic.Basic
import Mathlib.Tactic.Cases

/-!
# Scanners and the grammars they decide

A scanner walks a list of tokens with a cursor, returns a value or reports an error, and
may have no result when the fuel of one of its loops runs out. `Scans` relates a scanner to
a grammar, exactly: the scanner ends, and it returns a value after reading some tokens if
and only if the grammar relates these tokens, the value and what is left.

What is left is part of the grammar because a scanner looks ahead: a run of digits ends
where no digit follows. The bound on the length of the input lets a loop with fuel be
treated by induction, since each round of a loop leaves less input.
-/

namespace Library

theorem ok_bind {ε α β : Type} (a : α) (f : α → Except ε β) : (Except.ok a >>= f) = f a := rfl

/-- A computation on a state: a result with the state after it, an error, or nothing when
fuel has run out. -/
def Reading (σ ε α : Type) : Type := σ → Option (Except ε (α × σ))

namespace Reading

variable {σ ε α β : Type}

protected def pure (a : α) : Reading σ ε α := fun s => some (.ok (a, s))

protected def bind (p : Reading σ ε α) (f : α → Reading σ ε β) : Reading σ ε β := fun s =>
  match p s with
  | some (.ok (a, s')) => f a s'
  | some (.error e) => some (.error e)
  | none => none

instance : Monad (Reading σ ε) where
  pure := Reading.pure
  bind := Reading.bind

/-- Stops with an error, which may name the state. -/
def fail (error : σ → ε) : Reading σ ε α := fun s => some (.error (error s))

def starve : Reading σ ε α := fun _ => none

def update (f : σ → σ) : Reading σ ε Unit := fun s => some (.ok ((), f s))

def branch (test : σ → Bool) (yes no : Reading σ ε α) : Reading σ ε α := fun s =>
  if test s then yes s else no s

/-- The result of a computation that neither reads nor changes the state. -/
def lift (result : Except ε α) : Reading σ ε α := fun s =>
  some (result.map fun a => (a, s))

/-- The result of a computation that runs apart from the state. -/
def embed (result : Option (Except ε α)) : Reading σ ε α := fun s =>
  result.map fun outcome => outcome.map fun a => (a, s)

/-- Changes the error that a computation reports. -/
def mapError (f : ε → ε) (p : Reading σ ε α) : Reading σ ε α := fun s =>
  (p s).map fun outcome => outcome.mapError f

/-- The computation returns `a` and leaves the state `s'`. -/
def Returns (p : Reading σ ε α) (s : σ) (a : α) (s' : σ) : Prop := p s = some (.ok (a, s'))

/-- The computation does not run out of fuel. -/
def Ends (p : Reading σ ε α) (s : σ) : Prop := p s ≠ none

variable {p : Reading σ ε α} {f : α → Reading σ ε β} {s s' : σ}

@[simp] theorem returns_pure {a b : α} :
    (pure a : Reading σ ε α).Returns s b s' ↔ b = a ∧ s' = s := by
  show some (Except.ok (a, s)) = some (Except.ok (b, s')) ↔ _
  simp only [Option.some.injEq, Except.ok.injEq, Prod.mk.injEq]
  constructor
  · rintro ⟨rfl, rfl⟩
    exact ⟨rfl, rfl⟩
  · rintro ⟨rfl, rfl⟩
    exact ⟨rfl, rfl⟩

@[simp] theorem returns_bind {b : β} :
    (p >>= f).Returns s b s' ↔ ∃ a middle, p.Returns s a middle ∧ (f a).Returns middle b s' := by
  show Reading.bind p f s = _ ↔ _
  simp only [Reading.bind, Returns]
  split
  case h_1 a middle returned => simp [returned, and_assoc]
  case h_2 e failed => simp [failed]
  case h_3 stuck => simp [stuck]

@[simp] theorem not_returns_fail {error : σ → ε} {a : α} :
    ¬ (fail error : Reading σ ε α).Returns s a s' := by
  simp [fail, Returns]

@[simp] theorem returns_update {g : σ → σ} {u : Unit} :
    (update g : Reading σ ε Unit).Returns s u s' ↔ s' = g s := by
  simp [update, Returns, eq_comm]

@[simp] theorem returns_lift {result : Except ε α} {a : α} :
    (lift result : Reading σ ε α).Returns s a s' ↔ result = .ok a ∧ s' = s := by
  cases result with
  | error e => simp [lift, Returns, Except.map]
  | ok b => simp [lift, Returns, Except.map, eq_comm]

@[simp] theorem returns_embed {result : Option (Except ε α)} {a : α} :
    (embed result : Reading σ ε α).Returns s a s' ↔ result = some (.ok a) ∧ s' = s := by
  cases result with
  | none => simp [embed, Returns]
  | some outcome =>
    cases outcome with
    | error e => simp [embed, Returns, Except.map]
    | ok b => simp [embed, Returns, Except.map, eq_comm]

@[simp] theorem returns_mapError {g : ε → ε} {a : α} :
    (mapError g p).Returns s a s' ↔ p.Returns s a s' := by
  simp only [mapError, Returns]
  cases p s with
  | none => simp
  | some outcome =>
    cases outcome with
    | error e => simp [Except.mapError]
    | ok b => simp [Except.mapError]

theorem ends_pure (a : α) : (pure a : Reading σ ε α).Ends s := by
  show some (Except.ok (a, s)) ≠ none
  simp

theorem ends_fail (error : σ → ε) : (fail error : Reading σ ε α).Ends s := by
  simp [fail, Ends]

theorem ends_update (g : σ → σ) : (update g : Reading σ ε Unit).Ends s := by
  simp [update, Ends]

theorem ends_bind (first : p.Ends s) (next : ∀ a s', p.Returns s a s' → (f a).Ends s') :
    (p >>= f).Ends s := by
  show Reading.bind p f s ≠ none
  simp only [Reading.bind]
  split
  case h_1 a middle returned => exact next a middle returned
  case h_2 => simp
  case h_3 stuck => exact absurd stuck first

end Reading

/-- A position in a list of tokens: how many were read, and those that follow. -/
structure Cursor (τ : Type) where
  offset : Nat
  rest : List τ
  deriving DecidableEq, Repr

/-- Whether a list starts with a token that passes the test. -/
def starts {τ : Type} (test : τ → Bool) (tokens : List τ) : Bool := tokens.head?.any test

@[simp] theorem starts_nil {τ : Type} (test : τ → Bool) : starts test [] = false := rfl

@[simp] theorem starts_cons {τ : Type} (test : τ → Bool) (x : τ) (tokens : List τ) :
    starts test (x :: tokens) = test x := rfl

namespace Cursor

variable {τ : Type}

def atEnd (c : Cursor τ) : Bool := c.rest.isEmpty

/-- Not at the end, and the next token passes the test. -/
def nextIs (test : τ → Bool) (c : Cursor τ) : Bool := starts test c.rest

def advance (c : Cursor τ) : Cursor τ := ⟨c.offset + 1, c.rest.tail⟩

def skipFrom (test : τ → Bool) : Nat → List τ → Cursor τ
  | offset, [] => ⟨offset, []⟩
  | offset, x :: rest => if test x then skipFrom test (offset + 1) rest else ⟨offset, x :: rest⟩

def skipWhile (test : τ → Bool) (c : Cursor τ) : Cursor τ := skipFrom test c.offset c.rest

/-- The cursor `c'` comes from `c` by reading the tokens `s`. -/
def Reads (c : Cursor τ) (s : List τ) (c' : Cursor τ) : Prop :=
  c.rest = s ++ c'.rest ∧ c'.offset = c.offset + s.length

variable {c c₁ c₂ : Cursor τ} {s s₁ s₂ : List τ}

theorem reads_nil : c.Reads [] c₁ ↔ c₁ = c := by
  obtain ⟨offset, rest⟩ := c
  obtain ⟨offset', rest'⟩ := c₁
  simp only [Reads, List.nil_append, List.length_nil, Nat.add_zero, Cursor.mk.injEq]
  constructor
  · rintro ⟨rfl, rfl⟩
    exact ⟨rfl, rfl⟩
  · rintro ⟨rfl, rfl⟩
    exact ⟨rfl, rfl⟩

theorem Reads.trans (first : c.Reads s₁ c₁) (second : c₁.Reads s₂ c₂) :
    c.Reads (s₁ ++ s₂) c₂ := by
  refine ⟨?_, ?_⟩
  · rw [first.1, second.1, List.append_assoc]
  · rw [second.2, first.2, List.length_append]
    omega

/-- Reading two lists goes through a cursor between them. -/
theorem Reads.split (read : c.Reads (s₁ ++ s₂) c₂) :
    ∃ c₁ : Cursor τ, c₁.rest = s₂ ++ c₂.rest ∧ c.Reads s₁ c₁ ∧ c₁.Reads s₂ c₂ := by
  refine ⟨⟨c.offset + s₁.length, s₂ ++ c₂.rest⟩, rfl, ⟨?_, rfl⟩, rfl, ?_⟩
  · rw [read.1, List.append_assoc]
  · show c₂.offset = c.offset + s₁.length + s₂.length
    rw [read.2, List.length_append, Nat.add_assoc]

theorem Reads.length_le (read : c.Reads s c₁) : c₁.rest.length ≤ c.rest.length := by
  rw [read.1, List.length_append]
  omega

/-- The tokens read determine the cursor. -/
theorem Reads.unique (first : c.Reads s c₁) (second : c.Reads s c₂) : c₁ = c₂ := by
  obtain ⟨offset, rest⟩ := c₁
  obtain ⟨offset', rest'⟩ := c₂
  have same : rest = rest' := List.append_cancel_left (first.1.symm.trans second.1)
  have count : offset = offset' := first.2.trans second.2.symm
  rw [same, count]

theorem advance_reads {x : τ} {rest : List τ} (here : c.rest = x :: rest) :
    c.Reads [x] c.advance := by
  refine ⟨?_, rfl⟩
  show c.rest = [x] ++ c.rest.tail
  rw [here]
  rfl

theorem skipFrom_reads (test : τ → Bool) (tokens : List τ) (offset : Nat) :
    ∃ s, (∀ x ∈ s, test x) ∧ Reads ⟨offset, tokens⟩ s (skipFrom test offset tokens) ∧
      ¬ starts test (skipFrom test offset tokens).rest := by
  induction tokens generalizing offset with
  | nil => exact ⟨[], by simp, reads_nil.2 rfl, by simp [skipFrom]⟩
  | cons x rest ih =>
    by_cases passes : test x
    · obtain ⟨s, all, read, stops⟩ := ih (offset + 1)
      refine ⟨x :: s, by simpa [passes] using all, ?_, ?_⟩
      · simp only [skipFrom, passes, if_true]
        have first : Reads ⟨offset, x :: rest⟩ [x] ⟨offset + 1, rest⟩ := ⟨rfl, rfl⟩
        exact first.trans read
      · simpa [skipFrom, passes] using stops
    · refine ⟨[], by simp, reads_nil.2 ?_, ?_⟩
      · simp [skipFrom, passes]
      · simp [skipFrom, passes]

/-- A prefix of tokens that pass is what is read when the token after it does not pass. -/
theorem prefix_unique {test : τ → Bool} {t₁ t₂ : List τ} (same : s₁ ++ t₁ = s₂ ++ t₂)
    (all₁ : ∀ x ∈ s₁, test x) (stops₁ : ¬ starts test t₁)
    (all₂ : ∀ x ∈ s₂, test x) (stops₂ : ¬ starts test t₂) : s₁ = s₂ := by
  induction s₁ generalizing s₂ with
  | nil =>
    cases s₂ with
    | nil => rfl
    | cons x s₂ =>
      rw [List.nil_append] at same
      rw [same] at stops₁
      exact absurd (all₂ x List.mem_cons_self) stops₁
  | cons x s₁ ih =>
    cases s₂ with
    | nil =>
      rw [List.nil_append] at same
      rw [← same] at stops₂
      exact absurd (all₁ x List.mem_cons_self) stops₂
    | cons y s₂ =>
      obtain ⟨rfl, tails⟩ := List.cons.inj same
      rw [ih tails (fun z mem => all₁ z (List.mem_cons_of_mem _ mem))
        (fun z mem => all₂ z (List.mem_cons_of_mem _ mem))]

theorem skipWhile_eq_iff {test : τ → Bool} {c' : Cursor τ} :
    c' = c.skipWhile test ↔
      ∃ s, c.Reads s c' ∧ (∀ x ∈ s, test x) ∧ ¬ starts test c'.rest := by
  obtain ⟨s, all, read, stops⟩ := skipFrom_reads test c.rest c.offset
  constructor
  · rintro rfl
    exact ⟨s, read, all, stops⟩
  · rintro ⟨s', read', all', stops'⟩
    have same : s' ++ c'.rest = s ++ (c.skipWhile test).rest := by
      rw [← read'.1]
      exact read.1
    obtain rfl := prefix_unique same all' stops' all stops
    exact read'.unique read

/-- Leaves the next `n` tokens behind. -/
def skip (n : Nat) (c : Cursor τ) : Cursor τ := ⟨c.offset + n, c.rest.drop n⟩

end Cursor

open Reading Cursor

variable {τ ε α β : Type}

/-- If a token follows from which the first argument selects something, reads it and goes on
with what was selected. -/
def onNext {γ : Type} (select : τ → Option γ) (yes : γ → Reading (Cursor τ) ε α)
    (no : Reading (Cursor τ) ε α) : Reading (Cursor τ) ε α := fun c =>
  match c.rest.head?.bind select with
  | some b => yes b c.advance
  | none => no c

def onWord [DecidableEq τ] (word : List τ) (yes no : Reading (Cursor τ) ε α) :
    Reading (Cursor τ) ε α := fun c =>
  if word <+: c.rest then yes (c.skip word.length) else no c

def fromOffset (scanner : Nat → Reading (Cursor τ) ε α) : Reading (Cursor τ) ε α := fun c =>
  scanner c.offset c

/-- Runs a scanner with fuel for the length of its input. -/
def fueled (fuel : Nat → Nat) (scanner : Nat → Reading (Cursor τ) ε α) :
    Reading (Cursor τ) ε α := fun c => scanner (fuel c.rest.length) c

theorem onNext_cases {γ : Type} (select : τ → Option γ) (yes : γ → Reading (Cursor τ) ε α)
    (no : Reading (Cursor τ) ε α) (c : Cursor τ) :
    (∃ x b, c.rest = x :: c.advance.rest ∧ select x = some b ∧
        onNext select yes no c = yes b c.advance) ∨
      (c.rest.head?.bind select = none ∧ onNext select yes no c = no c) := by
  obtain ⟨offset, rest⟩ := c
  cases rest with
  | nil => exact .inr ⟨rfl, rfl⟩
  | cons x rest =>
    cases chosen : select x with
    | none => exact .inr ⟨chosen, by simp [onNext, chosen]⟩
    | some b => exact .inl ⟨x, b, rfl, chosen, by simp [onNext, chosen]⟩

/-- On inputs of at most `n` tokens the scanner ends, and what it returns, and after which
tokens, is what the grammar says. -/
structure Scans (n : Nat) (p : Reading (Cursor τ) ε α)
    (grammar : List τ → α → List τ → Prop) : Prop where
  ends : ∀ c, c.rest.length ≤ n → p.Ends c
  returns_iff : ∀ c, c.rest.length ≤ n → ∀ a c',
    p.Returns c a c' ↔ ∃ s, c.Reads s c' ∧ grammar s a c'.rest

namespace Scans

variable {n : Nat} {p q : Reading (Cursor τ) ε α} {f : α → Reading (Cursor τ) ε β}
variable {G H : List τ → α → List τ → Prop}

/-- Two descriptions of one grammar. -/
theorem congr (scans : Scans n p G) (same : ∀ s a t, G s a t ↔ H s a t) : Scans n p H := by
  refine ⟨scans.ends, ?_⟩
  intro c bound a c'
  rw [scans.returns_iff c bound]
  simp only [same]

theorem pure (a : α) :
    Scans n (Pure.pure a : Reading (Cursor τ) ε α) fun s b _ => s = [] ∧ b = a := by
  refine ⟨fun _ _ => ends_pure a, ?_⟩
  intro c _ b c'
  rw [returns_pure]
  constructor
  · rintro ⟨rfl, rfl⟩
    exact ⟨[], reads_nil.2 rfl, rfl, rfl⟩
  · rintro ⟨_, read, rfl, rfl⟩
    exact ⟨rfl, reads_nil.1 read⟩

theorem fail (error : Cursor τ → ε) :
    Scans n (fail error : Reading (Cursor τ) ε α) fun _ _ _ => False := by
  refine ⟨fun _ _ => ends_fail error, ?_⟩
  intro c _ a c'
  simp

theorem bind {K : α → List τ → β → List τ → Prop} (first : Scans n p G)
    (next : ∀ a, Scans n (f a) (K a)) :
    Scans n (p >>= f) fun s b t =>
      ∃ s₁ a s₂, s = s₁ ++ s₂ ∧ G s₁ a (s₂ ++ t) ∧ K a s₂ b t := by
  refine ⟨?_, ?_⟩
  · intro c bound
    refine ends_bind (first.ends c bound) ?_
    intro a c' returned
    obtain ⟨s, read, -⟩ := (first.returns_iff c bound a c').1 returned
    exact (next a).ends c' (Nat.le_trans read.length_le bound)
  · intro c bound b c'
    rw [returns_bind]
    constructor
    · rintro ⟨a, middle, one, two⟩
      obtain ⟨s₁, read₁, grammar₁⟩ := (first.returns_iff c bound a middle).1 one
      have shorter : middle.rest.length ≤ n := Nat.le_trans read₁.length_le bound
      obtain ⟨s₂, read₂, grammar₂⟩ := ((next a).returns_iff middle shorter b c').1 two
      rw [read₂.1] at grammar₁
      exact ⟨s₁ ++ s₂, read₁.trans read₂, s₁, a, s₂, rfl, grammar₁, grammar₂⟩
    · rintro ⟨_, read, s₁, a, s₂, rfl, grammar₁, grammar₂⟩
      obtain ⟨middle, rest, read₁, read₂⟩ := read.split
      have shorter : middle.rest.length ≤ n := Nat.le_trans read₁.length_le bound
      rw [← rest] at grammar₁
      exact ⟨a, middle, (first.returns_iff c bound a middle).2 ⟨s₁, read₁, grammar₁⟩,
        ((next a).returns_iff middle shorter b c').2 ⟨s₂, read₂, grammar₂⟩⟩

/-- A test of what follows, by which the scanner is chosen. -/
theorem branch {test : Cursor τ → Bool} (follows : List τ → Prop)
    (decides : ∀ c, test c = true ↔ follows c.rest) (yes : Scans n p G) (no : Scans n q H) :
    Scans n (branch test p q) fun s a t =>
      (follows (s ++ t) ∧ G s a t) ∨ (¬ follows (s ++ t) ∧ H s a t) := by
  have chosen : ∀ c, Reading.branch test p q c = if test c then p c else q c := fun _ => rfl
  refine ⟨?_, ?_⟩
  · intro c bound
    rw [Ends, chosen]
    split
    case isTrue => exact yes.ends c bound
    case isFalse => exact no.ends c bound
  · intro c bound a c'
    rw [Returns, chosen]
    split
    case isTrue passes =>
      rw [decides] at passes
      refine (yes.returns_iff c bound a c').trans ⟨?_, ?_⟩
      · rintro ⟨s, read, grammar⟩
        exact ⟨s, read, .inl ⟨read.1 ▸ passes, grammar⟩⟩
      · rintro ⟨s, read, ⟨-, grammar⟩ | ⟨fails, -⟩⟩
        · exact ⟨s, read, grammar⟩
        · exact absurd (read.1 ▸ passes) fails
    case isFalse fails =>
      rw [decides] at fails
      refine (no.returns_iff c bound a c').trans ⟨?_, ?_⟩
      · rintro ⟨s, read, grammar⟩
        exact ⟨s, read, .inr ⟨read.1 ▸ fails, grammar⟩⟩
      · rintro ⟨s, read, ⟨passes, -⟩ | ⟨-, grammar⟩⟩
        · exact absurd passes (read.1 ▸ fails)
        · exact ⟨s, read, grammar⟩

theorem ite {c : Prop} [Decidable c] (yes : c → Scans n p G) (no : ¬ c → Scans n q H) :
    Scans n (if c then p else q) fun s a t => (c ∧ G s a t) ∨ (¬ c ∧ H s a t) := by
  split
  case isTrue holds =>
    refine (yes holds).congr ?_
    intro s a t
    simp [holds]
  case isFalse fails =>
    refine (no fails).congr ?_
    intro s a t
    simp [fails]

theorem ifEnd (yes : Scans n p G) (no : Scans n q H) :
    Scans n (Reading.branch atEnd p q) fun s a t =>
      (s ++ t = [] ∧ G s a t) ∨ (s ++ t ≠ [] ∧ H s a t) :=
  branch (fun l => l = []) (fun _ => List.isEmpty_iff) yes no

theorem ifNext {test : τ → Bool} (yes : Scans n p G) (no : Scans n q H) :
    Scans n (Reading.branch (nextIs test) p q) fun s a t =>
      (starts test (s ++ t) ∧ G s a t) ∨ (¬ starts test (s ++ t) ∧ H s a t) :=
  branch (fun l => starts test l) (fun _ => Iff.rfl) yes no

/-- Reading a token that is selected. Less input is left then. -/
theorem onNext {γ : Type} {select : τ → Option γ} {yes : γ → Reading (Cursor τ) ε α}
    {K : γ → List τ → α → List τ → Prop}
    (reads : ∀ m b, m + 1 = n → Scans m (yes b) (K b)) (no : Scans n q H) :
    Scans n (onNext select yes q) fun s a t =>
      (∃ x s' b, s = x :: s' ∧ select x = some b ∧ K b s' a t) ∨
        ((s ++ t).head?.bind select = none ∧ H s a t) := by
  refine ⟨?_, ?_⟩
  · intro c bound
    rcases onNext_cases select yes q c with ⟨x, b, here, chosen, same⟩ | ⟨-, same⟩
    · rw [here, List.length_cons] at bound
      obtain ⟨m, rfl⟩ : ∃ m, n = m + 1 := ⟨n - 1, by omega⟩
      rw [Ends, same]
      exact (reads m b rfl).ends c.advance (by omega)
    · rw [Ends, same]
      exact no.ends c bound
  · intro c bound a c'
    rcases onNext_cases select yes q c with ⟨x, b, here, chosen, same⟩ | ⟨stops, same⟩
    · rw [here, List.length_cons] at bound
      obtain ⟨m, rfl⟩ : ∃ m, n = m + 1 := ⟨n - 1, by omega⟩
      rw [Returns, same]
      refine ((reads m b rfl).returns_iff c.advance (by omega) a c').trans ⟨?_, ?_⟩
      · rintro ⟨s, read, grammar⟩
        exact ⟨[x] ++ s, (advance_reads here).trans read, .inl ⟨x, s, b, rfl, chosen, grammar⟩⟩
      · rintro ⟨s, read, ⟨y, s', b', rfl, chosen', grammar⟩ | ⟨stops, -⟩⟩
        · have read : c.Reads ([y] ++ s') c' := read
          obtain ⟨middle, -, one, two⟩ := read.split
          obtain rfl : y = x := (List.cons.inj (one.1.symm.trans here)).1
          obtain rfl : b' = b := Option.some.inj (chosen'.symm.trans chosen)
          rw [one.unique (advance_reads here)] at two
          exact ⟨s', two, grammar⟩
        · rw [← read.1, here] at stops
          exact absurd (chosen.symm.trans stops) (by simp)
    · rw [Returns, same]
      refine (no.returns_iff c bound a c').trans ⟨?_, ?_⟩
      · rintro ⟨s, read, grammar⟩
        exact ⟨s, read, .inr ⟨read.1 ▸ stops, grammar⟩⟩
      · rintro ⟨s, read, ⟨y, s', b, rfl, chosen, -⟩ | ⟨-, grammar⟩⟩
        · rw [read.1] at stops
          exact absurd (chosen.symm.trans stops) (by simp)
        · exact ⟨s, read, grammar⟩

/-- Reading a token that passes a test. -/
theorem ifTake {test : τ → Bool} {yes : τ → Reading (Cursor τ) ε α}
    {K : τ → List τ → α → List τ → Prop}
    (reads : ∀ m x, m + 1 = n → Scans m (yes x) (K x)) (no : Scans n q H) :
    Scans n (Library.onNext (Option.guard test) yes q) fun s a t =>
      (∃ x s', s = x :: s' ∧ test x ∧ K x s' a t) ∨ (¬ starts test (s ++ t) ∧ H s a t) := by
  refine (onNext reads no).congr ?_
  intro s a t
  have stops : (s ++ t).head?.bind (Option.guard test) = none ↔ ¬ starts test (s ++ t) := by
    cases s ++ t with
    | nil => simp
    | cons x rest => simp [Option.guard]
  rw [stops]
  simp only [Option.guard_eq_some_iff]
  refine or_congr_left ⟨?_, ?_⟩
  · rintro ⟨x, s', _, rfl, ⟨rfl, passes⟩, grammar⟩
    exact ⟨x, s', rfl, passes, grammar⟩
  · rintro ⟨x, s', rfl, passes, grammar⟩
    exact ⟨x, s', x, rfl, ⟨rfl, passes⟩, grammar⟩

/-- Reading a token, whatever it is. -/
theorem ifAny {yes : τ → Reading (Cursor τ) ε α} {K : τ → List τ → α → List τ → Prop}
    (reads : ∀ m x, m + 1 = n → Scans m (yes x) (K x)) (no : Scans n q H) :
    Scans n (Library.onNext some yes q) fun s a t =>
      (∃ x s', s = x :: s' ∧ K x s' a t) ∨ (s ++ t = [] ∧ H s a t) := by
  refine (onNext reads no).congr ?_
  intro s a t
  have stops : (s ++ t).head?.bind some = none ↔ s ++ t = [] := by
    cases s ++ t with
    | nil => simp
    | cons x rest => simp
  rw [stops]
  refine or_congr_left ⟨?_, ?_⟩
  · rintro ⟨x, s', _, rfl, ⟨⟩, grammar⟩
    exact ⟨x, s', rfl, grammar⟩
  · rintro ⟨x, s', rfl, grammar⟩
    exact ⟨x, s', x, rfl, rfl, grammar⟩

/-- Reading the tokens of a word. -/
theorem onWord [DecidableEq τ] {word : List τ} (yes : Scans n p G) (no : Scans n q H) :
    Scans n (onWord word p q) fun s a t =>
      (∃ s', s = word ++ s' ∧ G s' a t) ∨ (¬ word <+: s ++ t ∧ H s a t) := by
  have chosen : ∀ c, Library.onWord word p q c =
      if word <+: c.rest then p (c.skip word.length) else q c := fun _ => rfl
  have skipped : ∀ {c : Cursor τ}, word <+: c.rest → c.Reads word (c.skip word.length) := by
    rintro c ⟨rest, here⟩
    refine ⟨?_, rfl⟩
    simp [Cursor.skip, ← here]
  refine ⟨?_, ?_⟩
  · intro c bound
    rw [Ends, chosen]
    split
    case isTrue here =>
      exact yes.ends _ (Nat.le_trans (skipped here).length_le bound)
    case isFalse => exact no.ends c bound
  · intro c bound a c'
    rw [Returns, chosen]
    split
    case isTrue here =>
      have shorter := Nat.le_trans (skipped here).length_le bound
      refine (yes.returns_iff _ shorter a c').trans ⟨?_, ?_⟩
      · rintro ⟨s, read, grammar⟩
        exact ⟨word ++ s, (skipped here).trans read, .inl ⟨s, rfl, grammar⟩⟩
      · rintro ⟨s, read, ⟨s', rfl, grammar⟩ | ⟨fails, -⟩⟩
        · obtain ⟨middle, -, one, two⟩ := read.split
          rw [one.unique (skipped here)] at two
          exact ⟨s', two, grammar⟩
        · exact absurd (read.1 ▸ here) fails
    case isFalse fails =>
      refine (no.returns_iff c bound a c').trans ⟨?_, ?_⟩
      · rintro ⟨s, read, grammar⟩
        exact ⟨s, read, .inr ⟨read.1 ▸ fails, grammar⟩⟩
      · rintro ⟨s, read, ⟨s', rfl, -⟩ | ⟨-, grammar⟩⟩
        · refine absurd ⟨s' ++ c'.rest, ?_⟩ fails
          rw [read.1, List.append_assoc]
        · exact ⟨s, read, grammar⟩

/-- A scanner that only names its start in errors. -/
theorem fromOffset {scanner : Nat → Reading (Cursor τ) ε α}
    (scans : ∀ start, Scans n (scanner start) G) : Scans n (fromOffset scanner) G := by
  refine ⟨fun c bound => (scans c.offset).ends c bound, ?_⟩
  intro c bound a c'
  exact (scans c.offset).returns_iff c bound a c'

/-- Fuel that is enough for the length of the input. -/
theorem fueled {fuel : Nat → Nat} {scanner : Nat → Reading (Cursor τ) ε α}
    (scans : ∀ m, Scans m (scanner (fuel m)) G) : Scans n (fueled fuel scanner) G := by
  refine ⟨fun c _ => (scans c.rest.length).ends c (Nat.le_refl _), ?_⟩
  intro c _ a c'
  exact (scans c.rest.length).returns_iff c (Nat.le_refl _) a c'

theorem lift (result : Except ε α) :
    Scans n (lift result : Reading (Cursor τ) ε α) fun s a _ => s = [] ∧ result = .ok a := by
  cases result with
  | error e =>
    refine ⟨fun _ _ => by simp [Reading.lift, Ends], ?_⟩
    intro c _ a c'
    simp [Reading.lift, Returns, Except.map]
  | ok b =>
    refine ((pure b : Scans n (Pure.pure b : Reading (Cursor τ) ε α) _).congr ?_)
    intro s a t
    simp [eq_comm]

theorem skipWhile (test : τ → Bool) :
    Scans n (update (Cursor.skipWhile test) : Reading (Cursor τ) ε Unit) fun s _ t =>
      (∀ x ∈ s, test x) ∧ ¬ starts test t := by
  refine ⟨fun _ _ => ends_update _, ?_⟩
  intro c _ u c'
  rw [returns_update]
  exact skipWhile_eq_iff

end Scans

/-- Runs a scanner and returns the tokens that it read. -/
def spelled (p : Reading (Cursor τ) ε Unit) : Reading (Cursor τ) ε (List τ) := fun c =>
  (p >>= fun _ => fun c' => some (.ok (c.rest.take (c'.offset - c.offset), c'))) c

theorem Scans.spelled {n : Nat} {p : Reading (Cursor τ) ε Unit}
    {G : List τ → Unit → List τ → Prop} (scans : Scans n p G) :
    Scans n (spelled p) fun s a t => a = s ∧ G s () t := by
  refine ⟨?_, ?_⟩
  · intro c bound
    refine ends_bind (scans.ends c bound) ?_
    intro u c' _
    simp [Ends]
  · intro c bound a c'
    have taken : ∀ {s c'}, c.Reads s c' → c.rest.take (c'.offset - c.offset) = s := by
      intro s c' read
      rw [read.1, read.2, Nat.add_sub_cancel_left, List.take_left]
    have unfolded : (Library.spelled p).Returns c a c' ↔
        p.Returns c () c' ∧ c.rest.take (c'.offset - c.offset) = a := by
      refine returns_bind.trans ⟨?_, ?_⟩
      · rintro ⟨u, middle, returned, spelling⟩
        simp only [Returns, Option.some.injEq, Except.ok.injEq, Prod.mk.injEq] at spelling
        obtain ⟨rfl, rfl⟩ := spelling
        exact ⟨returned, rfl⟩
      · rintro ⟨returned, rfl⟩
        exact ⟨(), c', returned, rfl⟩
    rw [unfolded, scans.returns_iff c bound]
    constructor
    · rintro ⟨⟨s, read, grammar⟩, rfl⟩
      exact ⟨s, read, taken read, grammar⟩
    · rintro ⟨s, read, rfl, grammar⟩
      exact ⟨⟨a, read, grammar⟩, taken read⟩

end Library
