import Mathlib.Init

/-!
# Paths through structured code

Code with jumps is described by its paths: each leads from a state to an outcome
and a state. The combinators below follow the usual statements, and each has a
rule for the judgement `Meets`, which says what every path of some code does:
whether it may fault, that a path which ends normally or breaks satisfies the
postcondition for that outcome, and that a path which does not return relates its
two ends.

The last part is what a loop invariant needs. A `continue` has no postcondition
of its own; what holds at the head of a loop must follow from the relation
between the two ends of an iteration.
-/

namespace Library

variable {p : Prop}

/-- How a path through a piece of code ends. -/
inductive Outcome where
  | normal
  | breaks
  | continues
  | returns
  | fault
  deriving DecidableEq, Repr

/-- The paths of a piece of code: from a state to an outcome and a state. -/
abbrev Runs (S : Type*) := S → Outcome → S → Prop

namespace Runs

variable {S : Type*}

/-- Change the state and go on. -/
def update (f : S → S) : Runs S := fun σ out σ' => out = .normal ∧ σ' = f σ

def skip : Runs S := update id

/-- Leave without a change. -/
def jump (target : Outcome) : Runs S := fun σ out σ' => out = target ∧ σ' = σ

/-- Code that does not come back. -/
def never : Runs S := fun _ _ _ => False

def seq (a b : Runs S) : Runs S := fun σ out σ' =>
  (∃ τ, a σ .normal τ ∧ b τ out σ') ∨ (out ≠ .normal ∧ a σ out σ')

def choice (a b : Runs S) : Runs S := fun σ out σ' => a σ out σ' ∨ b σ out σ'

def guard (p : Prop) (a : Runs S) : Runs S := fun σ out σ' => p ∧ a σ out σ'

/-- Code between an entry and an exit that is made however the code ends. -/
def within (enter leave : S → S) (a : Runs S) : Runs S := fun σ out σ' =>
  ∃ τ, a (enter σ) out τ ∧ σ' = leave τ

/-- A switch ends normally where its body breaks. -/
def catchBreak (a : Runs S) : Runs S := fun σ out σ' =>
  (out = .normal ∧ a σ .breaks σ') ∨ (out ≠ .breaks ∧ a σ out σ')

/-- How a loop ends when a piece of it does not come to its end. A path that goes on
with the loop has no such outcome. -/
def afterLoop : Outcome → Option Outcome
  | .breaks => some .normal
  | .returns => some .returns
  | .fault => some .fault
  | .normal | .continues => none

/-- An iteration comes to the step, past the body or by a `continue`. -/
inductive ToStep (mayEnter : Prop) (cond body : Runs S) : S → S → Prop
  | body {σ τ ended υ} : cond σ .normal τ → mayEnter → body τ ended υ → afterLoop ended = none →
      ToStep mayEnter cond body σ υ
  | condContinues {σ τ} : cond σ .continues τ → ToStep mayEnter cond body σ τ

/-- The iterations of a loop. `mayEnter` and `mayExit` say whether the condition
can be true and false. A jump in any of the three pieces is the loop's own. -/
inductive loop (mayEnter mayExit : Prop) (cond body step : Runs S) : Runs S
  | exits {σ τ} : cond σ .normal τ → mayExit →
      loop mayEnter mayExit cond body step σ .normal τ
  | condLeaves {σ ended out τ} : cond σ ended τ → afterLoop ended = some out →
      loop mayEnter mayExit cond body step σ out τ
  | bodyLeaves {σ τ ended out υ} : cond σ .normal τ → mayEnter → body τ ended υ →
      afterLoop ended = some out → loop mayEnter mayExit cond body step σ out υ
  | stepLeaves {σ υ ended out φ} : ToStep mayEnter cond body σ υ → step υ ended φ →
      afterLoop ended = some out → loop mayEnter mayExit cond body step σ out φ
  | again {σ υ ended φ out ψ} : ToStep mayEnter cond body σ υ → step υ ended φ →
      afterLoop ended = none → loop mayEnter mayExit cond body step φ out ψ →
      loop mayEnter mayExit cond body step σ out ψ

/-- A loop is left normally, by a return or by a fault. -/
theorem afterLoop_eq_some {ended out : Outcome} (h : afterLoop ended = some out) :
    out ≠ .breaks ∧ out ≠ .continues := by
  cases ended <;> cases h <;> exact ⟨nofun, nofun⟩

/-- What goes on with the loop has not returned. -/
theorem ne_returns_of_afterLoop {ended : Outcome} (h : afterLoop ended = none) :
    ended ≠ .returns := by
  rintro rfl
  cases h

/-- No path jumps to a loop around the code. -/
def Quiet (a : Runs S) : Prop :=
  ∀ σ out σ', a σ out σ' → out ≠ .breaks ∧ out ≠ .continues

namespace Quiet

variable {a b : Runs S}

theorem update {f : S → S} : (update f).Quiet := by
  rintro σ out σ' ⟨rfl, -⟩
  exact ⟨nofun, nofun⟩

theorem skip : (skip : Runs S).Quiet := update

theorem never : (never : Runs S).Quiet := fun _ _ _ path => path.elim

theorem returns : (jump .returns : Runs S).Quiet := by
  rintro σ out σ' ⟨rfl, -⟩
  exact ⟨nofun, nofun⟩

theorem seq (first : a.Quiet) (next : b.Quiet) : (seq a b).Quiet := by
  rintro σ out σ' (⟨τ, -, path⟩ | ⟨-, path⟩)
  · exact next τ out σ' path
  · exact first σ out σ' path

theorem choice (left : a.Quiet) (right : b.Quiet) : (choice a b).Quiet := by
  rintro σ out σ' (path | path)
  · exact left σ out σ' path
  · exact right σ out σ' path

theorem guard (h : a.Quiet) : (guard p a).Quiet :=
  fun σ out σ' path => h σ out σ' path.2

theorem within {enter leave : S → S} (h : a.Quiet) : (within enter leave a).Quiet := by
  rintro σ out σ' ⟨τ, path, -⟩
  exact h _ out τ path

theorem catchBreak (h : a.Quiet) : (catchBreak a).Quiet := by
  rintro σ out σ' (⟨rfl, -⟩ | ⟨-, path⟩)
  · exact ⟨nofun, nofun⟩
  · exact h σ out σ' path

/-- The jumps in a loop end with it. -/
theorem loop {mayEnter mayExit : Prop} {cond body step : Runs S} :
    (loop mayEnter mayExit cond body step).Quiet := by
  intro σ out σ' path
  induction path with
  | exits => exact ⟨nofun, nofun⟩
  | condLeaves _ left | bodyLeaves _ _ _ left | stepLeaves _ _ left => exact afterLoop_eq_some left
  | again _ _ _ _ ih => exact ih

/-- Quiet code leaves a loop around it by a return or a fault. -/
theorem leaves {σ σ' : S} {ended out : Outcome} (h : a.Quiet) (path : a σ ended σ')
    (left : afterLoop ended = some out) : ended = out ∧ out ≠ .normal := by
  obtain ⟨breaks, -⟩ := h σ ended σ' path
  cases ended <;> cases left
  · exact absurd rfl breaks
  · exact ⟨rfl, nofun⟩
  · exact ⟨rfl, nofun⟩

end Quiet

/-- Every path of `a` from `P` faults only if `F`, ends normally only in `N`, breaks
only in `B`, and relates its ends by `K` unless it returns. -/
def Meets (F : Prop) (P : S → Prop) (a : Runs S) (N B : S → Prop) (K : S → S → Prop) : Prop :=
  ∀ σ out σ', P σ → a σ out σ' →
    (out = .fault → F) ∧ (out = .normal → N σ') ∧ (out = .breaks → B σ') ∧
      (out ≠ .returns → K σ σ')

namespace Meets

/-- What is asked of a path that ends normally. -/
theorem of_normal {F N B K : Prop} (normal : N) (frame : K) :
    (Outcome.normal = .fault → F) ∧ (Outcome.normal = .normal → N) ∧
      (Outcome.normal = .breaks → B) ∧ (Outcome.normal ≠ .returns → K) :=
  ⟨nofun, fun _ => normal, nofun, fun _ => frame⟩

variable {F : Prop} {P P' N N' B B' C T X D E : S → Prop} {K K' K₁ K₂ : S → S → Prop} {a b : Runs S}

section

variable (h : Meets F P a N B K)

include h

theorem consequence (pre : ∀ σ, P' σ → P σ) (normal : ∀ σ, N σ → N' σ)
    (breaks : ∀ σ, B σ → B' σ) (frame : ∀ σ τ, P' σ → K σ τ → K' σ τ) : Meets F P' a N' B' K' := by
  intro σ out σ' start path
  obtain ⟨safe, n, b, k⟩ := h σ out σ' (pre σ start) path
  exact ⟨safe, fun e => normal _ (n e), fun e => breaks _ (b e),
    fun e => frame _ _ start (k e)⟩

theorem onStart (pre : ∀ σ, P' σ → P σ) : Meets F P' a N B K :=
  h.consequence pre (fun _ post => post) (fun _ post => post) fun _ _ _ kept => kept

theorem onEnds (normal : ∀ σ, N σ → N' σ) (breaks : ∀ σ, B σ → B' σ) : Meets F P a N' B' K :=
  h.consequence (fun _ pre => pre) normal breaks fun _ _ _ kept => kept

theorem onBreak (breaks : ∀ σ, B σ → B' σ) : Meets F P a N B' K :=
  h.onEnds (fun _ post => post) breaks

theorem onFrame (frame : ∀ σ τ, K σ τ → K' σ τ) : Meets F P a N B K' :=
  h.consequence (fun _ pre => pre) (fun _ post => post) (fun _ post => post) fun σ τ _ => frame σ τ

/-- The postconditions may use how the path started. -/
theorem remember :
    Meets F P a (fun τ => N τ ∧ ∃ σ, P σ ∧ K σ τ) (fun τ => B τ ∧ ∃ σ, P σ ∧ K σ τ) K := by
  intro σ out σ' start path
  obtain ⟨safe, normal, breaks, frame⟩ := h σ out σ' start path
  refine ⟨safe, ?_, ?_, frame⟩
  · rintro rfl
    exact ⟨normal rfl, σ, start, frame nofun⟩
  · rintro rfl
    exact ⟨breaks rfl, σ, start, frame nofun⟩

end

theorem update {f : S → S} (h : ∀ σ, P σ → N (f σ) ∧ K σ (f σ)) : Meets F P (update f) N B K := by
  rintro σ out σ' start ⟨rfl, rfl⟩
  obtain ⟨normal, frame⟩ := h σ start
  exact of_normal normal frame

theorem skip (h : ∀ σ, P σ → N σ) (frame : ∀ σ, K σ σ) : Meets F P skip N B K :=
  update fun σ start => ⟨h σ start, frame σ⟩

theorem never : Meets F P never N B K := fun _ _ _ _ path => path.elim

theorem jump_returns : Meets F P (jump .returns) N B K := by
  rintro σ out σ' _ ⟨rfl, rfl⟩
  exact ⟨nofun, nofun, nofun, fun h => absurd rfl h⟩

theorem jump_breaks (h : ∀ σ, P σ → B σ) (frame : ∀ σ, K σ σ) : Meets F P (jump .breaks) N B K := by
  rintro σ out σ' start ⟨rfl, rfl⟩
  exact ⟨nofun, nofun, fun _ => h _ start, fun _ => frame _⟩

theorem jump_continues (frame : ∀ σ, K σ σ) : Meets F P (jump .continues) N B K := by
  rintro σ out σ' _ ⟨rfl, rfl⟩
  exact ⟨nofun, nofun, nofun, fun _ => frame _⟩

theorem seq (first : Meets F P a C B K₁) (next : Meets F C b N B K₂)
    (early : ∀ σ τ, K₁ σ τ → K σ τ) (both : ∀ σ τ υ, K₁ σ τ → K₂ τ υ → K σ υ) :
    Meets F P (seq a b) N B K := by
  rintro σ out σ' start (⟨τ, pathA, pathB⟩ | ⟨leaves, path⟩)
  · obtain ⟨-, mid, -, frameA⟩ := first σ _ τ start pathA
    obtain ⟨safe, normal, breaks, frameB⟩ := next τ out σ' (mid rfl) pathB
    exact ⟨safe, normal, breaks, fun e => both _ _ _ (frameA nofun) (frameB e)⟩
  · obtain ⟨safe, -, breaks, frame⟩ := first σ out σ' start path
    exact ⟨safe, fun e => absurd e leaves, breaks, fun e => early _ _ (frame e)⟩

theorem choice (left : Meets F P a N B K) (right : Meets F P b N B K) :
    Meets F P (choice a b) N B K := by
  rintro σ out σ' start (path | path)
  · exact left σ out σ' start path
  · exact right σ out σ' start path

theorem guard (h : p → Meets F P a N B K) : Meets F P (guard p a) N B K := by
  rintro σ out σ' start ⟨holds, path⟩
  exact h holds σ out σ' start path

theorem within {enter leave : S → S} (h : Meets F P' a N' B' K') (pre : ∀ σ, P σ → P' (enter σ))
    (normal : ∀ σ, N' σ → N (leave σ)) (breaks : ∀ σ, B' σ → B (leave σ))
    (frame : ∀ σ τ, K' (enter σ) τ → K σ (leave τ)) : Meets F P (within enter leave a) N B K := by
  rintro σ out σ' start ⟨τ, path, rfl⟩
  obtain ⟨safe, n, b, k⟩ := h _ out τ (pre σ start) path
  exact ⟨safe, fun e => normal _ (n e), fun e => breaks _ (b e), fun e => frame _ _ (k e)⟩

theorem catchBreak (h : Meets F P a N X K) (broke : ∀ σ, X σ → N σ) :
    Meets F P (catchBreak a) N B K := by
  rintro σ out σ' start (⟨rfl, path⟩ | ⟨other, path⟩)
  · obtain ⟨-, -, breaks, frame⟩ := h σ _ σ' start path
    exact of_normal (broke _ (breaks rfl)) (frame nofun)
  · obtain ⟨safe, normal, -, frame⟩ := h σ out σ' start path
    exact ⟨safe, normal, fun e => absurd e other, frame⟩

/-- The loop rule, for a condition and a step without jumps. The head condition `P`
and the step's precondition `D` have to follow from what held before and from how the
code in between relates its ends. -/
theorem loop {mayEnter mayExit : Prop} {cond body step : Runs S} (condQuiet : cond.Quiet)
    (stepQuiet : step.Quiet) (condMeets : Meets F P cond C B' K) (bodyMeets : Meets F C body T X K)
    (stepMeets : Meets F D step E B' K) (trans : ∀ σ τ υ, K σ τ → K τ υ → K σ υ)
    (toStep : ∀ τ υ, C τ → K τ υ → D υ) (toHead : ∀ σ φ, P σ → K σ φ → P φ)
    (exits : mayExit → ∀ τ, C τ → N τ) (broke : ∀ τ υ, C τ → X υ → K τ υ → N υ) :
    Meets F P (loop mayEnter mayExit cond body step) N B K := by
  have stepped : ∀ σ υ, P σ → ToStep mayEnter cond body σ υ → D υ ∧ K σ υ := by
    rintro σ υ start (⟨path, -, bodyPath, goesOn⟩ | path)
    · obtain ⟨-, normal, -, frame⟩ := condMeets _ _ _ start path
      obtain ⟨-, -, -, bodyFrame⟩ := bodyMeets _ _ _ (normal rfl) bodyPath
      have kept := bodyFrame (ne_returns_of_afterLoop goesOn)
      exact ⟨toStep _ _ (normal rfl) kept, trans _ _ _ (frame nofun) kept⟩
    · exact absurd rfl (condQuiet _ _ _ path).2
  intro σ out σ' start path
  induction path with
  | exits path may =>
    obtain ⟨-, normal, -, frame⟩ := condMeets _ _ _ start path
    exact of_normal (exits may _ (normal rfl)) (frame nofun)
  | condLeaves path left =>
    obtain ⟨safe, -, -, frame⟩ := condMeets _ _ _ start path
    obtain ⟨rfl, stays⟩ := condQuiet.leaves path left
    exact ⟨safe, fun e => absurd e stays, fun e => absurd e (condQuiet _ _ _ path).1, frame⟩
  | @bodyLeaves _ _ ended _ _ path _ bodyPath left =>
    obtain ⟨-, normal, -, frame⟩ := condMeets _ _ _ start path
    obtain ⟨safe, -, breaks, bodyFrame⟩ := bodyMeets _ _ _ (normal rfl) bodyPath
    have both := fun h => trans _ _ _ (frame nofun) (bodyFrame h)
    cases ended with
    | normal | continues => cases left
    | breaks =>
      cases left
      exact of_normal (broke _ _ (normal rfl) (breaks rfl) (bodyFrame nofun)) (both nofun)
    | returns | fault =>
      cases left
      exact ⟨safe, nofun, nofun, both⟩
  | stepLeaves reached stepPath left =>
    obtain ⟨ready, kept⟩ := stepped _ _ start reached
    obtain ⟨safe, -, -, frame⟩ := stepMeets _ _ _ ready stepPath
    obtain ⟨rfl, stays⟩ := stepQuiet.leaves stepPath left
    exact ⟨safe, fun e => absurd e stays, fun e => absurd e (stepQuiet _ _ _ stepPath).1,
      fun e => trans _ _ _ kept (frame e)⟩
  | again reached stepPath goesOn _ ih =>
    obtain ⟨ready, kept⟩ := stepped _ _ start reached
    obtain ⟨-, -, -, frame⟩ := stepMeets _ _ _ ready stepPath
    have round := trans _ _ _ kept (frame (ne_returns_of_afterLoop goesOn))
    obtain ⟨safe, normal, breaks, rest⟩ := ih (toHead _ _ start round)
    exact ⟨safe, normal, breaks, fun e => trans _ _ _ round (rest e)⟩

end Meets

end Runs

end Library
