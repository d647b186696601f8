import Ciel.Runtime.Code
import Mathlib.Logic.Function.Iterate

/-!
# Chains of generated futures

An `await` in a generated future polls the awaited future through a trampoline. The
polls of one thread that are nested in each other share a budget, which the outermost
one sets: it is meant to keep a chain of ready futures from taking the thread for
itself. A poll without budget left returns `EAGAIN` before it looks at the future.

A future that was suspended this way is polled again from the outermost one, and that
poll spends its budget on the same futures. So a chain is completed by the first poll,
if the budget reaches its end, and by no number of polls otherwise.
-/

namespace Ciel.Runtime.Trampoline

/-- `CIEL_FUTURE_TRAMPOLINE_FAIRNESS_BUDGET`. -/
def fairnessBudget : Nat := 64

/-- The thread-local variables `ciel_future_trampoline_depth` and
`ciel_future_trampoline_budget`. -/
structure Thread where
  depth : Nat
  budget : Nat
  deriving DecidableEq, Repr

/-- The budget of the next poll: the outermost one sets it. -/
def Thread.allowance (thread : Thread) : Nat :=
  if thread.depth = 0 then fairnessBudget else thread.budget

inductive FutureState
  | pending | running | complete
  | failed (failure : Code)
  deriving DecidableEq, Repr

/-- The part of an async frame that belongs to its one `await`: the resume index, and
whether `active_future` is set. -/
structure Frame where
  pc : Nat
  active : Bool
  deriving DecidableEq, Repr

/-- A future whose code returns at once, or one whose body is a single `await`. The
awaited future belongs to the frame that polls it; before the body is started it is
the one that the operand will create. -/
inductive Future
  | ready (state : FutureState)
  | awaiting (state : FutureState) (frame : Frame) (awaited : Future)
  deriving DecidableEq, Repr

namespace Future

/-- A chain of so many awaits, as it is created. -/
def chain : Nat → Future
  | 0 => .ready .pending
  | n + 1 => .awaiting .pending ⟨0, false⟩ (chain n)

def state : Future → FutureState
  | .ready state => state
  | .awaiting state _ _ => state

def setState (state : FutureState) : Future → Future
  | .ready _ => .ready state
  | .awaiting _ frame awaited => .awaiting state frame awaited

end Future

/-- What a call on a future returns and leaves behind. -/
structure Polled where
  code : Code
  thread : Thread
  future : Future
  deriving DecidableEq, Repr

/-- `ciel_future_poll` for the code `run` of the future. -/
def poll (run : Thread → Future → Polled) (thread : Thread) (future : Future) : Polled :=
  match future.state with
  | .complete => ⟨.OK, thread, future⟩
  | .failed failure => ⟨if failure = .OK then Code.EIO else failure, thread, future⟩
  | .running => ⟨.EALREADY, thread, future⟩
  | .pending =>
    let ran := run thread (future.setState .running)
    let state := match ran.code with
      | .OK => .complete
      | .EAGAIN => .pending
      | failure => .failed failure
    { ran with future := ran.future.setState state }

/-- `ciel_future_poll_trampoline` around a poll. -/
def trampoline (poll : Thread → Future → Polled) (thread : Thread) (future : Future) : Polled :=
  let budget := thread.allowance
  if budget = 0 then ⟨.EAGAIN, { thread with budget }, future⟩
  else
    let polled := poll ⟨thread.depth + 1, budget - 1⟩ future
    { polled with thread :=
        ⟨polled.thread.depth - 1, if thread.depth = 0 then 0 else polled.thread.budget⟩ }

/-- The generated code of a body that is one `await`, from its resume switch on. The
operand has been evaluated if the frame is at the await and `active_future` is set. -/
def runAwait (pollAwaited : Thread → Future → Polled) (thread : Thread) : Future → Polled
  | .ready state => ⟨.OK, thread, .ready state⟩
  | .awaiting state frame awaited =>
    if 1 < frame.pc then ⟨.EINVAL, thread, .awaiting state frame awaited⟩
    else
      let polled := pollAwaited thread awaited
      if polled.code = .EAGAIN then
        ⟨.EAGAIN, polled.thread, .awaiting state ⟨1, true⟩ polled.future⟩
      else ⟨polled.code, polled.thread, .awaiting state ⟨0, false⟩ polled.future⟩

/-- `ciel_future_poll_trampoline`. -/
def pollTrampoline : Future → Thread → Polled
  | .ready state, thread =>
    trampoline (poll (runAwait fun thread future => ⟨.OK, thread, future⟩)) thread (.ready state)
  | .awaiting state frame awaited, thread =>
    trampoline (poll (runAwait fun thread _ => pollTrampoline awaited thread)) thread
      (.awaiting state frame awaited)

/-- The outermost poll of a future, by a thread that polls nothing else. -/
def pollOutermost (future : Future) : Polled := pollTrampoline future ⟨0, 0⟩

/-- The code of the last of so many polls, one after the other, and at least one. -/
def codeAfter (polls : Nat) (future : Future) : Code :=
  (pollOutermost ((fun future => (pollOutermost future).future)^[polls] future)).code

/-! ### One poll of a chain -/

/-- A chain of so many awaits that is not completed: all its futures are pending, and
each has been started or not. -/
inductive Unfinished : Nat → Future → Prop
  | ready : Unfinished 0 (.ready .pending)
  | awaiting {n : Nat} {awaited : Future} (frame : Frame) (index : frame.pc ≤ 1)
      (rest : Unfinished n awaited) : Unfinished (n + 1) (.awaiting .pending frame awaited)

theorem unfinished_chain (n : Nat) : Unfinished n (.chain n) := by
  induction n with
  | zero => exact .ready
  | succ n ih => exact .awaiting ⟨0, false⟩ (Nat.zero_le 1) ih

/-- What a poll of a future that awaits another one does, in terms of the poll of
that one. -/
theorem pollTrampoline_awaiting {frame : Frame} (index : frame.pc ≤ 1) {awaited : Future}
    {thread : Thread} (some : thread.allowance ≠ 0) :
    let inner := pollTrampoline awaited ⟨thread.depth + 1, thread.allowance - 1⟩
    let outer := pollTrampoline (.awaiting .pending frame awaited) thread
    (inner.code = .OK → outer.code = .OK) ∧
      (inner.code = .EAGAIN →
        outer.code = .EAGAIN ∧ outer.future = .awaiting .pending ⟨1, true⟩ inner.future) := by
  intro inner outer
  have started : ¬1 < frame.pc := by omega
  constructor
  · intro completed
    simp [outer, pollTrampoline, trampoline, poll, runAwait, Future.state, Future.setState, some,
      started, inner] at completed ⊢
    simp [completed]
  · intro suspended
    simp [outer, pollTrampoline, trampoline, poll, runAwait, Future.state, Future.setState, some,
      started, inner] at suspended ⊢
    simp [suspended]

/-- A chain that the budget reaches the end of is completed. -/
theorem pollTrampoline_completes {n : Nat} {future : Future} (unfinished : Unfinished n future)
    (thread : Thread) (enough : n < thread.allowance) :
    (pollTrampoline future thread).code = .OK := by
  induction unfinished generalizing thread with
  | ready =>
    have some : thread.allowance ≠ 0 := by omega
    simp [pollTrampoline, trampoline, poll, runAwait, Future.state, Future.setState, some]
  | @awaiting n awaited frame index rest ih =>
    have inner : n < Thread.allowance ⟨thread.depth + 1, thread.allowance - 1⟩ := by
      change n < thread.allowance - 1
      omega
    exact (pollTrampoline_awaiting index (by omega)).1 (ih _ inner)

/-- A chain that the budget does not reach the end of is suspended, and is as
unfinished as before. -/
theorem pollTrampoline_suspends {n : Nat} {future : Future} (unfinished : Unfinished n future)
    (thread : Thread) (short : thread.allowance ≤ n) :
    (pollTrampoline future thread).code = .EAGAIN ∧
      Unfinished n (pollTrampoline future thread).future := by
  induction unfinished generalizing thread with
  | ready =>
    have spent : thread.allowance = 0 := by omega
    simp [pollTrampoline, trampoline, spent, Unfinished.ready]
  | @awaiting n awaited frame index rest ih =>
    by_cases spent : thread.allowance = 0
    · simp [pollTrampoline, trampoline, spent, Unfinished.awaiting frame index rest]
    · have inner : Thread.allowance ⟨thread.depth + 1, thread.allowance - 1⟩ ≤ n := by
        change thread.allowance - 1 ≤ n
        omega
      obtain ⟨suspended, rest'⟩ := ih _ inner
      obtain ⟨code, future⟩ := (pollTrampoline_awaiting index spent).2 suspended
      rw [future]
      exact ⟨code, .awaiting ⟨1, true⟩ le_rfl rest'⟩

/-! ### All polls of a chain -/

/-- Polling a chain again and again that is longer than the budget leaves it
unfinished. -/
theorem unfinished_iterate {n : Nat} (long : fairnessBudget ≤ n) (polls : Nat) :
    Unfinished n ((fun future => (pollOutermost future).future)^[polls] (.chain n)) := by
  induction polls with
  | zero => exact unfinished_chain n
  | succ polls ih =>
    rw [Function.iterate_succ_apply']
    exact (pollTrampoline_suspends ih ⟨0, 0⟩ long).2

theorem codeAfter_of_long {n : Nat} (long : fairnessBudget ≤ n) (polls : Nat) :
    codeAfter polls (.chain n) = .EAGAIN :=
  (pollTrampoline_suspends (unfinished_iterate long polls) ⟨0, 0⟩ long).1

/-- A chain of awaits with a ready future at its end is completed by some number of
polls if and only if it has fewer awaits than the budget, and then by the first. -/
theorem chain_completed_iff (n : Nat) :
    ((∃ polls, codeAfter polls (.chain n) = .OK) ↔ n < fairnessBudget) ∧
      (n < fairnessBudget → codeAfter 0 (.chain n) = .OK) := by
  have first (short : n < fairnessBudget) : codeAfter 0 (.chain n) = .OK :=
    pollTrampoline_completes (unfinished_chain n) ⟨0, 0⟩ short
  refine ⟨⟨?_, fun short => ⟨0, first short⟩⟩, first⟩
  rintro ⟨polls, completed⟩
  by_contra notShort
  cases (codeAfter_of_long (Nat.le_of_not_lt notShort) polls).symm.trans completed

/-- A chain of 65 futures, 64 of which await the next one, is never completed. -/
theorem chain_never_completed : ¬ ∃ polls, codeAfter polls (.chain 64) ≠ .EAGAIN := by
  rintro ⟨polls, completed⟩
  exact completed (codeAfter_of_long le_rfl polls)

end Ciel.Runtime.Trampoline
