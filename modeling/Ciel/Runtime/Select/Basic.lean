import Ciel.Library.Machine
import Ciel.Runtime.Code
import Mathlib.Logic.Function.Basic
import Mathlib.Tactic.Simps.Basic

/-!
# A select set and the threads that drive it

A select set is settled by whichever thread first sees an arm finish, or by a
stop. Arms are polled with `poll_mutex` held, from two places: a wake of one arm
and the poll of all arms inside `ciel_select_poll_immediate`. The state itself is
protected by `mutex`, which is never held across a call, so each of its critical
sections is one step. A poll is two steps, because a stop may come between its
beginning and its end.

`Pc` is the program point of a thread inside the select functions, with its
local variables. A thread that holds `poll_mutex` is at one of the points that
`Pc.holds` lists. Rearming an arm and scheduling waiters do not touch the set
and are left out.
-/

namespace Ciel.Runtime.Select

open Library

inductive SelectState
  | PENDING | WON | STOPPED
  deriving DecidableEq, Repr

/-- One arm. `result` is the buffer that a successful poll of the arm fills. -/
structure Arm (Value : Type*) where
  rc : Code := .OK
  completed : Bool := false
  result : Option Value := none

/-- The function that polls: `ciel_select_wake_arm` for one arm, or
`ciel_select_poll_immediate`, which `ciel_select_future_run` or a wake of a
biased set may have called. -/
inductive Poller
  | wakeArm (index : Nat)
  | immediate (fromRun : Bool)
  deriving DecidableEq, Repr

/-- Program points. The comments name the function that a group belongs to. -/
inductive Pc
  | idle
  -- `ciel_select_wake_arm` and `ciel_select_poll_immediate`
  | lock (poller : Poller)
  | check (poller : Poller)
  | pollArms (poller : Poller) (rest : List Nat)
  | polling (poller : Poller) (index : Nat) (rest : List Nat)
  | polled (poller : Poller) (index : Nat) (rc : Code)
  | recordWinner (poller : Poller) (index : Nat)
  | unlock (poller : Poller) (claimed : Option Nat) (rc : Code)
  | cancelLosers (poller : Poller) (winner next : Nat)
  -- `ciel_select_future_run`
  | enter
  | recheck (rc : Code)
  -- `ciel_select_finish_winner`
  | finishWinner (winner : Nat)
  | repolling (winner : Nat)
  | repolled (winner : Nat) (rc : Code)
  | finishCancel (winner : Nat) (rc : Code) (next : Nat)
  -- `ciel_select_finish_stop` and `ciel_select_cancel`
  | finishStop (rc : Code)
  | cancelLock
  | cancelRecord
  | cancelUnlock
  | cancelArms (next : Nat) (answer : Option Code)
  deriving DecidableEq, Repr

namespace Pc

/-- The points at which the thread holds `poll_mutex`. -/
def holds : Pc → Bool
  | check _ | pollArms .. | polling .. | polled .. | recordWinner .. | unlock ..
  | cancelRecord | cancelUnlock => true
  | _ => false

end Pc

/-- Where a polling function returns to. The caller of a wake ignores the code. -/
def Poller.return (rc : Code) : Poller → Pc
  | .immediate true => .recheck rc
  | .immediate false => .idle
  | .wakeArm _ => .idle

/-- `threads` gives the program point of every thread; `pollMutex` the thread
that holds the mutex. -/
structure World (Value : Type*) where
  len : Nat
  biased : Bool
  arms : Nat → Arm Value
  state : SelectState
  winner : Nat
  stopRc : Code
  pollMutex : Option Nat
  threads : Nat → Pc

variable {Value : Type*}

/-- A set right after its arms were pushed, before any thread uses it. -/
def initial (len : Nat) (biased : Bool) : World Value where
  len := len
  biased := biased
  arms := fun _ => {}
  state := .PENDING
  winner := sizeMax
  stopRc := .OK
  pollMutex := none
  threads := fun _ => .idle

namespace World

/-! The writes of the select functions. `simps` reads them back field by field. -/

@[simps] def goto (w : World Value) (th : Nat) (pc : Pc) : World Value :=
  { w with threads := Function.update w.threads th pc }

@[simps] def setMutex (w : World Value) (holder : Option Nat) : World Value :=
  { w with pollMutex := holder }

@[simps] def setArm (w : World Value) (i : Nat) (arm : Arm Value) : World Value :=
  { w with arms := Function.update w.arms i arm }

@[simps] def setWon (w : World Value) (i : Nat) : World Value :=
  { w with state := .WON, winner := i }

@[simps] def setStopped (w : World Value) (rc : Code) : World Value :=
  { w with state := .STOPPED, stopRc := if rc = .OK then Code.EIO else rc }

end World

/-- What a step shows. `completed` is the select future completing with a winner,
together with what `ciel_select_winner_value` then reads; `returned` is
`ciel_select_future_run` returning any other code. -/
inductive Event (Value : Type*)
  | quiet
  | pollBegin (index : Nat)
  | pollEnd (index : Nat) (rc : Code) (value : Value)
  | won (index : Nat)
  | stopped (rc : Code)
  | canceled (index : Nat)
  | completed (index : Nat) (rc : Code) (result : Option Value)
  | returned (rc : Code)

/-- A thread starts a function of the set, or goes on inside one. The last two
carry what is decided outside of the set: the turn of the fairness counter, and
the answer of an arm's future. -/
inductive Action (Value : Type*)
  | wake (index : Nat)
  | run
  | cancel
  | stop (rc : Code)
  | advance
  | fairStart (start : Nat)
  | answer (rc : Code) (value : Value)

/-- Label of the machine: the thread that moves and what it does. -/
structure Label (Value : Type*) where
  thread : Nat
  action : Action Value

namespace World

/-- The order in which `ciel_select_poll_immediate` visits the arms. -/
def pollOrder (w : World Value) (start : Nat) : List Nat :=
  let start := if w.biased then 0 else start % w.len
  (List.range w.len).map fun offset => (start + offset) % w.len

/-- `ciel_select_record_stop`. -/
def recordStop (w : World Value) (rc : Code) : World Value × Event Value :=
  if w.state = .PENDING then (w.setStopped rc, .stopped rc) else (w, .quiet)

/-- How `ciel_select_future_run` leaves for a settled set. -/
def settledPc (w : World Value) (otherwise : Pc) : Pc :=
  match w.state with
  | .WON => .finishWinner w.winner
  | .STOPPED => .finishStop w.stopRc
  | .PENDING => otherwise

/-- One round of `ciel_select_cancel_losers`. -/
def cancelLoser (winner next : Nat) : Event Value :=
  if next = winner then .quiet else .canceled next

end World

/-- The first section of `ciel_select_wake_arm`. -/
def wakeArm (w : World Value) (th i : Nat) : World Value :=
  if w.state = .PENDING ∧ i < w.len then
    w.goto th (.lock (if w.biased then .immediate false else .wakeArm i))
  else
    w

variable (w : World Value)

/-- `ciel_select_poll_immediate` up to its loop. -/
def startImmediate (th : Nat) (fromRun : Bool) (start : Nat) : World Value :=
  if w.state ≠ .PENDING then
    w.goto th (.unlock (.immediate fromRun) none .OK)
  else if w.len = 0 then
    w.goto th (.unlock (.immediate fromRun) none .EINVAL)
  else
    w.goto th (.pollArms (.immediate fromRun) (w.pollOrder start))

/-- An arm's future answers. A success has filled the arm's buffer. -/
def World.fill (i : Nat) (rc : Code) (value : Value) : World Value :=
  if rc = .OK then w.setArm i { w.arms i with result := some value } else w

/-- `arm->rc = rc; arm->completed = 1;` -/
def World.store (i : Nat) (rc : Code) : World Value :=
  w.setArm i { w.arms i with rc := rc, completed := true }

/-- A thread goes on from its program point, where nothing outside decides. -/
def advance (th : Nat) : Pc → Option (World Value × Event Value)
  | .lock poller =>
    if w.pollMutex = none then
      some ((w.setMutex (some th)).goto th (.check poller), .quiet)
    else
      none
  | .check (.wakeArm i) =>
    if w.state = .PENDING ∧ i < w.len then
      some (w.goto th (.pollArms (.wakeArm i) [i]), .quiet)
    else
      some (w.goto th (.unlock (.wakeArm i) none .OK), .quiet)
  | .pollArms poller [] => some (w.goto th (.unlock poller none .EAGAIN), .quiet)
  | .pollArms poller (i :: rest) => some (w.goto th (.polling poller i rest), .pollBegin i)
  | .polled poller i rc => some ((w.store i rc).goto th (.recordWinner poller i), .quiet)
  | .recordWinner poller i =>
    if w.state = .PENDING then
      some ((w.setWon i).goto th (.unlock poller (some i) .OK), .won i)
    else
      some (w.goto th (.unlock poller none .OK), .quiet)
  | .unlock poller none rc => some ((w.setMutex none).goto th (poller.return rc), .quiet)
  | .unlock poller (some i) _ =>
    some ((w.setMutex none).goto th (.cancelLosers poller i 0), .quiet)
  | .cancelLosers poller i k =>
    if k < w.len then
      some (w.goto th (.cancelLosers poller i (k + 1)), World.cancelLoser i k)
    else
      some (w.goto th (poller.return .OK), .quiet)
  | .enter => some (w.goto th (w.settledPc (.lock (.immediate true))), .quiet)
  | .recheck rc =>
    if w.state = .PENDING then
      some (w.goto th .idle, .returned rc)
    else
      some (w.goto th (w.settledPc .idle), .quiet)
  | .finishWinner i =>
    if w.len ≤ i then
      some (w.goto th .idle, .returned .EINVAL)
    else if (w.arms i).completed then
      some (w.goto th (.finishCancel i (w.arms i).rc 0), .quiet)
    else
      some (w.goto th (.repolling i), .pollBegin i)
  | .repolled i rc => some ((w.store i rc).goto th (.finishCancel i rc 0), .quiet)
  | .finishCancel i rc k =>
    if k < w.len then
      some (w.goto th (.finishCancel i rc (k + 1)), World.cancelLoser i k)
    else
      some (w.goto th .idle, .completed i rc (w.arms i).result)
  | .finishStop rc =>
    if w.pollMutex = none then
      some (w.goto th (.cancelArms 0 (some (if rc = .OK then Code.EIO else rc))), .quiet)
    else
      none
  | .cancelLock =>
    if w.pollMutex = none then
      some ((w.setMutex (some th)).goto th .cancelRecord, .quiet)
    else
      none
  | .cancelRecord =>
    some ((w.recordStop .ECANCELED).1.goto th .cancelUnlock, (w.recordStop .ECANCELED).2)
  | .cancelUnlock => some ((w.setMutex none).goto th (.cancelArms 0 none), .quiet)
  | .cancelArms k answer =>
    if k < w.len then
      some (w.goto th (.cancelArms (k + 1) answer), .canceled k)
    else
      some (w.goto th .idle, match answer with | some rc => .returned rc | none => .quiet)
  | .idle | .check (.immediate _) | .polling .. | .repolling _ => none

/-- An arm's future answers the poll that the thread is in. -/
def answer (th : Nat) (rc : Code) (value : Value) : Pc → Option (World Value × Event Value)
  | .polling poller i rest =>
    if rc = .EAGAIN then
      some (w.goto th (.pollArms poller rest), .pollEnd i rc value)
    else
      some ((w.fill i rc value).goto th (.polled poller i rc), .pollEnd i rc value)
  | .repolling i =>
    if rc = .EAGAIN then
      some (w.goto th .idle, .pollEnd i rc value)
    else
      some ((w.fill i rc value).goto th (.repolled i rc), .pollEnd i rc value)
  | _ => none

/-- One step of the thread that the label names. `ciel_select_stop` is a single
section and does not move its thread. -/
def step (label : Label Value) : Option (World Value × Event Value) :=
  let th := label.thread
  match label.action, w.threads th with
  | .wake i, .idle => some (wakeArm w th i, .quiet)
  | .run, .idle => some (w.goto th .enter, .quiet)
  | .cancel, .idle => some (w.goto th .cancelLock, .quiet)
  | .stop rc, .idle => some (w.recordStop rc)
  | .fairStart start, .check (.immediate fromRun) =>
    some (startImmediate w th fromRun start, .quiet)
  | .answer rc value, pc => answer w th rc value pc
  | .advance, pc => advance w th pc
  | _, _ => none

def machine : Machine (World Value) (Label Value) (Event Value) := ⟨step⟩

end Ciel.Runtime.Select
