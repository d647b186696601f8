import Ciel.Library.Machine
import Ciel.Runtime.Channel.Readiness
import Mathlib.Logic.Function.Basic

/-!
# Tasks that wait on channels

A task runs on a worker thread until its future answers `EAGAIN`. The worker then
clears the task's `scheduled` flag and registers the task with every channel that
the awaited futures are bound to, one after the other. A section on a channel
hands wait nodes to its caller, which schedules their tasks after it has released
the channel. Cancelling a future wakes everybody on its channel, also after the
channel has been released.

Each label is one critical section, so a schedule may interleave the workers, the
callers that still hold wait nodes and the threads that cancel tasks in any way. A
worker that registers a task has already given up its flag: the task can be woken
and run again by another worker before the first one is done.

A future is one arm of what its task awaits: the only arm, or one arm of a select.
It is polled while its task runs, and asks one channel until it has an answer, or it
waits for an operation, another task or a task group. The future of an `async`
function stands together with the future that it awaits in turn, whose pending
source it adopts. When an operation, a task or a group is ready is not modelled: the
answer is part of the label, and a wake by anything but a channel is `schedule`,
which may come at any time.
-/

namespace Ciel.Runtime.Wakeup

open Library

/-- A future: not complete, with the channel it is bound to; not complete, with an
operation, a task or a group as its pending source; or complete or failed. -/
inductive Arm (C : Type)
  | pending (source : Option (C × Mode))
  | elsewhere
  | settled
  deriving DecidableEq

/-- `scheduled` is zero in `idle` only: a task is then `queued` for a worker, its
future is `running`, or the future has answered `EAGAIN` and the worker is about to
clear the flag. -/
inductive Phase
  | idle
  | queued
  | running
  | yielding
  deriving DecidableEq, Repr

/-- A task and what it awaits. `round` counts its awaits. `decided` says that an arm
has completed or that the wait was stopped; for a select this is its state. -/
structure Task (C : Type) where
  phase : Phase := .idle
  active : Bool := true
  canceled : Bool := false
  arms : List (Arm C) := []
  round : Nat := 0
  select : Bool := false
  decided : Bool := false

/-- A worker inside `ciel_task_register_pending_source`: the arms ahead, the source
it has read for the arm at hand, and the answer so far. -/
structure Registration (C T : Type) where
  task : T
  round : Nat
  ahead : List Nat
  source : Option (C × Mode)
  shouldSchedule : Bool

/-- `waking` are the tasks of wait nodes that were taken from a channel and are still
to be scheduled, `broadcasts` the channels of cancelled futures that are still to be
woken. A permit is its channel and its `used` flag. -/
structure State (C T W : Type) where
  chan : C → Channel T
  task : T → Task C
  worker : W → Option (Registration C T)
  permits : List (C × Bool)
  waking : List T
  broadcasts : List C

/-- Nothing has happened yet. -/
def initial {C T W : Type} (chan : C → Channel T) : State C T W :=
  ⟨chan, fun _ => {}, fun _ => none, [], [], []⟩

/-- The channel that a future is bound to. -/
def Arm.channel {C : Type} : Arm C → Option C
  | .pending source => source.map Prod.fst
  | .elsewhere | .settled => none

variable {C T W : Type} [DecidableEq C] [DecidableEq T] [DecidableEq W]

namespace State

def setTask (s : State C T W) (t : T) (task : Task C) : State C T W :=
  { s with task := Function.update s.task t task }

def setWorker (s : State C T W) (w : W) (r : Option (Registration C T)) : State C T W :=
  { s with worker := Function.update s.worker w r }

/-- The end of a section: the channel as it left it, and the nodes it took. -/
def unlock (s : State C T W) (c : C) (channel : Channel T) (taken : List T) : State C T W :=
  { s with chan := Function.update s.chan c channel, waking := s.waking ++ taken }

/-- `ciel_task_schedule`. -/
def schedule (s : State C T W) (t : T) : State C T W :=
  if (s.task t).active = true ∧ (s.task t).phase = .idle then
    s.setTask t { s.task t with phase := .queued }
  else
    s

/-- A future of the task is not complete and bound to no channel. -/
def unbound (s : State C T W) (t : T) (i : Nat) : Bool :=
  (s.task t).arms[i]? = some (.pending none) ∨ (s.task t).arms[i]? = some .elsewhere

end State

namespace Task

/-- Nothing is awaited any more. -/
def allSettled (task : Task C) : Bool := task.arms.all fun arm => arm = .settled

/-- The future of an arm completes, fails or is cancelled. -/
def settle (task : Task C) (i : Nat) : Task C :=
  { task with arms := task.arms.set i .settled, decided := true }

end Task

/-- One arm in `ciel_task_register_future_pending_source`, up to its channel. The
futures of an earlier await are all complete or failed. An operation, a task or a
group answers at once: it is `ready`, or it will wake the task. -/
def look (task : Task C) (r : Registration C T) (i : Nat) (rest : List Nat) (ready : Bool) :
    Registration C T :=
  if r.round ≠ task.round ∨ (task.select = true ∧ task.decided = true) then
    { r with ahead := [], shouldSchedule := true }
  else
    match task.arms[i]? with
    | some (.pending (some source)) => { r with ahead := rest, source := some source }
    | some .elsewhere => { r with ahead := rest, shouldSchedule := r.shouldSchedule || ready }
    | _ => { r with ahead := rest, shouldSchedule := true }

inductive Label (C T W : Type)
  -- any thread
  | schedule (t : T)
  | wake (t : T)
  | trySend (c : C) (value : Option Memory)
  | permitSend (permit : Nat) (value : Option Memory)
  | permitRelease (permit : Nat)
  | senderClose (c : C)
  | receiverClose (c : C)
  | cancel (t : T)
  | drop (t : T) (i : Nat)
  | broadcast (c : C)
  | retire (t : T)
  -- the worker that runs a task
  | start (t : T)
  | await (t : T) (arms : Nat) (select : Bool)
  | poll (t : T) (i : Nat) (c : C) (request : Channel.Request)
  | pollElsewhere (t : T) (i : Nat)
  | complete (t : T) (i : Nat)
  | finish (t : T)
  | yield (t : T)
  | suspend (t : T) (w : W)
  -- a worker that registers a task
  | look (w : W) (ready : Bool)
  | register (w : W)
  | leave (w : W)

variable (s : State C T W)

/-- `ciel_task_run` up to the poll of the task's future. A task that was finished or
cancelled meanwhile is not polled; the failed future finishes it. -/
def start (t : T) : State C T W :=
  if (s.task t).active = true ∧ (s.task t).canceled = false then
    s.setTask t { s.task t with phase := .running }
  else
    s.setTask t { s.task t with phase := .idle, active := false }

/-- One poll of an arm. The future is bound to the channel if it has to wait, and
released from it otherwise. -/
def pollArm (t : T) (i : Nat) (c : C) (request : Channel.Request) : State C T W × Code :=
  let (rc, channel, taken) := (s.chan c).poll request
  let source := if rc = .EAGAIN then some (c, request.mode) else none
  let task := s.task t
  let s :=
    (s.unlock c channel taken).setTask t { task with arms := task.arms.set i (.pending source) }
  match request with
  | .reserve => (if rc = .OK then { s with permits := s.permits ++ [(c, false)] } else s, rc)
  | _ => (s, rc)

/-- `ciel_task_run` after `EAGAIN`: the flag is cleared, and a task that is still
active is registered. Without anything to wait for the answer is to run again. -/
def suspend (t : T) (w : W) : State C T W :=
  let task := s.task t
  let idle := s.setTask t { task with phase := .idle }
  if task.active then
    idle.setWorker w (some
      { task := t, round := task.round, ahead := List.range task.arms.length, source := none
        shouldSchedule := task.arms.isEmpty })
  else
    idle

/-- The section on the channel of an arm: wait, unless the channel is ready. -/
def register (w : W) (r : Registration C T) (c : C) (mode : Mode) : State C T W :=
  if (s.chan c).readyForMode mode then
    s.setWorker w (some { r with source := none, shouldSchedule := true })
  else
    (s.unlock c ((s.chan c).pushWaiter mode r.task) []).setWorker w (some { r with source := none })

/-- One critical section. A label is not enabled where its thread cannot be. -/
def step : Label C T W → Option (State C T W × Code)
  | .schedule t => some (s.schedule t, .OK)
  | .wake t =>
    if t ∈ s.waking then
      some ({ s with waking := s.waking.erase t }.schedule t, .OK)
    else
      none
  | .trySend c value =>
    let (rc, channel, taken) := (s.chan c).trySend value
    some (s.unlock c channel taken, rc)
  | .permitSend permit value =>
    match s.permits[permit]? with
    | none => none
    | some (c, used) =>
      let (rc, channel, used, taken) := (s.chan c).permitSend used value
      some ({ s.unlock c channel taken with permits := s.permits.set permit (c, used) }, rc)
  | .permitRelease permit =>
    match s.permits[permit]? with
    | none => none
    | some (c, used) =>
      let (rc, channel, used, taken) := (s.chan c).permitRelease used
      some ({ s.unlock c channel taken with permits := s.permits.set permit (c, used) }, rc)
  | .senderClose c => some (s.unlock c (s.chan c).senderClose.1 (s.chan c).senderClose.2, .OK)
  | .receiverClose c =>
    some (s.unlock c (s.chan c).receiverClose.1 (s.chan c).receiverClose.2, .OK)
  -- `ciel_task_cancel`: the future fails at once, or when its poll ends
  | .cancel t =>
    if (s.task t).active = true ∧ (s.task t).canceled = false then
      some (s.setTask t { s.task t with canceled := true }, .OK)
    else
      some (s, .EALREADY)
  -- `ciel_future_cancel` on an arm: a loser of the select, or an arm of a cancelled task
  | .drop t i =>
    if ((s.task t).phase = .running ∧ (s.task t).decided = true) ∨ (s.task t).canceled = true then
      match (s.task t).arms[i]? with
      | none | some .settled => none
      | some arm =>
        some ({ s.setTask t ((s.task t).settle i) with
          broadcasts := s.broadcasts ++ arm.channel.toList }, .OK)
    else
      none
  -- `ciel_async_channel_broadcast`
  | .broadcast c =>
    if c ∈ s.broadcasts then
      some ({ s.unlock c (s.chan c).takeAllQueuedWaiters.1 (s.chan c).takeAllQueuedWaiters.2 with
        broadcasts := s.broadcasts.erase c }, .OK)
    else
      none
  -- `ciel_task_finish` by the thread that cancelled the task
  | .retire t =>
    if (s.task t).canceled = true ∧ (s.task t).phase ≠ .running ∧ (s.task t).allSettled = true then
      some (s.setTask t { s.task t with active := false }, .OK)
    else
      none
  | .start t => if (s.task t).phase = .queued then some (start s t, .OK) else none
  | .await t arms select =>
    if (s.task t).phase = .running ∧ (s.task t).allSettled = true then
      some (s.setTask t { s.task t with
        arms := List.replicate arms (.pending none), round := (s.task t).round + 1
        select := select, decided := false }, .OK)
    else
      none
  -- a future that is bound to a channel asks the same of it again
  | .poll t i c request =>
    if (s.task t).phase = .running ∧ (s.task t).decided = false then
      match (s.task t).arms[i]? with
      | some (.pending source) =>
        if source = none ∨ source = some (c, request.mode) then
          some (pollArm s t i c request)
        else
          none
      | _ => none
    else
      none
  -- the operation, the task or the group that a future asks is not ready
  | .pollElsewhere t i =>
    if (s.task t).phase = .running ∧ (s.task t).decided = false ∧ s.unbound t i = true then
      some (s.setTask t { s.task t with arms := (s.task t).arms.set i .elsewhere }, .EAGAIN)
    else
      none
  | .complete t i =>
    if (s.task t).phase = .running ∧ s.unbound t i = true then
      some (s.setTask t ((s.task t).settle i), .OK)
    else
      none
  | .finish t =>
    if (s.task t).phase = .running ∧ (s.task t).allSettled = true then
      some (s.setTask t { s.task t with phase := .idle, active := false }, .OK)
    else
      none
  -- the poll of a future with a cancel request does not end with `EAGAIN`
  | .yield t =>
    if (s.task t).phase = .running ∧ (s.task t).canceled = false then
      some (s.setTask t { s.task t with phase := .yielding }, .EAGAIN)
    else
      none
  | .suspend t w =>
    if (s.task t).phase = .yielding ∧ (s.worker w).isNone then
      some (suspend s t w, .OK)
    else
      none
  | .look w ready =>
    match s.worker w with
    | some r =>
      match r.source, r.ahead with
      | none, i :: rest => some (s.setWorker w (some (look (s.task r.task) r i rest ready)), .OK)
      | _, _ => none
    | none => none
  | .register w =>
    match s.worker w with
    | some r =>
      match r.source with
      | some (c, mode) => some (register s w r c mode, .OK)
      | none => none
    | none => none
  | .leave w =>
    match s.worker w with
    | some r =>
      if r.source = none ∧ r.ahead = [] then
        let s := s.setWorker w none
        some (if r.shouldSchedule then s.schedule r.task else s, .OK)
      else
        none
    | none => none

def machine (C T W : Type) [DecidableEq C] [DecidableEq T] [DecidableEq W] :
    Machine (State C T W) (Label C T W) Code := ⟨step⟩

/-! ## Lost wakeups -/

namespace State

/-- No task is scheduled or runs, no worker registers one, no thread still holds wait
nodes or is about to wake a channel, and no cancellation is half done. -/
structure Quiescent (s : State C T W) : Prop where
  idle : ∀ t, (s.task t).phase = .idle
  registered : ∀ w, (s.worker w).isNone = true
  woken : s.waking = []
  broadcast : s.broadcasts = []
  canceled : ∀ t, (s.task t).canceled = true → (s.task t).allSettled = true

/-- A future that the task awaits is bound to the channel in the given mode. -/
def awaits (s : State C T W) (t : T) (c : C) (mode : Mode) : Bool :=
  (s.task t).arms.any fun arm => arm = .pending (some (c, mode))

/-- An unfinished task waits for something that is there. -/
def Lost (s : State C T W) : Prop :=
  ∃ t c mode, (s.task t).active = true ∧ s.awaits t c mode = true ∧
    (s.chan c).readyForMode mode = true

end State

end Ciel.Runtime.Wakeup
