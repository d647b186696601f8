import Ciel.Library.Machine
import Ciel.Runtime.Code
import Mathlib.Logic.Function.Basic

/-!
# Tasks finishing inside task groups

A task finishes in two phases. Under the task mutex it leaves `ACTIVE` and
settles with every group it was added to. Then its resource owner is closed
without any lock. Under the task mutex again it becomes `FINISHED` and its nodes
are completed, group by group.

The loops over the groups take each group mutex in turn while the task mutex
stays held, so another thread may close a group between two rounds. Each round
is one step here, and `Task.held` records the rest of the loop that the holder
of the mutex still has to run. Nothing else may take the mutex in the meantime.

Tasks and groups are addressed by numbers. One that no step has touched is in
its initial state, so that making one needs no step. Wait nodes of other kinds
than task groups do not touch groups and are left out.
-/

namespace Ciel.Runtime.TaskGroup

open Library

inductive TaskState
  | ACTIVE | CLEANING | FINISHED
  deriving DecidableEq, Repr

/-- A loop over wait nodes that runs with the task mutex held. -/
inductive Held
  | settling (rest : List Nat)
  | committing (rest : List Nat)
  deriving DecidableEq, Repr

/-- `finishRc` is the local variable of the thread inside `ciel_task_finish`. -/
structure Task where
  state : TaskState := .ACTIVE
  rc : Code := .OK
  finishRc : Code := .OK
  waiters : List Nat := []
  held : Option Held := none

namespace Task

/-! The writes to a task that its mutex protects. -/

def push (n : Nat) (task : Task) : Task := { task with waiters := n :: task.waiters }

/-- The task leaves `ACTIVE` and starts to settle its nodes. -/
def leave (rc : Code) (task : Task) : Task :=
  { task with state := .CLEANING, finishRc := rc, held := some (.settling task.waiters) }

def settleRest (rest : List Nat) (task : Task) : Task :=
  { task with held := some (.settling rest) }

/-- The task is `FINISHED` and starts to complete its nodes. -/
def publish (task : Task) : Task :=
  { task with
    state := .FINISHED, rc := task.finishRc, waiters := []
    held := some (.committing task.waiters) }

def commitRest (rest : List Nat) (task : Task) : Task :=
  { task with held := some (.committing rest) }

def unlock (task : Task) : Task := { task with held := none }

end Task

/-- A `CielTaskGroupTaskNode`, with the group of its wait node. -/
structure Node where
  task : Nat
  group : Nat
  completed : Bool
  settledBeforeClose : Bool

/-- `tasks` lists the unfinished nodes. A done node is identified with the task
node it was made for. -/
structure Group where
  tasks : List Nat := []
  done : List Nat := []
  closed : Bool := false

/-- `completing` holds the nodes of additions that found their task finished and
have not completed the node yet. -/
structure System where
  tasks : Nat → Task
  groups : Nat → Group
  nodes : Nat → Node
  added : Nat
  completing : List Nat

def initial : System := ⟨fun _ => {}, fun _ => {}, fun _ => ⟨0, 0, false, false⟩, 0, []⟩

namespace System

variable (s : System)

@[simps groups nodes added completing]
def setTask (k : Nat) (task : Task) : System :=
  { s with tasks := Function.update s.tasks k task }

@[simps tasks nodes added completing]
def setGroup (g : Nat) (group : Group) : System :=
  { s with groups := Function.update s.groups g group }

@[simps tasks groups added completing]
def setNode (n : Nat) (node : Node) : System :=
  { s with nodes := Function.update s.nodes n node }

/-- Allocate the next node. -/
@[simps tasks groups added completing]
def newNode (node : Node) : System :=
  { s with added := s.added + 1, nodes := Function.update s.nodes s.added node }

@[simps]
def setCompleting (completing : List Nat) : System := { s with completing }

/-! Reading back what a write left, field by field. -/

attribute [grind =] setTask_groups setTask_nodes setTask_added setTask_completing setGroup_tasks
  setGroup_nodes setGroup_added setGroup_completing setNode_tasks setNode_groups setNode_added
  setNode_completing newNode_tasks newNode_groups newNode_added newNode_completing
  setCompleting_tasks setCompleting_groups setCompleting_nodes setCompleting_added
  setCompleting_completing

@[simp, grind =] theorem setTask_tasks (k : Nat) (task : Task) (j : Nat) :
    (s.setTask k task).tasks j = if j = k then task else s.tasks j := by
  simp [setTask, Function.update_apply]

@[simp, grind =] theorem setGroup_groups (g : Nat) (group : Group) (j : Nat) :
    (s.setGroup g group).groups j = if j = g then group else s.groups j := by
  simp [setGroup, Function.update_apply]

@[simp, grind =] theorem setNode_nodes (n : Nat) (node : Node) (m : Nat) :
    (s.setNode n node).nodes m = if m = n then node else s.nodes m := by
  simp [setNode, Function.update_apply]

@[simp, grind =] theorem newNode_nodes (node : Node) (m : Nat) :
    (s.newNode node).nodes m = if m = s.added then node else s.nodes m := by
  simp [newNode, Function.update_apply]

/-- One round of `ciel_task_settle_group_waiters_locked`. -/
def settle (n : Nat) : System :=
  let node := s.nodes n
  if !(s.groups node.group).closed && !node.completed then
    s.setNode n { node with settledBeforeClose := true }
  else
    s

/-- `ciel_task_group_complete_task_locked`, with the node it puts on the done
queue. -/
def complete (n : Nat) : System × Option Nat :=
  let node := s.nodes n
  let group := s.groups node.group
  if node.completed then
    (s, none)
  else
    let s := s.setNode n { node with completed := true }
    let group := { group with tasks := group.tasks.erase n }
    if !group.closed || node.settledBeforeClose then
      (s.setGroup node.group { group with done := group.done ++ [n] }, some n)
    else
      (s.setGroup node.group group, none)

/-- `ciel_task_group_pop_done_locked`. -/
def popDone (g : Nat) : Option (Nat × System) :=
  match (s.groups g).done with
  | [] => none
  | n :: rest => some (n, s.setGroup g { s.groups g with done := rest })

end System

/-- What a section reports: its code, the node handed to the caller, the node
put on a done queue, and the tasks a `cancel_all` goes on to cancel. -/
structure Answer where
  rc : Code
  delivered : Option Nat := none
  placed : Option Nat := none
  snapshot : List Nat := []

inductive Op
  | add (group task : Nat)
  | completeAdded (node : Nat)
  | finish (task : Nat) (rc : Code)
  | settleNext (task : Nat)
  | publish (task : Nat)
  | commitNext (task : Nat)
  | unlock (task : Nat)
  | nextTaskPoll (group : Nat)
  | tryNextTask (group : Nat)
  | joinPoll (group : Nat)
  | cancelAll (group : Nat)
  | close (group : Nat)

/-- `ciel_task_group_add`, up to the end of the section under both mutexes. -/
def System.add (s : System) (g k : Nat) : System × Answer :=
  let task := s.tasks k
  let group := s.groups g
  if group.closed then
    (s, { rc := .EPIPE })
  else
    let n := s.added
    let node : Node := ⟨k, g, false, task.state ≠ .ACTIVE⟩
    let s := (s.newNode node).setGroup g { group with tasks := n :: group.tasks }
    if task.state = .FINISHED then
      (s.setCompleting (n :: s.completing), { rc := .OK })
    else
      (s.setTask k (task.push n), { rc := .OK })

/-- One step. `cancelAll` only takes its snapshot: the cancellations that follow
are `finish` steps, which any thread may take at any time. -/
def step (s : System) : Op → Option (System × Answer)
  | .add g k => if (s.tasks k).held = none then some (s.add g k) else none
  | .completeAdded n =>
    if n ∈ s.completing then
      let (completed, placed) := s.complete n
      some (completed.setCompleting (s.completing.erase n), { rc := .OK, placed })
    else
      none
  | .finish k rc =>
    let task := s.tasks k
    if task.held ≠ none then
      none
    else if task.state ≠ .ACTIVE then
      some (s, { rc := .OK })
    else
      some (s.setTask k (task.leave rc), { rc := .OK })
  | .settleNext k =>
    let task := s.tasks k
    match task.held with
    | some (.settling (n :: rest)) =>
      some ((s.settle n).setTask k (task.settleRest rest), { rc := .OK })
    | _ => none
  | .publish k =>
    let task := s.tasks k
    if task.held = none ∧ task.state = .CLEANING then
      some (s.setTask k task.publish, { rc := .OK })
    else
      none
  | .commitNext k =>
    let task := s.tasks k
    match task.held with
    | some (.committing (n :: rest)) =>
      let (s, placed) := s.complete n
      some (s.setTask k (task.commitRest rest), { rc := .OK, placed })
    | _ => none
  | .unlock k =>
    let task := s.tasks k
    match task.held with
    | some (.settling []) | some (.committing []) =>
      some (s.setTask k task.unlock, { rc := .OK })
    | _ => none
  | .nextTaskPoll g | .tryNextTask g =>
    match s.popDone g with
    | some (n, s) => some (s, { rc := .OK, delivered := some n })
    | none => some (s, { rc := if (s.groups g).closed then .EPIPE else .EAGAIN })
  | .joinPoll g => some (s, { rc := if (s.groups g).tasks = [] then .OK else .EAGAIN })
  | .cancelAll g =>
    some (s, { rc := .OK, snapshot := (s.groups g).tasks.map fun n => (s.nodes n).task })
  | .close g => some (s.setGroup g { s.groups g with closed := true }, { rc := .OK })

def machine : Machine System Op Answer := ⟨step⟩

end Ciel.Runtime.TaskGroup
