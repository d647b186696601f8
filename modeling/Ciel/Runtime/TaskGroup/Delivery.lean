import Ciel.Runtime.TaskGroup.Basic
import Mathlib.Data.List.Nodup

/-!
# Each node of a task group is delivered at most once

The life of a node is a path through a few lists: it starts in the wait list of
its task, or among the additions still completing if the task is finished
already. Publishing the task moves it to the commit loop. Completing it takes it
out of the unfinished list of its group, and puts it on the done queue when it
settled before the group was closed. `Lists`, `Members` and `Flags` describe the
lists, the groups and the settled flags; the run theorem combines them.
-/

namespace Ciel.Runtime.TaskGroup

open Library

variable {s t : System} {n : Nat} {placedNow deliveredNow : Option Nat}

namespace Task

/-- The nodes a task still has to complete. -/
def pending (task : Task) : List Nat :=
  match task.held with
  | some (.committing rest) => rest
  | _ => task.waiters

/-- The nodes a task still has to settle. -/
def unsettled (task : Task) : List Nat :=
  match task.held with
  | some (.settling rest) => rest
  | _ => []

/-- The state, the wait list and the loop in progress fit together. -/
structure Consistent (task : Task) : Prop where
  waiters : task.state = .FINISHED → task.waiters = []
  committing : ∀ {rest}, task.held = some (.committing rest) → task.state = .FINISHED
  settling : ∀ {rest}, task.held = some (.settling rest) →
    task.state = .CLEANING ∧ rest <:+ task.waiters

variable {task : Task} {n : Nat} {rest : List Nat} {rc : Code}

theorem pending_push (free : task.held = none) : (task.push n).pending = n :: task.pending := by
  simp [pending, push, free]

theorem pending_leave (free : task.held = none) : (task.leave rc).pending = task.pending := by
  simp [pending, leave, free]

theorem pending_settleRest (held : task.held = some (.settling (n :: rest))) :
    (task.settleRest rest).pending = task.pending := by
  simp [pending, settleRest, held]

theorem pending_publish (free : task.held = none) : task.publish.pending = task.pending := by
  simp [pending, publish, free]

theorem pending_commitRest (held : task.held = some (.committing (n :: rest))) :
    task.pending = n :: (task.commitRest rest).pending := by
  simp [pending, commitRest, held]

theorem pending_unlock (h : task.Consistent)
    (held : task.held = some (.settling []) ∨ task.held = some (.committing [])) :
    task.unlock.pending = task.pending := by
  rcases held with held | held
  · simp [pending, unlock, held]
  · simp [pending, unlock, held, h.waiters (h.committing held)]

theorem Consistent.unsettled_finished (h : task.Consistent) (finished : task.state = .FINISHED) :
    task.unsettled = [] := by
  unfold unsettled
  split
  · rename_i rest held
    simp [(h.settling held).1] at finished
  · rfl

theorem Consistent.push (free : task.held = none)
    (live : task.state ≠ .FINISHED) : (task.push n).Consistent where
  waiters finished := absurd finished live
  committing held := by simp [Task.push, free] at held
  settling held := by simp [Task.push, free] at held

theorem Consistent.leave (rc : Code) : (task.leave rc).Consistent where
  waiters finished := by simp [Task.leave] at finished
  committing held := by simp [Task.leave] at held
  settling held := by
    cases held
    exact ⟨rfl, List.suffix_rfl⟩

theorem Consistent.settleRest (h : task.Consistent)
    (held : task.held = some (.settling (n :: rest))) : (task.settleRest rest).Consistent where
  waiters finished := h.waiters finished
  committing held := by simp [Task.settleRest] at held
  settling now := by
    cases now
    obtain ⟨cleaning, suffix⟩ := h.settling held
    exact ⟨cleaning, (List.suffix_cons n rest).trans suffix⟩

theorem Consistent.publish : task.publish.Consistent where
  waiters _ := rfl
  committing _ := rfl
  settling held := by simp [Task.publish] at held

theorem Consistent.commitRest (h : task.Consistent)
    (held : task.held = some (.committing (n :: rest))) : (task.commitRest rest).Consistent where
  waiters := h.waiters
  committing _ := h.committing held
  settling held := by simp [Task.commitRest] at held

theorem Consistent.unlock (h : task.Consistent) : task.unlock.Consistent where
  waiters := h.waiters
  committing held := by simp [Task.unlock] at held
  settling held := by simp [Task.unlock] at held

end Task

/-- What a step can do, with the node it places and the node it delivers. -/
inductive Change (s : System) : Option Nat → Option Nat → System → Prop
  | idle : Change s none none s
  | addWaiting (g k : Nat) : (s.tasks k).held = none → (s.tasks k).state ≠ .FINISHED →
      (s.groups g).closed = false →
      Change s none none (((s.newNode ⟨k, g, false, (s.tasks k).state ≠ TaskState.ACTIVE⟩).setGroup
        g { s.groups g with tasks := s.added :: (s.groups g).tasks }).setTask k
          ((s.tasks k).push s.added))
  | addFinished (g k : Nat) : (s.tasks k).state = .FINISHED → (s.groups g).closed = false →
      Change s none none (((s.newNode ⟨k, g, false, true⟩).setGroup g
        { s.groups g with tasks := s.added :: (s.groups g).tasks }).setCompleting
          (s.added :: s.completing))
  | leave (k : Nat) (rc : Code) : (s.tasks k).held = none → (s.tasks k).state = .ACTIVE →
      Change s none none (s.setTask k ((s.tasks k).leave rc))
  | settle (k n : Nat) (rest : List Nat) : (s.tasks k).held = some (.settling (n :: rest)) →
      Change s none none ((s.settle n).setTask k ((s.tasks k).settleRest rest))
  | publish (k : Nat) : (s.tasks k).held = none → (s.tasks k).state = .CLEANING →
      Change s none none (s.setTask k (s.tasks k).publish)
  | commit (k n : Nat) (rest : List Nat) : (s.tasks k).held = some (.committing (n :: rest)) →
      Change s (s.complete n).2 none ((s.complete n).1.setTask k ((s.tasks k).commitRest rest))
  | completeAdded (n : Nat) : n ∈ s.completing →
      Change s (s.complete n).2 none
        ((s.complete n).1.setCompleting (s.completing.erase n))
  | unlock (k : Nat) :
      (s.tasks k).held = some (.settling []) ∨ (s.tasks k).held = some (.committing []) →
      Change s none none (s.setTask k (s.tasks k).unlock)
  | pop (g n : Nat) (rest : List Nat) : (s.groups g).done = n :: rest →
      Change s none (some n) (s.setGroup g { s.groups g with done := rest })
  | close (g : Nat) : Change s none none (s.setGroup g { s.groups g with closed := true })

theorem step_change {op : Op} {answer : Answer} (taken : step s op = some (t, answer)) :
    Change s answer.placed answer.delivered t := by
  cases op with
  | add g k =>
    obtain ⟨free, taken⟩ := Option.ite_none_right_eq_some.mp taken
    simp only [System.add] at taken
    split at taken
    · cases taken
      exact .idle
    · rename_i notClosed
      have isOpen : (s.groups g).closed = false := by simpa using notClosed
      split at taken
      · rename_i finished
        cases taken
        have flag : decide ((s.tasks k).state ≠ .ACTIVE) = true := by simp [finished]
        rw [flag]
        exact .addFinished g k finished isOpen
      · rename_i notFinished
        cases taken
        exact .addWaiting g k free notFinished isOpen
  | completeAdded n =>
    obtain ⟨member, ⟨⟩⟩ := Option.ite_none_right_eq_some.mp taken
    exact .completeAdded n member
  | finish k rc =>
    obtain ⟨free, taken⟩ := Option.ite_none_left_eq_some.mp taken
    split at taken
    · cases taken
      exact .idle
    · rename_i active
      cases taken
      exact .leave k rc (not_not.mp free) (not_not.mp active)
  | settleNext k =>
    simp only [step] at taken
    split at taken
    · rename_i n rest held
      cases taken
      exact .settle k n rest held
    · cases taken
  | publish k =>
    obtain ⟨⟨free, cleaning⟩, ⟨⟩⟩ := Option.ite_none_right_eq_some.mp taken
    exact .publish k free cleaning
  | commitNext k =>
    simp only [step] at taken
    split at taken
    · rename_i n rest held
      cases taken
      exact .commit k n rest held
    · cases taken
  | unlock k =>
    simp only [step] at taken
    split at taken
    · rename_i held
      cases taken
      exact .unlock k (.inl held)
    · rename_i held
      cases taken
      exact .unlock k (.inr held)
    · cases taken
  | nextTaskPoll g | tryNextTask g =>
    simp only [step, System.popDone] at taken
    cases done : (s.groups g).done with
    | nil =>
      simp only [done] at taken
      cases taken
      exact .idle
    | cons n rest =>
      simp only [done] at taken
      cases taken
      exact .pop g n rest done
  | joinPoll g | cancelAll g =>
    cases taken
    exact .idle
  | close g =>
    cases taken
    exact .close g

/-- Where the nodes are that have not been completed. -/
structure Lists (s : System) : Prop where
  tasks : ∀ k, (s.tasks k).Consistent
  owned : ∀ {k n}, n ∈ (s.tasks k).pending →
    n < s.added ∧ (s.nodes n).task = k ∧ (s.nodes n).completed = false ∧ n ∉ s.completing
  nodup : ∀ k, (s.tasks k).pending.Nodup
  completing : ∀ {n}, n ∈ s.completing → n < s.added ∧ (s.nodes n).completed = false ∧
    (s.tasks (s.nodes n).task).state = .FINISHED
  completingNodup : s.completing.Nodup
  covered : ∀ {n}, n < s.added → (s.nodes n).completed = false →
    n ∈ s.completing ∨ n ∈ (s.tasks (s.nodes n).task).pending
  finished : ∀ {n}, n < s.added → (s.nodes n).completed = true →
    (s.tasks (s.nodes n).task).state = .FINISHED

namespace System

/-- A settle round keeps all of a node but its flag. -/
theorem settle_nodes (s : System) (n m : Nat) :
    ((s.settle n).nodes m).task = (s.nodes m).task ∧
      ((s.settle n).nodes m).group = (s.nodes m).group ∧
      ((s.settle n).nodes m).completed = (s.nodes m).completed := by
  unfold settle
  simp only
  split
  · by_cases same : m = n <;> simp [same]
  · exact ⟨rfl, rfl, rfl⟩

@[simp, grind =] theorem settle_tasks (s : System) (n k : Nat) :
    (s.settle n).tasks k = s.tasks k := by
  unfold settle
  simp only
  split <;> rfl

@[simp, grind =] theorem settle_groups (s : System) (n g : Nat) :
    (s.settle n).groups g = s.groups g := by
  unfold settle
  simp only
  split <;> rfl

@[simp, grind =] theorem settle_added (s : System) (n : Nat) : (s.settle n).added = s.added := by
  unfold settle
  simp only
  split <;> rfl

@[simp, grind =] theorem settle_completing (s : System) (n : Nat) :
    (s.settle n).completing = s.completing := by
  unfold settle
  simp only
  split <;> rfl

/-- Completing keeps all of a node but its `completed` mark. -/
theorem complete_nodes (s : System) (n m : Nat) :
    ((s.complete n).1.nodes m).task = (s.nodes m).task ∧
      ((s.complete n).1.nodes m).group = (s.nodes m).group ∧
      ((s.complete n).1.nodes m).settledBeforeClose = (s.nodes m).settledBeforeClose ∧
      ((s.complete n).1.nodes m).completed = ((s.nodes m).completed || m = n) := by
  unfold complete
  simp only
  split
  · by_cases same : m = n <;> simp_all
  · split <;> by_cases same : m = n <;> simp [same]

@[simp, grind =] theorem complete_tasks (s : System) (n k : Nat) :
    (s.complete n).1.tasks k = s.tasks k := by
  unfold complete
  simp only
  split
  · rfl
  · split <;> rfl

@[simp, grind =] theorem complete_added (s : System) (n : Nat) :
    (s.complete n).1.added = s.added := by
  unfold complete
  simp only
  split
  · rfl
  · split <;> rfl

@[simp, grind =] theorem complete_completing (s : System) (n : Nat) :
    (s.complete n).1.completing = s.completing := by
  unfold complete
  simp only
  split
  · rfl
  · split <;> rfl

end System

theorem Change.lists {placed delivered : Option Nat} (change : Change s placed delivered t)
    (h : Lists s) : Lists t := by
  obtain ⟨tasks, owned, nodup, completing, completingNodup, covered, finished⟩ := id h
  cases change with
  | idle => exact h
  | leave k rc free active =>
    have pending := @Task.pending_leave (s.tasks k) rc free
    have consistent := @Task.Consistent.leave (s.tasks k) rc
    constructor
    all_goals grind -linarith -ring
  | settle k n rest held =>
    have pending := Task.pending_settleRest held
    have consistent := (tasks k).settleRest held
    have state : ((s.tasks k).settleRest rest).state = (s.tasks k).state := rfl
    have nodes := s.settle_nodes n
    constructor
    all_goals grind -linarith -ring
  | publish k free cleaning =>
    have pending := Task.pending_publish free
    have consistent := @Task.Consistent.publish (s.tasks k)
    have state : (s.tasks k).publish.state = .FINISHED := rfl
    constructor
    all_goals grind -linarith -ring
  | unlock k held =>
    have pending := Task.pending_unlock (tasks k) held
    have consistent := (tasks k).unlock
    have state : (s.tasks k).unlock.state = (s.tasks k).state := rfl
    constructor
    all_goals grind -linarith -ring
  | pop | close =>
    exact ⟨tasks, owned, nodup, completing, completingNodup, covered, finished⟩
  | addWaiting g k free live isOpen =>
    have pending := Task.pending_push (n := s.added) free
    have consistent := Task.Consistent.push (n := s.added) free live
    have state : ((s.tasks k).push s.added).state = (s.tasks k).state := rfl
    constructor
    all_goals grind -linarith -ring
  | addFinished g k done isOpen =>
    constructor
    all_goals grind -linarith -ring
  | commit k n rest held =>
    have pending := Task.pending_commitRest held
    have consistent := (tasks k).commitRest held
    have state : ((s.tasks k).commitRest rest).state = .FINISHED := (tasks k).committing held
    have nodes := s.complete_nodes n
    constructor
    all_goals grind -linarith -ring
  | completeAdded n member =>
    have nodes := s.complete_nodes n
    constructor
    all_goals grind -linarith -ring

/-- A node on its way to completion has not been completed yet. -/
theorem Lists.not_completed (h : Lists s)
    (moving : (∃ k rest, (s.tasks k).held = some (.committing (n :: rest))) ∨ n ∈ s.completing) :
    n < s.added ∧ (s.nodes n).completed = false ∧
      (s.tasks (s.nodes n).task).state = .FINISHED := by
  rcases moving with ⟨k, rest, held⟩ | member
  · have pending : n ∈ (s.tasks k).pending := by simp [Task.pending, held]
    obtain ⟨bound, task, fresh, -⟩ := h.owned pending
    exact ⟨bound, fresh, task ▸ (h.tasks k).committing held⟩
  · exact h.completing member

namespace System

variable {s : System} {n : Nat}

theorem complete_placed (fresh : (s.nodes n).completed = false) :
    (s.complete n).2 =
      if (s.groups (s.nodes n).group).closed = false ∨ (s.nodes n).settledBeforeClose = true
      then some n else none := by
  cases closed : (s.groups (s.nodes n).group).closed <;>
    cases flag : (s.nodes n).settledBeforeClose <;> simp [complete, fresh, closed, flag]

theorem complete_groups (fresh : (s.nodes n).completed = false) (g : Nat) :
    (s.complete n).1.groups g =
      if g = (s.nodes n).group then
        { s.groups g with
          tasks := (s.groups g).tasks.erase n
          done := (s.groups g).done ++ (s.complete n).2.toList }
      else s.groups g := by
  by_cases here : g = (s.nodes n).group
  · cases closed : (s.groups (s.nodes n).group).closed <;>
      cases flag : (s.nodes n).settledBeforeClose <;> simp [complete, fresh, closed, flag, here]
  · cases closed : (s.groups (s.nodes n).group).closed <;>
      cases flag : (s.nodes n).settledBeforeClose <;> simp [complete, fresh, closed, flag, here]

end System

/-- The lists of a group: `tasks` are exactly its nodes that are not completed,
and the done queue has only completed ones. -/
structure Members (s : System) : Prop where
  listed : ∀ {g n}, n ∈ (s.groups g).tasks ↔
    n < s.added ∧ (s.nodes n).group = g ∧ (s.nodes n).completed = false
  nodup : ∀ g, (s.groups g).tasks.Nodup
  done : ∀ {g n}, n ∈ (s.groups g).done →
    n < s.added ∧ (s.nodes n).group = g ∧ (s.nodes n).completed = true

/-- The heart of both completing changes. -/
theorem Members.complete (h : Members s) (bound : n < s.added)
    (fresh : (s.nodes n).completed = false) : Members (s.complete n).1 := by
  obtain ⟨listed, nodup, done⟩ := h
  have groups := s.complete_groups fresh
  have placed := s.complete_placed fresh
  have nodes := s.complete_nodes n
  constructor
  · intro g m
    by_cases here : g = (s.nodes n).group
    · simp only [groups, here, if_true, (nodup _).mem_erase_iff, listed, System.complete_added]
      grind -linarith -ring
    · simp only [groups, here, if_false, listed, System.complete_added]
      grind -linarith -ring
  · intro g
    by_cases here : g = (s.nodes n).group
    · simpa [groups, here] using (nodup _).erase n
    · simpa [groups, here] using nodup g
  · intro g m member
    grind -linarith -ring

theorem Change.members {placed delivered : Option Nat} (change : Change s placed delivered t)
    (lists : Lists s) (h : Members s) : Members t := by
  cases change with
  | idle => exact h
  | addWaiting | addFinished | pop | close =>
    obtain ⟨listed, nodup, queued⟩ := h
    constructor
    all_goals grind -linarith -ring
  | leave | publish | unlock => exact ⟨h.listed, h.nodup, h.done⟩
  | settle k n rest held =>
    obtain ⟨listed, nodup, done⟩ := h
    have nodes := s.settle_nodes n
    constructor
    all_goals grind -linarith -ring
  | commit k n rest held =>
    obtain ⟨bound, fresh, -⟩ := lists.not_completed (.inl ⟨k, rest, held⟩)
    obtain ⟨listed, nodup, done⟩ := h.complete bound fresh
    exact ⟨listed, nodup, done⟩
  | completeAdded n member =>
    obtain ⟨bound, fresh, -⟩ := lists.not_completed (.inr member)
    obtain ⟨listed, nodup, done⟩ := h.complete bound fresh
    exact ⟨listed, nodup, done⟩

/-- The task of the node has left `ACTIVE`, and the settle loop has passed the
node. While the task mutex is free, the second part always holds. -/
def System.Settled (s : System) (n : Nat) : Prop :=
  (s.tasks (s.nodes n).task).state ≠ .ACTIVE ∧ n ∉ (s.tasks (s.nodes n).task).unsettled

/-- The flag of a node records whether it settled while its group was open. -/
structure Flags (s : System) : Prop where
  flagged : ∀ {n}, n < s.added → s.Settled n → (s.groups (s.nodes n).group).closed = false →
    (s.nodes n).settledBeforeClose = true
  unflagged : ∀ {n}, n < s.added → ¬ s.Settled n → (s.nodes n).settledBeforeClose = false

@[simp, grind =] theorem System.complete_closed (s : System) (n g : Nat) :
    ((s.complete n).1.groups g).closed = (s.groups g).closed := by
  cases fresh : (s.nodes n).completed with
  | true => simp [System.complete, fresh]
  | false =>
    rw [System.complete_groups fresh]
    split <;> rfl

theorem System.settle_flag (s : System) (n m : Nat) :
    ((s.settle n).nodes m).settledBeforeClose =
      ((s.nodes m).settledBeforeClose ||
        (m = n && !(s.groups (s.nodes n).group).closed && !(s.nodes n).completed)) := by
  unfold System.settle
  simp only
  split <;> by_cases same : m = n <;> simp_all

/-- A node of an active task waits in its list. -/
theorem Lists.waits (h : Lists s) (bound : n < s.added)
    (live : (s.tasks (s.nodes n).task).state ≠ .FINISHED) :
    n ∈ (s.tasks (s.nodes n).task).pending := by
  cases completed : (s.nodes n).completed with
  | true => exact absurd (h.finished bound completed) live
  | false =>
    rcases h.covered bound completed with adding | pending
    · exact absurd (h.completing adding).2.2 live
    · exact pending

theorem Change.flags {placed delivered : Option Nat} (change : Change s placed delivered t)
    (lists : Lists s) (h : Flags s) : Flags t := by
  obtain ⟨flagged, unflagged⟩ := h
  cases change with
  | idle => exact ⟨flagged, unflagged⟩
  | addWaiting g k free live isOpen =>
    -- the mutex is free, so nothing of this task is waiting to be settled
    have before : (s.tasks k).unsettled = [] := by simp [Task.unsettled, free]
    have after : ((s.tasks k).push s.added).unsettled = [] := by
      simp [Task.unsettled, Task.push, free]
    have state : ((s.tasks k).push s.added).state = (s.tasks k).state := rfl
    constructor
    all_goals grind -linarith -ring [System.Settled]
  | addFinished g k finished isOpen =>
    have unsettled := (lists.tasks k).unsettled_finished finished
    constructor
    all_goals grind -linarith -ring [System.Settled]
  | leave k rc free active =>
    have waiters : (s.tasks k).pending = (s.tasks k).waiters := by simp [Task.pending, free]
    have after : ((s.tasks k).leave rc).unsettled = (s.tasks k).waiters := rfl
    have waits := fun n bound live => lists.waits (n := n) bound live
    constructor
    all_goals grind -linarith -ring [System.Settled]
  | settle k n rest held =>
    have pending : (s.tasks k).pending = (s.tasks k).waiters := by simp [Task.pending, held]
    obtain ⟨cleaning, suffix⟩ := (lists.tasks k).settling held
    have member : n ∈ (s.tasks k).pending := by
      rw [pending]
      exact suffix.subset List.mem_cons_self
    have distinct : n ∉ rest := by
      have nodup := (pending ▸ lists.nodup k).sublist suffix.sublist
      exact (List.nodup_cons.mp nodup).1
    obtain ⟨bound, task, fresh, -⟩ := lists.owned member
    have before : (s.tasks k).unsettled = n :: rest := by simp [Task.unsettled, held]
    have after : ((s.tasks k).settleRest rest).unsettled = rest := rfl
    have state : ((s.tasks k).settleRest rest).state = (s.tasks k).state := rfl
    have nodes := s.settle_nodes n
    have flag := s.settle_flag n
    constructor
    all_goals grind -linarith -ring [System.Settled]
  | publish k free cleaning =>
    have before : (s.tasks k).unsettled = [] := by simp [Task.unsettled, free]
    have after : (s.tasks k).publish.unsettled = [] := rfl
    have state : (s.tasks k).publish.state = .FINISHED := rfl
    constructor
    all_goals grind -linarith -ring [System.Settled]
  | commit k n rest held =>
    have before : (s.tasks k).unsettled = [] := by simp [Task.unsettled, held]
    have after : ((s.tasks k).commitRest rest).unsettled = [] := rfl
    have state : ((s.tasks k).commitRest rest).state = (s.tasks k).state := rfl
    have nodes := s.complete_nodes n
    constructor
    all_goals grind -linarith -ring [System.Settled]
  | completeAdded n member =>
    have nodes := s.complete_nodes n
    constructor
    all_goals grind -linarith -ring [System.Settled]
  | unlock k held =>
    have before : (s.tasks k).unsettled = [] := by
      rcases held with held | held <;> simp [Task.unsettled, held]
    have after : (s.tasks k).unlock.unsettled = [] := rfl
    have state : (s.tasks k).unlock.state = (s.tasks k).state := rfl
    constructor
    all_goals grind -linarith -ring [System.Settled]
  | pop | close =>
    constructor
    all_goals grind -linarith -ring [System.Settled]

/-- The nodes put on done queues along a history. -/
def placed (history : List (Op × Answer)) : List Nat := history.filterMap (·.2.placed)

/-- The nodes handed out by `next` and `try_next` along a history. -/
def delivered (history : List (Op × Answer)) : List Nat := history.filterMap (·.2.delivered)

/-- What has been placed and delivered so far, against the done queues. -/
structure Placement (placed delivered : List Nat) (s : System) : Prop where
  counts : ∀ {n}, n < s.added →
    placed.count n = delivered.count n + (s.groups (s.nodes n).group).done.count n
  isPlaced : ∀ {n}, n ∈ placed → n < s.added ∧ (s.nodes n).completed = true
  isDelivered : ∀ {n}, n ∈ delivered → n < s.added
  nodup : placed.Nodup
  flagged : ∀ {n}, n < s.added → (s.nodes n).completed = true →
    (s.nodes n).settledBeforeClose = true → n ∈ placed

theorem placed_append (history : List (Op × Answer)) (op : Op) (answer : Answer) :
    placed (history ++ [(op, answer)]) = placed history ++ answer.placed.toList := by
  cases now : answer.placed <;> simp [placed, now]

theorem delivered_append (history : List (Op × Answer)) (op : Op) (answer : Answer) :
    delivered (history ++ [(op, answer)]) = delivered history ++ answer.delivered.toList := by
  cases now : answer.delivered <;> simp [delivered, now]

/-- `complete` places its own node, and only if it may. -/
theorem System.complete_places {m : Nat} (placed : (s.complete n).2 = some m) :
    m = n ∧ (s.nodes n).completed = false ∧
      ((s.groups (s.nodes n).group).closed = false ∨ (s.nodes n).settledBeforeClose = true) := by
  cases fresh : (s.nodes n).completed with
  | true => simp [System.complete, fresh] at placed
  | false =>
    rw [System.complete_placed fresh] at placed
    split at placed
    · rename_i allowed
      exact ⟨(Option.some.inj placed).symm, rfl, allowed⟩
    · cases placed

/-- Completing a fresh node appends it to the done queue of its group exactly
when it is placed. -/
theorem Placement.complete {before delivered : List Nat} (h : Placement before delivered s)
    (bound : n < s.added) (fresh : (s.nodes n).completed = false) :
    Placement (before ++ (s.complete n).2.toList) delivered (s.complete n).1 := by
  have groups := s.complete_groups fresh
  have nodes := s.complete_nodes n
  have absent : n ∉ before := fun member => by simp [(h.isPlaced member).2] at fresh
  have none_or : (s.complete n).2 = none ∨ (s.complete n).2 = some n := by
    rw [System.complete_placed fresh]
    split
    · exact .inr rfl
    · exact .inl rfl
  refine ⟨?_, ?_, fun member => by simpa using h.isDelivered member, ?_, ?_⟩
  · intro m bound
    have old := h.counts (n := m) (by simpa using bound)
    rw [(nodes m).2.1, groups]
    by_cases here : (s.nodes m).group = (s.nodes n).group
    · simp only [here, if_true, List.count_append]
      rw [old, here]
      omega
    · have other : n ≠ m := fun same => here (same ▸ rfl)
      rcases none_or with none | some
      · simpa [here, none] using old
      · simpa [here, some, List.count_append, other] using old
  · intro m member
    rcases List.mem_append.mp member with old | new
    · obtain ⟨bound, completed⟩ := h.isPlaced old
      exact ⟨by simpa using bound, by simp [nodes, completed]⟩
    · have same : m = n := (System.complete_places (Option.mem_toList.mp new)).1
      exact ⟨by simpa [same] using bound, by simp [nodes, same]⟩
  · rcases none_or with none | some
    · simpa [none] using h.nodup
    · rw [some]
      exact h.nodup.append (List.nodup_singleton n) (by simpa using absent)
  · intro m bound completed flag
    rw [(nodes m).2.2.1] at flag
    by_cases same : m = n
    · subst same
      rw [System.complete_placed fresh, if_pos (.inr flag)]
      simp
    · rw [(nodes m).2.2.2] at completed
      have old := h.flagged (by simpa using bound) (by simpa [same] using completed) flag
      exact List.mem_append_left _ old

theorem Change.placement {before handed : List Nat} (change : Change s placedNow deliveredNow t)
    (lists : Lists s) (members : Members s) (h : Placement before handed s) :
    Placement (before ++ placedNow.toList) (handed ++ deliveredNow.toList) t := by
  have queued := fun g n => members.done (g := g) (n := n)
  cases change with
  | commit k n rest held =>
    obtain ⟨bound, fresh, -⟩ := lists.not_completed (.inl ⟨k, rest, held⟩)
    obtain ⟨counts, isPlaced, isDelivered, nodup, flagged⟩ := h.complete bound fresh
    simp only [Option.toList_none, List.append_nil]
    exact ⟨counts, isPlaced, isDelivered, nodup, flagged⟩
  | completeAdded n member =>
    obtain ⟨bound, fresh, -⟩ := lists.not_completed (.inr member)
    obtain ⟨counts, isPlaced, isDelivered, nodup, flagged⟩ := h.complete bound fresh
    simp only [Option.toList_none, List.append_nil]
    exact ⟨counts, isPlaced, isDelivered, nodup, flagged⟩
  | pop g n rest done =>
    obtain ⟨counts, isPlaced, isDelivered, nodup, flagged⟩ := h
    have here : (s.nodes n).group = g := (queued g n (by simp [done])).2.1
    simp only [Option.toList_none, List.append_nil]
    refine ⟨?_, isPlaced, ?_, nodup, flagged⟩
    · intro m bound
      have old := counts (n := m) bound
      by_cases same : (s.nodes m).group = g
      · simp only [System.setGroup_groups, System.setGroup_nodes, same, if_true] at old ⊢
        rw [done] at old
        simp only [Option.toList_some, List.count_append, List.count_cons,
          List.count_nil] at old ⊢
        omega
      · have other : n ≠ m := fun equal => same (equal ▸ here)
        simpa [same, List.count_append, other] using old
    · intro m member
      rcases List.mem_append.mp member with old | new
      · exact isDelivered old
      · have : m = n := by simpa using new
        exact this ▸ (queued g n (by simp [done])).1
  | settle k n rest held =>
    obtain ⟨counts, isPlaced, isDelivered, nodup, flagged⟩ := h
    have nodes := s.settle_nodes n
    have flag := s.settle_flag n
    simp only [Option.toList_none, List.append_nil]
    constructor
    all_goals grind -linarith -ring
  | addWaiting | addFinished | close =>
    obtain ⟨counts, isPlaced, isDelivered, nodup, flagged⟩ := h
    simp only [Option.toList_none, List.append_nil]
    constructor
    all_goals grind -linarith -ring
  | _ =>
    simp only [Option.toList_none, List.append_nil]
    exact ⟨h.counts, h.isPlaced, h.isDelivered, h.nodup, h.flagged⟩

/-- The flag of a node is never taken back. -/
theorem Change.flag_stays (change : Change s placedNow deliveredNow t)
    (h : n < s.added ∧ (s.nodes n).settledBeforeClose = true) :
    n < t.added ∧ (t.nodes n).settledBeforeClose = true := by
  cases change with
  | settle k m rest held =>
    have flag := s.settle_flag m n
    grind -linarith -ring
  | commit _ m | completeAdded m =>
    have nodes := s.complete_nodes m n
    grind -linarith -ring
  | _ => grind -linarith -ring

/-- A node that can no longer be placed: its group is closed and it has not
settled in time. -/
structure Doomed (placed : List Nat) (s : System) (n : Nat) : Prop where
  bound : n < s.added
  closed : (s.groups (s.nodes n).group).closed = true
  unflagged : (s.nodes n).settledBeforeClose = false
  absent : n ∉ placed

theorem Change.doomed_stays {before : List Nat} (change : Change s placedNow deliveredNow t)
    (h : Doomed before s n) : Doomed (before ++ placedNow.toList) t n := by
  obtain ⟨bound, closed, unflagged, absent⟩ := h
  cases change with
  | settle k m rest held =>
    have nodes := s.settle_nodes m n
    have flag := s.settle_flag m n
    constructor
    all_goals grind -linarith -ring
  | commit _ m | completeAdded m =>
    have nodes := s.complete_nodes m n
    have places := fun placed => System.complete_places (s := s) (n := m) (m := n) placed
    constructor
    all_goals grind -linarith -ring
  | _ =>
    constructor
    all_goals grind -linarith -ring

/-- All invariants at once, for a history and the state it leads to. -/
structure Inv (history : List (Op × Answer)) (s : System) : Prop where
  lists : Lists s
  members : Members s
  flags : Flags s
  placement : Placement (placed history) (delivered history) s

theorem inv_initial : Inv [] initial where
  lists := by
    constructor <;> simp [initial, Task.pending]
    constructor <;> simp
  members := by constructor <;> simp [initial]
  flags := by constructor <;> simp [initial]
  placement := by constructor <;> simp [initial, placed, delivered]

theorem Inv.next {history : List (Op × Answer)} {op : Op} {answer : Answer} (h : Inv history s)
    (taken : step s op = some (t, answer)) :
    Inv (history ++ [(op, answer)]) t := by
  have change := step_change taken
  refine ⟨change.lists h.lists, change.members h.lists h.members,
    change.flags h.lists h.flags, ?_⟩
  rw [placed_append, delivered_append]
  exact change.placement h.lists h.members h.placement

theorem run_inv {history : List (Op × Answer)} (run : machine.Run initial history t) :
    Inv history t :=
  run.preserves_history inv_initial Inv.next

/-- No thread is in the middle of finishing the task of this node, or of adding
the node. -/
def System.Idle (s : System) (n : Nat) : Prop :=
  (s.tasks (s.nodes n).task).held = none ∧ n ∉ s.completing

/-- With no such thread, a finished task has completed its nodes. -/
theorem Lists.completed_of_finished (h : Lists s) (bound : n < s.added) (idle : s.Idle n)
    (finished : (s.tasks (s.nodes n).task).state = .FINISHED) :
    (s.nodes n).completed = true := by
  cases completed : (s.nodes n).completed with
  | true => rfl
  | false =>
    rcases h.covered bound completed with adding | pending
    · exact absurd adding idle.2
    · simp [Task.pending, idle.1, (h.tasks _).waiters finished] at pending

/-- Delivery through a task group, over every interleaving.

A node is placed and delivered at most once, and only when its task is finished.
A node that settled while its group was open has been placed exactly once when
its task is finished, and one that had not settled when the group was closed is
never placed or delivered. The unfinished list is empty only if all tasks of the
group are finished, and it is empty then unless a thread is still completing one
of them. `join` answers success exactly on the empty list. -/
theorem run_delivery {history : List (Op × Answer)} {t : System}
    (run : machine.Run initial history t) :
    (∀ n, (placed history).count n ≤ 1 ∧ (delivered history).count n ≤ (placed history).count n) ∧
      (∀ n ∈ placed history, (t.tasks (t.nodes n).task).state = .FINISHED) ∧
      (∀ first second u n, history = first ++ second → machine.Run initial first u →
        machine.Run u second t → n < u.added →
        (u.Settled n → (u.groups (u.nodes n).group).closed = false →
          (t.tasks (t.nodes n).task).state = .FINISHED → t.Idle n →
          (placed history).count n = 1) ∧
        (¬ u.Settled n → (u.groups (u.nodes n).group).closed = true →
          n ∉ placed history ∧ n ∉ delivered history)) ∧
      (∀ g, ((t.groups g).tasks = [] → ∀ n < t.added, (t.nodes n).group = g →
          (t.tasks (t.nodes n).task).state = .FINISHED) ∧
        ((∀ n < t.added, (t.nodes n).group = g →
            (t.tasks (t.nodes n).task).state = .FINISHED ∧ t.Idle n) →
          (t.groups g).tasks = []) ∧
        ∀ u answer, step t (.joinPoll g) = some (u, answer) →
          (answer.rc = .OK ↔ (t.groups g).tasks = [])) := by
  obtain ⟨lists, members, flags, placement⟩ := run_inv run
  have once : ∀ n, (placed history).count n ≤ 1 := fun n =>
    List.nodup_iff_count_le_one.mp placement.nodup n
  have handed : ∀ n, (delivered history).count n ≤ (placed history).count n := by
    intro n
    by_cases bound : n < t.added
    · rw [placement.counts bound]
      exact Nat.le_add_right _ _
    · rw [List.count_eq_zero.mpr fun member => bound (placement.isDelivered member)]
      exact Nat.zero_le _
  refine ⟨fun n => ⟨once n, handed n⟩, ?_, ?_, ?_⟩
  · intro n member
    obtain ⟨bound, completed⟩ := placement.isPlaced member
    exact lists.finished bound completed
  · intro first second u n whole early late bound
    obtain ⟨listsEarly, -, flagsEarly, placementEarly⟩ := run_inv early
    refine ⟨?_, ?_⟩
    · intro settled isOpen finished idle
      have stays := late.preserves (I := fun s => n < s.added ∧
          (s.nodes n).settledBeforeClose = true)
        ⟨bound, flagsEarly.flagged bound settled isOpen⟩
        fun flag taken => (step_change taken).flag_stays flag
      have completed := lists.completed_of_finished stays.1 idle finished
      have member := placement.flagged stays.1 completed stays.2
      exact List.count_eq_one_of_mem placement.nodup member
    · intro unsettled closed
      -- a node that has not settled is not completed, hence not placed before
      have absent : n ∉ placed first := by
        intro member
        have finished := listsEarly.finished bound (placementEarly.isPlaced member).2
        refine unsettled ⟨by simp [finished], ?_⟩
        simp [(listsEarly.tasks _).unsettled_finished finished]
      have doomed := late.preserves_history
        (R := fun later s => Doomed (placed (first ++ later)) s n)
        ⟨bound, closed, flagsEarly.unflagged bound unsettled, by simpa using absent⟩
        (by
          intro later s op answer v doomed taken
          rw [← List.append_assoc, placed_append]
          exact (step_change taken).doomed_stays doomed)
      rw [← whole] at doomed
      refine ⟨doomed.absent, fun member => ?_⟩
      have count := handed n
      rw [List.count_eq_zero.mpr doomed.absent] at count
      exact List.count_eq_zero.mp (Nat.le_zero.mp count) member
  · intro g
    refine ⟨?_, ?_, ?_⟩
    · intro empty n bound here
      cases completed : (t.nodes n).completed with
      | true => exact lists.finished bound completed
      | false =>
        have listed := members.listed.mpr ⟨bound, here, completed⟩
        simp [empty] at listed
    · intro finished
      apply List.eq_nil_iff_forall_not_mem.mpr
      intro n listed
      obtain ⟨bound, here, fresh⟩ := members.listed.mp listed
      obtain ⟨done, idle⟩ := finished n bound here
      simp [lists.completed_of_finished bound idle done] at fresh
    · intro u answer taken
      cases taken
      by_cases empty : (t.groups g).tasks = [] <;> simp [empty]

/-- A task that settles, then sees its group closed, and is delivered after that. -/
def closeBeforePublish : List Op :=
  [.add 0 0, .finish 0 .OK, .settleNext 0, .unlock 0, .close 0, .publish 0, .commitNext 0,
    .unlock 0, .tryNextTask 0, .joinPoll 0]

theorem run_delivery_closeBeforePublish :
    ∃ (t : System) (history : List (Op × Answer)),
      machine.Run initial history t ∧ history.map (·.1) = closeBeforePublish ∧
      delivered history = [0] ∧ (placed history).count 0 ≤ 1 ∧
      (t.tasks (t.nodes 0).task).state = .FINISHED := by
  have executed : ∃ t history, machine.exec initial closeBeforePublish = some (t, history) ∧
      history.map (·.1) = closeBeforePublish ∧ delivered history = [0] ∧
      placed history = [0] := ⟨_, _, rfl, rfl, rfl, rfl⟩
  obtain ⟨t, history, executed, labels, handed, queued⟩ := executed
  have run := Machine.run_of_exec executed
  obtain ⟨once, finished, -⟩ := run_delivery run
  exact ⟨t, history, run, labels, handed, (once 0).1, finished 0 (by simp [queued])⟩

end Ciel.Runtime.TaskGroup
