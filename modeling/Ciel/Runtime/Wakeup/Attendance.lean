import Ciel.Library.WaitList
import Ciel.Runtime.Wakeup.Basic

/-!
# Who will look at a channel again

The invariant behind the absence of lost wakeups. A task that is bound to a channel
is in its wait list, or it will look at the channel again before it rests: its node
has been taken, it is scheduled, or a worker is still to register the arm. And while
somebody is in the list, each unit of the channel has a task of its own that will
look again, unless everybody on the channel is still to be woken.

The second part needs the steps to be orderly. A section that makes a unit takes the
first wait node; the node must stand for a task that still awaits the channel, and
must be its only one. A request whose arguments are refused uses up a wake and no
unit.
-/

namespace Ciel.Runtime.Wakeup

open Library Channel

variable {C T W : Type}

/-! ## Orderly steps -/

section

variable [DecidableEq C] [DecidableEq T]

/-- The wait list of which a step takes one waiter. -/
def takesFrom (s : State C T W) : Label C T W → Option (C × Mode)
  | .trySend c value => if ((s.chan c).trySend value).1 = .OK then some (c, .recv) else none
  | .permitSend permit value =>
    match s.permits[permit]? with
    | some (c, used) =>
      if ((s.chan c).permitSend used value).1 = .OK then some (c, .recv) else none
    | none => none
  | .permitRelease permit =>
    match s.permits[permit]? with
    | some (c, used) => if used then none else some (c, .send)
    | none => none
  | .poll _ _ c request =>
    if ((s.chan c).poll request).1 = .OK then request.wakes.map fun mode => (c, mode) else none
  | _ => none

/-- The first node of a wait list stands for a task that awaits the channel, and is
its only one. It does not matter where nobody else waits, or where everybody on the
channel is still to be woken. -/
def firstIsAwake (s : State C T W) (c : C) (mode : Mode) : Bool :=
  match (s.chan c).waiters mode with
  | [] => true
  | t :: rest =>
    rest.isEmpty || s.broadcasts.contains c || (s.awaits t c mode && !rest.contains t)

/-- The arguments of a poll or of a send with a permit are not refused. -/
def accepts (s : State C T W) : Label C T W → Bool
  | .permitSend permit value =>
    match s.permits[permit]? with
    | some (c, used) => !refuses ((s.chan c).permitSend used value).1
    | none => true
  | .poll _ _ c request => !refuses ((s.chan c).poll request).1
  | _ => true

def orderly (s : State C T W) (l : Label C T W) : Bool :=
  accepts s l && (takesFrom s l).all fun source => firstIsAwake s source.1 source.2

end

/-! ## The invariant -/

section

variable (s : State C T W)

/-- An arm of a task is bound to a channel. -/
def Bound (t : T) (i : Nat) (c : C) (mode : Mode) : Prop :=
  (s.task t).arms[i]? = some (.pending (some (c, mode)))

/-- The task will look at the channel again for this arm before it rests. -/
def Rescan (t : T) (i : Nat) (c : C) (mode : Mode) : Prop :=
  t ∈ s.waking ∨ (s.task t).phase ≠ .idle ∨
    ∃ w r, s.worker w = some r ∧ r.task = t ∧
      (r.shouldSchedule = true ∨ i ∈ r.ahead ∨ r.source = some (c, mode))

def Due (c : C) (mode : Mode) (t : T) : Prop :=
  (s.task t).active = true ∧ ∃ i, Bound s t i c mode ∧ Rescan s t i c mode

/-- Everybody on the channel is still to be woken: a future bound to it was cancelled,
or its task is finished and the future is about to be. -/
def Announced (c : C) : Prop :=
  c ∈ s.broadcasts ∨ ∃ t i mode, (s.task t).active = false ∧ Bound s t i c mode

structure Inv : Prop where
  sound : ∀ c, (s.chan c).Sound
  attended : ∀ t i c mode, (s.task t).active = true → Bound s t i c mode →
    t ∈ (s.chan c).waiters mode ∨ Rescan s t i c mode
  covered : ∀ c mode, Announced s c ∨
    Covered ((s.chan c).units mode) ((s.chan c).waiters mode) (Due s c mode)
  finished : ∀ t i c mode, (s.task t).active = false → Bound s t i c mode →
    (s.task t).canceled = true
  running : ∀ t, (s.task t).phase = .running → (s.task t).active = true

end

variable {s s' : State C T W} {t : T} {i : Nat} {c : C} {mode : Mode}

theorem awaits_iff [DecidableEq C] : s.awaits t c mode = true ↔ ∃ i, Bound s t i c mode := by
  simp only [State.awaits, List.any_eq_true, decide_eq_true_eq, exists_eq_right]
  exact List.mem_iff_getElem?

theorem allSettled_iff [DecidableEq C] : (s.task t).allSettled = true ↔ ∀ arm ∈ (s.task t).arms,
    arm = .settled := by
  simp only [Task.allSettled, List.all_eq_true, decide_eq_true_eq]

theorem not_bound_of_allSettled [DecidableEq C] (settled : (s.task t).allSettled = true) :
    ¬Bound s t i c mode := by
  intro bound
  have settled := allSettled_iff.1 settled _ (List.mem_of_getElem? bound)
  cases settled

/-- The parts of `Rescan` that a step leaves alone. -/
theorem Rescan.mono (h : Rescan s t i c mode) (waking : t ∈ s.waking → t ∈ s'.waking)
    (phase : (s.task t).phase ≠ .idle → (s'.task t).phase ≠ .idle) (worker : s'.worker = s.worker) :
    Rescan s' t i c mode := by
  rcases h with woken | scheduled | ⟨w, r, registers, rest⟩
  · exact .inl (waking woken)
  · exact .inr (.inl (phase scheduled))
  · exact .inr (.inr ⟨w, r, worker ▸ registers, rest⟩)

theorem Inv.initial {chan : C → Channel T}
    (made : ∀ c, ∃ valueSize valueAlign capacity,
      make valueSize valueAlign capacity = .ok (chan c)) :
    Inv (initial chan : State C T W) := by
  have fresh : ∀ c, (chan c).Sound ∧ ∀ mode, (chan c).waiters mode = [] := by
    intro c
    obtain ⟨valueSize, valueAlign, capacity, h⟩ := made c
    simp only [make] at h
    split at h
    · cases h
    · rw [Except.ok.injEq] at h
      rw [← h]
      exact ⟨⟨rfl, fun _ mode => by cases mode <;> rfl⟩, fun mode => by cases mode <;> rfl⟩
  refine ⟨fun c => (fresh c).1, ?_, fun c mode => .inr ?_, ?_, fun _ _ => rfl⟩
  · intro t i c mode _ bound
    cases bound
  · exact (fresh c).2 mode ▸ Covered.nobody
  · intro t i c mode _ bound
    cases bound

/-! ## Steps of tasks and workers -/

/-- A step that leaves the channels alone. A bound arm is new and will be looked at,
or it was bound before and keeps what `attended` says of it; a task that is due stays
due, or its channel is announced. -/
theorem Inv.tasks (inv : Inv s) (chan : s'.chan = s.chan)
    (looks : ∀ t i c mode, (s'.task t).active = true → Bound s' t i c mode →
      Rescan s' t i c mode ∨ ((s.task t).active = true ∧ Bound s t i c mode ∧
        (Rescan s t i c mode → Rescan s' t i c mode)))
    (stays : ∀ t i c mode, (s.task t).active = true → Bound s t i c mode → Rescan s t i c mode →
      Announced s' c ∨ ((s'.task t).active = true ∧ Bound s' t i c mode ∧ Rescan s' t i c mode))
    (announces : ∀ c, Announced s c → Announced s' c)
    (finished : ∀ t i c mode, (s'.task t).active = false → Bound s' t i c mode →
      (s'.task t).canceled = true)
    (running : ∀ t, (s'.task t).phase = .running → (s'.task t).active = true) : Inv s' := by
  refine ⟨fun c => chan ▸ inv.sound c, fun t i c mode active bound => ?_, fun c mode => ?_,
    finished, running⟩
  · rcases looks t i c mode active bound with rescan | ⟨was, old, keeps⟩
    · exact .inr rescan
    · rw [chan]
      exact (inv.attended t i c mode was old).imp id keeps
  · by_cases announced : Announced s' c
    · exact .inl announced
    rcases inv.covered c mode with before | covered
    · exact .inl (announces c before)
    rw [chan]
    refine .inr (covered.mono (Nat.le_refl _) ?_)
    rintro t ⟨active, i, bound, rescan⟩
    rcases stays t i c mode active bound rescan with now | ⟨still, kept, again⟩
    · exact absurd now announced
    · exact ⟨still, i, kept, again⟩

/-! ## Steps of one task -/

section

variable [DecidableEq T]

theorem setTask_task_same (s : State C T W) (t : T) (task : Task C) :
    (s.setTask t task).task t = task := Function.update_self ..

theorem setTask_task_other {u : T} (other : u ≠ t) (s : State C T W) (task : Task C) :
    (s.setTask t task).task u = s.task u := Function.update_of_ne other ..

/-- A step of one task, which may announce channels. Where an arm is bound afterwards
the task is scheduled, or it was bound before and idle; where an arm was bound it
still is, and an active task does not fall idle, unless the channel is announced. -/
theorem Inv.setTask (inv : Inv s) (t : T) (x : Task C) (more : List C)
    (looks : ∀ i c mode, x.active = true → x.arms[i]? = some (.pending (some (c, mode))) →
      x.phase ≠ .idle ∨ (Bound s t i c mode ∧ (s.task t).phase = .idle))
    (stays : ∀ i c mode, Bound s t i c mode → c ∈ more ∨
      (x.arms[i]? = some (.pending (some (c, mode))) ∧
        (x.active = true → x.phase ≠ .idle ∨ (s.task t).phase = .idle)))
    (ends : x.active = true → (s.task t).active = true)
    (finished : ∀ (i : Nat) (c : C) mode, x.active = false →
      x.arms[i]? = some (.pending (some (c, mode))) →
      x.canceled = true)
    (running : x.phase = .running → x.active = true) :
    Inv { s.setTask t x with broadcasts := s.broadcasts ++ more } := by
  have same : (s.setTask t x).task t = x := setTask_task_same s t x
  have other : ∀ {u}, u ≠ t → (s.setTask t x).task u = s.task u :=
    fun ne => setTask_task_other ne s x
  refine inv.tasks rfl ?_ ?_ ?_ ?_ ?_
  · intro u i c mode active bound
    by_cases here : u = t
    · subst here
      simp only [Bound, same] at active bound ⊢
      rcases looks i c mode active bound with scheduled | ⟨old, idle⟩
      · exact .inl (.inr (.inl (by simpa only [same] using scheduled)))
      · exact .inr ⟨ends active, old, fun h => h.mono id (fun busy => absurd idle busy) rfl⟩
    · simp only [Bound, other here] at active bound ⊢
      exact .inr ⟨active, bound, fun h => h.mono id (by simp only [other here]; exact id) rfl⟩
  · intro u i c mode active bound rescan
    by_cases here : u = t
    · subst here
      rcases stays i c mode bound with announced | ⟨still, busy⟩
      · exact .inl (.inl (List.mem_append_right _ announced))
      · cases alive : x.active with
        | false =>
          exact .inl (.inr ⟨u, i, mode, by simp only [same, alive],
            by simpa only [Bound, same] using still⟩)
        | true =>
          refine .inr ⟨by simp only [same, alive], by simpa only [Bound, same] using still, ?_⟩
          rcases busy alive with scheduled | idle
          · exact .inr (.inl (by simpa only [same] using scheduled))
          · exact rescan.mono id (fun was => absurd idle was) rfl
    · refine .inr
        ⟨by simpa only [other here] using active, by simpa only [Bound, other here] using bound, ?_⟩
      exact rescan.mono id (by simp only [other here]; exact id) rfl
  · rintro c (listed | ⟨u, i, mode, ended, bound⟩)
    · exact .inl (List.mem_append_left _ listed)
    · by_cases here : u = t
      · subst here
        rcases stays i c mode bound with announced | ⟨still, -⟩
        · exact .inl (List.mem_append_right _ announced)
        · refine .inr ⟨u, i, mode, ?_, by simpa only [Bound, same] using still⟩
          cases alive : x.active with
          | false => simp only [same, alive]
          | true =>
            exact absurd (ends alive) (by simp only [ended, Bool.false_eq_true, not_false_eq_true])
      · exact .inr ⟨u, i, mode, by simpa only [other here] using ended,
          by simpa only [Bound, other here] using bound⟩
  · intro u i c mode ended bound
    by_cases here : u = t
    · subst here
      simp only [Bound, same] at ended bound ⊢
      exact finished i c mode ended bound
    · simp only [Bound, other here] at ended bound ⊢
      exact inv.finished u i c mode ended bound
  · intro u runs
    by_cases here : u = t
    · subst here
      simp only [same] at runs ⊢
      exact running runs
    · simp only [other here] at runs ⊢
      exact inv.running u runs

theorem Inv.setTask_quiet (inv : Inv s) (t : T) (x : Task C)
    (looks : ∀ i c mode, x.active = true → x.arms[i]? = some (.pending (some (c, mode))) →
      x.phase ≠ .idle ∨ (Bound s t i c mode ∧ (s.task t).phase = .idle))
    (stays : ∀ i c mode, Bound s t i c mode → x.arms[i]? = some (.pending (some (c, mode))) ∧
      (x.active = true → x.phase ≠ .idle ∨ (s.task t).phase = .idle))
    (ends : x.active = true → (s.task t).active = true)
    (finished : ∀ (i : Nat) (c : C) mode, x.active = false →
      x.arms[i]? = some (.pending (some (c, mode))) → x.canceled = true)
    (running : x.phase = .running → x.active = true) : Inv (s.setTask t x) := by
  have moved := inv.setTask t x [] looks (fun i c mode bound => .inr (stays i c mode bound)) ends
    finished running
  rw [List.append_nil] at moved
  exact moved

end

variable [DecidableEq C]

/-! ## Sections on a channel -/

variable {channel : Channel T} {taken : List T} {wakes : Option Mode}

theorem unlock_chan_same (s : State C T W) : (s.unlock c channel taken).chan c = channel :=
  Function.update_self ..

theorem unlock_chan_other {d : C} (other : d ≠ c) (s : State C T W) :
    (s.unlock c channel taken).chan d = s.chan d := Function.update_of_ne other ..

theorem Rescan.unlock (h : Rescan s t i c mode) (d : C) (channel : Channel T) (taken : List T) :
    Rescan (s.unlock d channel taken) t i c mode :=
  h.mono (fun woken => List.mem_append_left _ woken) id rfl

theorem Rescan.of_taken (s : State C T W) (i : Nat) (d : C) (mode' : Mode) (mem : t ∈ taken) :
    Rescan (s.unlock c channel taken) t i d mode' :=
  .inl (List.mem_append_right _ mem)

theorem Due.unlock (h : Due s c mode t) (d : C) (channel : Channel T) (taken : List T) :
    Due (s.unlock d channel taken) c mode t := by
  obtain ⟨active, i, bound, rescan⟩ := h
  exact ⟨active, i, bound, rescan.unlock d channel taken⟩

/-- Who leaves the wait list in a section is in the hands of its caller. -/
theorem Inv.attended_unlock (inv : Inv s) (h : Section (s.chan c) channel taken wakes)
    (t : T) (i : Nat) (d : C) (mode : Mode) (active : (s.task t).active = true)
    (bound : Bound s t i d mode) :
    t ∈ ((s.unlock c channel taken).chan d).waiters mode ∨
      Rescan (s.unlock c channel taken) t i d mode := by
  rcases inv.attended t i d mode active bound with waits | rescan
  · by_cases here : d = c
    · subst here
      rw [unlock_chan_same]
      exact (h.mem_or waits).imp id (Rescan.of_taken s i d mode)
    · rw [unlock_chan_other here]
      exact .inl waits
  · exact .inr (rescan.unlock ..)

/-- A section whose one waiter, if it takes one, is awake. -/
theorem Inv.unlock [DecidableEq T] (inv : Inv s) (h : Section (s.chan c) channel taken wakes)
    (awake : ∀ mode, wakes = some mode → firstIsAwake s c mode = true) :
    Inv (s.unlock c channel taken) := by
  refine ⟨fun d => ?_, fun t i d mode => inv.attended_unlock h t i d mode, fun d mode => ?_,
    inv.finished, inv.running⟩
  · by_cases here : d = c
    · subst here
      rw [unlock_chan_same]
      exact h.sound (inv.sound d)
    · rw [unlock_chan_other here]
      exact inv.sound d
  · rcases inv.covered d mode with announced | covered
    · exact .inl announced
    by_cases here : d = c
    · subst here
      rw [unlock_chan_same]
      cases h.turn mode with
      | emptied empty _ => exact .inr (empty ▸ Covered.nobody)
      | kept same fewer =>
        exact .inr (same ▸ covered.mono fewer fun t due => due.unlock ..)
      | woke t which head mem more =>
        by_cases announced : Announced s d
        · exact .inl announced
        refine .inr ((head ▸ covered).take more (fun t due => due.unlock ..) ?_)
        have first := awake mode which
        simp only [firstIsAwake, head, Bool.or_eq_true, List.isEmpty_iff, List.contains_iff_mem,
          Bool.and_eq_true, Bool.not_eq_true'] at first
        rcases first with (alone | broadcast) | ⟨awaits, once⟩
        · exact .inl alone
        · exact absurd (.inl broadcast) announced
        · obtain ⟨i, bound⟩ := awaits_iff.1 awaits
          refine .inr ⟨⟨?_, i, bound, Rescan.of_taken s i d mode mem⟩, ?_⟩
          · -- a finished task that is still bound announces the channel
            cases active : (s.task t).active with
            | true => exact active
            | false => exact absurd (.inr ⟨t, i, mode, active, bound⟩) announced
          · simpa using once
    · rw [unlock_chan_other here]
      exact .inr (covered.mono (Nat.le_refl _) fun t due => due.unlock ..)

end Ciel.Runtime.Wakeup
