import Ciel.Runtime.Wakeup.Attendance

/-!
# What each step keeps

One lemma for each kind of step of the machine, and from these that every orderly
step keeps the invariant.
-/

namespace Ciel.Runtime.Wakeup

open Library Channel

variable {C T W : Type}
variable {s : State C T W} {t : T} {w : W} {i : Nat} {c : C} {r : Registration C T}
variable {mode : Mode}

/-! ## Steps of a task -/

/-- The arms that stay bound when one of them settles. -/
theorem bound_settle {task : Task C} {j : Nat} {c : C} :
    (task.settle i).arms[j]? = some (.pending (some (c, mode))) ↔
      j ≠ i ∧ task.arms[j]? = some (.pending (some (c, mode))) := by
  simp only [Task.settle, List.getElem?_set]
  by_cases here : i = j
  · subst here
    simp only [if_true, ne_eq, not_true_eq_false, false_and, iff_false]
    split <;> exact nofun
  · simp only [here, if_false, ne_eq, Ne.symm here, not_false_eq_true, true_and]

theorem arm_of_unbound [DecidableEq C] (free : s.unbound t i = true) :
    ∃ arm, (s.task t).arms[i]? = some arm ∧ arm.channel = none := by
  rcases of_decide_eq_true free with waits | waits
  · exact ⟨_, waits, rfl⟩
  · exact ⟨_, waits, rfl⟩

theorem not_bound_of_unbound [DecidableEq C] (free : s.unbound t i = true) :
    ¬Bound s t i c mode := by
  intro bound
  obtain ⟨arm, at_i, silent⟩ := arm_of_unbound free
  obtain rfl : arm = .pending (some (c, mode)) := Option.some.inj (at_i.symm.trans bound)
  cases silent

section Tasks

variable [DecidableEq T]

/-- A step that only moves a task between phases other than `idle`, or out of it. -/
theorem Inv.setPhase (inv : Inv s) (t : T) {phase : Phase} (busy : phase ≠ .idle)
    (active : phase = .running → (s.task t).active = true) :
    Inv (s.setTask t { s.task t with phase := phase }) := by
  refine inv.setTask_quiet t _ (fun _ _ _ _ _ => .inl busy)
    (fun i c mode bound => ⟨bound, fun _ => .inl busy⟩)
    id (inv.finished t) active

theorem Inv.schedule (inv : Inv s) (t : T) : Inv (s.schedule t) := by
  unfold State.schedule
  split
  · exact inv.setPhase t nofun nofun
  · exact inv

/-- A task that awaits nothing may change its arms and may end. -/
theorem Inv.setTask_allSettled [DecidableEq C] (inv : Inv s) {x : Task C}
    (settled : (s.task t).allSettled = true)
    (free : ∀ (i : Nat) (c : C) mode, x.arms[i]? ≠ some (.pending (some (c, mode))))
    (ends : x.active = true → (s.task t).active = true)
    (running : x.phase = .running → x.active = true) : Inv (s.setTask t x) :=
  inv.setTask_quiet t x (fun i c mode _ bound => absurd bound (free i c mode))
    (fun _ _ _ bound => absurd bound (not_bound_of_allSettled settled)) ends
    (fun i c mode _ bound => absurd bound (free i c mode)) running

theorem Inv.cancel (inv : Inv s) (t : T) :
    Inv (s.setTask t { s.task t with canceled := true }) := by
  refine inv.setTask_quiet t _ (fun i c mode _ bound => ?_)
    (fun i c mode bound => ⟨bound, fun _ => ?_⟩)
    id (fun _ _ _ _ _ => rfl) (inv.running t)
  · exact (em ((s.task t).phase = .idle)).symm.imp id fun idle => ⟨bound, idle⟩
  · exact (em ((s.task t).phase = .idle)).symm

theorem Inv.start (inv : Inv s) (t : T) : Inv (start s t) := by
  unfold Wakeup.start
  split
  next alive => exact inv.setPhase t nofun fun _ => alive.1
  next dead =>
    refine inv.setTask_quiet t _ nofun (fun i c mode bound => ⟨bound, nofun⟩) nofun ?_ nofun
    intro i c mode _ bound
    cases active : (s.task t).active with
    | false => exact inv.finished t i c mode active bound
    | true => simpa only [active, true_and, Bool.not_eq_false] using dead

/-- An arm is settled; if it was bound, its channel is announced. -/
theorem Inv.settle (inv : Inv s) {arm : Arm C} (at_i : (s.task t).arms[i]? = some arm) :
    Inv { s.setTask t ((s.task t).settle i) with
      broadcasts := s.broadcasts ++ arm.channel.toList } := by
  refine inv.setTask t _ _ ?_ ?_ id ?_ (inv.running t)
  · intro j c mode _ bound
    exact (em ((s.task t).phase = .idle)).symm.imp id fun idle => ⟨(bound_settle.1 bound).2, idle⟩
  · intro j c mode bound
    by_cases here : j = i
    · subst here
      obtain rfl : arm = .pending (some (c, mode)) := Option.some.inj (at_i.symm.trans bound)
      exact .inl List.mem_cons_self
    · exact .inr ⟨bound_settle.2 ⟨here, bound⟩, fun _ => (em ((s.task t).phase = .idle)).symm⟩
  · intro j c mode ended bound
    exact inv.finished t j c mode ended (bound_settle.1 bound).2

/-- A future of a running task waits for something other than a channel. -/
theorem Inv.pollElsewhere [DecidableEq C] (inv : Inv s) (runs : (s.task t).phase = .running)
    (free : s.unbound t i = true) :
    Inv (s.setTask t { s.task t with arms := (s.task t).arms.set i .elsewhere }) := by
  have busy : (s.task t).phase ≠ .idle := by
    rw [runs]
    exact nofun
  refine inv.setTask_quiet t _ (fun _ _ _ _ _ => .inl busy) ?_ id ?_ (inv.running t)
  · intro j c mode bound
    have apart : i ≠ j := by
      rintro rfl
      exact not_bound_of_unbound free bound
    exact ⟨(List.getElem?_set_ne apart).trans bound, fun _ => .inl busy⟩
  · intro j c mode ended
    exact absurd (inv.running t runs) (Bool.eq_false_iff.1 ended)

end Tasks

/-! ## Steps of a worker that registers a task -/

section Workers

variable [DecidableEq W]

theorem setWorker_same (s : State C T W) (w : W) (r : Option (Registration C T)) :
    (s.setWorker w r).worker w = r := Function.update_self ..

theorem setWorker_other {v w : W} (other : v ≠ w) (s : State C T W)
    (r : Option (Registration C T)) : (s.setWorker w r).worker v = s.worker v :=
  Function.update_of_ne other ..

/-- A task that a worker's step does not deprive of a look at an arm. -/
theorem Rescan.setWorker (h : Rescan s t i c mode) (after : Option (Registration C T))
    (keeps : ∀ r, s.worker w = some r → r.task = t →
      (r.shouldSchedule = true ∨ i ∈ r.ahead ∨ r.source = some (c, mode)) →
      Rescan (s.setWorker w after) t i c mode) : Rescan (s.setWorker w after) t i c mode := by
  rcases h with woken | scheduled | ⟨v, r, registers, mine, looks⟩
  · exact .inl woken
  · exact .inr (.inl scheduled)
  · by_cases here : v = w
    · subst here
      exact keeps r registers mine looks
    · exact .inr (.inr ⟨v, r, by rwa [setWorker_other here], mine, looks⟩)

/-- A step of a worker alone. -/
theorem Inv.setWorker (inv : Inv s) (after : Option (Registration C T))
    (keeps : ∀ r t i c mode, s.worker w = some r → r.task = t → Bound s t i c mode →
      (r.shouldSchedule = true ∨ i ∈ r.ahead ∨ r.source = some (c, mode)) →
      Rescan (s.setWorker w after) t i c mode) : Inv (s.setWorker w after) := by
  refine inv.tasks rfl ?_ ?_ (fun c => id) inv.finished inv.running
  · intro t i c mode active bound
    exact .inr ⟨active, bound, fun h => h.setWorker after fun r registers mine =>
      keeps r t i c mode registers mine bound⟩
  · intro t i c mode active bound rescan
    exact .inr ⟨active, bound, rescan.setWorker after fun r registers mine =>
      keeps r t i c mode registers mine bound⟩

/-- The worker of a task now has this registration. -/
theorem Rescan.of_worker (s : State C T W) (w : W) (mine : r.task = t)
    (looks : r.shouldSchedule = true ∨ i ∈ r.ahead ∨ r.source = some (c, mode)) :
    Rescan (s.setWorker w (some r)) t i c mode :=
  .inr (.inr ⟨w, r, setWorker_same .., mine, looks⟩)

theorem Inv.look (inv : Inv s) {rest : List Nat} {ready : Bool} (registers : s.worker w = some r)
    (free : r.source = none) (ahead : r.ahead = i :: rest) :
    Inv (s.setWorker w (some (look (s.task r.task) r i rest ready))) := by
  refine inv.setWorker _ ?_
  rintro r' t j c mode registers' rfl bound looks
  obtain rfl : r = r' := Option.some.inj (registers.symm.trans registers')
  refine Rescan.of_worker s w ?_ ?_
  · unfold Wakeup.look
    split
    · rfl
    · split <;> rfl
  · unfold Wakeup.look
    split
    · exact .inl rfl
    · rcases looks with already | next | reading
      · left
        split <;> simp only [already, Bool.true_or]
      · rw [ahead] at next
        rcases List.mem_cons.1 next with rfl | later
        · rw [show (s.task r.task).arms[j]? = some (.pending (some (c, mode))) from bound]
          exact .inr (.inr rfl)
        · right; left
          split <;> exact later
      · rw [free] at reading
        cases reading

theorem Inv.register [DecidableEq C] (inv : Inv s) (registers : s.worker w = some r)
    (reading : r.source = some (c, mode)) : Inv (register s w r c mode) := by
  unfold Wakeup.register
  split
  next ready =>
    refine inv.setWorker _ ?_
    rintro r' t j d m registers' rfl _ _
    obtain rfl : r = r' := Option.some.inj (registers.symm.trans registers')
    exact Rescan.of_worker s w rfl (.inl rfl)
  rename_i busy
  obtain ⟨isOpen, none⟩ := units_of_not_ready busy
  -- of what a task would look at, the worker's step takes only this arm
  have keeps : ∀ t j d m, Rescan s t j d m → (t = r.task ∧ d = c ∧ m = mode) ∨
      Rescan ((s.unlock c ((s.chan c).pushWaiter mode r.task) []).setWorker w
        (some { r with source := Option.none })) t j d m := by
    intro t j d m h
    by_cases here : t = r.task ∧ d = c ∧ m = mode
    · exact .inl here
    refine .inr ((h.unlock c _ []).setWorker _ ?_)
    rintro r' registers' rfl looks
    obtain rfl : r = r' := Option.some.inj (registers.symm.trans registers')
    refine Rescan.of_worker _ w rfl (looks.imp id (Or.imp id fun read => ?_))
    rw [reading] at read
    cases read
    exact absurd ⟨rfl, rfl, rfl⟩ here
  refine ⟨fun d => ?_, fun t j d m active bound => ?_, fun d m => ?_, inv.finished, inv.running⟩
  · show Sound ((s.unlock c _ []).chan d)
    by_cases here : d = c
    · subst here
      rw [unlock_chan_same]
      exact pushWaiter_sound (inv.sound d) mode r.task isOpen
    · rw [unlock_chan_other here]
      exact inv.sound d
  · show t ∈ ((s.unlock c _ []).chan d).waiters m ∨ _
    rcases inv.attended t j d m active bound with waits | rescan
    · refine .inl ?_
      by_cases here : d = c
      · subst here
        rw [unlock_chan_same, pushWaiter_waiters]
        split
        · exact List.mem_cons_of_mem _ waits
        · exact waits
      · rwa [unlock_chan_other here]
    · rcases keeps t j d m rescan with ⟨rfl, rfl, rfl⟩ | again
      · rw [unlock_chan_same, pushWaiter_waiters, if_pos rfl]
        exact .inl List.mem_cons_self
      · exact .inr again
  · show _ ∨ Covered (((s.unlock c _ []).chan d).units m) (((s.unlock c _ []).chan d).waiters m) _
    rcases inv.covered d m with announced | covered
    · exact .inl announced
    refine .inr ?_
    by_cases here : d = c ∧ m = mode
    · obtain ⟨rfl, rfl⟩ := here
      rw [unlock_chan_same, pushWaiter_units, none]
      exact Covered.none_free
    · have stays : ∀ t, Due s d m t →
        Due ((s.unlock c ((s.chan c).pushWaiter mode r.task) []).setWorker w
          (some { r with source := Option.none })) d m t := by
        rintro t ⟨active, j, bound, rescan⟩
        rcases keeps t j d m rescan with ⟨-, rfl, rfl⟩ | again
        · exact absurd ⟨rfl, rfl⟩ here
        · exact ⟨active, j, bound, again⟩
      by_cases same : d = c
      · subst same
        rw [unlock_chan_same, pushWaiter_units, pushWaiter_waiters,
          if_neg fun other => here ⟨rfl, other⟩]
        exact covered.mono (Nat.le_refl _) stays
      · rw [unlock_chan_other same]
        exact covered.mono (Nat.le_refl _) stays

end Workers

/-! ## Wakes -/

section Wakes

variable [DecidableEq T]

/-- Scheduling a task changes its phase at most, and makes an active task busy. -/
theorem schedule_task (s : State C T W) (t u : T) : ∃ phase,
    (s.schedule t).task u = { s.task u with phase := phase } ∧
      ((s.task u).phase ≠ .idle → phase = (s.task u).phase) ∧
      (u = t → (s.task u).active = true → phase ≠ .idle) ∧
        (phase = .running → (s.task u).phase = .running) := by
  unfold State.schedule
  split
  next idle =>
    by_cases here : u = t
    · subst here
      exact ⟨.queued, setTask_task_same .., fun busy => absurd idle.2 busy, fun _ _ => nofun, nofun⟩
    · exact ⟨(s.task u).phase, setTask_task_other here .., fun _ => rfl, fun same =>
        absurd same here, id⟩
  next busy =>
    refine ⟨(s.task u).phase, rfl, fun _ => rfl, ?_, id⟩
    rintro rfl active idle
    exact busy ⟨active, idle⟩

theorem schedule_rest (s : State C T W) (t : T) : (s.schedule t).chan = s.chan ∧
    (s.schedule t).worker = s.worker ∧ (s.schedule t).waking = s.waking ∧
      (s.schedule t).broadcasts = s.broadcasts := by
  unfold State.schedule
  split <;> exact ⟨rfl, rfl, rfl, rfl⟩

/-- A task is scheduled by a thread that gives up another reason for it to look. -/
theorem Inv.reschedule (inv : Inv s) (t : T) {s' : State C T W} (chan : s'.chan = s.chan)
    (task : s'.task = s.task) (broadcasts : s'.broadcasts = s.broadcasts)
    (others : ∀ u i c mode, u ≠ t → Rescan s u i c mode → Rescan s' u i c mode) :
    Inv (s'.schedule t) := by
  obtain ⟨chan', worker', waking', broadcasts'⟩ := schedule_rest s' t
  have same : ∀ u, ((s'.schedule t).task u).arms = (s.task u).arms ∧
      ((s'.schedule t).task u).active = (s.task u).active ∧
      ((s'.schedule t).task u).canceled = (s.task u).canceled := by
    intro u
    obtain ⟨phase, h, -⟩ := schedule_task s' t u
    rw [h, task]
    exact ⟨rfl, rfl, rfl⟩
  have bound : ∀ {u i c mode}, Bound (s'.schedule t) u i c mode ↔ Bound s u i c mode := by
    intro u i c mode
    rw [Bound, Bound, (same u).1]
  have rescan : ∀ u i c mode, (s.task u).active = true → Rescan s u i c mode →
      Rescan (s'.schedule t) u i c mode := by
    intro u i c mode active h
    obtain ⟨phase, task', keeps, busy, -⟩ := schedule_task s' t u
    by_cases here : u = t
    · refine .inr (.inl ?_)
      rw [task']
      exact busy here (task ▸ active)
    · refine (others u i c mode here h).mono (fun woken => waking' ▸ woken) (fun was => ?_) worker'
      rw [task']
      exact (keeps was).symm ▸ was
  refine inv.tasks (chan'.trans chan) ?_ ?_ ?_ ?_ ?_
  · intro u i c mode active h
    rw [(same u).2.1] at active
    exact .inr ⟨active, bound.1 h, rescan u i c mode active⟩
  · intro u i c mode active h looks
    exact .inr ⟨(same u).2.1.trans active, bound.2 h, rescan u i c mode active looks⟩
  · rintro c (listed | ⟨u, i, mode, ended, h⟩)
    · exact .inl (by rwa [broadcasts', broadcasts])
    · exact .inr ⟨u, i, mode, (same u).2.1.trans ended, bound.2 h⟩
  · intro u i c mode ended h
    rw [(same u).2.1] at ended
    exact (same u).2.2.trans (inv.finished u i c mode ended (bound.1 h))
  · intro u runs
    obtain ⟨phase, task', -, -, was⟩ := schedule_task s' t u
    rw [task'] at runs ⊢
    rw [task] at was ⊢
    exact inv.running u (was runs)

theorem Inv.wake (inv : Inv s) (t : T) :
    Inv ({ s with waking := s.waking.erase t }.schedule t) := by
  refine inv.reschedule t rfl rfl rfl ?_
  intro u i c mode other h
  exact h.mono (fun woken => (List.mem_erase_of_ne other).2 woken) id rfl

theorem Inv.leave [DecidableEq W] (inv : Inv s) (registers : s.worker w = some r)
    (free : r.source = none)
    (done : r.ahead = []) :
    Inv
      (if r.shouldSchedule then (s.setWorker w none).schedule r.task else s.setWorker w none) := by
  split
  next =>
    refine inv.reschedule r.task rfl rfl rfl ?_
    intro u i c mode other h
    refine h.setWorker none ?_
    rintro r' registers' rfl _
    obtain rfl : r = r' := Option.some.inj (registers.symm.trans registers')
    exact absurd rfl other
  next stays =>
    refine inv.setWorker none ?_
    rintro r' t i c mode registers' rfl _ looks
    obtain rfl : r = r' := Option.some.inj (registers.symm.trans registers')
    rw [free, done] at looks
    rcases looks with again | ahead | reading
    · exact absurd again stays
    · cases ahead
    · cases reading

theorem Inv.suspend [DecidableEq W] (inv : Inv s) (free : (s.worker w).isNone = true) :
    Inv (suspend s t w) := by
  simp only [Wakeup.suspend]
  split
  next active =>
    have same : ∀ r, ((s.setTask t { s.task t with phase := .idle }).setWorker w r).task t =
        { s.task t with phase := .idle } := fun _ => setTask_task_same ..
    have other : ∀ r u, u ≠ t →
        ((s.setTask t { s.task t with phase := .idle }).setWorker w r).task u = s.task u :=
      fun _ _ ne => setTask_task_other ne ..
    have alive : ∀ r,
        (((s.setTask t { s.task t with phase := .idle }).setWorker w r).task t).active =
        true := fun r => (congrArg Task.active (same r)).trans active
    -- the new registration has all arms of the task ahead, and the worker had none
    have mine : ∀ i c mode, Bound s t i c mode → i ∈ List.range (s.task t).arms.length :=
      fun i c mode bound => List.mem_range.2 (List.getElem?_eq_some_iff.1 bound).1
    have others : ∀ r u i c mode, u ≠ t → Rescan s u i c mode →
        Rescan ((s.setTask t { s.task t with phase := .idle }).setWorker w r) u i c mode := by
      intro r u i c mode ne h
      have middle : Rescan (s.setTask t { s.task t with phase := .idle }) u i c mode :=
        h.mono id (by rw [setTask_task_other ne]; exact id) rfl
      refine middle.setWorker r fun r' registers => ?_
      rw [show s.worker w = some r' from registers] at free
      cases free
    refine inv.tasks rfl ?_ ?_ ?_ ?_ ?_
    · intro u i c mode lives bound
      by_cases here : u = t
      · subst here
        simp only [Bound, same] at bound
        exact .inl (Rescan.of_worker _ w rfl (.inr (.inl (mine i c mode bound))))
      · simp only [Bound, other _ u here] at lives bound ⊢
        exact .inr ⟨lives, bound, others _ u i c mode here⟩
    · intro u i c mode lives bound rescan
      by_cases here : u = t
      · subst here
        refine .inr ⟨alive _, by simpa only [Bound, same] using bound, ?_⟩
        exact Rescan.of_worker _ w rfl (.inr (.inl (mine i c mode bound)))
      · exact .inr ⟨by simpa only [other _ u here] using lives,
          by simpa only [Bound, other _ u here] using bound, others _ u i c mode here rescan⟩
    · refine fun c => Or.imp id ?_
      rintro ⟨u, i, mode, ended, bound⟩
      have here : u ≠ t := by
        rintro rfl
        rw [active] at ended
        cases ended
      exact ⟨u, i, mode, by simpa only [other _ u here] using ended,
        by simpa only [Bound, other _ u here] using bound⟩
    · intro u i c mode ended bound
      by_cases here : u = t
      · subst here
        exact absurd (alive _) (Bool.eq_false_iff.1 ended)
      · simp only [Bound, other _ u here] at ended bound ⊢
        exact inv.finished u i c mode ended bound
    · intro u runs
      by_cases here : u = t
      · subst here
        exact alive _
      · simp only [other _ u here] at runs ⊢
        exact inv.running u runs
  next ended =>
    refine inv.setTask_quiet t _ (fun _ _ _ active => absurd active ended)
      (fun i c mode bound => ⟨bound, fun active => absurd active ended⟩) id (inv.finished t)
        (by simp)

theorem Inv.broadcast [DecidableEq C] (inv : Inv s) (c : C) :
    Inv { s.unlock c (s.chan c).takeAllQueuedWaiters.1 (s.chan c).takeAllQueuedWaiters.2 with
      broadcasts := s.broadcasts.erase c } := by
  have flush : Section (s.chan c) (s.chan c).takeAllQueuedWaiters.1
      (s.chan c).takeAllQueuedWaiters.2 none :=
    takeAllQueuedWaiters_section (fun sound => sound.counted) rfl rfl
  have empty : ∀ mode, ((s.unlock c (s.chan c).takeAllQueuedWaiters.1
      (s.chan c).takeAllQueuedWaiters.2).chan c).waiters mode = [] := by
    intro mode
    rw [unlock_chan_same]
    cases mode <;> rfl
  have awake : ∀ mode, (none : Option Mode) = some mode → firstIsAwake s c mode = true := nofun
  have kept := inv.unlock flush awake
  refine ⟨kept.sound, kept.attended, fun d mode => ?_, kept.finished, kept.running⟩
  by_cases here : d = c
  · subst here
    exact .inr (.inl (empty mode))
  · refine (kept.covered d mode).imp (fun announced => ?_) id
    exact announced.imp (fun listed => (List.mem_erase_of_ne here).2 listed) id

end Wakes

/-! ## Polls -/

variable [DecidableEq C] [DecidableEq T]

/-- An arm of a running task is released from a channel, and a unit of the channel is
gone for it. -/
theorem Inv.release (inv : Inv s) (runs : (s.task t).phase = .running)
    (only : ∀ d m, Bound s t i d m → d = c ∧ m = mode) (spare : Announced s c ∨
      Covered ((s.chan c).units mode + 1) ((s.chan c).waiters mode) (Due s c mode)) :
    Inv (s.setTask t { s.task t with arms := (s.task t).arms.set i (.pending none) }) := by
  have same := setTask_task_same s t { s.task t with arms := (s.task t).arms.set i (.pending none) }
  have other : ∀ u, u ≠ t → (s.setTask t { s.task t with
      arms := (s.task t).arms.set i (.pending none) }).task u = s.task u :=
    fun u ne => setTask_task_other ne ..
  have active := inv.running t runs
  have rescan : ∀ u j d m, Rescan s u j d m → Rescan (s.setTask t { s.task t with
      arms := (s.task t).arms.set i (.pending none) }) u j d m := by
    intro u j d m h
    refine h.mono id (fun busy => ?_) rfl
    by_cases here : u = t
    · subst here
      rw [same]
      exact busy
    · rw [other u here]
      exact busy
  have announces : ∀ d, Announced s d → Announced (s.setTask t { s.task t with
      arms := (s.task t).arms.set i (.pending none) }) d := by
    refine fun d => Or.imp id ?_
    rintro ⟨u, j, m, ended, bound⟩
    have here : u ≠ t := by
      rintro rfl
      rw [active] at ended
      cases ended
    exact ⟨u, j, m, by rwa [other u here], by rwa [Bound, other u here]⟩
  -- who is due elsewhere, or is another task, is still due
  have due : ∀ u d m, (d = c ∧ m = mode → u ≠ t) → Due s d m u → Due (s.setTask t { s.task t with
      arms := (s.task t).arms.set i (.pending none) }) d m u := by
    rintro u d m elsewhere ⟨lives, j, bound, h⟩
    by_cases here : u = t
    · subst here
      have apart : i ≠ j := by
        rintro rfl
        exact elsewhere (only d m bound) rfl
      refine ⟨by rwa [same], j, ?_, rescan u j d m h⟩
      rw [Bound, same]
      exact (List.getElem?_set_ne apart).trans bound
    · exact ⟨by rwa [other u here], j, by rwa [Bound, other u here], rescan u j d m h⟩
  refine ⟨inv.sound, ?_, ?_, ?_, ?_⟩
  · intro u j d m lives bound
    by_cases here : u = t
    · subst here
      refine .inr (.inr (.inl ?_))
      rw [same, runs]
      rintro ⟨⟩
    · rw [other u here] at lives
      rw [Bound, other u here] at bound
      exact (inv.attended u j d m lives bound).imp id (rescan u j d m)
  · intro d m
    by_cases here : d = c ∧ m = mode
    · obtain ⟨rfl, rfl⟩ := here
      refine spare.imp (announces d) fun covered => ?_
      exact covered.consume (Nat.le_refl _) fun u ne => due u d m fun _ => ne
    · refine (inv.covered d m).imp (announces d) fun covered => ?_
      exact covered.mono (Nat.le_refl _) fun u => due u d m fun same => absurd same here
  · intro u j d m ended bound
    by_cases here : u = t
    · subst here
      rw [same] at ended
      exact absurd active (Bool.eq_false_iff.1 ended)
    · rw [other u here] at ended ⊢
      rw [Bound, other u here] at bound
      exact inv.finished u j d m ended bound
  · intro u busy
    by_cases here : u = t
    · subst here
      rw [same]
      exact active
    · rw [other u here] at busy ⊢
      exact inv.running u busy

/-- A poll up to the permit it may hand out. -/
theorem pollArm_eq (s : State C T W) (t : T) (i : Nat) (c : C) (request : Request) :
    ∃ permits, (pollArm s t i c request).1 =
      { (s.unlock c ((s.chan c).poll request).2.1 ((s.chan c).poll request).2.2).setTask t
        { s.task t with arms := (s.task t).arms.set i (.pending
          (if ((s.chan c).poll request).1 = .EAGAIN then some (c, request.mode) else none)) } with
        permits := permits } := by
  cases request with
  | send | recv => exact ⟨s.permits, rfl⟩
  | reserve =>
    simp only [pollArm]
    split
    · exact ⟨s.permits ++ [(c, false)], rfl⟩
    · exact ⟨s.permits, rfl⟩

theorem Inv.poll (inv : Inv s) {request : Request} {source : Option (C × Mode)}
    (runs : (s.task t).phase = .running) (arm : (s.task t).arms[i]? = some (.pending source))
    (asks : source = none ∨ source = some (c, request.mode))
    (valid : refuses ((s.chan c).poll request).1 = false)
    (awake : ((s.chan c).poll request).1 = .OK → ∀ mode, request.wakes = some mode →
      firstIsAwake s c mode = true) : Inv (pollArm s t i c request).1 := by
  have only : ∀ d m, Bound s t i d m → d = c ∧ m = request.mode := by
    intro d m bound
    have same : Arm.pending source = .pending (some (d, m)) := by
      rw [← Option.some.injEq, ← arm]
      exact bound
    cases same
    rcases asks with free | here
    · cases free
    · cases here
      exact ⟨rfl, rfl⟩
  obtain ⟨permits, eq⟩ := pollArm_eq s t i c request
  have answer := poll_polled (inv.sound c) request
  suffices core :
    Inv ((s.unlock c ((s.chan c).poll request).2.1 ((s.chan c).poll request).2.2).setTask t
      { s.task t with arms := (s.task t).arms.set i (.pending
        (if ((s.chan c).poll request).1 = .EAGAIN then some (c, request.mode) else none)) }) by
    rw [eq]
    exact ⟨core.sound, core.attended, core.covered, core.finished, core.running⟩
  generalize (s.chan c).poll request = result at answer valid awake
  have idle : Inv (s.unlock c (s.chan c) []) := inv.unlock Section.idle nofun
  cases answer with
  | served sec less =>
    refine (inv.unlock sec (awake rfl)).release runs only ?_
    rw [unlock_chan_same]
    refine (inv.covered c request.mode).imp id fun covered => ?_
    cases sec.turn request.mode with
    | emptied empty _ => exact .inl empty
    | kept same _ => exact same ▸ covered.mono less fun u due => due.unlock ..
    | woke u wakes _ _ _ => cases request <;> cases wakes
  | waits none =>
    refine idle.setTask_quiet t _ (fun _ _ _ _ _ => .inl ?_) ?_ id ?_ fun _ => inv.running t runs
    · rw [runs]
      exact nofun
    · intro j d m bound
      refine ⟨?_, fun _ => .inl (by rw [runs]; exact nofun)⟩
      by_cases here : i = j
      · subst here
        obtain ⟨rfl, rfl⟩ := only d m bound
        exact List.getElem?_set_self (List.getElem?_eq_some_iff.1 arm).1
      · exact (List.getElem?_set_ne here).trans bound
    · intro j d m ended
      exact absurd (inv.running t runs) (Bool.eq_false_iff.1 ended)
  | closed closed =>
    refine idle.release runs only (.inr (.inl ?_))
    rw [unlock_chan_same]
    exact (inv.sound c).left closed request.mode
  | refused refuses =>
    rw [refuses] at valid
    cases valid

/-! ## Runs -/

variable [DecidableEq W]

theorem Inv.step {s' : State C T W} {l : Label C T W} {rc : Code} (inv : Inv s)
    (ord : orderly s l = true) (h : step s l = some (s', rc)) : Inv s' := by
  rw [orderly, Bool.and_eq_true, Option.all_eq_true] at ord
  obtain ⟨valid, awake⟩ := ord
  cases l with
  | schedule t =>
    cases h
    exact inv.schedule t
  | wake t =>
    obtain ⟨-, ⟨⟩⟩ := Option.ite_none_right_eq_some.mp h
    exact inv.wake t
  | trySend c value =>
    cases h
    refine inv.unlock (trySend_polled _ value).turns ?_
    intro mode wakes
    split at wakes
    next ok =>
      cases wakes
      exact awake (c, .recv) (if_pos ok)
    next => cases wakes
  | permitSend permit value =>
    simp only [Wakeup.step] at h
    split at h
    next => cases h
    next c used found =>
      cases h
      simp only [accepts, found, Bool.not_eq_true'] at valid
      simp only [takesFrom, found] at awake
      have kept := inv.unlock (permitSend_section _ used value valid) (by
        intro mode wakes
        split at wakes
        next ok =>
          cases wakes
          exact awake (c, .recv) (if_pos ok)
        next => cases wakes)
      exact ⟨kept.sound, kept.attended, kept.covered, kept.finished, kept.running⟩
  | permitRelease permit =>
    simp only [Wakeup.step] at h
    split at h
    next => cases h
    next c used found =>
      cases h
      simp only [takesFrom, found] at awake
      have kept := inv.unlock (permitRelease_section _ used) (by
        intro mode wakes
        split at wakes
        next => cases wakes
        next unused =>
          cases wakes
          exact awake (c, .send) (if_neg unused))
      exact ⟨kept.sound, kept.attended, kept.covered, kept.finished, kept.running⟩
  | senderClose c =>
    cases h
    exact inv.unlock (senderClose_section _) nofun
  | receiverClose c =>
    cases h
    exact inv.unlock (receiverClose_section _) nofun
  | cancel t =>
    simp only [Wakeup.step] at h
    split at h
    · cases h
      exact inv.cancel t
    · cases h
      exact inv
  | drop t i =>
    obtain ⟨-, h⟩ := Option.ite_none_right_eq_some.mp h
    split at h
    · cases h
    · cases h
    next arm _ at_i =>
      cases h
      exact inv.settle at_i
  | broadcast c =>
    obtain ⟨-, ⟨⟩⟩ := Option.ite_none_right_eq_some.mp h
    exact inv.broadcast c
  | retire t =>
    obtain ⟨⟨-, rests, settled⟩, ⟨⟩⟩ := Option.ite_none_right_eq_some.mp h
    exact inv.setTask_allSettled settled (fun i c mode => not_bound_of_allSettled settled) nofun
      fun runs => absurd runs rests
  | start t =>
    obtain ⟨-, ⟨⟩⟩ := Option.ite_none_right_eq_some.mp h
    exact inv.start t
  | await t arms select =>
    obtain ⟨⟨runs, settled⟩, ⟨⟩⟩ := Option.ite_none_right_eq_some.mp h
    refine inv.setTask_allSettled settled (fun i c mode bound => ?_) id fun _ => inv.running t runs
    have fresh := List.eq_of_mem_replicate (List.mem_of_getElem? bound)
    cases fresh
  | poll t i c request =>
    obtain ⟨⟨runs, -⟩, h⟩ := Option.ite_none_right_eq_some.mp h
    split at h
    next source arm =>
      simp only [Option.ite_none_right_eq_some, Option.some.injEq] at h
      obtain ⟨asks, eq⟩ := h
      simp only [accepts, Bool.not_eq_true'] at valid
      have kept := inv.poll runs arm asks valid (by
        intro ok mode wakes
        refine awake (c, mode) ?_
        simp only [takesFrom, ok, if_true, wakes, Option.map_some])
      rw [eq] at kept
      exact kept
    next => cases h
  | pollElsewhere t i =>
    obtain ⟨⟨runs, -, free⟩, ⟨⟩⟩ := Option.ite_none_right_eq_some.mp h
    exact inv.pollElsewhere runs free
  | complete t i =>
    obtain ⟨⟨-, free⟩, ⟨⟩⟩ := Option.ite_none_right_eq_some.mp h
    obtain ⟨arm, at_i, silent⟩ := arm_of_unbound free
    have settled := inv.settle at_i
    rw [silent, Option.toList_none, List.append_nil] at settled
    exact settled
  | finish t =>
    obtain ⟨⟨-, settled⟩, ⟨⟩⟩ := Option.ite_none_right_eq_some.mp h
    exact inv.setTask_allSettled settled (fun i c mode => not_bound_of_allSettled settled) nofun
      nofun
  | yield t =>
    obtain ⟨-, ⟨⟩⟩ := Option.ite_none_right_eq_some.mp h
    exact inv.setPhase t nofun nofun
  | suspend t w =>
    obtain ⟨⟨-, free⟩, ⟨⟩⟩ := Option.ite_none_right_eq_some.mp h
    exact inv.suspend free
  | look w ready =>
    simp only [Wakeup.step] at h
    split at h
    next r registers =>
      split at h
      next i rest free ahead =>
        cases h
        exact inv.look registers free ahead
      next => cases h
    next => cases h
  | register w =>
    simp only [Wakeup.step] at h
    split at h
    next r registers =>
      split at h
      next c mode reading =>
        cases h
        exact inv.register registers reading
      next => cases h
    next => cases h
  | leave w =>
    simp only [Wakeup.step] at h
    split at h
    next r registers =>
      simp only [Option.ite_none_right_eq_some, Option.some.injEq, Prod.mk.injEq] at h
      obtain ⟨⟨free, done⟩, rfl, -⟩ := h
      exact inv.leave registers free done
    next => cases h

end Ciel.Runtime.Wakeup
