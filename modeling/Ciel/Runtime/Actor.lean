import Ciel.Library.Machine
import Ciel.Runtime.Code
import Mathlib.Data.Finset.Card

/-!
# Actors: sends, stops and joins

An actor has a serial queue for its jobs, a group that counts the jobs accepted and not finished,
and a lock around its flags. Every section under the lock is one step here. So are the submission
of a job, the return from the wait for the group, and the end of an owner close, whose answer is
the environment's choice.

The dispatch library is taken at its word: the queue runs one job at a time in the order of their
submission, and the wait for the group returns only when its count is zero. Entering a runtime
callback succeeds. Messages are addresses, and threads have numbers.
-/

namespace Ciel.Runtime.Actor

open Library

/-- Where a caller is in `ciel_actor_send` or `ciel_actor_join`. -/
inductive Pc
  | idle
  /-- The group was entered, and the job is to be submitted. -/
  | entered (message : Nat)
  | waiting
  | waited
  /-- In `ciel_resource_owner_close`. -/
  | closing (result : Code)
  | leaving (result : Code)

/-- Where `ciel_actor_job_run` is. -/
inductive Stage
  | dispatching
  | failing
  | leaving

/-- The fields of `CielActor`, what the dispatch library keeps for it, and its callers. The caller
`none` is the actor's own dispatch. -/
structure World where
  queue : List Nat
  job : Option (Nat × Stage)
  jobs : Nat
  /-- `owner` is not null. -/
  owner : Bool
  /-- The resource owner that the actor was created with has been closed. -/
  ownerClosed : Bool
  closing : Bool
  joined : Bool
  failed : Bool
  joinResult : Code
  callers : Option Nat → Pc

inductive Action
  | send (message : Option Nat)
  | submit
  | stop
  | join
  | wait
  | settle
  | closed (rc : Code)
  | ret

inductive Label
  | call (caller : Option Nat) (action : Action)
  | start
  | finish (failed : Bool)
  | fail
  | leave

inductive Event
  | quiet
  | sent (message : Nat)
  | refused (code : Code)
  | begun (message : Nat)
  | ended (message : Nat)
  | ownerClosed
  /-- A join from inside the actor returned `EDEADLK`. -/
  | rejected
  | joined (code : Code)

namespace World

/-- `ciel_actor_spawn`. -/
def initial : World := ⟨[], none, 0, true, false, false, false, false, .OK, fun _ => .idle⟩

/-- The message that is being dispatched. -/
def dispatching (w : World) : Option Nat :=
  match w.job with
  | some (message, .dispatching) => some message
  | _ => none

def goto (w : World) (caller : Option Nat) (pc : Pc) : World :=
  { w with callers := Function.update w.callers caller pc }

/-- `ciel_actor_send`, up to the end of its locked section. -/
def send (w : World) (caller : Option Nat) : Option Nat → World × Event
  | none => (w, .refused .EINVAL)
  | some message =>
    if w.closing then (w, .refused .EPIPE)
    else ({ w with jobs := w.jobs + 1 }.goto caller (.entered message), .quiet)

/-- `ciel_actor_join`, up to the end of its first locked section. -/
def join (w : World) (caller : Option Nat) : World × Event :=
  if caller = none then (w, .rejected)
  else if w.joined then (w.goto caller (.leaving w.joinResult), .quiet)
  else ({ w with closing := true }.goto caller .waiting, .quiet)

/-- The second locked section of `ciel_actor_join`. -/
def settle (w : World) (caller : Option Nat) : World :=
  if w.joined then w.goto caller (.leaving w.joinResult)
  else
    let result := if w.failed then Code.EIO else .OK
    { w with joined := true, joinResult := result, owner := false }.goto caller
      (if w.owner then .closing result else .leaving result)

def call (w : World) (caller : Option Nat) (action : Action) : Option (World × Event) :=
  match w.callers caller, action with
  | .idle, .send message => some (w.send caller message)
  | .idle, .stop => some ({ w with closing := true }, .quiet)
  | .idle, .join => some (w.join caller)
  | .entered message, .submit =>
    some ({ w with queue := w.queue ++ [message] }.goto caller .idle, .sent message)
  | .waiting, .wait => if w.jobs = 0 then some (w.goto caller .waited, .quiet) else none
  | .waited, .settle => some (w.settle caller, .quiet)
  | .closing result, .closed rc =>
    some ({ w with ownerClosed := true }.goto caller
      (.leaving (if result = Code.OK ∧ rc ≠ Code.OK then rc else result)), .ownerClosed)
  | .leaving result, .ret => some (w.goto caller .idle, .joined result)
  | _, _ => none

end World

/-- A step of a caller, or of the queue that runs `ciel_actor_job_run`. The dispatch calls only
while it runs, and ends when its calls have returned. -/
def step (w : World) : Label → Option (World × Event)
  | .call caller action =>
    if caller.isSome || w.dispatching.isSome then w.call caller action else none
  | .start =>
    match w.job, w.queue with
    | none, message :: rest =>
      some ({ w with queue := rest, job := some (message, .dispatching) }, .begun message)
    | _, _ => none
  | .finish failed =>
    match w.job, w.callers none with
    | some (message, .dispatching), .idle =>
      some ({ w with job := some (message, if failed then .failing else .leaving) }, .ended message)
    | _, _ => none
  | .fail =>
    match w.job with
    | some (message, .failing) =>
      some ({ w with failed := true, closing := true, job := some (message, .leaving) }, .quiet)
    | _ => none
  | .leave =>
    match w.job with
    | some (_, .leaving) => some ({ w with jobs := w.jobs - 1, job := none }, .quiet)
    | _ => none

def machine : Machine World Label Event := ⟨step⟩

/-! ## What one step can do -/

inductive Change (w : World) : Label → World → Event → Prop
  | reject (c) : Change w (.call c .join) w .rejected
  | refuse (c m code) : Change w (.call c (.send m)) w (.refused code)
  | enter (c m) : w.callers c = .idle → w.closing = false → Change w (.call c (.send (some m)))
      ({ w with jobs := w.jobs + 1 }.goto c (.entered m)) .quiet
  | submit (c m) : w.callers c = .entered m → Change w (.call c .submit)
      ({ w with queue := w.queue ++ [m] }.goto c .idle) (.sent m)
  | stop (c) : Change w (.call c .stop) { w with closing := true } .quiet
  | meet (c action) : w.joined = true → c ≠ none ∧ action = .join ∧ w.callers c = .idle ∨
      action = .settle ∧ w.callers c = .waited → Change w (.call c action)
      (w.goto c (.leaving w.joinResult)) .quiet
  | close (c) : c ≠ none → w.callers c = .idle → w.joined = false →
      Change w (.call c .join) ({ w with closing := true }.goto c .waiting) .quiet
  | wait (c) : w.callers c = .waiting → w.jobs = 0 →
      Change w (.call c .wait) (w.goto c .waited) .quiet
  | settle (c) : w.callers c = .waited → w.joined = false →
      Change w (.call c .settle) (w.settle c) .quiet
  | closed (c result rc) : w.callers c = .closing result →
      Change w (.call c (.closed rc)) ({ w with ownerClosed := true }.goto c
        (.leaving (if result = Code.OK ∧ rc ≠ Code.OK then rc else result))) .ownerClosed
  | ret (c result) : w.callers c = .leaving result →
      Change w (.call c .ret) (w.goto c .idle) (.joined result)
  | start (m rest) : w.job = none → w.queue = m :: rest →
      Change w .start { w with queue := rest, job := some (m, .dispatching) } (.begun m)
  | finish (m failed) : w.job = some (m, .dispatching) → Change w (.finish failed)
      { w with job := some (m, if failed then .failing else .leaving) } (.ended m)
  | fail (m) : w.job = some (m, .failing) →
      Change w .fail { w with failed := true, closing := true, job := some (m, .leaving) } .quiet
  | leave (m) : w.job = some (m, .leaving) →
      Change w .leave { w with jobs := w.jobs - 1, job := none } .quiet

variable {w u : World} {e : Event} {l : Label} {c : Option Nat} {action : Action} {pc : Pc}
variable {history : List (Label × Event)}

theorem send_change (idle : w.callers c = .idle) (message : Option Nat) :
    Change w (.call c (.send message)) (w.send c message).1 (w.send c message).2 := by
  cases message with
  | none => exact .refuse ..
  | some message =>
    simp only [World.send]
    split
    · exact .refuse ..
    · exact .enter c message idle (Bool.eq_false_iff.2 ‹_›)

theorem join_change (idle : w.callers c = .idle) :
    Change w (.call c .join) (w.join c).1 (w.join c).2 := by
  unfold World.join
  split
  · exact .reject c
  · split
    · exact .meet c _ ‹_› (.inl ⟨‹_›, rfl, idle⟩)
    · exact .close c ‹_› idle (Bool.eq_false_iff.2 ‹_›)

theorem call_change (h : w.call c action = some (u, e)) : Change w (.call c action) u e := by
  simp only [World.call] at h
  split at h
  next message idle =>
    have change := send_change idle message
    rwa [Option.some.inj h] at change
  next =>
    cases h
    exact .stop c
  next idle =>
    have change := join_change idle
    rwa [Option.some.inj h] at change
  next entered =>
    cases h
    exact .submit c _ entered
  next waiting =>
    split at h <;> cases h
    exact .wait c waiting ‹_›
  next waited =>
    cases h
    cases joined : w.joined with
    | false => exact .settle c waited joined
    | true => simpa [World.settle, joined] using Change.meet c _ joined (.inr ⟨rfl, waited⟩)
  next rc closing =>
    cases h
    exact .closed c _ rc closing
  next leaving =>
    cases h
    exact .ret c _ leaving
  next => cases h

theorem step_change (h : step w l = some (u, e)) : Change w l u e := by
  cases l with
  | call c action =>
    simp only [step] at h
    split at h
    · exact call_change h
    · cases h
  | start | finish | fail | leave =>
    simp only [step] at h
    split at h <;> cases h
    constructor <;> assumption

/-! ## The invariant -/

@[grind =] theorem World.goto_callers (w : World) (caller c : Option Nat) (pc : Pc) :
    (w.goto caller pc).callers c = if c = caller then pc else w.callers c := by
  simp [goto, Function.update_apply]

@[grind] def Pc.isEntered : Pc → Bool
  | .entered _ => true
  | _ => false

/-- The group counts the jobs in the queue, the one that runs, and those that are to be
submitted. -/
def Counted (w : World) : Prop :=
  ∃ pending : Finset (Option Nat), (∀ c, c ∈ pending ↔ (w.callers c).isEntered = true) ∧
    w.jobs = w.queue.length + w.job.toList.length + pending.card

theorem Counted.goto (h : Counted w) (same : pc.isEntered = (w.callers c).isEntered) :
    Counted (w.goto c pc) := by
  obtain ⟨pending, member, count⟩ := h
  refine ⟨pending, fun c' => ?_, count⟩
  grind

theorem Change.counted (change : Change w l u e) (h : Counted w) : Counted u := by
  have ⟨pending, member, count⟩ := h
  cases change with
  | reject | refuse | stop => exact h
  | enter c m idle =>
    have fresh : c ∉ pending := by grind
    refine ⟨insert c pending, fun c' => ?_, ?_⟩
    · grind
    · rw [Finset.card_insert_of_notMem fresh]
      simp only [World.goto]
      omega
  | submit c m entered =>
    have mem : c ∈ pending := by grind
    refine ⟨pending.erase c, fun c' => ?_, ?_⟩
    · grind
    · have := Finset.card_erase_add_one mem
      simp only [World.goto, List.length_append, List.length_singleton]
      omega
  | meet | wait | ret => exact h.goto (by grind)
  | close => exact Counted.goto (w := { w with closing := true }) h (by grind)
  | settle =>
    refine ⟨pending, fun c' => ?_, ?_⟩ <;> grind -linarith -ring -ac [World.settle, World.goto]
  | closed => exact Counted.goto (w := { w with ownerClosed := true }) h (by grind)
  | start | finish | fail | leave =>
    refine ⟨pending, member, ?_⟩
    simp_all
    try omega

/-- The flags, and what the callers at each point rely on. One caller closes the owner. -/
structure Sound (w : World) : Prop where
  inside : w.callers none = .idle ∨ ∃ m, w.callers none = .entered m
  waiting : ∀ c, w.callers c = .waiting → w.closing = true
  waited : ∀ c, w.callers c = .waited → w.closing = true ∧ w.jobs = 0
  leaving : ∀ c r, w.callers c = .leaving r → w.joined = true
  closes : ∀ c r, w.callers c = .closing r →
    w.joined = true ∧ w.ownerClosed = false ∧ r = w.joinResult
  closer : ∀ c c' r r', w.callers c = .closing r → w.callers c' = .closing r' → c = c'
  joined : w.joined = true → w.closing = true ∧ w.jobs = 0 ∧
    w.joinResult = if w.failed then Code.EIO else .OK
  owner : w.owner = !w.joined
  ownerClosed : w.ownerClosed = true → w.joined = true

/-- Once the count is zero, the queue is empty, nothing runs, and nothing is to be submitted. -/
theorem Counted.drained (counted : Counted w) (zero : w.jobs = 0) :
    w.queue = [] ∧ w.job = none ∧ ∀ c, (w.callers c).isEntered = false := by
  obtain ⟨pending, member, count⟩ := counted
  have empty : pending = ∅ := Finset.card_eq_zero.1 (by omega)
  refine ⟨List.eq_nil_of_length_eq_zero (by omega), ?_, fun c => ?_⟩
  · exact Option.toList_eq_nil_iff.1 (List.eq_nil_of_length_eq_zero (by omega))
  · simpa [empty] using member c

theorem Change.sound (change : Change w l u e) (counted : Counted w) (h : Sound w) : Sound u := by
  have drained := counted.drained
  have same := h
  obtain ⟨inside, waiting, waited, leaving, closes, closer, joined, owner, ownerClosed⟩ := h
  cases change with
  | reject | refuse => exact same
  | settle => constructor <;> grind -linarith -ring -ac [World.settle, World.goto]
  | _ => constructor <;> grind -linarith -ring -ac [World.goto]

/-! ## Histories -/

namespace Event

/-- The message whose send succeeded, or whose dispatch began or ended. -/
def sent? : Event → Option Nat
  | .sent message => some message
  | _ => none

def begun? : Event → Option Nat
  | .begun message => some message
  | _ => none

def ended? : Event → Option Nat
  | .ended message => some message
  | _ => none

def closesOwner : Event → Bool
  | .ownerClosed => true
  | _ => false

end Event

def log (pick : Event → Option Nat) (history : List (Label × Event)) : List Nat :=
  history.filterMap fun step => pick step.2

def closes (history : List (Label × Event)) : Nat := history.countP fun step => step.2.closesOwner

@[simp] theorem log_concat (pick : Event → Option Nat) :
    log pick (history ++ [(l, e)]) = log pick history ++ (pick e).toList := by
  cases picked : pick e <;> simp [log, picked]

structure Logged (history : List (Label × Event)) (w : World) : Prop where
  order : log Event.begun? history ++ w.queue = log Event.sent? history
  single : log Event.begun? history = log Event.ended? history ++ w.dispatching.toList
  closes : closes history = w.ownerClosed.toNat
  /-- When a join returned, all jobs were done, and none came later. -/
  returned : ∀ before step rc after, history = before ++ (step, .joined rc) :: after →
    w.joined = true ∧ log Event.ended? before = log Event.sent? before ∧
      log Event.begun? after = [] ∧
      log Event.sent? after = []

/-- After a join has finished, no job comes, and its result stays. -/
theorem Change.later (change : Change w l u e) (counted : Counted w) (sound : Sound w)
    (joined : w.joined = true) :
    e.sent? = none ∧ e.begun? = none ∧ u.joined = true ∧ u.joinResult = w.joinResult := by
  have drained := counted.drained (sound.joined joined).2.1
  cases change <;> grind -linarith -ring -ac [Event.sent?, Event.begun?, World.goto, World.settle]

theorem Change.logged (change : Change w l u e) (counted : Counted w) (sound : Sound w)
    (h : Logged history w) : Logged (history ++ [(l, e)]) u := by
  have later := change.later counted sound
  obtain ⟨order, single, closes, returned⟩ := h
  refine ⟨?_, ?_, ?_, fun before step rc after split => ?_⟩
  · rw [log_concat, log_concat, ← order]
    cases change <;> grind -linarith -ring -ac [Event.sent?, Event.begun?, World.goto, World.settle]
  · rw [log_concat, log_concat, single]
    cases change <;>
      grind -linarith -ring -ac
        [Event.ended?, Event.begun?, World.goto, World.settle, World.dispatching]
  · have unclosed := sound.closes
    rw [Actor.closes, List.countP_append, ← Actor.closes, closes]
    cases change <;> grind -linarith -ring -ac [Event.closesOwner, World.goto, World.settle]
  · rcases split_concat split with ⟨rfl, same, rfl⟩ | ⟨rest, old, rfl⟩
    · cases same
      cases change with
      | ret c result leaving =>
        have joined := sound.leaving _ _ leaving
        obtain ⟨empty, idle, -⟩ := counted.drained (sound.joined joined).2.1
        refine ⟨joined, ?_, rfl, rfl⟩
        simp [← order, single, empty, World.dispatching, idle]
    · obtain ⟨joined, done, noneBegun, noneSent⟩ := returned before step rc rest old
      obtain ⟨notSent, notBegun, still, -⟩ := later joined
      exact ⟨still, done, by simp [noneBegun, notBegun], by simp [noneSent, notSent]⟩

/-- A join finds the actor joined only when its owner has been closed, and closing the owner of an
actor that has not failed succeeds. -/
def orderly (w : World) : Label → Bool
  | .call _ .join | .call _ .settle => !w.joined || w.ownerClosed
  | .call _ (.closed rc) => rc = .OK || w.failed
  | _ => true

structure Tidy (history : List (Label × Event)) (w : World) : Prop where
  leaving : ∀ c r, w.callers c = .leaving r → w.ownerClosed = true ∧ r = w.joinResult
  returned : ∀ before step rc after, history = before ++ (step, .joined rc) :: after →
    closes before = 1 ∧ w.joined = true ∧ rc = w.joinResult

theorem Change.tidy (change : Change w l u e) (counted : Counted w) (sound : Sound w)
    (logged : Logged history w) (allowed : orderly w l = true) (tidy : Tidy history w) :
    Tidy (history ++ [(l, e)]) u := by
  refine ⟨?_, fun before step rc after split => ?_⟩
  · have left := tidy.leaving
    obtain ⟨-, -, -, leaving, closes, -, joined, owner, -⟩ := sound
    clear logged counted tidy
    cases change <;> grind -linarith -ring -ac [World.goto, World.settle, orderly]
  · rcases split_concat split with ⟨rfl, same, rfl⟩ | ⟨rest, old, rfl⟩
    · cases same
      cases change with
      | ret c result leaving =>
        obtain ⟨closed, rfl⟩ := tidy.leaving _ _ leaving
        exact ⟨by rw [logged.closes, closed]; rfl, sound.leaving _ _ leaving, rfl⟩
    · obtain ⟨once, joined, same⟩ := tidy.returned before step rc rest old
      obtain ⟨-, -, still, result⟩ := change.later counted sound joined
      exact ⟨once, still, same.trans result.symm⟩

/-! ## Runs -/

theorem run_logged (run : machine.Run .initial history w) :
    Counted w ∧ Sound w ∧ Logged history w := by
  refine run.preserves_history (R := fun history w => Counted w ∧ Sound w ∧ Logged history w) ?_ ?_
  · refine ⟨⟨∅, by simp [World.initial, Pc.isEntered], rfl⟩, ?_, ⟨rfl, rfl, rfl, by simp⟩⟩
    constructor <;> simp [World.initial]
  · rintro history w l e u ⟨counted, sound, logged⟩ taken
    have change := step_change taken
    exact ⟨change.counted counted, change.sound counted sound, change.logged counted sound logged⟩

theorem run_tidy (run : (machine.restrict orderly).Run .initial history w) :
    machine.Run .initial history w ∧ Tidy history w := by
  refine run.preserves_history
    (R := fun history w => machine.Run .initial history w ∧ Tidy history w) ?_ ?_
  · exact ⟨.start, by simp [World.initial], by simp⟩
  · rintro history w l e u ⟨run, tidy⟩ taken
    obtain ⟨allowed, taken⟩ := Machine.restrict_step.1 taken
    obtain ⟨counted, sound, logged⟩ := run_logged run
    exact ⟨run.next taken, (step_change taken).tidy counted sound logged allowed tidy⟩

/-- The steps of the queue and of the dispatch. -/
def Label.ofQueue : Label → Bool
  | .call (some _) _ => false
  | _ => true

/-- How many steps the queue has to take. -/
def weight (w : World) : Nat :=
  4 * w.queue.length + (match w.job with
    | none => 0
    | some (_, .leaving) => 1
    | some (_, .failing) => 2
    | some (_, .dispatching) => 3) + if (w.callers none).isEntered then 5 else 0

theorem Sound.progress (sound : Sound w) (busy : w.queue ≠ []) :
    ∃ l, l.ofQueue = true ∧ ∃ next ∈ step w l, weight next.1 < weight w := by
  obtain ⟨message, rest, queue⟩ := List.exists_cons_of_ne_nil busy
  rcases job : w.job with _ | ⟨running, _ | _ | _⟩
  · exact ⟨.start, rfl, by simp [step, weight, job, queue]; omega⟩
  · obtain idle | ⟨m, entered⟩ := sound.inside
    · exact ⟨.finish false, rfl, by simp [step, weight, job, idle]⟩
    · refine ⟨.call none .submit, rfl, ?_⟩
      simp [step, weight, World.dispatching, World.call, World.goto, job, entered, Pc.isEntered]
      omega
  · exact ⟨.fail, rfl, by simp [step, weight, job]⟩
  · exact ⟨.leave, rfl, by simp [step, weight, job]⟩

/-- The queue gets its jobs done on its own. -/
theorem exists_drained (counted : Counted w) (sound : Sound w) :
    ∃ more u, machine.Run w more u ∧ (∀ step ∈ more, step.1.ofQueue = true) ∧ u.queue = [] := by
  induction size : weight w using Nat.strong_induction_on generalizing w with
  | _ size ih =>
    by_cases busy : w.queue = []
    · exact ⟨[], w, .start, nofun, busy⟩
    · obtain ⟨l, own, ⟨v, e⟩, taken, less⟩ := sound.progress busy
      have change := step_change taken
      obtain ⟨more, u, run, owns, empty⟩ :=
        ih _ (size ▸ less) (change.counted counted) (change.sound counted sound) rfl
      refine ⟨(l, e) :: more, u, (Machine.Run.single taken).append run, ?_, empty⟩
      exact List.forall_mem_cons.2 ⟨own, owns⟩

/-- In every run, the messages whose send succeeded are dispatched in the order of the sends, one
after the other; those still in the queue will be, whatever the callers do not do. When a join has
returned, all of them have been dispatched, and no dispatch begins later. In a run with orderly
steps the owner was closed before, once, and all joins return the same code. -/
theorem run_lifecycle (run : machine.Run .initial history w) :
    (log Event.begun? history ++ w.queue = log Event.sent? history ∧
      log Event.begun? history = log Event.ended? history ++ w.dispatching.toList ∧
      ∃ more u, machine.Run w more u ∧ (∀ step ∈ more, step.1.ofQueue = true) ∧ u.queue = []) ∧
    ∀ before after l rc, history = before ++ (l, .joined rc) :: after →
      (log Event.ended? before = log Event.sent? before ∧ log Event.begun? after = []) ∧
      ((machine.restrict orderly).Run .initial history w →
        closes before = 1 ∧ closes after = 0 ∧
          ∀ l' rc', (l', .joined rc') ∈ history → rc' = rc) := by
  obtain ⟨counted, sound, logged⟩ := run_logged run
  refine ⟨⟨logged.order, logged.single, exists_drained counted sound⟩,
    fun before after l rc split => ⟨?_, fun tidied => ?_⟩⟩
  · obtain ⟨-, done, none, -⟩ := logged.returned before l rc after split
    exact ⟨done, none⟩
  · obtain ⟨-, tidy⟩ := run_tidy tidied
    obtain ⟨once, -, same⟩ := tidy.returned before l rc after split
    refine ⟨once, ?_, fun l' rc' mem => ?_⟩
    · have total := logged.closes
      have bound := Bool.toNat_le w.ownerClosed
      rw [split, closes, List.countP_append, List.countP_cons, ← closes, once, ← closes] at total
      omega
    · obtain ⟨first, rest, split'⟩ := List.append_of_mem mem
      exact (tidy.returned first l' rc' rest split').2.2.trans same.symm

/-- A message is sent and dispatched, and two threads join one after the other. -/
def joinTwice : List Label :=
  [.call (some 1) (.send (some 7)), .call (some 1) .submit, .start, .finish false, .leave,
    .call (some 1) .join, .call (some 1) .wait, .call (some 1) .settle,
    .call (some 1) (.closed .OK), .call (some 1) .ret, .call (some 2) .join, .call (some 2) .ret]

theorem run_lifecycle_joinTwice : ∃ history w before,
    machine.Run .initial history w ∧ history.map Prod.fst = joinTwice ∧
      history = before ++ [(.call (some 2) .ret, .joined .OK)] ∧
      log Event.ended? before = [7] ∧ closes before = 1 := by
  have executed : ∃ w history before,
      (machine.restrict orderly).exec .initial joinTwice = some (w, history) ∧
      history.map Prod.fst = joinTwice ∧
      history = before ++ [(.call (some 2) .ret, .joined .OK)] ∧ log Event.sent? before = [7] :=
    ⟨_, _, [_, _, _, _, _, _, _, _, _, _, _], rfl, rfl, rfl, rfl⟩
  obtain ⟨w, history, before, executed, labels, split, sent⟩ := executed
  have tidied := Machine.run_of_exec executed
  have run := (run_tidy tidied).1
  obtain ⟨-, returned⟩ := run_lifecycle run
  obtain ⟨⟨done, -⟩, closed⟩ := returned before [] _ _ split
  exact ⟨history, w, before, run, labels, split, done.trans sent, (closed tidied).1⟩

/-- One thread closes the owner, which fails, while another one joins. -/
def joinBetween : List Label :=
  [.call (some 1) .join, .call (some 1) .wait, .call (some 1) .settle, .call (some 2) .join,
    .call (some 2) .ret, .call (some 1) (.closed .EBADF), .call (some 1) .ret]

/-- The second join returns before the owner is closed, and with another code. -/
theorem joins_disagree : ∃ history w, machine.Run .initial history w ∧
    history.map Prod.fst = joinBetween ∧ history.map Prod.snd =
      [.quiet, .quiet, .quiet, .quiet, .joined .OK, .ownerClosed, .joined .EBADF] := by
  have executed : ∃ w history, machine.exec .initial joinBetween = some (w, history) ∧
      history.map Prod.fst = joinBetween ∧ history.map Prod.snd =
        [.quiet, .quiet, .quiet, .quiet, .joined .OK, .ownerClosed, .joined .EBADF] :=
    ⟨_, _, rfl, rfl, rfl⟩
  obtain ⟨w, history, executed, labels, events⟩ := executed
  exact ⟨history, w, Machine.run_of_exec executed, labels, events⟩

end Ciel.Runtime.Actor
