import Ciel.Runtime.Select.Basic

/-!
# A select settles once

The argument follows `poll_mutex`. A thread that has checked the state under this
mutex is the only one that can make the set `WON` until it lets go, so it polls
while the set is not won, and the first final answer it gets is the only one
there will ever be: it records that answer before it records the winner, and
whoever takes the mutex next finds the set settled.

A stop does not need the mutex. It may fall between two polls of one thread, which
then finishes its round. This is why the invariant says "not won" about a polling
thread, and not "pending".
-/

namespace Ciel.Runtime.Select

open Library

variable {Value : Type*} {len : Nat} {biased : Bool}
variable {w u : World Value} {events : List (Event Value)} {e : Event Value} {th : Nat}
variable {pc : Pc} {events' : List (Event Value)} {rc : Code} {i : Nat}

/-- The answers that ended the polling of an arm. -/
def finals (events : List (Event Value)) : List (Nat × Code × Value) :=
  events.filterMap fun
    | .pollEnd i rc value => if rc = .EAGAIN then none else some (i, rc, value)
    | _ => none

@[simp] theorem finals_append (first second : List (Event Value)) :
    finals (first ++ second) = finals first ++ finals second :=
  List.filterMap_append

namespace Event

/-- Beginning or end of a poll of an arm. -/
def isPoll : Event Value → Bool
  | pollBegin _ | pollEnd .. => true
  | _ => false

/-- Nothing that the settling of the set depends on. -/
def silent : Event Value → Bool
  | quiet | canceled _ | returned _ => true
  | _ => false

theorem silent_cancelLoser (winner next : Nat) :
    (World.cancelLoser winner next : Event Value).silent = true := by
  unfold World.cancelLoser
  split <;> rfl

end Event

theorem finals_unpolled (unpolled : ∀ e ∈ events, e.isPoll = false) : finals events = [] := by
  apply List.filterMap_eq_nil_iff.mpr
  intro e he
  have := unpolled e he
  cases e <;> simp_all [Event.isPoll]

namespace Pc

/-- Points between a final answer and the attempt to record the winner. -/
def settling : Pc → Bool
  | polled .. | recordWinner .. => true
  | _ => false

/-- Points at which a thread relies on nothing. -/
def free : Pc → Bool
  | pollArms .. | polling .. | polled .. | recordWinner .. | finishWinner _ | repolling _
  | repolled .. | finishCancel .. => false
  | _ => true

end Pc

/-! ## What one step can do -/

/-- How the holder of `poll_mutex` changes when thread `th` moves to `pc`. -/
inductive Handover (w : World Value) (th : Nat) (pc : Pc) : Option Nat → Prop
  | keep : pc.holds = (w.threads th).holds → Handover w th pc w.pollMutex
  | take : pc.holds = true → w.pollMutex = none → Handover w th pc (some th)
  | release : (w.threads th).holds = true → pc.holds = false → Handover w th pc none

/-- The steps that only move a thread, without a write to the set. The last
constructor covers the poll in `ciel_select_finish_winner`. -/
inductive Moves (w : World Value) : Pc → Pc → Event Value → Prop
  | free {old pc : Pc} {e : Event Value} : pc.free = true → e.silent = true →
      (old.settling = true → w.state ≠ .PENDING) → Moves w old pc e
  | start {poller : Poller} {rest : List Nat} : w.state = .PENDING → (∀ i ∈ rest, i < w.len) →
      Moves w (.check poller) (.pollArms poller rest) .quiet
  | begin {poller : Poller} {i : Nat} {rest : List Nat} :
      Moves w (.pollArms poller (i :: rest)) (.polling poller i rest) (.pollBegin i)
  | again {poller : Poller} {i : Nat} {rest : List Nat} {value : Value} :
      Moves w (.polling poller i rest) (.pollArms poller rest) (.pollEnd i .EAGAIN value)
  | settled {old : Pc} : old.settling = false → w.state = .WON →
      Moves w old (.finishWinner w.winner) .quiet
  | finish {i : Nat} : (w.arms i).completed = true →
      Moves w (.finishWinner i) (.finishCancel i (w.arms i).rc 0) .quiet
  | cancel {i k : Nat} {rc : Code} : k < w.len →
      Moves w (.finishCancel i rc k) (.finishCancel i rc (k + 1)) (World.cancelLoser i k)
  | complete {i k : Nat} {rc : Code} : w.len ≤ k →
      Moves w (.finishCancel i rc k) .idle (.completed i rc (w.arms i).result)
  | repoll {i : Nat} : i < w.len → (w.arms i).completed = false →
      Moves w (.finishWinner i) (.repolling i) (.pollBegin i)
  | repolling {i : Nat} {pc : Pc} {e : Event Value} : Moves w (.repolling i) pc e

/-- The steps of the machine. `answer`, `store`, `win` and `stop` are the only
writes to the set; the two remaining writes belong to the poll in
`ciel_select_finish_winner`, which no run reaches. -/
inductive Change (w : World Value) (th : Nat) : World Value → Event Value → Prop
  | move {pc : Pc} {holder : Option Nat} {e : Event Value} : Handover w th pc holder →
      Moves w (w.threads th) pc e → Change w th ((w.setMutex holder).goto th pc) e
  | answer {poller : Poller} {i : Nat} {rest : List Nat} {rc : Code} {value : Value} :
      w.threads th = .polling poller i rest → rc ≠ .EAGAIN →
      Change w th ((w.fill i rc value).goto th (.polled poller i rc)) (.pollEnd i rc value)
  | store {poller : Poller} {i : Nat} {rc : Code} : w.threads th = .polled poller i rc →
      Change w th ((w.store i rc).goto th (.recordWinner poller i)) .quiet
  | win {poller : Poller} {i : Nat} : w.threads th = .recordWinner poller i →
      w.state = .PENDING → Change w th ((w.setWon i).goto th (.unlock poller (some i) .OK)) (.won i)
  | stop {rc : Code} {pc : Pc} : w.state = .PENDING → pc.holds = (w.threads th).holds →
      pc.free = true → (w.threads th).settling = false →
      Change w th ((w.setStopped rc).goto th pc) (.stopped rc)
  | refill {i : Nat} {rc : Code} {value : Value} : w.threads th = .repolling i →
      Change w th ((w.fill i rc value).goto th (.repolled i rc)) (.pollEnd i rc value)
  | restore {i : Nat} {rc : Code} : w.threads th = .repolled i rc →
      Change w th ((w.store i rc).goto th (.finishCancel i rc 0)) .quiet

/-- A thread that stays where it is, and leaves the set alone, has moved. -/
theorem goto_self (w : World Value) (th : Nat) : w.goto th (w.threads th) = w := by
  simp [World.goto]

theorem Change.goto (holds : pc.holds = (w.threads th).holds)
    (moves : Moves w (w.threads th) pc e) :
    Change w th (w.goto th pc) e :=
  Change.move (Handover.keep holds) moves

theorem recordStop_threads (w : World Value) (rc : Code) :
    (w.recordStop rc).1.threads = w.threads := by
  unfold World.recordStop
  split <;> rfl

/-- `ciel_select_record_stop` by a thread that then goes to a free point. -/
theorem recordStop_change (rc : Code) (holds : pc.holds = (w.threads th).holds)
    (free : pc.free = true) (settling : (w.threads th).settling = false) :
    Change w th ((w.recordStop rc).1.goto th pc) (w.recordStop rc).2 := by
  unfold World.recordStop
  split
  · rename_i pending
    exact Change.stop pending holds free settling
  · exact Change.goto holds (.free free rfl (by simp [settling]))

theorem mem_pollOrder {start : Nat} (positive : w.len ≠ 0) (h : i ∈ w.pollOrder start) :
    i < w.len := by
  simp only [World.pollOrder, List.mem_map] at h
  obtain ⟨offset, -, rfl⟩ := h
  exact Nat.mod_lt _ (Nat.pos_of_ne_zero positive)

/-- The point where a polling function returns to is free and without mutex. -/
theorem return_free (poller : Poller) (rc : Code) :
    (poller.return rc).free = true ∧ (poller.return rc).holds = false := by
  rcases poller with _ | (_ | _) <;> exact ⟨rfl, rfl⟩

theorem settledPc_change {otherwise : Pc} (holds : (w.threads th).holds = false)
    (settling : (w.threads th).settling = false) (free : otherwise.free = true)
    (without : otherwise.holds = false) :
    Change w th (w.goto th (w.settledPc otherwise)) .quiet := by
  unfold World.settledPc
  split
  · rename_i won
    exact Change.goto (by rw [holds]; rfl) (.settled settling won)
  · exact Change.goto (by rw [holds]; rfl) (.free rfl rfl (by simp [settling]))
  · exact Change.goto (by rw [holds, without]) (.free free rfl (by simp [settling]))

theorem startImmediate_change {fromRun : Bool} (start : Nat)
    (at_ : w.threads th = .check (.immediate fromRun)) :
    Change w th (startImmediate w th fromRun start) .quiet := by
  unfold startImmediate
  split
  · exact Change.goto (by rw [at_]; rfl) (.free rfl rfl (by simp [at_, Pc.settling]))
  · rename_i pending
    split
    · exact Change.goto (by rw [at_]; rfl) (.free rfl rfl (by simp [at_, Pc.settling]))
    · rename_i positive
      refine Change.goto (by rw [at_]; rfl) ?_
      rw [at_]
      exact .start (not_not.mp pending) fun i h => mem_pollOrder positive h

theorem answer_change {value : Value} (at_ : w.threads th = pc)
    (h : answer w th rc value pc = some (u, e)) : Change w th u e := by
  subst at_
  unfold answer at h
  split at h
  · rename_i poller i rest at_
    split at h <;> simp only [Option.some.injEq, Prod.mk.injEq] at h <;> obtain ⟨rfl, rfl⟩ := h
    · rename_i again
      subst again
      refine Change.goto (by rw [at_]; rfl) ?_
      rw [at_]
      exact .again
    · rename_i final
      exact Change.answer at_ final
  · rename_i i at_
    split at h <;> simp only [Option.some.injEq, Prod.mk.injEq] at h <;> obtain ⟨rfl, rfl⟩ := h
    · refine Change.goto (by rw [at_]; rfl) ?_
      rw [at_]
      exact .repolling
    · exact Change.refill at_
  · cases h

theorem advance_change (at_ : w.threads th = pc) (h : advance w th pc = some (u, e)) :
    Change w th u e := by
  have stay {new : Pc} (holds : new.holds = pc.holds) (moves : Moves w pc new e) :
      Change w th (w.goto th new) e :=
    Change.goto (by rw [holds, at_]) (by rw [at_]; exact moves)
  have take {new : Pc} (holds : new.holds = true) (free : w.pollMutex = none)
      (moves : Moves w pc new e) : Change w th ((w.setMutex (some th)).goto th new) e :=
    Change.move (.take holds free) (by rw [at_]; exact moves)
  have release {new : Pc} (held : pc.holds = true) (holds : new.holds = false)
      (moves : Moves w pc new e) : Change w th ((w.setMutex none).goto th new) e :=
    Change.move (.release (by rw [at_, held]) holds) (by rw [at_]; exact moves)
  have quietly {new : Pc} (holds : new.holds = pc.holds) (free : new.free = true)
      (silent : e.silent = true) (settling : pc.settling = true → w.state ≠ .PENDING) :
      Change w th (w.goto th new) e :=
    stay holds (.free free silent settling)
  cases pc with
  | idle => cases h
  | lock poller | cancelLock =>
    simp only [advance, Option.ite_none_right_eq_some, Option.some.injEq, Prod.mk.injEq] at h
    obtain ⟨unlocked, rfl, rfl⟩ := h
    exact take rfl unlocked (.free rfl rfl nofun)
  | check poller =>
    rcases poller with i | fromRun
    · simp only [advance] at h
      split at h <;> simp only [Option.some.injEq, Prod.mk.injEq] at h <;> obtain ⟨rfl, rfl⟩ := h
      · rename_i pending
        exact stay rfl (.start pending.1 (by simpa using pending.2))
      · exact quietly rfl rfl rfl nofun
    · cases h
  | pollArms poller rest =>
    cases rest <;> obtain ⟨rfl, rfl⟩ := h
    · exact quietly rfl rfl rfl nofun
    · exact stay rfl .begin
  | polling poller i rest => cases h
  | polled poller i rc =>
    obtain ⟨rfl, rfl⟩ := h
    exact Change.store at_
  | recordWinner poller i =>
    simp only [advance] at h
    split at h <;> simp only [Option.some.injEq, Prod.mk.injEq] at h <;> obtain ⟨rfl, rfl⟩ := h
    · rename_i pending
      exact Change.win at_ pending
    · rename_i settled
      exact quietly rfl rfl rfl fun _ => settled
  | unlock poller claimed rc =>
    cases claimed <;> obtain ⟨rfl, rfl⟩ := h
    · exact release rfl (return_free poller rc).2 (.free (return_free poller rc).1 rfl nofun)
    · exact release rfl rfl (.free rfl rfl nofun)
  | cancelLosers poller i k =>
    simp only [advance] at h
    split at h <;> simp only [Option.some.injEq, Prod.mk.injEq] at h <;> obtain ⟨rfl, rfl⟩ := h
    · exact quietly rfl rfl (Event.silent_cancelLoser i k) nofun
    · exact quietly (return_free poller .OK).2 (return_free poller .OK).1 rfl nofun
  | enter =>
    obtain ⟨rfl, rfl⟩ := h
    exact settledPc_change (by rw [at_]; rfl) (by rw [at_]; rfl) rfl rfl
  | recheck rc =>
    simp only [advance] at h
    split at h <;> simp only [Option.some.injEq, Prod.mk.injEq] at h <;> obtain ⟨rfl, rfl⟩ := h
    · exact quietly rfl rfl rfl nofun
    · exact settledPc_change (by rw [at_]; rfl) (by rw [at_]; rfl) rfl rfl
  | finishWinner i =>
    simp only [advance] at h
    split at h
    · obtain ⟨rfl, rfl⟩ := h
      exact quietly rfl rfl rfl nofun
    · split at h <;> obtain ⟨rfl, rfl⟩ := h
      · rename_i completed
        exact stay rfl (.finish completed)
      · rename_i inside completed
        exact stay rfl (.repoll (Nat.lt_of_not_le inside) (Bool.eq_false_iff.mpr completed))
  | repolling i => cases h
  | repolled i rc =>
    obtain ⟨rfl, rfl⟩ := h
    exact Change.restore at_
  | finishCancel i rc k =>
    simp only [advance] at h
    split at h <;> obtain ⟨rfl, rfl⟩ := h
    · rename_i more
      exact stay rfl (.cancel more)
    · rename_i done
      exact stay rfl (.complete (Nat.le_of_not_lt done))
  | finishStop rc =>
    simp only [advance, Option.ite_none_right_eq_some, Option.some.injEq, Prod.mk.injEq] at h
    obtain ⟨-, rfl, rfl⟩ := h
    exact quietly rfl rfl rfl nofun
  | cancelRecord =>
    obtain ⟨rfl, rfl⟩ := h
    exact recordStop_change _ (by rw [at_]; rfl) rfl (by rw [at_]; rfl)
  | cancelUnlock =>
    obtain ⟨rfl, rfl⟩ := h
    exact release rfl rfl (.free rfl rfl nofun)
  | cancelArms k answer =>
    simp only [advance] at h
    split at h <;> obtain ⟨rfl, rfl⟩ := h
    · exact quietly rfl rfl rfl nofun
    · exact quietly rfl rfl (by cases answer <;> rfl) nofun

theorem wakeArm_change (i : Nat) (at_ : w.threads th = .idle) :
    Change w th (wakeArm w th i) .quiet := by
  unfold wakeArm
  split
  · exact Change.goto (by rw [at_]; rfl) (.free rfl rfl (by simp [at_, Pc.settling]))
  · have change : Change w th (w.goto th (w.threads th)) .quiet :=
      Change.goto rfl (.free (by rw [at_]; rfl) rfl (by simp [at_, Pc.settling]))
    rwa [goto_self] at change

/-- Every step of the machine is one of the listed changes. -/
theorem step_change {label : Label Value} (h : step w label = some (u, e)) :
    Change w label.thread u e := by
  simp only [step] at h
  split at h
  · obtain ⟨rfl, rfl⟩ := h
    exact wakeArm_change _ ‹_›
  · rename_i at_
    obtain ⟨rfl, rfl⟩ := h
    exact Change.goto (by rw [at_]; rfl) (.free rfl rfl (by simp [at_, Pc.settling]))
  · rename_i at_
    obtain ⟨rfl, rfl⟩ := h
    exact Change.goto (by rw [at_]; rfl) (.free rfl rfl (by simp [at_, Pc.settling]))
  · rename_i rc _ at_
    have change : Change w label.thread ((w.recordStop rc).1.goto label.thread .idle)
        (w.recordStop rc).2 :=
      recordStop_change rc (by rw [at_]) rfl (by rw [at_]; rfl)
    rwa [← at_, ← recordStop_threads w rc, goto_self, Option.some.inj h] at change
  · obtain ⟨rfl, rfl⟩ := h
    exact startImmediate_change _ ‹_›
  · exact answer_change rfl h
  · exact advance_change rfl h
  · cases h

/-! ## The invariant -/

/-- The final answer of arm `i` is the only one, and the arm holds it. -/
def Recorded (w : World Value) (events : List (Event Value)) (i : Nat) : Prop :=
  i < w.len ∧ (w.arms i).completed = true ∧
    ∃ value, finals events = [(i, (w.arms i).rc, value)] ∧
      ((w.arms i).rc = .OK → (w.arms i).result = some value)

/-- What a thread at this point relies on. The points of a second poll are not
reached. -/
def Pc.Ok (w : World Value) (events : List (Event Value)) : Pc → Prop
  | .pollArms _ rest => w.state ≠ .WON ∧ finals events = [] ∧ ∀ i ∈ rest, i < w.len
  | .polling _ i rest =>
    w.state ≠ .WON ∧ finals events = [] ∧ i < w.len ∧ ∀ j ∈ rest, j < w.len
  | .polled _ i rc =>
    w.state ≠ .WON ∧ i < w.len ∧
      ∃ value, finals events = [(i, rc, value)] ∧ (rc = .OK → (w.arms i).result = some value)
  | .recordWinner _ i => w.state ≠ .WON ∧ Recorded w events i
  | .finishWinner i => w.state = .WON ∧ i = w.winner
  | .repolling _ | .repolled .. => False
  | .finishCancel i rc k =>
    w.state = .WON ∧ i = w.winner ∧ rc = (w.arms i).rc ∧
      ∀ j < k, j ≠ i → Event.canceled j ∈ events
  | _ => True

/-- The mutex is held by exactly the thread whose program point says so. -/
def MutexOk (w : World Value) : Prop :=
  ∀ th, (w.threads th).holds = true ↔ w.pollMutex = some th

/-- A completion reported by the select future, given what happened before it. -/
def Reported (w : World Value) (before : List (Event Value)) (i : Nat) (rc : Code)
    (result : Option Value) : Prop :=
  w.state = .WON ∧ i = w.winner ∧ rc = (w.arms i).rc ∧ result = (w.arms i).result ∧
    ∀ j < w.len, j ≠ i → Event.canceled j ∈ before

structure Inv (len : Nat) (events : List (Event Value)) (w : World Value) : Prop where
  length : w.len = len
  mutex : MutexOk w
  points : ∀ th, (w.threads th).Ok w events
  pending : w.state = .PENDING → finals events = [] ∨ ∃ th, (w.threads th).settling = true
  won : w.state = .WON → Recorded w events w.winner ∧
    ∃ before after, events = before ++ .won w.winner :: after ∧ ∀ e ∈ after, e.isPoll = false
  reported : ∀ before after i rc result, events = before ++ .completed i rc result :: after →
    Reported w before i rc result

theorem inv_initial (len : Nat) (biased : Bool) :
    Inv len [] (initial len biased : World Value) where
  length := rfl
  mutex := fun th => by simp [initial, Pc.holds]
  points := fun _ => trivial
  pending := fun _ => .inl rfl
  won := nofun
  reported := by simp

/-! ### What other threads keep -/

/-- A thread without the mutex relies on nothing while the set is not won. -/
theorem Pc.Ok.of_not_holds (ok : pc.Ok w events) (holds : pc.holds = false)
    (notWon : w.state ≠ .WON) : pc.Ok u events' := by
  cases pc <;> simp_all [Pc.Ok, Pc.holds]

/-- The set kept what threads rely on. -/
structure Keeps (w u : World Value) : Prop where
  len : u.len = w.len
  arms : u.arms = w.arms
  won : u.state = .WON ↔ w.state = .WON
  winner : u.winner = w.winner

theorem Keeps.recorded (keeps : Keeps w u) (same : finals events' = finals events) :
    Recorded u events' i ↔ Recorded w events i := by
  simp only [Recorded, keeps.len, keeps.arms, same]

theorem Keeps.ok (keeps : Keeps w u) (same : finals events' = finals events)
    (longer : events ⊆ events') (ok : pc.Ok w events) : pc.Ok u events' := by
  have recorded (i : Nat) : Recorded u events' i ↔ Recorded w events i := keeps.recorded same
  cases pc with
  | finishCancel i rc k =>
    obtain ⟨won, winner, code, canceled⟩ := ok
    refine ⟨keeps.won.mpr won, winner.trans keeps.winner.symm, ?_, ?_⟩
    · rw [keeps.arms, code]
    · exact fun j before other => longer (canceled j before other)
  | _ => simp_all [Pc.Ok, keeps.len, keeps.arms, keeps.won, keeps.winner]

theorem Keeps.reported {before : List (Event Value)} {result : Option Value} (keeps : Keeps w u)
    (h : Reported w before i rc result) : Reported u before i rc result := by
  simpa only [Reported, keeps.len, keeps.arms, keeps.won, keeps.winner] using h

theorem reported_concat
    (old : ∀ before after i rc result, events = before ++ .completed i rc result :: after →
      Reported w before i rc result)
    (carry : ∀ {before i rc result}, Reported w before i rc result →
      Reported u before i rc result)
    (new : ∀ {i rc result}, e = .completed i rc result → Reported u events i rc result) :
    ∀ before after i rc result, events ++ [e] = before ++ .completed i rc result :: after →
      Reported u before i rc result := by
  intro before after i rc result h
  rcases split_concat h with ⟨rfl, rfl, -⟩ | ⟨rest, inside, -⟩
  · exact new rfl
  · exact carry (old before rest i rc result inside)

theorem MutexOk.unique (mutex : MutexOk w) {th' : Nat} (held : (w.threads th).holds = true)
    (held' : (w.threads th').holds = true) : th' = th := by
  have := (mutex th).mp held
  rw [(mutex th').mp held', Option.some.injEq] at this
  exact this

theorem Handover.mutexOk {holder : Option Nat} (mutex : MutexOk w)
    (handover : Handover w th pc holder) : MutexOk ((w.setMutex holder).goto th pc) := by
  intro other
  have self := mutex th
  have held := mutex other
  cases handover with
  | keep same => by_cases h : other = th <;> simp_all
  | take holds unlocked =>
    by_cases h : other = th
    · simp_all
    · simp [h, held, unlocked, Ne.symm h]
  | release holds without =>
    by_cases h : other = th
    · simp_all
    · simp [h, held, self.mp holds, Ne.symm h]

/-- A thread keeps the mutex while it writes to the set and moves. -/
theorem MutexOk.write {middle : World Value} (mutex : MutexOk w)
    (threads : middle.threads = w.threads) (pollMutex : middle.pollMutex = w.pollMutex)
    (holds : pc.holds = (w.threads th).holds) : MutexOk (middle.goto th pc) := by
  intro other
  have held := mutex other
  by_cases h : other = th <;> simp_all

/-! ### What the moving thread keeps -/

/-- A step that only moves a thread is no final answer. -/
theorem Moves.finals_nil {old : Pc} (moves : Moves w old pc e) (ok : old.Ok w events) :
    finals [e] = [] := by
  cases moves with
  | free _ silent => cases e <;> simp_all [Event.silent, finals]
  | cancel => unfold World.cancelLoser; split <;> rfl
  | repolling => exact ok.elim
  | _ => rfl

theorem Moves.isPoll {old : Pc} (moves : Moves w old pc e) (ok : old.Ok w events)
    (recorded : w.state = .WON → Recorded w events w.winner) (won : w.state = .WON) :
    e.isPoll = false := by
  cases moves with
  | free _ silent => cases e <;> simp_all [Event.silent, Event.isPoll]
  | begin => exact absurd won ok.1
  | again => exact absurd won ok.1
  | cancel => unfold World.cancelLoser; split <;> rfl
  | repoll inside completed =>
    -- the winner's arm was stored before the set was won
    have stored := (recorded won).2.1
    rw [← ok.2, completed] at stored
    cases stored
  | repolling => exact ok.elim
  | _ => rfl

theorem Moves.settling {old : Pc} (moves : Moves w old pc e) (h : old.settling = true) :
    w.state ≠ .PENDING := by
  cases moves <;> simp_all [Pc.settling]

/-- Passing the check under the mutex means that no arm has answered finally:
the thread that got such an answer would still hold the mutex. -/
theorem Inv.finals_nil (inv : Inv len events w) {poller : Poller}
    (at_ : w.threads th = .check poller) (pending : w.state = .PENDING) : finals events = [] := by
  rcases inv.pending pending with none | ⟨other, settling⟩
  · exact none
  · have held : (w.threads other).holds = true := by
      cases h : w.threads other <;> simp_all [Pc.settling, Pc.holds]
    have same : other = th := inv.mutex.unique (by rw [at_]; rfl) held
    rw [same, at_] at settling
    cases settling

/-- The point a thread moves to is justified by the point it comes from. -/
theorem Inv.moves_ok (inv : Inv len events w) (moves : Moves w (w.threads th) pc e) :
    pc.Ok w (events ++ [e]) := by
  have ok := inv.points th
  have same := moves.finals_nil ok
  generalize at_ : w.threads th = old at moves ok
  cases moves with
  | free free => cases pc <;> simp_all [Pc.free, Pc.Ok]
  | start pending inside =>
    refine ⟨by simp [pending], ?_, inside⟩
    rw [finals_append, inv.finals_nil at_ pending, same, List.append_nil]
  | begin =>
    obtain ⟨notWon, none, inside⟩ := ok
    simp only [List.mem_cons, forall_eq_or_imp] at inside
    refine ⟨notWon, ?_, inside⟩
    rw [finals_append, none, same, List.append_nil]
  | again =>
    obtain ⟨notWon, none, -, inside⟩ := ok
    refine ⟨notWon, ?_, inside⟩
    rw [finals_append, none, same, List.append_nil]
  | settled _ won => exact ⟨won, rfl⟩
  | finish completed => exact ⟨ok.1, ok.2, rfl, by simp⟩
  | @cancel i k rc more =>
    obtain ⟨won, winner, code, canceled⟩ := ok
    refine ⟨won, winner, code, fun j before other => ?_⟩
    rw [List.mem_append]
    by_cases last : j = k
    · subst last
      exact .inr (by simp [World.cancelLoser, other])
    · exact .inl (canceled j (by omega) other)
  | complete => trivial
  | repoll inside completed =>
    have stored := (inv.won ok.1).1.2.1
    rw [← ok.2, completed] at stored
    cases stored
  | repolling => exact ok.elim

theorem Moves.reported {old : Pc} {result : Option Value}
    (moves : Moves w old pc (.completed i rc result)) (ok : old.Ok w events) :
    Reported w events i rc result := by
  generalize shown : Event.completed i rc result = e at moves
  cases moves with
  | free _ silent => subst shown; cases silent
  | complete done =>
    obtain ⟨won, winner, code, canceled⟩ := ok
    injection shown with hi hrc hresult
    subst hi hrc hresult
    exact ⟨won, winner, code, rfl, fun j inside => canceled j (by omega)⟩
  | cancel => unfold World.cancelLoser at shown; split at shown <;> cases shown
  | repolling => exact ok.elim
  | _ => cases shown

/-! ### Preservation -/

theorem Inv.move (inv : Inv len events w) {holder : Option Nat} (handover : Handover w th pc holder)
    (moves : Moves w (w.threads th) pc e) :
    Inv len (events ++ [e]) ((w.setMutex holder).goto th pc) := by
  have same : finals (events ++ [e]) = finals events := by
    rw [finals_append, moves.finals_nil (inv.points th), List.append_nil]
  have keeps : Keeps w ((w.setMutex holder).goto th pc) := ⟨rfl, rfl, Iff.rfl, rfl⟩
  refine ⟨inv.length, handover.mutexOk inv.mutex, fun other => ?_, fun pending => ?_,
    fun won => ?_, ?_⟩
  · by_cases h : other = th
    · subst h
      simpa using keeps.ok rfl (List.Subset.refl _) (inv.moves_ok moves)
    · simpa [h] using keeps.ok same (List.subset_append_left events [e]) (inv.points other)
  · rcases inv.pending pending with none | ⟨other, settling⟩
    · exact .inl (same.trans none)
    · refine .inr ⟨other, ?_⟩
      have h : other ≠ th := by
        rintro rfl
        exact moves.settling settling pending
      simpa [h] using settling
  · obtain ⟨recorded, before, after, rfl, unpolled⟩ := inv.won won
    refine ⟨(keeps.recorded same).mpr recorded, before, after ++ [e], by simp, ?_⟩
    intro x hx
    rcases List.mem_append.mp hx with old | new
    · exact unpolled x old
    · rw [List.mem_singleton.mp new]
      exact moves.isPoll (inv.points th) (fun won => (inv.won won).1) won
  · apply reported_concat inv.reported keeps.reported
    rintro i rc result rfl
    exact keeps.reported (moves.reported (inv.points th))

/-- A write by the thread that holds the mutex while the set is not won. No other
thread relies on anything then, and no completion has been reported. -/
theorem Inv.write (inv : Inv len events w) {middle : World Value}
    (held : (w.threads th).holds = true) (holds : pc.holds = true) (notWon : w.state ≠ .WON)
    (length : middle.len = w.len) (threads : middle.threads = w.threads)
    (pollMutex : middle.pollMutex = w.pollMutex) (ok : pc.Ok (middle.goto th pc) (events ++ [e]))
    (pending : middle.state = .PENDING → pc.settling = true)
    (won : middle.state = .WON → Recorded (middle.goto th pc) (events ++ [e]) middle.winner ∧
      e = .won middle.winner) (shown : ∀ i rc result, e ≠ .completed i rc result) :
    Inv len (events ++ [e]) (middle.goto th pc) := by
  refine ⟨length.trans inv.length, inv.mutex.write threads pollMutex (holds.trans held.symm),
    fun other => ?_, fun h => ?_, fun h => ?_, ?_⟩
  · by_cases h : other = th
    · subst h
      simpa using ok
    · have without : (w.threads other).holds = false :=
        Bool.eq_false_iff.mpr fun held' => h (inv.mutex.unique held held')
      simpa [h, threads] using (inv.points other).of_not_holds without notWon
  · exact .inr ⟨th, by simpa using pending h⟩
  · exact ⟨(won h).1, events, [], by rw [(won h).2]; rfl, by simp⟩
  · apply reported_concat inv.reported
    · intro before i rc result reported
      exact absurd reported.1 notWon
    · intro i rc result h
      exact absurd h (shown i rc result)

theorem Inv.stop (inv : Inv len events w) (pending : w.state = .PENDING)
    (holds : pc.holds = (w.threads th).holds) (free : pc.free = true) :
    Inv len (events ++ [.stopped rc]) ((w.setStopped rc).goto th pc) := by
  have same : finals (events ++ [.stopped rc]) = finals events := by simp [finals]
  have keeps : Keeps w ((w.setStopped rc).goto th pc) := ⟨rfl, rfl, by simp [pending], rfl⟩
  refine ⟨inv.length, inv.mutex.write rfl rfl holds, fun other => ?_, nofun, nofun, ?_⟩
  · by_cases h : other = th
    · subst h
      cases pc <;> simp_all [Pc.free, Pc.Ok]
    · simpa [h] using keeps.ok same (List.subset_append_left events _) (inv.points other)
  · exact reported_concat inv.reported keeps.reported nofun

theorem fill_result {value : Value} (w : World Value) (ok : rc = .OK) :
    ((w.fill i rc value).arms i).result = some value := by
  simp [World.fill, ok]

/-- One step keeps the invariant. -/
theorem Inv.change (inv : Inv len events w) (change : Change w th u e) :
    Inv len (events ++ [e]) u := by
  cases change with
  | move handover moves => exact inv.move handover moves
  | @answer poller i rest rc value at_ final =>
    have ok := inv.points th
    rw [at_] at ok
    obtain ⟨notWon, none, inside, -⟩ := ok
    have keeps : (w.fill i rc value).len = w.len ∧ (w.fill i rc value).threads = w.threads ∧
        (w.fill i rc value).pollMutex = w.pollMutex ∧ (w.fill i rc value).state = w.state := by
      unfold World.fill
      split <;> exact ⟨rfl, rfl, rfl, rfl⟩
    refine inv.write (by rw [at_]; rfl) rfl notWon keeps.1 keeps.2.1 keeps.2.2.1 ?_ (fun _ => rfl)
      (fun won => absurd (keeps.2.2.2.symm.trans won) notWon) nofun
    refine ⟨fun won => notWon (keeps.2.2.2.symm.trans won), ?_, value, ?_, fill_result w⟩
    · exact lt_of_lt_of_eq inside keeps.1.symm
    · rw [finals_append, none]
      simp [finals, final]
  | @store poller i rc at_ =>
    have ok := inv.points th
    rw [at_] at ok
    obtain ⟨notWon, inside, value, answered, result⟩ := ok
    refine inv.write (by rw [at_]; rfl) rfl notWon rfl rfl rfl ?_ (fun _ => rfl)
      (fun won => absurd won notWon) nofun
    refine ⟨notWon, inside, by simp [World.store], value, ?_, ?_⟩
    · simpa [World.store, finals] using answered
    · simpa [World.store] using result
  | @win poller i at_ pending =>
    have ok := inv.points th
    rw [at_] at ok
    obtain ⟨notWon, inside, completed, value, answered, result⟩ := ok
    refine inv.write (by rw [at_]; rfl) rfl notWon rfl rfl rfl trivial nofun (fun _ => ?_) nofun
    refine ⟨⟨inside, completed, value, ?_, result⟩, rfl⟩
    rw [finals_append, answered]
    simp [finals]
  | stop pending holds free => exact inv.stop pending holds free
  | refill at_ | restore at_ =>
    have ok := inv.points th
    rw [at_] at ok
    exact ok.elim

/-! ## Runs -/

/-- What the steps of a run show, in order. -/
def shown (history : List (Label Value × Event Value)) : List (Event Value) :=
  history.map Prod.snd

theorem run_inv {history : List (Label Value × Event Value)}
    (run : machine.Run (initial len biased) history w) : Inv len (shown history) w := by
  refine run.preserves_history (R := fun history w => Inv len (shown history) w)
    (inv_initial len biased) ?_
  intro history t label e u inv enabled
  have next := inv.change (step_change enabled)
  simpa [shown] using next

/-- How a set is settled. -/
def World.outcome (w : World Value) : SelectState × Nat × Code := (w.state, w.winner, w.stopRc)

/-- A settled set stays settled in the same way. -/
theorem Change.outcome (change : Change w th u e) (settled : w.state ≠ .PENDING) :
    u.outcome = w.outcome := by
  cases change with
  | win _ pending | stop pending => exact absurd pending settled
  | answer | refill => unfold World.fill; split <;> rfl
  | _ => rfl

theorem run_outcome {history : List (Label Value × Event Value)} (run : machine.Run w history u)
    (settled : w.state ≠ .PENDING) : u.outcome = w.outcome := by
  refine run.preserves (I := fun u => u.outcome = w.outcome) rfl ?_
  intro t label e u same enabled
  have state : t.state = w.state := congrArg Prod.fst same
  exact ((step_change enabled).outcome (by rwa [state])).trans same

/-- In every interleaving of wakes, polls, stops and cancellations, the set leaves
`PENDING` at most once. If it was won, the arm that won gave the only final answer,
before the set was won; no arm was polled afterwards; and a select future that
completed reported this arm, its code and its result, with all other arms
canceled before. -/
theorem run_settles_once {s t : World Value} {first second : List (Label Value × Event Value)}
    (reach : machine.Run (initial len biased) first s) (continues : machine.Run s second t) :
    (s.state ≠ .PENDING → t.outcome = s.outcome) ∧
    (t.state = .WON → ∃ rc value before after,
      t.winner < len ∧
      shown (first ++ second) = before ++ .won t.winner :: after ∧
      finals before = [(t.winner, rc, value)] ∧
      (∀ e ∈ after, e.isPoll = false) ∧
      ∀ earlier later i code result,
        shown (first ++ second) = earlier ++ .completed i code result :: later →
          i = t.winner ∧ code = rc ∧ (rc = .OK → result = some value) ∧
          ∀ j < len, j ≠ t.winner → Event.canceled j ∈ earlier) := by
  have inv : Inv len (shown (first ++ second)) t := run_inv (reach.append continues)
  refine ⟨run_outcome continues, fun won => ?_⟩
  obtain ⟨⟨inside, -, value, answered, result⟩, before, after, split, unpolled⟩ := inv.won won
  refine ⟨(t.arms t.winner).rc, value, before, after, ?_, split, ?_, unpolled, ?_⟩
  · exact lt_of_lt_of_eq inside inv.length
  · have none : finals (.won t.winner :: after) = [] :=
      finals_unpolled (by simpa [Event.isPoll] using unpolled)
    rw [split, finals_append, none, List.append_nil] at answered
    exact answered
  · intro earlier later i code result' h
    obtain ⟨-, rfl, rfl, rfl, canceled⟩ := inv.reported earlier later i code result' h
    exact ⟨rfl, rfl, result, inv.length ▸ canceled⟩

/-- The first part of a schedule of a biased set with two arms: the first arm is
pending, the second one answers and wins. -/
def secondArmWins : List (Label Nat) :=
  [⟨0, .run⟩, ⟨0, .advance⟩, ⟨0, .advance⟩, ⟨0, .fairStart 0⟩, ⟨0, .advance⟩,
    ⟨0, .answer .EAGAIN 0⟩, ⟨0, .advance⟩, ⟨0, .answer .OK 7⟩, ⟨0, .advance⟩, ⟨0, .advance⟩]

/-- The second part: another thread stops the set in vain, and the select future
completes. -/
def stopAndComplete : List (Label Nat) :=
  ⟨1, .stop .ENOMEM⟩ :: List.replicate 9 ⟨0, .advance⟩

theorem run_settles_once_secondArmWins :
    ∃ (s t : World Nat) (first second : List (Label Nat × Event Nat)) (before : List (Event Nat)),
      machine.Run (initial 2 true) first s ∧ machine.Run s second t ∧
      first.map (·.1) = secondArmWins ∧ second.map (·.1) = stopAndComplete ∧
      t.outcome = s.outcome ∧ t.state = .WON ∧ t.winner = 1 ∧
      shown (first ++ second) = before ++ [.completed 1 .OK (some 7)] ∧
      .canceled 0 ∈ before := by
  have executed : ∃ s first t second,
      machine.exec (initial 2 true) secondArmWins = some (s, first) ∧
      machine.exec s stopAndComplete = some (t, second) ∧
      first.map (·.1) = secondArmWins ∧ second.map (·.1) = stopAndComplete ∧
      s.state = .WON ∧ t.state = .WON ∧
      shown (first ++ second) =
        [.quiet, .quiet, .quiet, .quiet, .pollBegin 0, .pollEnd 0 .EAGAIN 0, .pollBegin 1,
          .pollEnd 1 .OK 7, .quiet, .won 1, .quiet, .quiet, .canceled 0, .quiet, .quiet, .quiet,
          .quiet, .canceled 0, .quiet] ++ [.completed 1 .OK (some 7)] :=
    ⟨_, _, _, _, rfl, rfl, rfl, rfl, rfl, rfl, rfl⟩
  obtain ⟨s, first, t, second, early, late, labels, labels', settled, won, split⟩ := executed
  have reach := Machine.run_of_exec early
  have continues := Machine.run_of_exec late
  obtain ⟨same, winning⟩ := run_settles_once reach continues
  obtain ⟨rc, value, _, _, -, -, -, -, reported⟩ := winning won
  obtain ⟨winner, -, -, canceled⟩ := reported _ [] 1 .OK (some 7) split
  exact ⟨s, t, first, second, _, reach, continues, labels, labels', same (by simp [settled]), won,
    winner.symm, split, canceled 0 (by decide) (by simp [← winner])⟩

end Ciel.Runtime.Select
