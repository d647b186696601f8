import Ciel.Library.Machine
import Ciel.Runtime.Channel.Basic

/-!
# Exactly-once FIFO delivery on one channel

The machine below performs one critical section of the channel mutex for each
label, in any order. Permits outlive the reservation that issued them, so the
state records the `used` flag of every permit handed out.

`Effect` is the abstract channel: it says what a section may do to the queue,
the permits and the closed flags, and forgets wait lists and error codes. The
invariant is proved for effects, and one inversion lemma connects the two.
-/

namespace Ciel.Runtime.Channel

open Library

/-- One channel and the `used` flags of its permits, in the order of issue. -/
structure Endpoint (Waiter : Type) where
  channel : Channel Waiter
  permits : List Bool

/-- The critical sections of one channel, with the arguments of the caller. -/
inductive Op
  | trySend (value : Option Memory)
  | sendPoll (value : Option Memory)
  | reservePoll
  | permitSend (permit : Nat) (value : Option Memory)
  | permitRelease (permit : Nat)
  | recvPoll (outIsNull : Bool)
  | awaitRecv
  | senderClose
  | receiverClose

/-- What the caller of a section gets back. -/
structure Answer where
  rc : Code
  received : Option Bytes

variable {Waiter : Type}

variable (s : Endpoint Waiter)

/-- One section. A permit that was never issued has no pointer, so an operation
on it is not enabled. -/
def step : Op → Option (Endpoint Waiter × Answer)
  | .trySend value =>
    let (rc, channel, _) := s.channel.trySend value
    some ({ s with channel }, ⟨rc, none⟩)
  | .sendPoll value =>
    let (rc, channel, _) := s.channel.sendPoll value
    some ({ s with channel }, ⟨rc, none⟩)
  | .reservePoll =>
    match s.channel.reservePoll with
    | (.OK, channel) => some (⟨channel, s.permits ++ [false]⟩, ⟨.OK, none⟩)
    | (rc, channel) => some ({ s with channel }, ⟨rc, none⟩)
  | .permitSend permit value =>
    match s.permits[permit]? with
    | none => none
    | some used =>
      let (rc, channel, used, _) := s.channel.permitSend used value
      some (⟨channel, s.permits.set permit used⟩, ⟨rc, none⟩)
  | .permitRelease permit =>
    match s.permits[permit]? with
    | none => none
    | some used =>
      let (rc, channel, used, _) := s.channel.permitRelease used
      some (⟨channel, s.permits.set permit used⟩, ⟨rc, none⟩)
  | .recvPoll outIsNull =>
    let (rc, received, channel, _) := s.channel.recvPoll outIsNull
    some ({ s with channel }, ⟨rc, received⟩)
  | .awaitRecv =>
    let (rc, received, channel, _) := s.channel.awaitRecv
    some ({ s with channel }, ⟨rc, received⟩)
  | .senderClose => some ({ s with channel := s.channel.senderClose.1 }, ⟨.OK, none⟩)
  | .receiverClose => some ({ s with channel := s.channel.receiverClose.1 }, ⟨.OK, none⟩)

def machine (Waiter : Type) : Machine (Endpoint Waiter) Op Answer := ⟨step⟩

/-- The value argument of a sending operation. -/
def Op.value : Op → Option (Option Memory)
  | .trySend value | .sendPoll value | .permitSend _ value => some value
  | _ => none

/-- The bytes an operation sent, when it is a send that reported success. -/
def sentBy (valueSize : Nat) (op : Op) (answer : Answer) : Option Bytes :=
  match op.value with
  | some value =>
    if answer.rc = .OK then
      some ((value.map (memcpy · valueSize)).getD [])
    else
      none
  | none => none

/-- The values whose send returned success, in the order of the sends. -/
def sent (valueSize : Nat) (history : List (Op × Answer)) : List Bytes :=
  history.filterMap fun entry => sentBy valueSize entry.1 entry.2

/-- The values handed to receivers, in the order of the receives. -/
def received (history : List (Op × Answer)) : List Bytes :=
  history.filterMap fun entry => entry.2.received

/-- The part of the state that sections other than wait-list updates change. -/
structure Core where
  queue : List Bytes
  len : Nat
  reserved : Nat
  permits : List Bool
  receiverClosed : Bool

def Endpoint.core : Core :=
  ⟨s.channel.queue, s.channel.len, s.channel.reserved, s.permits, s.channel.receiverClosed⟩

/-- What one section may do to a channel of the given capacity: the sent and
the received value, and the core before and after. -/
inductive Effect (capacity : Nat) (c : Core) : Option Bytes → Option Bytes → Core → Prop
  | idle : Effect capacity c none none c
  | enqueue (value : Bytes) : c.receiverClosed = false → c.len + c.reserved < capacity →
      Effect capacity c (some value) none
        { c with queue := c.queue ++ [value], len := c.len + 1 }
  | reserve : c.len + c.reserved < capacity →
      Effect capacity c none none
        { c with reserved := c.reserved + 1, permits := c.permits ++ [false] }
  | redeem (permit : Nat) (value : Bytes) : c.receiverClosed = false →
      c.permits[permit]? = some false →
      Effect capacity c (some value) none
        { c with
          queue := c.queue ++ [value], len := c.len + 1, reserved := c.reserved - 1
          permits := c.permits.set permit true }
  | forfeit (permit : Nat) : c.permits[permit]? = some false →
      Effect capacity c none none
        { c with reserved := c.reserved - 1, permits := c.permits.set permit true }
  | dequeue (value : Bytes) (rest : List Bytes) : c.receiverClosed = false →
      c.queue = value :: rest →
      Effect capacity c none (some value) { c with queue := rest, len := c.len - 1 }
  | close : Effect capacity c none none { c with queue := [], len := 0, receiverClosed := true }

variable (channel : Channel Waiter)

variable (value : Option Memory)

theorem copied_eq : channel.copied value = (value.map (memcpy · channel.valueSize)).getD [] := by
  cases value <;> rfl

/-- A sending section that is neither closed nor full enqueues or does nothing. -/
theorem trySend_effect :
    let result := s.channel.trySend value
    Effect s.channel.capacity s.core
      (if result.1 = .OK then some (s.channel.copied value) else none) none
      (Endpoint.core ⟨result.2.1, s.permits⟩) := by
  unfold trySend
  split
  · exact .idle
  · rename_i notClosed
    have receiverOpen : s.channel.receiverClosed = false := by
      simp only [closed, Bool.or_eq_true, not_or, Bool.not_eq_true] at notClosed
      exact notClosed.2
    split
    · exact .idle
    · rename_i notFull
      have room : s.channel.len + s.channel.reserved < s.channel.capacity := by
        simpa [isFull] using notFull
      rcases enqueueAndTake_cases s.channel value with accepted | ⟨rc, failed, refused⟩
      · rw [accepted]
        exact .enqueue _ receiverOpen room
      · rw [refused]
        simpa only [if_neg (ne_ok_of_refuses failed)] using Effect.idle

theorem recvLocked_effect :
    let result := s.channel.recvLocked
    Effect s.channel.capacity s.core none result.2.1
      (Endpoint.core ⟨result.2.2.1, s.permits⟩) := by
  unfold recvLocked
  split
  · exact .idle
  · rename_i receiverOpen
    have receiverOpen : s.channel.receiverClosed = false := by simpa using receiverOpen
    unfold popInto
    cases queued : s.channel.queue with
    | nil =>
      simp only
      split <;> exact .idle
    | cons value rest => exact .dequeue value rest receiverOpen queued

private theorem set_issued {permits : List Bool} {permit : Nat} {used : Bool}
    (issued : permits[permit]? = some used) : permits.set permit used = permits := by
  obtain ⟨bound, rfl⟩ := List.getElem?_eq_some_iff.mp issued
  exact List.set_getElem_self bound

theorem permitSend_effect (permit : Nat) (used : Bool)
    (value : Option Memory) (issued : s.permits[permit]? = some used) :
    let result := s.channel.permitSend used value
    Effect s.channel.capacity s.core
      (if result.1 = .OK then some (s.channel.copied value) else none) none
      (Endpoint.core ⟨result.2.1, s.permits.set permit result.2.2.1⟩) := by
  cases used with
  | true =>
    simp only [permitSend, if_true, set_issued issued]
    exact .idle
  | false =>
    simp only [permitSend, Bool.false_eq_true, if_false]
    split
    · exact .forfeit permit issued
    · rename_i receiverOpen
      have receiverOpen : s.channel.receiverClosed = false := by simpa using receiverOpen
      rcases enqueueAndTake_cases { s.channel with reserved := s.channel.reserved - 1 } value
        with accepted | ⟨rc, failed, refused⟩
      · rw [accepted]
        exact .redeem permit _ receiverOpen issued
      · rw [refused, if_neg (ne_ok_of_refuses failed)]
        exact .forfeit permit issued

theorem permitRelease_effect (permit : Nat) (used : Bool)
    (issued : s.permits[permit]? = some used) :
    let result := s.channel.permitRelease used
    Effect s.channel.capacity s.core none none
      (Endpoint.core ⟨result.2.1, s.permits.set permit result.2.2.1⟩) := by
  cases used with
  | true =>
    simp only [permitRelease, if_true, set_issued issued]
    exact .idle
  | false => exact .forfeit permit issued

theorem reservePoll_effect {rc : Code} {channel : Channel Waiter}
    (polled : s.channel.reservePoll = (rc, channel)) :
    Effect s.channel.capacity s.core none none
      (Endpoint.core ⟨channel, if rc = .OK then s.permits ++ [false] else s.permits⟩) := by
  unfold reservePoll at polled
  split at polled
  · cases polled
    exact .idle
  · split at polled
    · cases polled
      exact .idle
    · rename_i notFull
      have room : s.channel.len + s.channel.reserved < s.channel.capacity := by
        simpa [isFull] using notFull
      cases polled
      exact .reserve room

/-- Sections never change the capacity or the value size of their channel. -/
structure SameShape (a b : Channel Waiter) : Prop where
  capacity : b.capacity = a.capacity
  valueSize : b.valueSize = a.valueSize

theorem enqueueAndTake_shape : SameShape channel (channel.enqueueAndTake value).2.1 := by
  rcases enqueueAndTake_cases channel value with accepted | ⟨rc, -, refused⟩
  · rw [accepted]
    exact ⟨rfl, rfl⟩
  · rw [refused]
    exact ⟨rfl, rfl⟩

theorem trySend_shape : SameShape channel (channel.trySend value).2.1 := by
  unfold trySend
  split
  · exact ⟨rfl, rfl⟩
  · split
    · exact ⟨rfl, rfl⟩
    · exact enqueueAndTake_shape channel value

theorem recvLocked_shape : SameShape channel channel.recvLocked.2.2.1 := by
  unfold recvLocked popInto
  split
  · exact ⟨rfl, rfl⟩
  · cases channel.queue with
    | nil =>
      simp only
      split <;> exact ⟨rfl, rfl⟩
    | cons value rest => exact ⟨rfl, rfl⟩

theorem permitSend_shape (used : Bool) (value : Option Memory) :
    SameShape channel (channel.permitSend used value).2.1 := by
  unfold permitSend
  split
  · exact ⟨rfl, rfl⟩
  · simp only
    split
    · exact ⟨rfl, rfl⟩
    · obtain ⟨capacity, valueSize⟩ :=
        enqueueAndTake_shape { channel with reserved := channel.reserved - 1 } value
      exact ⟨capacity, valueSize⟩

/-- Everything one section can do. All invariants below follow from this lemma
alone; no later proof looks at a section's code again. -/
theorem step_effect {s t : Endpoint Waiter} {op : Op} {answer : Answer}
    (taken : step s op = some (t, answer)) :
    SameShape s.channel t.channel ∧
      Effect s.channel.capacity s.core (sentBy s.channel.valueSize op answer)
        answer.received t.core := by
  cases op with
  | trySend value =>
    simp only [step, Option.some.injEq, Prod.mk.injEq] at taken
    obtain ⟨rfl, rfl⟩ := taken
    refine ⟨trySend_shape _ _, ?_⟩
    simpa only [sentBy, Op.value, copied_eq] using trySend_effect s value
  | sendPoll value =>
    simp only [step, sendPoll, Option.some.injEq, Prod.mk.injEq] at taken
    obtain ⟨rfl, rfl⟩ := taken
    refine ⟨trySend_shape _ _, ?_⟩
    simpa only [sentBy, Op.value, copied_eq] using trySend_effect s value
  | reservePoll =>
    have shape : SameShape s.channel s.channel.reservePoll.2 := by
      unfold Channel.reservePoll
      split
      · exact ⟨rfl, rfl⟩
      · split <;> exact ⟨rfl, rfl⟩
    simp only [step] at taken
    split at taken
    · rename_i channel polled
      obtain ⟨rfl, rfl⟩ := Prod.mk.inj (Option.some.inj taken)
      rw [polled] at shape
      exact ⟨shape, reservePoll_effect s polled⟩
    · rename_i rc channel failed polled
      obtain ⟨rfl, rfl⟩ := Prod.mk.inj (Option.some.inj taken)
      rw [polled] at shape
      have effect := reservePoll_effect s polled
      rw [if_neg failed] at effect
      exact ⟨shape, effect⟩
  | permitSend permit value =>
    simp only [step] at taken
    split at taken
    · cases taken
    · rename_i used issued
      obtain ⟨rfl, rfl⟩ := Prod.mk.inj (Option.some.inj taken)
      refine ⟨permitSend_shape _ _ _, ?_⟩
      simpa only [sentBy, Op.value, copied_eq] using
        permitSend_effect s permit used value issued
  | permitRelease permit =>
    simp only [step] at taken
    split at taken
    · cases taken
    · rename_i used issued
      obtain ⟨rfl, rfl⟩ := Prod.mk.inj (Option.some.inj taken)
      refine ⟨?_, permitRelease_effect s permit used issued⟩
      cases used <;> exact ⟨rfl, rfl⟩
  | recvPoll outIsNull =>
    simp only [step, Option.some.injEq, Prod.mk.injEq] at taken
    obtain ⟨rfl, rfl⟩ := taken
    unfold recvPoll
    split
    · exact ⟨⟨rfl, rfl⟩, .idle⟩
    · exact ⟨recvLocked_shape _, recvLocked_effect s⟩
  | awaitRecv =>
    simp only [step, Option.some.injEq, Prod.mk.injEq] at taken
    obtain ⟨rfl, rfl⟩ := taken
    exact ⟨recvLocked_shape _, recvLocked_effect s⟩
  | senderClose =>
    obtain ⟨rfl, rfl⟩ := Prod.mk.inj (Option.some.inj taken)
    unfold Channel.senderClose
    split <;> exact ⟨⟨rfl, rfl⟩, .idle⟩
  | receiverClose =>
    obtain ⟨rfl, rfl⟩ := Prod.mk.inj (Option.some.inj taken)
    unfold Channel.receiverClose
    split
    · exact ⟨⟨rfl, rfl⟩, .idle⟩
    · exact ⟨⟨rfl, rfl⟩, .close⟩

/-- The accounting that every section keeps, for the values sent and received
so far. Once the receiver is closed the queue is dropped and nothing more is
sent or received, so only the prefix fact remains. -/
structure Accounted (capacity : Nat) (sent received : List Bytes) (c : Core) : Prop where
  len : c.len = c.queue.length
  reserved : c.reserved = c.permits.count false
  bounded : c.len + c.reserved ≤ capacity
  delivered : received <+: sent
  pending : c.receiverClosed = false → sent = received ++ c.queue

private theorem count_set_used {permits : List Bool} {permit : Nat}
    (issued : permits[permit]? = some false) :
    (permits.set permit true).count false + 1 = permits.count false := by
  induction permits generalizing permit with
  | nil => cases issued
  | cons used permits ih =>
    cases permit with
    | zero =>
      have : used = false := by simpa using issued
      subst this
      simp
    | succ permit =>
      have rest := ih (by simpa using issued)
      simp only [List.set_cons_succ, List.count_cons]
      omega

theorem Effect.accounted {capacity : Nat} {sent received : List Bytes} {c d : Core}
    {sentNow receivedNow : Option Bytes} (effect : Effect capacity c sentNow receivedNow d)
    (h : Accounted capacity sent received c) :
    Accounted capacity (sent ++ sentNow.toList) (received ++ receivedNow.toList) d := by
  obtain ⟨len, reserved, bounded, delivered, pending⟩ := h
  cases effect with
  | idle => simpa using ⟨len, reserved, bounded, delivered, pending⟩
  | enqueue value receiverOpen room =>
    refine ⟨by simp [len], reserved, by simp only; omega, ?_, ?_⟩
    · simpa using delivered.trans (List.prefix_append _ _)
    · intro _
      simp [pending receiverOpen]
  | reserve room =>
    refine ⟨len, by simp [reserved], by simp only; omega, by simpa using delivered, ?_⟩
    simpa using pending
  | redeem permit value receiverOpen issued =>
    have count := count_set_used issued
    refine ⟨by simp [len], by simp only; omega, by simp only; omega, ?_, ?_⟩
    · simpa using delivered.trans (List.prefix_append _ _)
    · intro _
      simp [pending receiverOpen]
  | forfeit permit issued =>
    have count := count_set_used issued
    refine ⟨len, by simp only; omega, by simp only; omega, by simpa using delivered, ?_⟩
    simpa using pending
  | dequeue value rest receiverOpen queued =>
    have whole : sent = (received ++ [value]) ++ rest := by
      simp [pending receiverOpen, queued]
    have counted : c.len = rest.length + 1 := by simp [len, queued]
    refine ⟨by simp only; omega, reserved, by simp only; omega, ?_, ?_⟩
    · simp [whole]
    · intro _
      simpa using whole
  | close =>
    refine ⟨rfl, reserved, by simp only; omega, by simpa using delivered, ?_⟩
    intro impossible
    cases impossible

theorem sent_append (valueSize : Nat) (history : List (Op × Answer)) (op : Op)
    (answer : Answer) :
    sent valueSize (history ++ [(op, answer)]) =
      sent valueSize history ++ (sentBy valueSize op answer).toList := by
  cases now : sentBy valueSize op answer <;> simp [sent, now]

theorem received_append (history : List (Op × Answer)) (op : Op) (answer : Answer) :
    received (history ++ [(op, answer)]) = received history ++ answer.received.toList := by
  cases now : answer.received <;> simp [received, now]

/-- A freshly made channel with no permits. -/
def Made (valueSize valueAlign capacity : Nat) (s : Endpoint Waiter) : Prop :=
  make valueSize valueAlign capacity = .ok s.channel ∧ s.permits = []

theorem made_accounted {valueSize valueAlign capacity : Nat} {s : Endpoint Waiter}
    (made : Made valueSize valueAlign capacity s) :
    s.channel.capacity = capacity ∧ s.channel.valueSize = valueSize ∧
      Accounted capacity [] [] s.core := by
  obtain ⟨made, noPermits⟩ := made
  unfold make at made
  split at made
  · cases made
  · have channel := (Except.ok.inj made).symm
    refine ⟨by rw [channel], by rw [channel], ?_⟩
    constructor <;> simp [Endpoint.core, channel, noPermits]

/-- What a run from a made channel keeps, next to the shape it was made with. -/
structure Tracked (capacity valueSize : Nat) (history : List (Op × Answer))
    (s : Endpoint Waiter) : Prop where
  sameCapacity : s.channel.capacity = capacity
  sameSize : s.channel.valueSize = valueSize
  accounted : Accounted capacity (sent valueSize history) (received history) s.core

theorem step_tracked {capacity valueSize : Nat} {history : List (Op × Answer)}
    {s t : Endpoint Waiter} {op : Op} {answer : Answer}
    (h : Tracked capacity valueSize history s) (taken : step s op = some (t, answer)) :
    Tracked capacity valueSize (history ++ [(op, answer)]) t := by
  obtain ⟨shape, effect⟩ := step_effect taken
  rw [h.sameCapacity, h.sameSize] at effect
  refine ⟨shape.capacity.trans h.sameCapacity, shape.valueSize.trans h.sameSize, ?_⟩
  rw [sent_append, received_append]
  exact effect.accounted h.accounted

/-- Over every interleaving of the channel's critical sections, the received
values are a prefix of the successfully sent ones, the rest is the queue until
the receiver closes, and the counters agree with queue and permits. -/
theorem run_fifo {valueSize valueAlign capacity : Nat} {s t : Endpoint Waiter}
    {history : List (Op × Answer)} (made : Made valueSize valueAlign capacity s)
    (run : (machine Waiter).Run s history t) :
    received history <+: sent valueSize history ∧
      (t.channel.receiverClosed = false →
        sent valueSize history = received history ++ t.channel.queue) ∧
      t.channel.len = t.channel.queue.length ∧
      t.channel.reserved = t.permits.count false ∧
      t.channel.len + t.channel.reserved ≤ capacity := by
  obtain ⟨sameCapacity, sameSize, accounted⟩ := made_accounted made
  have tracked : Tracked capacity valueSize history t :=
    run.preserves_history ⟨sameCapacity, sameSize, accounted⟩ step_tracked
  obtain ⟨len, reserved, bounded, delivered, pending⟩ := tracked.accounted
  exact ⟨delivered, pending, len, reserved, bounded⟩

/-- A permit that outlives the sender still delivers its value, before the
receiver sees the end of the channel. -/
def permitSchedule : List Op :=
  [.reservePoll, .senderClose, .permitSend 0 (some fun _ => 7), .recvPoll false]

theorem run_fifo_permitSchedule :
    ∃ (s t : Endpoint Nat) (history : List (Op × Answer)),
      Made 1 1 1 s ∧ (machine Nat).Run s history t ∧
      history.map Prod.fst = permitSchedule ∧ received history = [[7]] ∧
      sent 1 history = received history ++ t.channel.queue := by
  have executed : ∃ t history, (machine Nat).exec
      ⟨⟨[], [], [], 0, 0, 1, 1, 1, false, false⟩, []⟩ permitSchedule = some (t, history) ∧
      history.map Prod.fst = permitSchedule ∧ received history = [[7]] ∧
      t.channel.receiverClosed = false := ⟨_, _, rfl, rfl, rfl, rfl⟩
  obtain ⟨t, history, executed, labels, delivered, receiverOpen⟩ := executed
  have made : Made 1 1 1 (⟨⟨[], [], [], 0, 0, 1, 1, 1, false, false⟩, []⟩ : Endpoint Nat) :=
    ⟨rfl, rfl⟩
  have run := Machine.run_of_exec executed
  exact ⟨_, t, history, made, run, labels, delivered, (run_fifo made run).2.1 receiverOpen⟩

end Ciel.Runtime.Channel
