import Ciel.Runtime.Channel.Basic

/-!
# Wait lists and readiness of a channel

A task waits on a channel in one of two modes. Seen from a mode, a channel has a
wait list and a number of units: free places for senders, queued values for
receivers. `Turn` says what one critical section can do to them, and each
section is shown to be a turn for both modes. A section that makes a unit takes
one waiter off the list of that mode, unless it takes all of them.
-/

namespace Ciel.Runtime

/-- `CielPendingChannelMode`, without `NONE`. -/
inductive Mode
  | send
  | recv
  deriving DecidableEq, Repr

namespace Channel

variable {Waiter : Type}

variable (channel : Channel Waiter)

/-- `ciel_async_channel_ready_for_mode_locked`. -/
def readyForMode : Mode → Bool
  | .send => channel.senderClosed || channel.receiverClosed ||
      decide (channel.len + channel.reserved < channel.capacity)
  | .recv => channel.receiverClosed || decide (0 < channel.len) || channel.senderClosed

def waiters : Mode → List Waiter
  | .send => channel.sendWaiters
  | .recv => channel.recvWaiters

/-- `ciel_task_waiter_push` on the list of a mode: the newest waiter is first. -/
def pushWaiter (mode : Mode) (waiter : Waiter) : Channel Waiter :=
  match mode with
  | .send => { channel with sendWaiters := waiter :: channel.sendWaiters }
  | .recv => { channel with recvWaiters := waiter :: channel.recvWaiters }

/-- How many requests of a mode an open channel can still serve. -/
def units : Mode → Nat
  | .send => channel.capacity - (channel.len + channel.reserved)
  | .recv => channel.len

theorem readyForMode_iff (mode : Mode) :
    channel.readyForMode mode = true ↔ channel.closed = true ∨ 0 < channel.units mode := by
  cases mode with
  | send =>
    simp only [readyForMode, closed, units, Bool.or_eq_true, decide_eq_true_eq, Nat.sub_pos_iff_lt]
  | recv =>
    simp only [readyForMode, closed, units, Bool.or_eq_true, decide_eq_true_eq]
    rw [or_right_comm, or_comm (a := channel.receiverClosed = true)]

/-- An unready channel is open and has no unit. -/
theorem units_of_not_ready {channel : Channel Waiter} {mode : Mode}
    (busy : ¬channel.readyForMode mode = true) :
    channel.closed = false ∧ channel.units mode = 0 := by
  rw [readyForMode_iff, not_or] at busy
  exact ⟨Bool.eq_false_iff.2 busy.1, Nat.eq_zero_of_not_pos busy.2⟩

theorem pushWaiter_waiters (mode m : Mode) (t : Waiter) : (channel.pushWaiter mode t).waiters m =
      if m = mode then t :: channel.waiters m else channel.waiters m := by
  cases mode <;> cases m <;> rfl

theorem pushWaiter_units (mode m : Mode) (t : Waiter) :
    (channel.pushWaiter mode t).units m = channel.units m := by
  cases mode <;> cases m <;> rfl

/-- The counter is the length of the queue, and nobody waits on a closed channel. -/
structure Sound (channel : Channel Waiter) : Prop where
  counted : channel.len = channel.queue.length
  left : channel.closed = true → ∀ mode, channel.waiters mode = []

theorem pushWaiter_sound {channel : Channel Waiter} (sound : channel.Sound) (mode : Mode)
    (t : Waiter) (isOpen : channel.closed = false) : (channel.pushWaiter mode t).Sound := by
  have same : (channel.pushWaiter mode t).closed = false := by
    rw [← isOpen]
    cases mode <;> rfl
  refine ⟨?_, fun closed => absurd closed (Bool.eq_false_iff.1 same)⟩
  cases mode with
  | send | recv => exact sound.counted

/-- A section seen from one mode: it empties the list, or leaves it alone and
makes no unit, or makes one unit and takes the first waiter. -/
inductive Turn (before after : Channel Waiter) (taken : List Waiter) (wakes : Option Mode)
    (mode : Mode) : Prop
  | emptied : after.waiters mode = [] → (∀ t ∈ before.waiters mode, t ∈ taken) →
      Turn before after taken wakes mode
  | kept : after.waiters mode = before.waiters mode → after.units mode ≤ before.units mode →
      Turn before after taken wakes mode
  | woke (t : Waiter) : wakes = some mode → before.waiters mode = t :: after.waiters mode →
      t ∈ taken → after.units mode ≤ before.units mode + 1 → Turn before after taken wakes mode

/-- A section that keeps a channel sound and is a turn for both modes. `wakes` is
the mode of which it takes one waiter. -/
structure Section (before after : Channel Waiter) (taken : List Waiter) (wakes : Option Mode) :
    Prop where
  sound : before.Sound → after.Sound
  turn : ∀ mode, Turn before after taken wakes mode

namespace Section

variable {before after : Channel Waiter} {taken : List Waiter} {wakes : Option Mode}

theorem idle : Section before before [] none :=
  ⟨id, fun _ => .kept rfl (Nat.le_refl _)⟩

/-- No waiter is lost: who is not taken is still in the list. -/
theorem mem_or (h : Section before after taken wakes) {mode : Mode} {t : Waiter}
    (waits : t ∈ before.waiters mode) : t ∈ after.waiters mode ∨ t ∈ taken := by
  cases h.turn mode with
  | emptied _ all => exact .inr (all t waits)
  | kept same _ => exact .inl (same ▸ waits)
  | woke u _ head moved _ =>
    rcases List.mem_cons.1 (head ▸ waits) with rfl | later
    · exact .inr moved
    · exact .inl later

/-- One waiter is taken off the list of a mode, next to a change that makes at
most one unit of it and none of the other mode. -/
theorem taking {before after : Channel Waiter} {taken : List Waiter} (mode : Mode)
    (counted : before.Sound → after.len = after.queue.length)
    (closed : after.closed = before.closed)
    (others : ∀ m ≠ mode, after.waiters m = before.waiters m ∧ after.units m ≤ before.units m)
    (rest : after.waiters mode = (before.waiters mode).tail)
    (first : taken = (before.waiters mode).take 1)
    (one : after.units mode ≤ before.units mode + 1) : Section before after taken (some mode) := by
  refine ⟨fun sound => ⟨counted sound, fun isClosed m => ?_⟩, fun m => ?_⟩
  · have nobody := sound.left (closed ▸ isClosed)
    by_cases here : m = mode
    · rw [here, rest, nobody, List.tail_nil]
    · rw [(others m here).1, nobody]
  · by_cases here : m = mode
    · subst here
      cases waiting : before.waiters m with
      | nil =>
        refine .emptied (by rw [rest, waiting, List.tail_nil]) ?_
        rw [waiting]
        exact nofun
      | cons t later =>
        refine .woke t rfl ?_ ?_ one
        · rw [rest, waiting, List.tail_cons]
        · rw [first, waiting]
          exact List.mem_singleton.2 rfl
    · exact .kept (others m here).1 (others m here).2

/-- Both lists are emptied. -/
theorem flushing {before after : Channel Waiter} {taken : List Waiter}
    (counted : before.Sound → after.len = after.queue.length)
    (empty : ∀ mode, after.waiters mode = [])
    (all : ∀ mode, ∀ t ∈ before.waiters mode, t ∈ taken) : Section before after taken none :=
  ⟨fun sound => ⟨counted sound, fun _ => empty⟩, fun mode => .emptied (empty mode) (all mode)⟩

end Section

/-! ## The sections -/

theorem takeRecvWaiter_eq : channel.takeRecvWaiter =
    ({ channel with recvWaiters := channel.recvWaiters.tail }, channel.recvWaiters.take 1) := by
  rw [takeRecvWaiter]
  cases channel.recvWaiters <;> rfl

theorem takeSendWaiter_eq : channel.takeSendWaiter =
    ({ channel with sendWaiters := channel.sendWaiters.tail }, channel.sendWaiters.take 1) := by
  rw [takeSendWaiter]
  cases channel.sendWaiters <;> rfl

/-- A section that makes a value and takes a receiver. It may free a place that
the value then fills. -/
theorem enqueue_section {before middle : Channel Waiter} (value : Bytes)
    (same : middle = { before with reserved := middle.reserved })
    (fewer : before.reserved ≤ middle.reserved + 1) :
    Section before
      { middle with queue := middle.queue ++ [value], len := middle.len + 1 }.takeRecvWaiter.1
      { middle with queue := middle.queue ++ [value], len := middle.len + 1 }.takeRecvWaiter.2
      (some .recv) := by
  rw [same, takeRecvWaiter_eq]
  refine Section.taking .recv (fun sound => ?_) rfl ?_ rfl rfl (Nat.le_refl _)
  · simp only [List.length_append, List.length_singleton, sound.counted]
  · intro m other
    cases m with
    | send =>
      refine ⟨rfl, ?_⟩
      simp only [units]
      omega
    | recv => exact absurd rfl other

/-- What a poll can answer: it is served, it has to wait, the channel is closed,
or its arguments are refused. -/
inductive Polled (before : Channel Waiter) (mode : Mode) (wakes : Option Mode) :
    Code × Channel Waiter × List Waiter → Prop
  | served {after taken} : Section before after taken wakes →
      after.units mode + 1 ≤ before.units mode → Polled before mode wakes (.OK, after, taken)
  | waits : before.units mode = 0 → Polled before mode wakes (.EAGAIN, before, [])
  | closed : before.closed = true → Polled before mode wakes (.EPIPE, before, [])
  | refused {rc} : refuses rc = true → Polled before mode wakes (rc, before, [])

/-- A poll is a section, and takes a waiter only if it is served. -/
theorem Polled.turns {before : Channel Waiter} {mode : Mode} {wakes : Option Mode}
    {result : Code × Channel Waiter × List Waiter} (h : Polled before mode wakes result) :
    Section before result.2.1 result.2.2 (if result.1 = .OK then wakes else none) := by
  cases h with
  | served sec _ => exact sec
  | waits | closed => exact .idle
  | refused failed =>
    rw [if_neg (ne_ok_of_refuses failed)]
    exact .idle

theorem trySend_polled (value : Option Memory) :
    Polled channel .send (some .recv) (channel.trySend value) := by
  unfold trySend isFull
  split
  next closed => exact .closed closed
  next =>
    split
    next full =>
      refine .waits ?_
      simp only [decide_eq_true_eq] at full
      simp only [units]
      omega
    next room =>
      simp only [decide_eq_true_eq] at room
      rcases channel.enqueueAndTake_cases value with h | ⟨rc, failed, h⟩
      · rw [h]
        refine .served (enqueue_section _ rfl (Nat.le_succ _)) ?_
        simp only [units]
        omega
      · rw [h]
        exact .refused failed

theorem reservePoll_polled :
    Polled channel .send none (channel.reservePoll.1, channel.reservePoll.2, []) := by
  unfold reservePoll isFull
  split
  next closed => exact .closed closed
  next =>
    split
    next full =>
      refine .waits ?_
      simp only [decide_eq_true_eq] at full
      simp only [units]
      omega
    next room =>
      simp only [decide_eq_true_eq] at room
      refine .served ⟨fun sound => ⟨sound.counted, sound.left⟩, fun mode => ?_⟩ ?_
      · cases mode with
        | send => exact .kept rfl (Nat.sub_le_sub_left (Nat.le_succ _) _)
        | recv => exact .kept rfl (Nat.le_refl _)
      · simp only [units]
        omega

theorem recvLocked_polled {channel : Channel Waiter} (sound : channel.Sound) :
    Polled channel .recv (some .send)
      (channel.recvLocked.1, channel.recvLocked.2.2.1, channel.recvLocked.2.2.2) := by
  unfold recvLocked popInto
  split
  next closed => exact .closed (by simp [Channel.closed, closed])
  cases queued : channel.queue with
  | nil =>
    have empty : channel.len = 0 := by rw [sound.counted, queued, List.length_nil]
    simp only
    split
    next closed => exact .closed (by simp [Channel.closed, closed])
    next => exact .waits empty
  | cons value rest =>
    have counted : channel.len = rest.length + 1 := by
      rw [sound.counted, queued, List.length_cons]
    simp only [takeSendWaiter_eq]
    refine .served (Section.taking .send (fun _ => ?_) rfl ?_ rfl rfl ?_) ?_
    · simp only [counted, Nat.add_sub_cancel]
    · intro m other
      cases m with
      | send => exact absurd rfl other
      | recv => exact ⟨rfl, Nat.sub_le ..⟩
    · simp only [units]
      omega
    · simp only [units]
      omega

/-- What a channel future asks for when it is polled. -/
inductive Request
  | send (value : Option Memory)
  | reserve
  | recv (outIsNull : Bool)

namespace Request

/-- The mode in which a future waits if its request cannot be served. -/
def mode : Request → Mode
  | .send _ | .reserve => .send
  | .recv _ => .recv

/-- The mode of which the request takes one waiter when it is served. -/
def wakes : Request → Option Mode
  | .send _ => some .recv
  | .reserve => none
  | .recv _ => some .send

end Request

/-- `ciel_async_channel_send_poll`, `ciel_async_channel_reserve_poll` and
`ciel_async_channel_recv_poll`, without the value received. -/
def poll : Request → Code × Channel Waiter × List Waiter
  | .send value => channel.sendPoll value
  | .reserve =>
    let (rc, channel) := channel.reservePoll
    (rc, channel, [])
  | .recv outIsNull =>
    let (rc, _, channel, waiters) := channel.recvPoll outIsNull
    (rc, channel, waiters)

theorem poll_polled {channel : Channel Waiter} (sound : channel.Sound) (request : Request) :
    Polled channel request.mode request.wakes (channel.poll request) := by
  cases request with
  | send value => exact trySend_polled channel value
  | reserve => exact reservePoll_polled channel
  | recv outIsNull =>
    simp only [poll, recvPoll]
    split
    · exact .refused rfl
    · exact recvLocked_polled sound

/-- A send with an unused permit that closes the wait list of the senders. -/
theorem permitSend_closed {channel : Channel Waiter} (value : Option Memory)
    (closed : channel.receiverClosed = true) : channel.permitSend false value =
      (.EPIPE, { channel with reserved := channel.reserved - 1, sendWaiters := [] }, true,
        channel.sendWaiters) := by
  simp [permitSend, closed, takeAllSendWaiters]

theorem permitSend_open {channel : Channel Waiter} (value : Option Memory)
    (isOpen : channel.receiverClosed = false) : channel.permitSend false value =
      (({ channel with reserved := channel.reserved - 1 }.enqueueAndTake value).1,
        ({ channel with reserved := channel.reserved - 1 }.enqueueAndTake value).2.1, true,
        ({ channel with reserved := channel.reserved - 1 }.enqueueAndTake value).2.2) := by
  simp [permitSend, isOpen]

/-- `ciel_async_send_permit_send`, if its arguments are not refused: it has
given its place back by then. -/
theorem permitSend_section (used : Bool) (value : Option Memory)
    (valid : refuses (channel.permitSend used value).1 = false) :
    Section channel (channel.permitSend used value).2.1 (channel.permitSend used value).2.2.2
      (if (channel.permitSend used value).1 = .OK then some .recv else none) := by
  cases used with
  | true => exact .idle
  | false =>
    cases closed : channel.receiverClosed with
    | true =>
      rw [permitSend_closed value closed]
      refine ⟨fun sound => ⟨sound.counted, fun isClosed mode => ?_⟩, fun mode => ?_⟩
      · cases mode with
        | send => rfl
        | recv => exact sound.left isClosed .recv
      · cases mode with
        | send => exact .emptied rfl fun t waits => waits
        | recv => exact .kept rfl (Nat.le_refl _)
    | false =>
      rw [permitSend_open value closed] at valid ⊢
      rcases enqueueAndTake_cases { channel with reserved := channel.reserved - 1 } value
        with h | ⟨rc, failed, h⟩
      · rw [h]
        refine enqueue_section _ ?_ (Nat.le_add_of_sub_le (Nat.le_refl _))
        rfl
      · rw [h] at valid
        rw [valid] at failed
        cases failed

/-- `ciel_async_send_permit_release`. -/
theorem permitRelease_section (used : Bool) :
    Section channel (channel.permitRelease used).2.1 (channel.permitRelease used).2.2.2
      (if used then none else some .send) := by
  cases used with
  | true => exact .idle
  | false =>
    simp only [permitRelease, takeSendWaiter_eq, Bool.false_eq_true, if_false]
    refine Section.taking .send (fun sound => sound.counted) rfl ?_ rfl rfl ?_
    · intro m other
      cases m with
      | send => exact absurd rfl other
      | recv => exact ⟨rfl, Nat.le_refl _⟩
    · simp only [units]
      omega

theorem takeAllQueuedWaiters_section {before middle : Channel Waiter}
    (counted : before.Sound → middle.len = middle.queue.length)
    (sends : middle.sendWaiters = before.sendWaiters)
    (recvs : middle.recvWaiters = before.recvWaiters) :
    Section before middle.takeAllQueuedWaiters.1 middle.takeAllQueuedWaiters.2 none := by
  refine Section.flushing counted (fun mode => by cases mode <;> rfl) ?_
  intro mode t waits
  cases mode with
  | send => exact List.mem_append_left _ (sends ▸ waits)
  | recv => exact List.mem_append_right _ (recvs ▸ waits)

theorem senderClose_section : Section channel channel.senderClose.1 channel.senderClose.2 none := by
  unfold senderClose
  split
  · exact .idle
  · exact takeAllQueuedWaiters_section (fun sound => sound.counted) rfl rfl

theorem receiverClose_section :
    Section channel channel.receiverClose.1 channel.receiverClose.2 none := by
  unfold receiverClose
  split
  · exact .idle
  · exact takeAllQueuedWaiters_section (fun _ => rfl) rfl rfl

end Channel
end Ciel.Runtime
