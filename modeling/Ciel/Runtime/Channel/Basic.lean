import Ciel.Runtime.Code

/-!
# The bounded asynchronous channel

Every function below is one critical section of the channel mutex. A channel
value is `value_size` raw bytes that `enqueue` copies out of the caller's memory
and `pop_into` copies back. Wait nodes are opaque here: a section only decides
which of them it removes, and the caller schedules those after unlocking.

Queue nodes and wait nodes are linked lists in the source and lists here, with
the same head and the same order. `len` stays a separate counter because the
capacity test reads the counter, not the list.
-/

namespace Ciel.Runtime

abbrev Bytes := List UInt8

/-- Readable memory behind a `const void *`. A null pointer is `none`. -/
abbrev Memory := Nat → UInt8

def memcpy (source : Memory) (size : Nat) : Bytes := (List.range size).map source

structure Channel (Waiter : Type) where
  queue : List Bytes
  sendWaiters : List Waiter
  recvWaiters : List Waiter
  len : Nat
  reserved : Nat
  capacity : Nat
  valueSize : Nat
  valueAlign : Nat
  senderClosed : Bool
  receiverClosed : Bool

namespace Channel

variable {Waiter : Type}

/-- `ciel_async_channel_make`, without its two out-parameter checks. -/
def make (valueSize valueAlign capacity : Nat) : Except Code (Channel Waiter) :=
  if valueAlign = 0 ∨ capacity = 0 then
    .error .EINVAL
  else
    .ok
      { queue := [], sendWaiters := [], recvWaiters := [], len := 0, reserved := 0
        capacity, valueSize, valueAlign, senderClosed := false, receiverClosed := false }

/-- `sizeof(CielAsyncQueueNode)`: a value pointer and a next pointer. -/
def queueNodeSize : Nat := 16

/-- `ciel_async_channel_take_one_waiter_locked`: detach the head of a wait list. -/
def takeOneWaiter : List Waiter → List Waiter × List Waiter
  | [] => ([], [])
  | waiter :: rest => ([waiter], rest)

variable (channel : Channel Waiter)

def takeSendWaiter : Channel Waiter × List Waiter :=
  let (taken, rest) := takeOneWaiter channel.sendWaiters
  ({ channel with sendWaiters := rest }, taken)

def takeRecvWaiter : Channel Waiter × List Waiter :=
  let (taken, rest) := takeOneWaiter channel.recvWaiters
  ({ channel with recvWaiters := rest }, taken)

def takeAllSendWaiters : Channel Waiter × List Waiter :=
  ({ channel with sendWaiters := [] }, channel.sendWaiters)

/-- `ciel_async_channel_take_all_queued_waiters_locked`: senders first. -/
def takeAllQueuedWaiters : Channel Waiter × List Waiter :=
  ({ channel with sendWaiters := [], recvWaiters := [] },
    channel.sendWaiters ++ channel.recvWaiters)

/-- `ciel_async_channel_take_values_locked`: the queued values are dropped. -/
def takeValues : Channel Waiter :=
  { channel with queue := [], len := 0 }

variable (value : Option Memory)

/-- The bytes `enqueue` stores for a value argument. Nothing is copied for a
zero-sized value, which is the only case in which the pointer may be null. -/
def copied : Bytes :=
  match value with
  | none => []
  | some source => memcpy source channel.valueSize

/-- The size a queue node reserves for its value: at least one byte. -/
def storedSize : Nat :=
  if channel.valueSize = 0 then 1 else channel.valueSize

/-- `ciel_async_channel_enqueue_locked`. -/
def enqueue : Code × Channel Waiter :=
  if value.isNone ∧ 0 < channel.valueSize then
    (.EINVAL, channel)
  else if channel.valueAlign = 0 then
    (.EINVAL, channel)
  else if queueNodeSize > sizeMax - (channel.valueAlign - 1) ∨
      queueNodeSize + (channel.valueAlign - 1) > sizeMax - channel.storedSize then
    (.EOVERFLOW, channel)
  else
    (.OK, { channel with
      queue := channel.queue ++ [channel.copied value], len := channel.len + 1 })

/-- `ciel_async_channel_pop_into_locked`: `none` when the queue is empty. -/
def popInto : Option (Bytes × Channel Waiter) :=
  match channel.queue with
  | [] => none
  | value :: rest => some (value, { channel with queue := rest, len := channel.len - 1 })

/-- The capacity test shared by all sending sections. -/
def isFull : Bool :=
  decide (channel.capacity ≤ channel.len + channel.reserved)

def closed : Bool :=
  channel.senderClosed || channel.receiverClosed

/-- Enqueue a value and detach one receiver, if the enqueue succeeded. -/
def enqueueAndTake : Code × Channel Waiter × List Waiter :=
  match channel.enqueue value with
  | (.OK, channel) => (.OK, channel.takeRecvWaiter)
  | (rc, channel) => (rc, channel, [])

/-- `ciel_async_channel_try_send`. -/
def trySend : Code × Channel Waiter × List Waiter :=
  if channel.closed then
    (.EPIPE, channel, [])
  else if channel.isFull then
    (.EAGAIN, channel, [])
  else
    channel.enqueueAndTake value

/-- `ciel_async_channel_send_poll`, which also stands for
`ciel_future_await_channel_send`. Its section is that of `trySend`; the caller
binds its future to the channel exactly when the answer is `EAGAIN`. -/
def sendPoll : Code × Channel Waiter × List Waiter :=
  channel.trySend value

/-- `ciel_async_channel_reserve_poll` and `ciel_future_await_channel_reserve`. -/
def reservePoll : Code × Channel Waiter :=
  if channel.closed then
    (.EPIPE, channel)
  else if channel.isFull then
    (.EAGAIN, channel)
  else
    (.OK, { channel with reserved := channel.reserved + 1 })

/-- `ciel_async_send_permit_send`. The permit's `used` flag is passed in and
out: it is set before the receiver is looked at and before the enqueue. -/
def permitSend (used : Bool) (value : Option Memory) : Code × Channel Waiter × Bool × List Waiter :=
  if used then
    (.EALREADY, channel, used, [])
  else
    let channel := { channel with reserved := channel.reserved - 1 }
    if channel.receiverClosed then
      let (channel, waiters) := channel.takeAllSendWaiters
      (.EPIPE, channel, true, waiters)
    else
      let (rc, channel, waiters) := channel.enqueueAndTake value
      (rc, channel, true, waiters)

/-- `ciel_async_send_permit_release`. Releasing a used permit does nothing. -/
def permitRelease (used : Bool) : Code × Channel Waiter × Bool × List Waiter :=
  if used then
    (.OK, channel, used, [])
  else
    let channel := { channel with reserved := channel.reserved - 1 }
    let (channel, waiters) := channel.takeSendWaiter
    (.OK, channel, true, waiters)

/-- The locked part shared by the two receive functions. -/
def recvLocked : Code × Option Bytes × Channel Waiter × List Waiter :=
  if channel.receiverClosed then
    (.EPIPE, none, channel, [])
  else
    match channel.popInto with
    | some (value, channel) =>
      let (channel, waiters) := channel.takeSendWaiter
      (.OK, some value, channel, waiters)
    | none =>
      if channel.senderClosed then
        (.EPIPE, none, channel, [])
      else
        (.EAGAIN, none, channel, [])

/-- `ciel_async_channel_recv_poll`: a null `out` is refused for a sized value. -/
def recvPoll (outIsNull : Bool) : Code × Option Bytes × Channel Waiter × List Waiter :=
  if outIsNull ∧ 0 < channel.valueSize then
    (.EINVAL, none, channel, [])
  else
    channel.recvLocked

/-- `ciel_future_await_channel_recv`: `out` is not checked before the section. -/
def awaitRecv : Code × Option Bytes × Channel Waiter × List Waiter :=
  channel.recvLocked

/-- `ciel_async_sender_close`. -/
def senderClose : Channel Waiter × List Waiter :=
  if channel.senderClosed then
    (channel, [])
  else
    { channel with senderClosed := true }.takeAllQueuedWaiters

/-- `ciel_async_receiver_close`: queued values are dropped with the receiver. -/
def receiverClose : Channel Waiter × List Waiter :=
  if channel.receiverClosed then
    (channel, [])
  else
    { channel with receiverClosed := true }.takeValues.takeAllQueuedWaiters

/-! ## What an enqueue can do -/

/-- The codes by which an enqueue refuses its arguments. -/
def refuses : Code → Bool
  | .EINVAL | .EOVERFLOW => true
  | _ => false

theorem ne_ok_of_refuses {rc : Code} (h : refuses rc = true) : rc ≠ .OK := by
  rintro rfl
  cases h

/-- An enqueue either appends exactly the copied bytes or changes nothing. -/
theorem enqueue_cases : channel.enqueue value = (.OK, { channel with
        queue := channel.queue ++ [channel.copied value], len := channel.len + 1 }) ∨
      ∃ rc, refuses rc = true ∧ channel.enqueue value = (rc, channel) := by
  unfold enqueue
  split
  · exact .inr ⟨.EINVAL, rfl, rfl⟩
  · split
    · exact .inr ⟨.EINVAL, rfl, rfl⟩
    · split
      · exact .inr ⟨.EOVERFLOW, rfl, rfl⟩
      · exact .inl rfl

/-- The same two outcomes, with the receiver that a success detaches. -/
theorem enqueueAndTake_cases : channel.enqueueAndTake value = (.OK, { channel with
        queue := channel.queue ++ [channel.copied value],
        len := channel.len + 1 }.takeRecvWaiter) ∨
      ∃ rc, refuses rc = true ∧ channel.enqueueAndTake value = (rc, channel, []) := by
  rcases enqueue_cases channel value with accepted | ⟨rc, failed, refused⟩
  · exact .inl (by simp [enqueueAndTake, accepted])
  · refine .inr ⟨rc, failed, ?_⟩
    rw [enqueueAndTake, refused]
    cases rc <;> first | rfl | cases failed

end Channel
end Ciel.Runtime
