import Ciel.Runtime.Wakeup.Steps

/-!
# No lost wakeups

Every orderly step keeps the invariant, so after a run of orderly steps that has come
to rest no task waits on a channel that is ready for it. A task of a select leaves
wait nodes behind when it is woken and has to wait again, and such nodes break the
order: a run is given in which two nodes of one task swallow two wakes, and another
task waits next to the second value.
-/

namespace Ciel.Runtime.Wakeup

open Library Channel

variable {C T W : Type} [DecidableEq C] {s : State C T W}

/-- At rest, the invariant leaves no task next to a channel that is ready for it. -/
theorem Inv.not_lost (inv : Inv s) (rest : s.Quiescent) : ¬s.Lost := by
  rintro ⟨t, c, mode, active, awaits, ready⟩
  have still : ∀ u j d m, ¬Rescan s u j d m := by
    rintro u j d m (woken | scheduled | ⟨w, r, registers, -⟩)
    · rw [rest.woken] at woken
      cases woken
    · exact scheduled (rest.idle u)
    · have free := rest.registered w
      rw [registers] at free
      cases free
  obtain ⟨i, bound⟩ := awaits_iff.1 awaits
  have waits : t ∈ (s.chan c).waiters mode :=
    (inv.attended t i c mode active bound).resolve_right (still t i c mode)
  have isOpen : ¬(s.chan c).closed = true := by
    intro closed
    rw [(inv.sound c).left closed mode] at waits
    cases waits
  have free : 0 < (s.chan c).units mode := ((readyForMode_iff _ _).1 ready).resolve_left isOpen
  rcases inv.covered c mode with (listed | ⟨u, j, m, ended, half⟩) | covered
  · rw [rest.broadcast] at listed
    cases listed
  · exact not_bound_of_allSettled (rest.canceled u (inv.finished u j c m ended half)) half
  · obtain ⟨u, -, j, -, again⟩ := covered.exists_due (List.ne_nil_of_mem waits) free
    exact still u j c mode again

variable [DecidableEq T] [DecidableEq W]

/-- Two channels for two values of one byte each. -/
def twoPlaces : Fin 2 → Channel (Fin 3) := fun _ =>
  { queue := [], sendWaiters := [], recvWaiters := [], len := 0, reserved := 0, capacity := 2
    valueSize := 1, valueAlign := 1, senderClosed := false, receiverClosed := false }

theorem twoPlaces_made (c : Fin 2) : ∃ valueSize valueAlign capacity,
    make valueSize valueAlign capacity = .ok (twoPlaces c) := ⟨1, 1, 2, rfl⟩

/-- A worker polls the arms of a task in vain and registers the task. -/
def waitFor (t : Fin 3) (channels : List (Fin 2)) : List (Label (Fin 2) (Fin 3) (Fin 1)) :=
  channels.zipIdx.map (fun arm => .poll t arm.2 arm.1 (.recv false)) ++ [.yield t, .suspend t 0] ++
    channels.flatMap (fun _ => [.look 0 false, .register 0]) ++ [.leave 0]

def begin (t : Fin 3) (channels : List (Fin 2)) (select : Bool) :
    List (Label (Fin 2) (Fin 3) (Fin 1)) :=
  [.schedule t, .start t, .await t channels.length select]

def aByte : Option Memory := some fun _ => 7

/-- Task 1 selects over a value and a timer, task 2 awaits a value of the same
channel. One value is sent, and task 2 takes it. -/
def twoReceivers : List (Label (Fin 2) (Fin 3) (Fin 1)) :=
  [.schedule 1, .start 1, .await 1 2 true, .poll 1 0 0 (.recv false), .pollElsewhere 1 1,
      .yield 1, .suspend 1 0, .look 0 false, .register 0, .look 0 false, .leave 0] ++
    begin 2 [0] false ++ waitFor 2 [0] ++
    [.trySend 0 aByte, .wake 2, .start 2, .poll 2 0 0 (.recv false), .complete 2 0, .finish 2]

/-- Task 0 selects over both channels, task 1 awaits the first. A value on the second
channel wakes task 0, but task 2 takes it, so task 0 has two wait nodes on the first
channel, both before that of task 1. Two values then wake task 0 twice. -/
def selectTwice : List (Label (Fin 2) (Fin 3) (Fin 1)) :=
  begin 1 [0] false ++ waitFor 1 [0] ++ begin 0 [0, 1] true ++ waitFor 0 [0, 1] ++
    [.trySend 1 aByte, .wake 0] ++
    begin 2 [1] false ++ [.poll 2 0 1 (.recv false), .complete 2 0, .finish 2] ++
    [.start 0] ++ waitFor 0 [0, 1] ++
    [.trySend 0 aByte, .wake 0, .trySend 0 aByte, .wake 0,
      .start 0, .poll 0 0 0 (.recv false), .complete 0 0, .drop 0 1, .broadcast 1, .wake 0,
        .finish 0]

end Ciel.Runtime.Wakeup
