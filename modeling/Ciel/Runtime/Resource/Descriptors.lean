import Ciel.Library.Machine
import Ciel.Runtime.Resource.Basic

/-!
# Descriptors and the files behind them

The registry holds descriptor numbers; which file a number stands for is the operating system's
business. A read or a write copies the number out of the registry under the owner's lock and
calls the system afterwards, for a stream again and again while the call is interrupted. A close
marks the entry under the lock and closes the number afterwards. An open takes any number that
is not in use.

A handle that resolves is the position of its entry; one that does not makes an operation return
at once. A number that was opened has its entry from then on, and is registered later. A transfer
keeps the position, since the new entry holds the same number.
-/

namespace Ciel.Runtime.Resource

open Library

/-- An entry for a file, a listener or a stream. It has no state until it is registered.
`closing` says that its close action was collected and has not run. -/
structure Descriptor where
  fd : Int
  borrowed : Bool
  owner : Nat
  state : Option State
  closing : Bool
  deriving DecidableEq

structure Descriptors where
  /-- The file that each number in use stands for. -/
  table : Int → Option Nat
  entries : List Descriptor
  /-- Entries whose number was copied by an operation that has not returned. -/
  held : List Nat

/-- Registering may fail, since the owner may be full or closed. -/
inductive Event
  | openFile (fd : Int)
  | registerFd (entry owner : Nat) (rc : Code)
  | borrowedFd (owner : Nat) (fd : Int)
  | close (entry : Nat)
  | ownerClose (owner : Nat)
  | transfer (entry owner : Nat)
  | applyCloseAction (entry : Nat)
  | fdSnapshot (entry : Nat)
  | systemCall (entry : Nat) (interrupted : Bool)

namespace Descriptor

/-- The locked part of `ciel_resource_close`. -/
def close (entry : Descriptor) : Descriptor :=
  if entry.state = some .OPEN then { entry with state := some .CLOSED, closing := true } else entry

/-- The number is registered, or is still to be closed. -/
def inUse (entry : Descriptor) : Bool := entry.state = some .OPEN || entry.closing

def live (entry : Descriptor) : Bool := entry.state = none || entry.inUse

/-- The file that the entry at a position was registered for: a standard stream, or the file
that was opened for it. -/
def file (entry : Descriptor) (position : Nat) : Nat :=
  if entry.borrowed then entry.fd.toNat else position + 3

end Descriptor

namespace Descriptors

/-- Only system calls have an answer: the file they act on and the one that was registered. -/
def step (s : Descriptors) : Event → Option (Descriptors × Option (Option Nat × Nat))
  | .openFile fd =>
    if 0 ≤ fd ∧ s.table fd = none then
      some ({ s with
        table := Function.update s.table fd (some (s.entries.length + 3))
        entries := s.entries ++ [⟨fd, false, 0, none, false⟩] }, none)
    else none
  | .registerFd entry owner rc =>
    (s.entries[entry]?).bind fun e =>
      if e.state ≠ none then none
      else if rc = .OK then
        some ({ s with entries := s.entries.set entry { e with owner, state := some .OPEN } }, none)
      -- The caller closes a number that could not be registered.
      else some ({ s with
        table := Function.update s.table e.fd none
        entries := s.entries.set entry { e with state := some .CLOSED } }, none)
  | .borrowedFd owner fd =>
    if fd = 1 ∨ fd = 2 then
      some ({ s with entries := s.entries ++ [⟨fd, true, owner, some .OPEN, false⟩] }, none)
    else none
  | .close entry => some ({ s with entries := s.entries.modify entry .close }, none)
  | .ownerClose owner =>
    some ({ s with entries := s.entries.map fun e => if e.owner = owner then e.close else e }, none)
  | .transfer entry owner =>
    (s.entries[entry]?).bind fun e =>
      if e.state = some .OPEN then
        some ({ s with entries := s.entries.set entry { e with owner } }, none)
      else none
  | .applyCloseAction entry =>
    (s.entries[entry]?).bind fun e =>
      if e.closing then
        some ({ s with
          entries := s.entries.set entry { e with closing := false }
          table := if e.borrowed then s.table else Function.update s.table e.fd none }, none)
      else none
  | .fdSnapshot entry =>
    (s.entries[entry]?).bind fun e =>
      if e.state = some .OPEN then some ({ s with held := entry :: s.held }, none) else none
  | .systemCall entry interrupted =>
    (s.entries[entry]?).bind fun e =>
      if entry ∈ s.held then
        some (if interrupted then s else { s with held := s.held.erase entry },
          some (s.table e.fd, e.file entry))
      else none

/-- Only the standard streams are open. -/
def initial : Descriptors :=
  ⟨fun fd => if 0 ≤ fd ∧ fd ≤ 2 then some fd.toNat else none, [], []⟩

end Descriptors

def descriptors : Machine Descriptors Event (Option (Option Nat × Nat)) := ⟨Descriptors.step⟩

namespace Descriptors

variable {s t : Descriptors} {i : Nat} {e : Descriptor}

/-- The number of a live entry stands for the file it was registered for. -/
structure Fine (table : Int → Option Nat) (position : Nat) (entry : Descriptor) : Prop where
  tabled : entry.live → table entry.fd = some (entry.file position)
  borrowed : entry.borrowed → entry.fd = 1 ∨ entry.fd = 2
  unregistered : entry.state = none → entry.borrowed = false
  marked : entry.closing → entry.state = some .CLOSED

structure Backed (s : Descriptors) : Prop where
  entries : ∀ i e, s.entries[i]? = some e → Fine s.table i e
  streams : ∀ fd : Int, fd = 1 ∨ fd = 2 → s.table fd = some fd.toNat
  held : ∀ i ∈ s.held, (s.entries[i]?).any (·.inUse)

/-- No close action runs on an entry whose number an operation still uses. -/
def undisturbed (s : Descriptors) : Event → Bool
  | .applyCloseAction entry => entry ∉ s.held
  | _ => true

/-- A number that stands for the file of one entry is closed. No other entry uses it. -/
theorem Backed.closed (backed : Backed s) (here : s.entries[i]? = some e) (live : e.live)
    (own : e.borrowed = false) (unheld : i ∉ s.held) {after : Descriptor}
    (dead : after.live = false) (same : after.borrowed = false) :
    Backed { s with
      table := Function.update s.table e.fd none, entries := s.entries.set i after } := by
  have file := (backed.entries i e here).tabled live
  rw [Descriptor.file, own, if_neg Bool.false_ne_true] at file
  refine ⟨?_, ?_, ?_⟩
  · intro j e' there
    rw [List.getElem?_set] at there
    split at there
    case isTrue =>
      have : e' = after := by grind
      subst this
      exact ⟨by grind, by grind, by grind, by grind [Descriptor.live, Descriptor.inUse]⟩
    case isFalse distinct =>
      obtain ⟨tabled, borrowed, unregistered, marked⟩ := backed.entries j e' there
      refine ⟨fun live' => ?_, borrowed, unregistered, marked⟩
      have others : e'.fd ≠ e.fd := by
        intro shared
        have := tabled live'
        grind [Descriptor.file]
      exact (Function.update_of_ne others _ _).trans (tabled live')
  · intro fd stream
    have := backed.streams fd stream
    exact (Function.update_of_ne (by grind) _ _).trans this
  · intro j mem
    have := backed.held j mem
    grind

/-- One entry is rewritten. -/
theorem Backed.put (backed : Backed s) {after : Descriptor} (fine : Fine s.table i after)
    (used : i ∈ s.held → after.inUse) : Backed { s with entries := s.entries.set i after } := by
  refine ⟨?_, backed.streams, ?_⟩
  · intro j e there
    rw [List.getElem?_set] at there
    split at there
    case isTrue => grind
    case isFalse => exact backed.entries j e there
  · intro j mem
    have := backed.held j mem
    grind

theorem Backed.append (backed : Backed s) {new : Descriptor}
    (fine : Fine s.table s.entries.length new) :
    Backed { s with entries := s.entries ++ [new] } := by
  refine ⟨?_, backed.streams, ?_⟩
  · intro i e here
    rcases Nat.lt_trichotomy i s.entries.length with old | last | beyond
    · rw [List.getElem?_append_left old] at here
      exact backed.entries i e here
    · grind
    · grind
  · intro i mem
    have := backed.held i mem
    grind

theorem Backed.opened (backed : Backed s) {fd : Int} {file : Nat} (free : s.table fd = none) :
    Backed { s with table := Function.update s.table fd (some file) } := by
  have kept : ∀ {fd' n}, s.table fd' = some n →
      Function.update s.table fd (some file) fd' = some n := by
    grind [Function.update_apply]
  refine ⟨?_, fun fd stream => kept (backed.streams fd stream), backed.held⟩
  intro i e here
  obtain ⟨tabled, borrowed, unregistered, marked⟩ := backed.entries i e here
  exact ⟨fun live => kept (tabled live), borrowed, unregistered, marked⟩

theorem Fine.close {table : Int → Option Nat} (fine : Fine table i e) : Fine table i e.close := by
  unfold Descriptor.close
  split
  case isFalse => exact fine
  case isTrue isOpen =>
    exact ⟨fun _ => fine.tabled (by simp [Descriptor.live, Descriptor.inUse, isOpen]),
      fine.borrowed, by nofun, fun _ => rfl⟩

/-- A section that closes some entries keeps their numbers in use. -/
theorem Backed.shut (backed : Backed s) {entries : List Descriptor}
    (chosen : Nat → Descriptor → Prop) [∀ i e, Decidable (chosen i e)]
    (shut : ∀ i, entries[i]? = (s.entries[i]?).map fun e => if chosen i e then e.close else e) :
    Backed { s with entries } := by
  refine ⟨?_, backed.streams, ?_⟩
  · intro i e' there
    obtain ⟨e, here, rfl⟩ := Option.map_eq_some_iff.1 ((shut i).symm.trans there)
    have fine := backed.entries i e here
    split
    · exact fine.close
    · exact fine
  · intro i mem
    have used := backed.held i mem
    rw [shut]
    cases here : s.entries[i]? with
    | none => rw [here] at used; cases used
    | some e =>
      rw [here] at used
      simp only [Option.map_some, Option.any_some, Descriptor.close] at used ⊢
      grind [Descriptor.inUse]

theorem Backed.step (backed : Backed s) {event : Event} {out : Option (Option Nat × Nat)}
    (quiet : s.undisturbed event) (taken : s.step event = some (t, out)) :
    Backed t ∧ ∀ acts file, out = some (acts, file) → acts = some file := by
  cases event with
  | openFile fd =>
    simp only [Descriptors.step, Option.ite_none_right_eq_some] at taken
    obtain ⟨⟨-, free⟩, taken⟩ := taken
    cases taken
    refine ⟨(backed.opened free).append ⟨fun _ => ?_, by nofun, fun _ => rfl, by nofun⟩, by nofun⟩
    exact Function.update_self ..
  | registerFd entry owner rc =>
    simp only [Descriptors.step, Option.bind_eq_some_iff, Option.ite_none_left_eq_some,
      not_not] at taken
    obtain ⟨e, here, fresh, taken⟩ := taken
    obtain ⟨tabled, borrowed, unregistered, marked⟩ := backed.entries entry e here
    have live : e.live := by simp [Descriptor.live, fresh]
    have idle : e.closing = false := by grind
    split at taken
    case isTrue =>
      cases taken
      refine ⟨backed.put ⟨fun _ => tabled live, borrowed, by nofun, by simp [idle]⟩ fun _ => ?_,
        by nofun⟩
      simp [Descriptor.inUse]
    case isFalse =>
      cases taken
      refine ⟨backed.closed here live (unregistered fresh) ?_ ?_ (unregistered fresh), by nofun⟩
      · intro mem
        have := backed.held entry mem
        grind [Descriptor.inUse]
      · simp [Descriptor.live, Descriptor.inUse, idle]
  | borrowedFd owner fd =>
    simp only [Descriptors.step, Option.ite_none_right_eq_some] at taken
    obtain ⟨stream, taken⟩ := taken
    cases taken
    exact ⟨backed.append ⟨fun _ => backed.streams fd stream, fun _ => stream, by nofun, by nofun⟩,
      by nofun⟩
  | close entry =>
    cases taken
    exact ⟨backed.shut (fun i _ => entry = i) fun i => List.getElem?_modify .., by nofun⟩
  | ownerClose owner =>
    cases taken
    exact ⟨backed.shut (fun _ e => e.owner = owner) fun i => List.getElem?_map, by nofun⟩
  | transfer entry owner =>
    simp only [Descriptors.step, Option.bind_eq_some_iff, Option.ite_none_right_eq_some] at taken
    obtain ⟨e, here, isOpen, taken⟩ := taken
    obtain ⟨tabled, borrowed, unregistered, marked⟩ := backed.entries entry e here
    cases taken
    refine ⟨backed.put ⟨tabled, borrowed, unregistered, marked⟩ fun _ => ?_, by nofun⟩
    simp [Descriptor.inUse, isOpen]
  | applyCloseAction entry =>
    simp only [Descriptors.step, Option.bind_eq_some_iff, Option.ite_none_right_eq_some] at taken
    obtain ⟨e, here, closing, taken⟩ := taken
    obtain ⟨tabled, borrowed, unregistered, marked⟩ := backed.entries entry e here
    have unheld : entry ∉ s.held := by simpa [undisturbed] using quiet
    have dead : { e with closing := false }.live = false := by
      simp [Descriptor.live, Descriptor.inUse, marked closing]
    cases taken
    refine ⟨?_, by nofun⟩
    split
    case isTrue =>
      exact backed.put ⟨by simp [dead], borrowed, unregistered, by nofun⟩ fun mem =>
        absurd mem unheld
    case isFalse own =>
      have live : e.live := by simp [Descriptor.live, Descriptor.inUse, closing]
      exact backed.closed here live (by simpa using own) unheld dead (by simpa using own)
  | fdSnapshot entry =>
    simp only [Descriptors.step, Option.bind_eq_some_iff, Option.ite_none_right_eq_some] at taken
    obtain ⟨e, here, isOpen, taken⟩ := taken
    cases taken
    refine ⟨⟨backed.entries, backed.streams, List.forall_mem_cons.2 ⟨?_, backed.held⟩⟩, by nofun⟩
    simp [here, Descriptor.inUse, isOpen]
  | systemCall entry interrupted =>
    simp only [Descriptors.step, Option.bind_eq_some_iff, Option.ite_none_right_eq_some] at taken
    obtain ⟨e, here, mem, taken⟩ := taken
    cases taken
    refine ⟨?_, ?_⟩
    · split
      · exact backed
      · exact ⟨backed.entries, backed.streams,
          fun i mem => backed.held i (List.mem_of_mem_erase mem)⟩
    · rintro acts file ⟨⟩
      have used := backed.held entry mem
      rw [here] at used
      exact (backed.entries entry e here).tabled (Bool.or_eq_true_iff.2 (.inr used))

theorem backed_initial : Backed initial := by
  refine ⟨by simp [initial], ?_, by simp [initial]⟩
  rintro fd (rfl | rfl) <;> rfl

/-- As long as no close action runs on an entry in use, every system call acts on the file that
was registered. -/
theorem systemCall_acts_on_registered {history : List (Event × Option (Option Nat × Nat))}
    (run : (descriptors.restrict undisturbed).Run initial history t) :
    ∀ event acts file, (event, some (acts, file)) ∈ history → acts = some file := by
  refine (run.preserves_history (R := fun history s => Backed s ∧ ∀ event acts file,
    (event, some (acts, file)) ∈ history → acts = some file) ⟨backed_initial, by simp⟩ ?_).2
  rintro history s l o u ⟨backed, before⟩ taken
  obtain ⟨quiet, taken⟩ := Machine.restrict_step.1 taken
  obtain ⟨backed', now⟩ := backed.step quiet taken
  refine ⟨backed', ?_⟩
  intro event acts file mem
  rcases List.mem_append.1 mem with old | new
  · exact before event acts file old
  · cases List.mem_singleton.1 new
    exact now acts file rfl

/-- A file is opened, registered and read under the number three. -/
def readOnce : List Event := [.openFile 3, .registerFd 0 0 .OK, .fdSnapshot 0, .systemCall 0 false]

theorem systemCall_acts_on_registered_readOnce : ∃ history t,
    (descriptors.restrict undisturbed).Run initial history t ∧ history.map Prod.fst = readOnce ∧
      ∀ event acts file, (event, some (acts, file)) ∈ history → acts = some file := by
  have executed : ∃ t history, (descriptors.restrict undisturbed).exec initial readOnce =
      some (t, history) ∧ history.map Prod.fst = readOnce := ⟨_, _, rfl, rfl⟩
  obtain ⟨t, history, executed, labels⟩ := executed
  have run := Machine.run_of_exec executed
  exact ⟨history, t, run, labels, systemCall_acts_on_registered run⟩

/-- The number is closed and opened again between the copy and the call. -/
def readReused : List Event :=
  [.openFile 3, .registerFd 0 0 .OK, .fdSnapshot 0, .close 0, .applyCloseAction 0, .openFile 3,
    .systemCall 0 false]

theorem systemCall_acts_on_reused : ∃ history t, descriptors.Run initial history t ∧
    history.getLast? = some (.systemCall 0 false, some (some 4, 3)) := by
  have executed : ∃ t history, descriptors.exec initial readReused = some (t, history) ∧
      history.getLast? = some (.systemCall 0 false, some (some 4, 3)) := ⟨_, _, rfl, rfl⟩
  obtain ⟨t, history, executed, last⟩ := executed
  exact ⟨history, t, Machine.run_of_exec executed, last⟩

end Descriptors

end Ciel.Runtime.Resource
