import Ciel.Runtime.Resource.Machine

/-!
# Counters and entries of an owner agree

`Accounts` is a property of one owner. Every update of the registry is a
composition of the owner updates below, and each of them keeps `Accounts` under
the test that its caller has made. No fact about the shape of the tree is
needed: the counter of child owners is compared with the child list itself.
-/

namespace Ciel.Runtime.Resource

open Library

variable {owner : Owner}

namespace Owner

/-- A counter that is within its limit. -/
def Within (limit live : Nat) : Prop := limit = 0 ∨ live ≤ limit

structure Accounts (owner : Owner) : Prop where
  resources : owner.liveResources = openCount (fun _ => true) owner.entries
  descriptors : owner.liveDescriptors = openCount Kind.isDescriptor owner.entries
  pendingOps : owner.livePendingOps = openCount Kind.isPendingOp owner.entries
  childOwners : owner.liveChildOwners = owner.children.length
  resourcesWithin : Within owner.limits.maxResources owner.liveResources
  descriptorsWithin : Within owner.limits.maxDescriptors owner.liveDescriptors
  pendingOpsWithin : Within owner.limits.maxPendingOps owner.livePendingOps
  childOwnersWithin : Within owner.limits.maxChildOwners owner.liveChildOwners
  ids : (owner.entries.map (·.id)).Nodup
  bounded : ∀ entry ∈ owner.entries, entry.id < owner.nextResourceId

theorem within_of_not_reached {limit live : Nat} (room : reached limit live = false) :
    Within limit (live + 1) := by
  simp only [reached, decide_eq_false_iff_not, not_and_or, not_not, not_le] at room
  exact room.imp_right Nat.succ_le_of_lt

theorem Within.mono {limit live less : Nat} (h : Within limit live) (le : less ≤ live) :
    Within limit less :=
  h.imp_right (Nat.le_trans le)

@[simp] theorem setState_ids (id : Nat) (state : State) (entries : List Entry) :
    (setState id state entries).map (·.id) = entries.map (·.id) := by
  induction entries with
  | nil => rfl
  | cons entry entries ih =>
    by_cases same : entry.id = id
    · simp [setState, same]
    · simp [setState, same, ih]

/-- Writing a state other than open to the entry found removes it from the count. -/
theorem openCount_setState (counts : Kind → Bool) {entries : List Entry} {entry : Entry}
    {state : State} (found : entries.find? (·.id = entry.id) = some entry)
    (isOpen : entry.state = .OPEN) (retired : state ≠ .OPEN) :
    openCount counts (setState entry.id state entries) +
        (if counts entry.payload.kind then 1 else 0) =
      openCount counts entries := by
  obtain ⟨before, after, split, written⟩ := setState_split found state
  rw [split] at written ⊢
  rw [written]
  simp [openCount, isOpen, retired, List.countP_cons, Nat.add_assoc]

theorem fresh_accounts (id : Nat) (parent : Option Nat) (limits : Limits) :
    (fresh id parent limits).Accounts := by
  constructor <;> simp [fresh, Within]

theorem Accounts.link (h : owner.Accounts) (child : Nat)
    (room : reached owner.limits.maxChildOwners owner.liveChildOwners = false) :
    (owner.link child).Accounts :=
  { h with
    childOwners := by simp [Owner.link, h.childOwners]
    childOwnersWithin := within_of_not_reached room }

theorem Accounts.unlink (h : owner.Accounts) {child : Nat} (member : child ∈ owner.children) :
    (owner.unlink child).Accounts :=
  { h with
    childOwners := by simp [Owner.unlink, h.childOwners, List.length_erase_of_mem member]
    childOwnersWithin := h.childOwnersWithin.mono (Nat.sub_le _ _) }

/-- A successful capacity test, field by field. -/
theorem hasCapacity_ok {kind : Kind} (room : owner.hasCapacity kind = .OK) :
    owner.closed = false ∧ owner.nextResourceId ≠ uint64Max ∧
      reached owner.limits.maxResources owner.liveResources = false ∧
      (kind.isPendingOp → reached owner.limits.maxPendingOps owner.livePendingOps = false) ∧
      (kind.isDescriptor → reached owner.limits.maxDescriptors owner.liveDescriptors = false) := by
  unfold hasCapacity at room
  repeat' split at room
  all_goals try cases room
  rename_i notClosed notLast resources pending descriptors
  refine ⟨by simpa using notClosed, notLast, by simpa using resources, ?_, ?_⟩
  · intro isPending
    simpa [isPending] using pending
  · intro isDescriptor
    simpa [isDescriptor] using descriptors

theorem Accounts.registerEntry (h : owner.Accounts) {payload : Payload}
    (room : owner.hasCapacity payload.kind = .OK) : (owner.registerEntry payload).Accounts := by
  obtain ⟨-, -, resources, pending, descriptors⟩ := hasCapacity_ok room
  refine
    { resources := ?_, descriptors := ?_, pendingOps := ?_, childOwners := h.childOwners
      resourcesWithin := within_of_not_reached resources, descriptorsWithin := ?_
      pendingOpsWithin := ?_, childOwnersWithin := h.childOwnersWithin, ids := ?_
      bounded := ?_ }
  · simp [Owner.registerEntry, openCount_cons, h.resources]
  · by_cases counted : payload.kind.isDescriptor <;>
      simp [Owner.registerEntry, openCount_cons, h.descriptors, counted]
  · by_cases counted : payload.kind.isPendingOp <;>
      simp [Owner.registerEntry, openCount_cons, h.pendingOps, counted]
  · by_cases counted : payload.kind.isDescriptor
    · simpa [Owner.registerEntry, counted] using within_of_not_reached (descriptors counted)
    · simpa [Owner.registerEntry, counted] using h.descriptorsWithin
  · by_cases counted : payload.kind.isPendingOp
    · simpa [Owner.registerEntry, counted] using within_of_not_reached (pending counted)
    · simpa [Owner.registerEntry, counted] using h.pendingOpsWithin
  · refine List.nodup_cons.mpr ⟨?_, h.ids⟩
    intro member
    obtain ⟨entry, inside, same⟩ := List.mem_map.mp member
    exact absurd (h.bounded entry inside) (by simp [same])
  · intro entry member
    rcases List.mem_cons.mp member with rfl | old
    · exact Nat.lt_succ_self _
    · exact Nat.lt_succ_of_lt (h.bounded entry old)

/-- A bound on the ids of a list passes to a list with the same ids. -/
theorem bounded_of_ids {entries updated : List Entry} {next : Nat}
    (same : updated.map (·.id) = entries.map (·.id))
    (bounded : ∀ entry ∈ entries, entry.id < next) : ∀ entry ∈ updated, entry.id < next := by
  intro entry member
  have : entry.id ∈ entries.map (·.id) := same ▸ List.mem_map_of_mem member
  obtain ⟨old, inside, sameId⟩ := List.mem_map.mp this
  exact sameId ▸ bounded old inside

/-- A counter that gives back exactly what its entries lost. -/
theorem sub_counted {before after : Nat} {counts : Bool}
    (lost : after + (if counts then 1 else 0) = before) :
    (if counts then before - 1 else before) = after := by
  cases counts
  · simpa using lost.symm
  · simp only [if_true] at lost ⊢
    omega

theorem Accounts.retire (h : owner.Accounts) {entry : Entry} {state : State}
    (found : owner.findEntry entry.id = some entry) (isOpen : entry.state = .OPEN)
    (retired : state ≠ .OPEN) : (owner.retire entry state).Accounts := by
  have lost := fun counts => sub_counted (openCount_setState counts found isOpen retired)
  have less : ∀ (counts : Bool) (live : Nat), (if counts then live - 1 else live) ≤ live := by
    intro counts live
    split <;> omega
  refine
    { resources := ?_, descriptors := ?_, pendingOps := ?_, childOwners := h.childOwners
      resourcesWithin := h.resourcesWithin.mono (Nat.sub_le _ _)
      descriptorsWithin := h.descriptorsWithin.mono (less _ _)
      pendingOpsWithin := h.pendingOpsWithin.mono (less _ _)
      childOwnersWithin := h.childOwnersWithin, ids := ?_, bounded := ?_ }
  · simpa [Owner.retire, release, h.resources] using lost fun _ => true
  · simpa [Owner.retire, release, h.descriptors] using lost Kind.isDescriptor
  · simpa [Owner.retire, release, h.pendingOps] using lost Kind.isPendingOp
  · simpa [Owner.retire, release] using h.ids
  · exact bounded_of_ids (setState_ids _ _ _) h.bounded

theorem openCount_shut (counts : Kind → Bool) (entries : List Entry) :
    openCount counts (entries.map shut) = 0 := by
  simp [openCount, shut_not_open]

theorem Accounts.collected (h : owner.Accounts) : owner.collected.Accounts := by
  have ids : (owner.entries.map shut).map (·.id) = owner.entries.map (·.id) := by
    simp [Function.comp_def]
  rw [collected_eq]
  refine
    { resources := ?_, descriptors := ?_, pendingOps := ?_, childOwners := h.childOwners
      resourcesWithin := h.resourcesWithin.mono (Nat.sub_le _ _)
      descriptorsWithin := h.descriptorsWithin.mono (Nat.sub_le _ _)
      pendingOpsWithin := h.pendingOpsWithin.mono (Nat.sub_le _ _)
      childOwnersWithin := h.childOwnersWithin, ids := ?_
      bounded := bounded_of_ids ids h.bounded }
  · simp [h.resources, openCount_shut]
  · simp [h.descriptors, openCount_shut]
  · simp [h.pendingOps, openCount_shut]
  · rw [ids]
    exact h.ids

end Owner

/-- Every owner of the registry keeps its accounts. -/
def Registry.Accounts (r : Registry) : Prop := ∀ owner ∈ r.owners, owner.Accounts

namespace Registry.Accounts

variable {r : Registry}

theorem at_pointer (h : r.Accounts) {p : Nat} (found : r.owners[p]? = some owner) :
    owner.Accounts :=
  h owner (List.mem_of_getElem? found)

theorem update (h : r.Accounts) {p : Nat} {f : Owner → Owner}
    (kept : ∀ owner, r.owners[p]? = some owner → (f owner).Accounts) :
    (r.update p f).Accounts :=
  Arena.forall_modify h kept

theorem append (h : r.Accounts) (id next : Nat) (parent root : Option Nat) (limits : Limits) :
    Registry.Accounts { r with
      owners := r.owners ++ [.fresh id parent limits], root, nextOwnerId := next } := by
  intro owner member
  rcases List.mem_append.mp member with old | new
  · exact h owner old
  · cases List.mem_singleton.mp new
    exact Owner.fresh_accounts id parent limits

theorem unlinkFromParent (h : r.Accounts) (p : Nat) (owner : Owner) :
    (r.unlinkFromParent p owner).Accounts := by
  obtain same | ⟨q, linked, same⟩ := r.unlinkFromParent_cases p owner
  · rwa [same]
  · have unlinked : (r.update q (.unlink p)).Accounts := by
      refine h.update fun above found => (h.at_pointer found).unlink ?_
      simpa [found] using linked
    rw [same]
    refine unlinked.update fun owner found => ?_
    exact { unlinked.at_pointer found with }

end Registry.Accounts

/-- Each change keeps the accounts of every owner, including the two owners of
a transfer and the three owners of a detach. -/
theorem Change.accounts {r s : Registry} {closing : Option Nat}
    {registered collected : List Payload} (change : Change r closing registered collected s)
    (h : r.Accounts) : s.Accounts := by
  cases change with
  | counter next => exact h
  | root id next noRoot => exact h.append id next none _ defaultLimits
  | child id next p above limits found notClosed room =>
    refine (h.append id next (some p) r.root limits).update fun owner at_p => ?_
    rw [Arena.append_old found] at at_p
    cases at_p
    exact (h.at_pointer found).link _ room
  | detach p root old owner rootOwner oldOwner rootAt notRoot ownerAt rootOwnerAt oldAt parentAt
      member ownerOpen rootOpen room =>
      have unlinked : (r.update old (.unlink p)).Accounts := by
        refine h.update fun found foundAt => ?_
        rw [oldAt] at foundAt
        cases foundAt
        exact (h.at_pointer oldAt).unlink member
      have moved : ((r.update old (.unlink p)).update p (.withParent (some root))).Accounts :=
        unlinked.update fun found foundAt => { unlinked.at_pointer foundAt with }
      refine moved.update fun found foundAt => (moved.at_pointer foundAt).link p ?_
      -- neither the unlinking nor the new parent pointer touch the root's child counter
      rcases Arena.modify_cases foundAt with ⟨_, before, beforeAt, rfl⟩ | ⟨_, beforeAt⟩
      all_goals
        rw [Registry.update, Arena.modify_other notRoot, rootOwnerAt] at beforeAt
        cases beforeAt
        exact room
  | register p owner payload found room serial =>
    refine h.update fun owner' foundAt => ?_
    rw [found] at foundAt
    cases foundAt
    exact (h.at_pointer found).registerEntry room
  | close p owner entry found notClosed entryAt isOpen =>
    refine h.update fun owner' foundAt => ?_
    rw [found] at foundAt
    cases foundAt
    exact (h.at_pointer found).retire entryAt isOpen (by decide)
  | move p q source target entry distinct sourceAt targetAt notClosed entryAt isOpen room =>
    have admitted : (r.update q (.registerEntry entry.payload)).Accounts := by
      refine h.update fun owner' foundAt => ?_
      rw [targetAt] at foundAt
      cases foundAt
      exact (h.at_pointer targetAt).registerEntry room
    refine admitted.update fun owner' foundAt => ?_
    rw [Registry.update, Arena.modify_other distinct.symm, sourceAt] at foundAt
    cases foundAt
    exact (h.at_pointer sourceAt).retire entryAt isOpen (by decide)
  | collect p owner found notClosed =>
    have closed : (r.update p .markClosed).Accounts :=
      h.update fun owner' foundAt => { h.at_pointer foundAt with }
    have unlinked := closed.unlinkFromParent p owner
    exact unlinked.update fun owner' foundAt => (unlinked.at_pointer foundAt).collected

/-- In every state that any interleaving reaches, every owner's counters count
its open entries and its children, stay within their limits, and its entry ids
are distinct and below the next one. -/
theorem run_accounts {Thread : Type} [DecidableEq Thread] {t : World Thread}
    {history : List (Op Thread × Answer)}
    (run : (machine Thread).Run World.initial history t) :
    ∀ owner ∈ t.registry.owners, owner.Accounts := by
  have accounts : t.registry.Accounts := by
    refine run.preserves (I := fun w => w.registry.Accounts) ?_ ?_
    · simp [World.initial, Registry.Accounts]
    intro w op answer u accounts taken
    obtain ⟨closing, change, -⟩ := step_change taken
    exact change.accounts accounts
  exact accounts

/-- A descriptor registered under a child owner and transferred to the root. -/
def transferToRoot : List (Op Unit) :=
  [.runtimeInit, .newChild 0 ⟨1, 1, 1, 1⟩, .register 1 (.fd .TCP_STREAM 3 false),
    .transferToParent ⟨2, 1, 1⟩]

theorem run_accounts_transferToRoot :
    ∃ (t : World Unit) (history : List (Op Unit × Answer)),
      (machine Unit).Run World.initial history t ∧ history.map (·.1) = transferToRoot ∧
      t.registry.owners.map (·.liveDescriptors) = [1, 0] ∧
      ∀ owner ∈ t.registry.owners, owner.Accounts := by
  have executed : ∃ t history, (machine Unit).exec World.initial transferToRoot =
      some (t, history) ∧ history.map (·.1) = transferToRoot ∧
      t.registry.owners.map (·.liveDescriptors) = [1, 0] := ⟨_, _, rfl, rfl, rfl⟩
  obtain ⟨t, history, executed, labels, counters⟩ := executed
  have run := Machine.run_of_exec executed
  exact ⟨t, history, run, labels, counters, run_accounts run⟩

end Ciel.Runtime.Resource
