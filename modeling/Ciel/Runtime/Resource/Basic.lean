import Ciel.Runtime.Code

/-!
# The resource registry

Owners form a tree below the root owner. Each owner keeps a list of entries, and
an entry holds one payload: a descriptor, an asynchronous object or a native
pointer with its close function. A handle names an entry by numbers, so it can
be stale or forged and is resolved again by every operation.

Owners and entries are never freed. An owner pointer is therefore an index into
`Registry.owners`, and an index outside of it plays the role of `NULL`. The
intrusive lists `first_child`/`next_sibling` and `entries` are Lean lists with
the same head. One child list per parent is faithful because no owner is ever
in two of them: the owners are a forest after every step. Allocation is assumed to succeed.
-/

namespace Ciel.Runtime.Resource

inductive Kind
  | FILE | TCP_LISTENER | TCP_STREAM | ASYNC_FD | ASYNC_TCP_LISTENER | ASYNC_OP | NATIVE
  deriving DecidableEq, Repr

def Kind.isDescriptor : Kind → Bool
  | .FILE | .TCP_LISTENER | .TCP_STREAM | .ASYNC_FD | .ASYNC_TCP_LISTENER => true
  | .ASYNC_OP | .NATIVE => false

def Kind.isPendingOp : Kind → Bool
  | .ASYNC_OP => true
  | _ => false

inductive State
  | OPEN | CLOSED | MOVED | RETIRED
  deriving DecidableEq, Repr

/-- Zero means that there is no limit. -/
structure Limits where
  maxResources : Nat
  maxChildOwners : Nat
  maxPendingOps : Nat
  maxDescriptors : Nat
  deriving DecidableEq, Repr

def defaultLimits : Limits := ⟨4096, 65536, 8192, 4096⟩

/-- The fields that a transfer copies from one entry to the next. A
`CielResourceCloseAction` is the same record without `native_type`. Pointers
are addresses. `serial` numbers the registrations: the source has no such
field, and no function of the model branches on it. -/
structure Payload where
  kind : Kind
  fd : Int
  borrowed : Bool
  ptr : Nat
  closeFn : Nat
  nativeType : Nat
  serial : Nat
  deriving DecidableEq, Repr

structure Entry where
  id : Nat
  generation : Nat
  state : State
  payload : Payload
  deriving DecidableEq, Repr

structure Owner where
  id : Nat
  generation : Nat
  limits : Limits
  liveResources : Nat
  liveChildOwners : Nat
  livePendingOps : Nat
  liveDescriptors : Nat
  nextResourceId : Nat
  closed : Bool
  parent : Option Nat
  children : List Nat
  entries : List Entry
  deriving DecidableEq, Repr

structure Handle where
  ownerId : Nat
  resourceId : Nat
  generation : Nat
  deriving DecidableEq, Repr

structure Registry where
  owners : List Owner
  root : Option Nat
  nextOwnerId : Nat
  serials : Nat
  deriving DecidableEq, Repr

def uint64Max : Nat := 2 ^ 64 - 1

/-- `ciel_resource_handle_is_async_op`: such a handle is the pointer of the
operation in disguise and never names an entry. -/
def Handle.isAsyncOp (handle : Handle) : Bool :=
  handle.ownerId = uint64Max ∧ handle.generation = 0xc1e1000000000001 ∧ handle.resourceId ≠ 0

/-- The test that every resolving function makes first. -/
def Handle.isZero (handle : Handle) : Bool :=
  handle.ownerId = 0 ∨ handle.resourceId = 0 ∨ handle.generation = 0

/-- A configured limit that the counter has reached. -/
def reached (limit live : Nat) : Bool :=
  limit ≠ 0 ∧ limit ≤ live

namespace Owner

/-- The owner that `ciel_resource_owner_alloc_locked` fills in. -/
def fresh (id : Nat) (parent : Option Nat) (limits : Limits) : Owner :=
  { id, generation := 1, limits, liveResources := 0, liveChildOwners := 0
    livePendingOps := 0, liveDescriptors := 0, nextResourceId := 1, closed := false
    parent, children := [], entries := [] }

def link (child : Nat) (owner : Owner) : Owner :=
  { owner with
    children := child :: owner.children, liveChildOwners := owner.liveChildOwners + 1 }

/-- `ciel_resource_owner_unlink_child_locked` and the decrement that follows it
when it succeeds. -/
def unlink (child : Nat) (owner : Owner) : Owner :=
  { owner with
    children := owner.children.erase child, liveChildOwners := owner.liveChildOwners - 1 }

def withParent (parent : Option Nat) (owner : Owner) : Owner := { owner with parent }

variable (owner : Owner)

def markClosed : Owner := { owner with closed := true }

/-- The three decrements made for an entry that stops being open. -/
def release (kind : Kind) (owner : Owner) : Owner :=
  { owner with
    liveResources := owner.liveResources - 1
    livePendingOps :=
      if kind.isPendingOp then owner.livePendingOps - 1 else owner.livePendingOps
    liveDescriptors :=
      if kind.isDescriptor then owner.liveDescriptors - 1 else owner.liveDescriptors }

/-- `ciel_resource_owner_has_capacity_locked`. -/
def hasCapacity (kind : Kind) : Code :=
  if owner.closed then
    .EBADF
  else if owner.nextResourceId = uint64Max then
    .EOVERFLOW
  else if reached owner.limits.maxResources owner.liveResources then
    .ENOSPC
  else if kind.isPendingOp ∧ reached owner.limits.maxPendingOps owner.livePendingOps then
    .ENOSPC
  else if kind.isDescriptor ∧ reached owner.limits.maxDescriptors owner.liveDescriptors then
    .ENOSPC
  else
    .OK

/-- The part of `ciel_resource_register_entry_locked` after the capacity test. -/
def registerEntry (payload : Payload) (owner : Owner) : Owner :=
  { owner with
    nextResourceId := owner.nextResourceId + 1
    entries := ⟨owner.nextResourceId, 1, .OPEN, payload⟩ :: owner.entries
    liveResources := owner.liveResources + 1
    livePendingOps :=
      if payload.kind.isPendingOp then owner.livePendingOps + 1 else owner.livePendingOps
    liveDescriptors :=
      if payload.kind.isDescriptor then owner.liveDescriptors + 1 else owner.liveDescriptors }

/-- The handle that names the entry `registerEntry` is about to add. -/
def nextHandle : Handle := ⟨owner.id, owner.nextResourceId, 1⟩

/-- `ciel_resource_find_entry_locked`. -/
def findEntry (resourceId : Nat) : Option Entry :=
  owner.entries.find? (·.id = resourceId)

/-- `ciel_resource_resolve_entry_owner_locked`: a closed entry is still found. -/
def resolveEntry (handle : Handle) (expected : Option Kind) : Except Code Entry :=
  if handle.isZero then
    .error .EBADF
  else if owner.id ≠ handle.ownerId ∨ owner.closed then
    .error .EBADF
  else
    match owner.findEntry handle.resourceId with
    | none => .error .EBADF
    | some entry =>
      if entry.generation ≠ handle.generation then
        .error .EBADF
      else if expected.any (· ≠ entry.payload.kind) then
        .error .EINVAL
      else if entry.state = .CLOSED then
        .ok entry
      else if entry.state ≠ .OPEN then
        .error .EBADF
      else
        .ok entry

/-- What transfers and snapshots ask for: the entry a handle resolves to, open. -/
def openEntry (handle : Handle) (expected : Option Kind) : Except Code Entry :=
  match owner.resolveEntry handle expected with
  | .error rc => .error rc
  | .ok entry => if entry.state ≠ .OPEN then .error .EBADF else .ok entry

/-- Write the state of the entry that `findEntry` returns. -/
def setState (resourceId : Nat) (state : State) : List Entry → List Entry
  | [] => []
  | entry :: entries =>
    if entry.id = resourceId then
      { entry with state } :: entries
    else
      entry :: setState resourceId state entries

/-- Only the entry found is written. -/
theorem setState_split {entries : List Entry} {entry : Entry}
    (found : entries.find? (·.id = entry.id) = some entry) (state : State) :
    ∃ before after, entries = before ++ entry :: after ∧
      setState entry.id state entries = before ++ { entry with state } :: after := by
  induction entries with
  | nil => cases found
  | cons first entries ih =>
    by_cases same : first.id = entry.id
    · have : first = entry := by simpa [same] using found
      exact ⟨[], entries, by rw [this, List.nil_append], by simp [setState, this]⟩
    · obtain ⟨before, after, split, written⟩ := ih (by simpa [same] using found)
      exact ⟨first :: before, after, by rw [split, List.cons_append], by
        simp [setState, same, written]⟩

/-- An open entry leaves the open state and gives its counters back. -/
def retire (entry : Entry) (state : State) (owner : Owner) : Owner :=
  { owner with entries := setState entry.id state owner.entries }.release entry.payload.kind

/-- The locked part of `ciel_resource_close`, with the action it leaves to run. -/
def closeEntry (handle : Handle) : Code × Owner × List Payload :=
  match owner.resolveEntry handle none with
  | .error rc => (rc, owner, [])
  | .ok entry =>
    if entry.state = .CLOSED then
      (.OK, owner, [])
    else if entry.state ≠ .OPEN then
      (.EBADF, owner, [])
    else
      (.OK, owner.retire entry .CLOSED, [entry.payload])

/-- The payloads of the open entries, in list order. -/
def openPayloads (entries : List Entry) : List Payload :=
  (entries.filter (·.state = .OPEN)).map (·.payload)

/-- The entry loop of `ciel_resource_collect_owner_close_locked`. The owner
carries the counters, the entries are rewritten as the loop passes them. -/
def collectEntries (owner : Owner) : List Entry → Owner × List Entry × List Payload
  | [] => (owner, [], [])
  | entry :: entries =>
    if entry.state ≠ .OPEN then
      let (owner, entries, actions) := owner.collectEntries entries
      (owner, entry :: entries, actions)
    else
      let (owner, entries, actions) := (owner.release entry.payload.kind).collectEntries entries
      (owner, { entry with state := .CLOSED } :: entries, entry.payload :: actions)

/-- The owner after its entries have been collected. -/
def collected : Owner :=
  let (counters, entries, _) := owner.collectEntries owner.entries
  { counters with entries }

/-! The entry loop in closed form. -/

/-- The open entries with a given property of their kind. -/
def openCount (counts : Kind → Bool) (entries : List Entry) : Nat :=
  entries.countP fun entry => entry.state = .OPEN ∧ counts entry.payload.kind

@[simp] theorem openCount_nil (counts : Kind → Bool) : openCount counts [] = 0 := rfl

theorem openCount_cons (counts : Kind → Bool) (entry : Entry) (entries : List Entry) :
    openCount counts (entry :: entries) =
      openCount counts entries +
        if entry.state = .OPEN ∧ counts entry.payload.kind then 1 else 0 := by
  simp [openCount, List.countP_cons]

/-- What the entry loop of an owner close does to one entry. -/
def shut (entry : Entry) : Entry :=
  if entry.state = .OPEN then { entry with state := .CLOSED } else entry

/-- The entry loop in closed form. Each counter drops by the number of open
entries it counts. -/
theorem collectEntries_eq (entries : List Entry) : owner.collectEntries entries = ({ owner with
          liveResources := owner.liveResources - openCount (fun _ => true) entries
          livePendingOps := owner.livePendingOps - openCount Kind.isPendingOp entries
          liveDescriptors := owner.liveDescriptors - openCount Kind.isDescriptor entries },
        entries.map shut, openPayloads entries) := by
  induction entries generalizing owner with
  | nil => simp [collectEntries, openPayloads]
  | cons entry entries ih =>
    by_cases isOpen : entry.state = .OPEN
    · simp only [collectEntries, isOpen, ne_eq, not_true_eq_false, if_false, ih, release,
        openCount_cons, openPayloads, shut, List.map_cons, if_true, true_and]
      refine Prod.ext_iff.mpr ⟨?_, by simp [isOpen]⟩
      simp only [Owner.mk.injEq, true_and, and_true]
      refine ⟨by omega, ?_, ?_⟩ <;> split <;> omega
    · simp [collectEntries, isOpen, ih, openCount_cons, openPayloads, shut]

theorem collected_eq : owner.collected = { owner with
        liveResources := owner.liveResources - openCount (fun _ => true) owner.entries
        livePendingOps := owner.livePendingOps - openCount Kind.isPendingOp owner.entries
        liveDescriptors := owner.liveDescriptors - openCount Kind.isDescriptor owner.entries
        entries := owner.entries.map shut } := by
  simp only [collected, collectEntries_eq]

theorem shut_not_open (entry : Entry) : (shut entry).state ≠ .OPEN := by
  unfold shut
  split
  · exact nofun
  · assumption

@[simp] theorem shut_id (entry : Entry) : (shut entry).id = entry.id := by
  unfold shut
  split <;> rfl

end Owner

/-- What a public function reports, and what it did to payloads: the ones it
registered and the ones whose close action it collected. -/
structure Answer where
  rc : Code
  handle : Option Handle := none
  registered : List Payload := []
  collected : List Payload := []
  deriving DecidableEq, Repr

/-- The four registering functions and the arguments that reach the entry. -/
inductive Registration
  | fd (kind : Kind) (fd : Int) (borrowed : Bool)
  | asyncFd (ptr : Nat)
  | asyncListener (ptr : Nat)
  | native (ptr closeFn nativeType : Nat)
  deriving DecidableEq, Repr

/-- The checks each registering function makes before it locks its owner, and
the payload it passes on. -/
def Registration.payload (serial : Nat) : Registration → Except Code Payload
  | .fd kind descriptor borrowed =>
    if descriptor < 0 then
      .error .EINVAL
    else if !kind.isDescriptor then
      .error .EINVAL
    else
      .ok ⟨kind, descriptor, borrowed, 0, 0, 0, serial⟩
  | .asyncFd ptr =>
    if ptr = 0 then .error .EINVAL else .ok ⟨.ASYNC_FD, -1, false, ptr, 0, 0, serial⟩
  | .asyncListener ptr =>
    if ptr = 0 then
      .error .EINVAL
    else
      .ok ⟨.ASYNC_TCP_LISTENER, -1, false, ptr, 0, 0, serial⟩
  | .native ptr closeFn nativeType =>
    if ptr = 0 ∨ closeFn = 0 ∨ nativeType = 0 then
      .error .EINVAL
    else
      .ok ⟨.NATIVE, -1, false, ptr, closeFn, nativeType, serial⟩

namespace Registry

variable (r : Registry)

/-- Write through an owner pointer. -/
def update (owner : Nat) (f : Owner → Owner) : Registry :=
  { r with owners := r.owners.modify owner f }

/-- `ciel_resource_alloc_owner_id`: the counter wraps and zero is skipped. -/
def allocOwnerId : Nat × Registry :=
  let id := r.nextOwnerId
  let next := (id + 1) % 2 ^ 64
  if id = 0 then
    (next, { r with nextOwnerId := (next + 1) % 2 ^ 64 })
  else
    (id, { r with nextOwnerId := next })

/-- `ciel_resource_owner_alloc_locked`. A number is used up even on failure. -/
def ownerAlloc (parent : Option Nat) (limits : Limits) : Code × Option Nat × Registry :=
  let (id, r) := r.allocOwnerId
  if id = uint64Max then
    (.EOVERFLOW, none, r)
  else
    match parent with
    | none => (.OK, some r.owners.length,
        { r with owners := r.owners ++ [Owner.fresh id none limits] })
    | some p =>
      match r.owners[p]? with
      | none => (.EINVAL, none, r)
      | some above =>
        if above.closed then
          (.EBADF, none, r)
        else if reached above.limits.maxChildOwners above.liveChildOwners then
          (.ENOSPC, none, r)
        else
          let child := r.owners.length
          let r := { r with owners := r.owners ++ [Owner.fresh id (some p) limits] }
          (.OK, some child, r.update p (.link child))

/-- `ciel_resource_init_locked`. -/
def init : Registry :=
  match r.root with
  | some _ => r
  | none =>
    let (_, root, r) := r.ownerAlloc none defaultLimits
    { r with root }

/-- `ciel_resource_owner_new_child`, for the parent it has settled on. -/
def newChild (parent : Nat) (limits : Limits) : Registry × Answer :=
  let (rc, _, r) := r.ownerAlloc (some parent) limits
  (r, { rc })

/-- `ciel_resource_owner_detach`: move an owner below the root. -/
def detach (p : Nat) : Registry × Answer :=
  match r.owners[p]?, r.root with
  | none, _ => (r, { rc := .EINVAL })
  | some _, none => (r, { rc := .EBADF })
  | some owner, some root =>
    match r.owners[root]? with
    | none => (r, { rc := .EBADF })
    | some rootOwner =>
      if owner.closed ∨ rootOwner.closed then
        (r, { rc := .EBADF })
      else
        match owner.parent with
        | none => (r, { rc := .OK })
        | some oldParent =>
          if oldParent = root then
            (r, { rc := .OK })
          else if reached rootOwner.limits.maxChildOwners rootOwner.liveChildOwners then
            (r, { rc := .ENOSPC })
          else if (r.owners[oldParent]?).all (p ∉ ·.children) then
            (r, { rc := .EBADF })
          else
            (((r.update oldParent (.unlink p)).update p (.withParent (some root))).update root
              (.link p), { rc := .OK })

/-- The parent part of `ciel_resource_collect_owner_close_locked`. -/
def unlinkFromParent (p : Nat) (owner : Owner) : Registry :=
  match owner.parent with
  | none => r
  | some q =>
    if (r.owners[q]?).all (p ∉ ·.children) then
      r
    else
      (r.update q (.unlink p)).update p (.withParent none)

/-- Nothing is written, or the parent loses a child and the owner its parent. -/
theorem unlinkFromParent_cases (p : Nat) (owner : Owner) :
    r.unlinkFromParent p owner = r ∨ ∃ q, (r.owners[q]?).all (p ∉ ·.children) = false ∧
      r.unlinkFromParent p owner = (r.update q (.unlink p)).update p (.withParent none) := by
  unfold unlinkFromParent
  split
  next => exact .inl rfl
  next q _ =>
    split
    next => exact .inl rfl
    next linked => exact .inr ⟨q, Bool.eq_false_iff.mpr linked, rfl⟩

/-- The children an owner close still has to visit. -/
def openChildren (p : Nat) : List Nat :=
  match r.owners[p]? with
  | none => []
  | some owner => owner.children.filter fun child => (r.owners[child]?).any (!·.closed)

/-- `ciel_resource_collect_owner_close_locked`: the registry, the close actions
and the children to close next. -/
def collectOwnerClose (p : Nat) : Registry × List Payload × List Nat :=
  match r.owners[p]? with
  | none => (r, [], [])
  | some owner =>
    if owner.closed then
      (r, [], [])
    else
      let r := r.update p .markClosed
      let r := r.unlinkFromParent p owner
      let r := r.update p .collected
      (r, (owner.collectEntries owner.entries).2.2, r.openChildren p)

/-- `ciel_resource_find_owner_locked`: depth first, a parent before its
children. The bound is on the depth of the recursion. -/
def findOwner (r : Registry) (ownerId : Nat) : Nat → Nat → Option Nat
  | 0, _ => none
  | depth + 1, p =>
    match r.owners[p]? with
    | none => none
    | some owner =>
      if owner.id = ownerId then
        some p
      else
        owner.children.findSome? (r.findOwner ownerId depth)

/-- The search from the root, deep enough for every registry. -/
def findOwnerFromRoot (ownerId : Nat) : Option Nat :=
  r.root.bind (r.findOwner ownerId r.owners.length)

/-- `ciel_resource_owner_is_ancestor_locked`, bounded like the search above. -/
def isAncestor (r : Registry) (ancestor : Nat) : Nat → Option Nat → Bool
  | 0, _ => false
  | _, none => false
  | depth + 1, some cursor =>
    cursor = ancestor ∨
      r.isAncestor ancestor depth ((r.owners[cursor]?).bind (·.parent))

/-- Any of the four registering functions on a thread whose current owner is
`current`. -/
def register (current : Nat) (registration : Registration) : Registry × Answer :=
  match registration.payload r.serials with
  | .error rc => (r, { rc })
  | .ok payload =>
    match r.owners[current]? with
    | none => (r, { rc := .EBADF })
    | some owner =>
      match owner.hasCapacity payload.kind with
      | .OK =>
        ({ r.update current (.registerEntry payload) with serials := r.serials + 1 },
          { rc := .OK, handle := some owner.nextHandle, registered := [payload] })
      | rc => (r, { rc })

/-- `ciel_resource_close` up to the point where it runs its action. The lookup
has released the global lock before the owner section, so `p` may be any owner
by then. `cancelled` is what `ciel_async_cancel` answers for an operation. -/
def close (p : Nat) (handle : Handle) (cancelled : Code) : Registry × Answer :=
  if handle.isAsyncOp then
    (r, { rc := if cancelled = .EALREADY then .OK else cancelled })
  else
    match r.owners[p]? with
    | none => (r, { rc := .EBADF })
    | some owner =>
      let (rc, owner, collected) := owner.closeEntry handle
      (r.update p fun _ => owner, { rc, collected })

/-- `ciel_resource_transfer_to_owner_with_owners_locked`. -/
def transferToOwner (handle : Handle) (owner : Nat) (destination : Option Nat) :
    Registry × Answer :=
  match destination with
  | none => (r, { rc := .EINVAL })
  | some destination =>
    match r.owners[owner]?, r.owners[destination]? with
    | some source, some target =>
      match source.openEntry handle none with
      | .error rc => (r, { rc })
      | .ok entry =>
        if owner = destination then
          (r, { rc := .OK, handle := some handle })
        else
          match target.hasCapacity entry.payload.kind with
          | .OK =>
            ((r.update destination (.registerEntry entry.payload)).update owner
                (.retire entry .MOVED),
              { rc := .OK, handle := some target.nextHandle })
          | rc => (r, { rc })
    | _, _ => (r, { rc := .EINVAL })

/-- `ciel_resource_transfer_to_parent`. -/
def transferToParent (handle : Handle) : Registry × Answer :=
  if handle.isAsyncOp then
    (r, { rc := .OK, handle := some handle })
  else if handle.isZero then
    (r, { rc := .EBADF })
  else
    match r.findOwnerFromRoot handle.ownerId with
    | none => (r, { rc := .EBADF })
    | some owner =>
      match (r.owners[owner]?).bind (·.parent) with
      | none => (r, { rc := .EBADF })
      | some parent => r.transferToOwner handle owner (some parent)

/-- `ciel_resource_transfer_to_current`. -/
def transferToCurrent (current : Nat) (handle : Handle) : Registry × Answer :=
  if handle.isAsyncOp then
    (r, { rc := .OK, handle := some handle })
  else if handle.isZero then
    (r, { rc := .EBADF })
  else
    match r.findOwnerFromRoot handle.ownerId with
    | none => (r, { rc := .EBADF })
    | some owner =>
      if !r.isAncestor owner r.owners.length (some current) then
        (r, { rc := .EPERM })
      else
        r.transferToOwner handle owner (some current)

/-- The locked part of `ciel_resource_reattach_to_parent_handle`. The check of
the current owner before it takes no lock, so a parent may be gone here. -/
def reattachToParent (current : Nat) (handle : Handle) : Registry × Answer :=
  if handle.isAsyncOp then
    (r, { rc := .OK, handle := some handle })
  else if handle.isZero then
    (r, { rc := .EBADF })
  else
    match r.findOwnerFromRoot handle.ownerId with
    | none => (r, { rc := .EBADF })
    | some owner =>
      let parent := (r.owners[current]?).bind (·.parent)
      if owner = current then
        r.transferToOwner handle owner parent
      else if r.isAncestor owner r.owners.length parent then
        (r, { rc := .OK, handle := some handle })
      else
        (r, { rc := .EPERM })

end Registry
end Ciel.Runtime.Resource
