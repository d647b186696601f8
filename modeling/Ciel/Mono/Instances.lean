import Mathlib.Data.Set.Finite.List
import Ciel.Library.Lists
import Ciel.Mono.Worklist

/-!
# Which functions the worklist reaches

The functions that can be reached are a matter of the program alone, once each
instance has its number: from the roots, through the references of bodies, with
each instance's chain passed on, except where the chain shows growth.

The worklist takes up no other functions, and each only once. So it becomes empty
if only finitely many functions can be reached; and if it becomes empty without a
diagnostic, it has taken up all of them.
-/

namespace Ciel.Mono

open Ciel.Types
open Library (lookup_append lookup_map_key lookup_eq_none_of_forall lookup_zipIdx)

variable {id self : FunctionId} {key : InstanceKey} {checked : CheckedGenericInstance}
  {request : Request} {ctx : MonoContext} {owners : ClosureOwnerTable}

/-- The body of a function of an instance. -/
def CheckedGenericInstance.body? (checked : CheckedGenericInstance) :
    FunctionId → Option (List Request)
  | .declared _ => none
  | .generic _ => some checked.function
  | .generated _ index => checked.generated[index]?

namespace CheckedProgram

variable (program : CheckedProgram) (ω : InstanceKey → Nat)

/-- What checking an instance gives under a numbering of the instances. -/
def instanceOf (key : InstanceKey) : Option CheckedGenericInstance :=
  (program.templates key.1).bind fun template => template (.genericInstance key.1 (ω key)) key.2

def bodyOf (id : FunctionId) : Option (List Request) :=
  match id with
  | .declared defId => program.functions.lookup defId
  | .generic key | .generated key _ => (program.instanceOf ω key).bind (·.body? id)

/-- A function can be reached, and with which chain. Generated functions start
without one, as declared functions do. -/
inductive Reachable : FunctionId → List TypeExpansionFrame → Prop
  | root {defId : DefId} (isRoot : defId ∈ program.roots) : Reachable (.declared defId) []
  | plain {id target : FunctionId} {chain : List TypeExpansionFrame} {body : List Request}
      (reached : Reachable id chain) (hasBody : program.bodyOf ω id = some body)
      (inside : .function target ∈ body) : Reachable target []
  | generic {id : FunctionId} {chain : List TypeExpansionFrame} {body : List Request}
      {key : InstanceKey} (reached : Reachable id chain) (hasBody : program.bodyOf ω id = some body)
      (inside : .generic key ∈ body) (passes : growthDiagnosed chain key.1 key.2 = false) :
      Reachable (.generic key) (chain ++ [⟨key.1, key.2⟩])

/-- The functions that can be reached. -/
def reachable : Set FunctionId := {id | ∃ chain, program.Reachable ω id chain}

variable {program ω} in
theorem bodyOf_eq (isInstance : program.instanceOf ω key = some checked)
    (ofKey : id.key? = some key) : program.bodyOf ω id = checked.body? id := by
  cases id with
  | declared => cases ofKey
  | generic | generated =>
    cases ofKey
    rw [bodyOf, isInstance]
    rfl

variable {program ω} in
/-- A body names what is in its scope. -/
theorem bodyOf_inScope {body : List Request} {target : FunctionId}
    (hasBody : program.bodyOf ω id = some body) (inside : .function target ∈ body) :
    target.InScope id.key? := by
  cases id with
  | declared defId =>
    obtain ⟨before, after, entries, -⟩ := List.lookup_eq_some_iff.mp hasBody
    exact program.functions_inScope (defId, body) (by simp [entries]) target inside
  | generic key | generated key =>
    obtain ⟨checked, isInstance, isBody⟩ := Option.bind_eq_some_iff.mp hasBody
    obtain ⟨template, isTemplate, isChecked⟩ := Option.bind_eq_some_iff.mp isInstance
    refine program.templates_inScope key.1 template _ key.2 checked isTemplate isChecked body ?_
      target inside
    first
      | exact List.mem_cons.mpr (.inl (Option.some.inj isBody).symm)
      | exact List.mem_cons_of_mem _ (List.mem_of_getElem? isBody)

end CheckedProgram

/-! ### The invariant of the loop -/

namespace MonoContext

/-- The chain a function is processed with. -/
def chainOf (ctx : MonoContext) (id : FunctionId) : List TypeExpansionFrame :=
  (ctx.genericChains.lookup id).getD []

/-- Declared functions are entered from the start, those of an instance with it. -/
def Entered (ctx : MonoContext) (id : FunctionId) : Prop :=
  ∀ key, id.key? = some key → key ∈ ctx.genericInstances

/-- The numbering gives the instances the numbers of the table. -/
def Agrees (ω : InstanceKey → Nat) (ctx : MonoContext) : Prop :=
  ∀ key id, ctx.closureOwners.genericInstances.lookup key = some id → ω key = id

/-- A function that is queued already, or has no body, is not marked. -/
theorem markFunction_idle (idle : id ∈ ctx.queued ∨ ctx.functionsByDef.lookup id = none) :
    ctx.markFunction id = ctx := by
  rw [markFunction]
  split
  next => rfl
  next busy =>
    obtain queued | none := idle
    · rw [if_pos queued]
    · exact absurd (.inr none) busy

theorem markFunction_new (unprocessed : id ∉ ctx.processed) (fresh : id ∉ ctx.queued)
    (known : ctx.functionsByDef.lookup id ≠ none) :
    ctx.markFunction id =
      { ctx with queued := id :: ctx.queued, worklist := ctx.worklist ++ [id] } := by
  rw [markFunction, if_neg (not_or_intro unprocessed known), if_neg fresh]

/-- Functions of other instances stay as they are when one is entered. -/
theorem lookup_register_of_ne (other : id.key? ≠ some key) :
    (ctx.register key owners checked).functionsByDef.lookup id = ctx.functionsByDef.lookup id := by
  have generic : id ≠ .generic key := fun same => other (by rw [same]; rfl)
  have generated : (checked.generated.zipIdx.map fun entry =>
      (FunctionId.generated key entry.2, entry.1)).lookup id = none := by
    refine lookup_eq_none_of_forall (List.forall_mem_map.mpr fun entry _ same => other ?_)
    rw [← same]
    rfl
  rw [register, List.cons_append, List.lookup_cons, beq_false_of_ne generic, lookup_append,
    generated]
  rfl

/-- The functions of a new instance are those that checking it gave. -/
theorem lookup_register_self (ofKey : id.key? = some key)
    (new : ctx.functionsByDef.lookup id = none) :
    (ctx.register key owners checked).functionsByDef.lookup id = checked.body? id := by
  rw [register, List.cons_append, List.lookup_cons, lookup_append, new, Option.or_none]
  cases id with
  | declared => cases ofKey
  | generic other =>
    cases ofKey
    rw [beq_self_eq_true]
    rfl
  | generated other index =>
    cases ofKey
    have injective : Function.Injective (FunctionId.generated key) := by
      intro a b same
      cases same
      rfl
    have found := lookup_zipIdx injective checked.generated 0 index
    rw [Nat.zero_add] at found
    rw [beq_false_of_ne (by exact nofun), found]
    rfl

end MonoContext

/-- What holds of the state while the functions of a list are being processed. -/
structure Invariant (program : CheckedProgram) (ω : InstanceKey → Nat) (active : List FunctionId)
    (ctx : MonoContext) : Prop where
  entered : ∀ id, ctx.Entered id → ctx.functionsByDef.lookup id = program.bodyOf ω id
  unknown : ∀ id, ¬ctx.Entered id → ctx.functionsByDef.lookup id = none
  noChain : ∀ id, (∀ key ∈ ctx.genericInstances, id ≠ .generic key) →
    ctx.genericChains.lookup id = none
  instances : ∀ key ∈ ctx.genericInstances, .generic key ∈ ctx.queued
  reached : ∀ id ∈ ctx.queued, program.Reachable ω id (ctx.chainOf id)
  known : ∀ id ∈ ctx.queued, ctx.functionsByDef.lookup id ≠ none
  nodup : (ctx.worklist ++ active ++ ctx.processed).Nodup
  queued : ∀ id, id ∈ ctx.queued ↔ id ∈ ctx.worklist ++ active ++ ctx.processed

namespace Invariant

variable {program : CheckedProgram} {ω : InstanceKey → Nat} {active : List FunctionId}
  {ctx : MonoContext}

section

variable (invariant : Invariant program ω active ctx)

include invariant

theorem mem_queued_of_processed (processed : id ∈ ctx.processed) : id ∈ ctx.queued :=
  (invariant.queued id).mpr (List.mem_append_right _ processed)

/-- Putting a new function at the end of the worklist keeps its elements apart. -/
theorem nodup_mark (fresh : id ∉ ctx.queued) :
    ((ctx.worklist ++ [id]) ++ active ++ ctx.processed).Nodup ∧
      ∀ other, other ∈ id :: ctx.queued ↔
        other ∈ (ctx.worklist ++ [id]) ++ active ++ ctx.processed := by
  have perm : List.Perm ((ctx.worklist ++ [id]) ++ active ++ ctx.processed)
      (id :: (ctx.worklist ++ active ++ ctx.processed)) := by
    simp only [List.append_assoc, List.singleton_append]
    exact List.perm_middle
  constructor
  · refine perm.nodup_iff.mpr (List.nodup_cons.mpr ⟨?_, invariant.nodup⟩)
    exact fun inside => fresh ((invariant.queued id).mpr inside)
  · intro other
    rw [perm.mem_iff, List.mem_cons, List.mem_cons, invariant.queued other]

/-- Marking a function that can be reached as it is entered. -/
theorem mark (reached : program.Reachable ω id (ctx.chainOf id)) :
    Invariant program ω active (ctx.markFunction id) := by
  by_cases queued : id ∈ ctx.queued
  · rwa [MonoContext.markFunction_idle (.inl queued)]
  by_cases known : ctx.functionsByDef.lookup id = none
  · rwa [MonoContext.markFunction_idle (.inr known)]
  rw [MonoContext.markFunction_new
    (fun processed => queued (invariant.mem_queued_of_processed processed)) queued known]
  obtain ⟨nodup, members⟩ := invariant.nodup_mark queued
  exact {
    entered := invariant.entered
    unknown := invariant.unknown
    noChain := invariant.noChain
    instances := fun key inside => List.mem_cons_of_mem _ (invariant.instances key inside)
    reached := List.forall_mem_cons.mpr ⟨reached, invariant.reached⟩
    known := List.forall_mem_cons.mpr ⟨known, invariant.known⟩
    nodup := nodup
    queued := members }

theorem mem_queued_mark
    (known : ctx.functionsByDef.lookup id ≠ none) : id ∈ (ctx.markFunction id).queued := by
  by_cases queued : id ∈ ctx.queued
  · rwa [MonoContext.markFunction_idle (.inl queued)]
  · rw [MonoContext.markFunction_new
      (fun processed => queued (invariant.mem_queued_of_processed processed)) queued known]
    exact List.mem_cons_self

end

/-- Entering a new instance that can be reached. -/
theorem register (invariant : Invariant program ω active ctx) (new : key ∉ ctx.genericInstances)
    (isInstance : program.instanceOf ω key = some checked)
    (reached : program.Reachable ω (.generic key) (ctx.currentStack ++ [⟨key.1, key.2⟩])) :
    Invariant program ω active ((ctx.register key owners checked).markFunction (.generic key)) := by
  have absent (id : FunctionId) (ofKey : id.key? = some key) :
      ctx.functionsByDef.lookup id = none :=
    invariant.unknown id fun entered => new (entered key ofKey)
  have self {id : FunctionId} (ofKey : id.key? = some key) :
      (ctx.register key owners checked).functionsByDef.lookup id = checked.body? id :=
    MonoContext.lookup_register_self ofKey (absent id ofKey)
  have rest {id : FunctionId} (other : id.key? ≠ some key) :
      (ctx.register key owners checked).functionsByDef.lookup id = ctx.functionsByDef.lookup id :=
    MonoContext.lookup_register_of_ne other
  have fresh : FunctionId.generic key ∉ ctx.queued := fun queued =>
    invariant.known _ queued (absent _ rfl)
  have known : (ctx.register key owners checked).functionsByDef.lookup (.generic key) ≠ none := by
    rw [self rfl]
    exact nofun
  have chain {id : FunctionId} (other : id ≠ .generic key) :
      (ctx.register key owners checked).genericChains.lookup id = ctx.genericChains.lookup id := by
    rw [MonoContext.register, List.lookup_cons, beq_false_of_ne other]
  have unprocessed : .generic key ∉ (ctx.register key owners checked).processed := fun processed =>
    fresh (invariant.mem_queued_of_processed processed)
  rw [MonoContext.markFunction_new unprocessed fresh known]
  obtain ⟨nodup, members⟩ := invariant.nodup_mark fresh
  constructor
  case entered =>
    intro id entered
    by_cases ofKey : id.key? = some key
    · exact (self ofKey).trans (CheckedProgram.bodyOf_eq isInstance ofKey).symm
    · refine (rest ofKey).trans (invariant.entered id ?_)
      intro other isOther
      refine (List.mem_cons.mp (entered other isOther)).resolve_left fun same => ofKey ?_
      rw [isOther, same]
  case unknown =>
    intro id missing
    have ofKey : id.key? ≠ some key := fun ofKey => missing fun other isOther => by
      cases ofKey.symm.trans isOther
      exact List.mem_cons_self
    refine (rest ofKey).trans (invariant.unknown id fun entered => ?_)
    exact missing fun other isOther => List.mem_cons_of_mem _ (entered other isOther)
  case noChain =>
    intro id other
    refine (chain (other key List.mem_cons_self)).trans (invariant.noChain id fun old inside => ?_)
    exact other old (List.mem_cons_of_mem _ inside)
  case instances =>
    refine List.forall_mem_cons.mpr ⟨List.mem_cons_self, fun old inside => ?_⟩
    exact List.mem_cons_of_mem _ (invariant.instances old inside)
  case reached =>
    refine List.forall_mem_cons.mpr ⟨?_, fun id queued => ?_⟩
    · have own : (ctx.register key owners checked).chainOf (.generic key) =
          ctx.currentStack ++ [⟨key.1, key.2⟩] := by
        rw [MonoContext.chainOf, MonoContext.register, List.lookup_cons, beq_self_eq_true]
        rfl
      exact (own ▸ reached :)
    · have same : (ctx.register key owners checked).chainOf id = ctx.chainOf id := by
        rw [MonoContext.chainOf, MonoContext.chainOf, chain fun isKey => fresh (isKey ▸ queued)]
      exact (same ▸ invariant.reached id queued :)
  case known =>
    refine List.forall_mem_cons.mpr ⟨known, fun id queued => ?_⟩
    have ofKey : id.key? ≠ some key := fun ofKey => invariant.known id queued (absent id ofKey)
    exact fun none => invariant.known id queued ((rest ofKey).symm.trans none)
  case nodup => exact nodup
  case queued => exact members

theorem entered_of_queued (invariant : Invariant program ω active ctx) (queued : id ∈ ctx.queued) :
    ctx.Entered id :=
  not_not.mp fun missing => invariant.known id queued (invariant.unknown id missing)

/-- What a body names is entered with it, and has no chain. -/
theorem entered_of_inScope (invariant : Invariant program ω active ctx) (queued : self ∈ ctx.queued)
    (inScope : id.InScope self.key?) : ctx.Entered id ∧ ctx.chainOf id = [] := by
  have noChain {id : FunctionId} (other : ∀ key, id ≠ .generic key) : ctx.chainOf id = [] := by
    rw [MonoContext.chainOf, invariant.noChain id fun key _ => other key]
    rfl
  cases id with
  | declared defId => exact ⟨nofun, noChain nofun⟩
  | generic key => exact inScope.elim
  | generated key index =>
    refine ⟨fun other same => ?_, noChain nofun⟩
    cases same
    exact invariant.entered_of_queued queued key inScope

end Invariant

/-! ### One body -/

theorem ClosureOwnerTable.intern_spec (table : ClosureOwnerTable) (key : InstanceKey) :
    (table.internGenericInstance key).2.genericInstances.lookup key =
        some (table.internGenericInstance key).1 ∧
      ∀ other id, table.genericInstances.lookup other = some id →
        (table.internGenericInstance key).2.genericInstances.lookup other = some id := by
  rw [internGenericInstance]
  split
  next id found => exact ⟨found, fun _ _ found => found⟩
  next missing =>
    constructor
    · rw [List.lookup_cons, beq_self_eq_true]
    · intro other id found
      have differs : other ≠ key := fun same => by
        rw [same, missing] at found
        cases found
      rw [List.lookup_cons, beq_false_of_ne differs]
      exact found

/-- What a body leaves as it is while it is rewritten, and what only grows. -/
structure MonoContext.Keeps (before after : MonoContext) : Prop where
  processed : after.processed = before.processed
  currentStack : after.currentStack = before.currentStack
  diagnostics : after.diagnostics = before.diagnostics
  queued : ∀ id ∈ before.queued, id ∈ after.queued
  owners : ∀ key id, before.closureOwners.genericInstances.lookup key = some id →
    after.closureOwners.genericInstances.lookup key = some id

namespace MonoContext

theorem Keeps.refl (ctx : MonoContext) : ctx.Keeps ctx :=
  ⟨rfl, rfl, rfl, fun _ inside => inside, fun _ _ found => found⟩

theorem Keeps.trans {a b c : MonoContext} (first : a.Keeps b) (second : b.Keeps c) : a.Keeps c where
  processed := second.processed.trans first.processed
  currentStack := second.currentStack.trans first.currentStack
  diagnostics := second.diagnostics.trans first.diagnostics
  queued := fun id inside => second.queued id (first.queued id inside)
  owners := fun key id found => second.owners key id (first.owners key id found)

theorem Agrees.of_keeps {ω : InstanceKey → Nat} {before after : MonoContext}
    (agrees : after.Agrees ω) (keeps : before.Keeps after) : before.Agrees ω :=
  fun key id found => agrees key id (keeps.owners key id found)

theorem keeps_mark (ctx : MonoContext) (id : FunctionId) : ctx.Keeps (ctx.markFunction id) := by
  rw [markFunction]
  split
  next => exact .refl ctx
  next =>
    split
    next => exact .refl ctx
    next =>
      exact ⟨rfl, rfl, rfl, fun _ inside => List.mem_cons_of_mem _ inside, fun _ _ found => found⟩

theorem genericInstances_mark (ctx : MonoContext) (id : FunctionId) :
    (ctx.markFunction id).genericInstances = ctx.genericInstances := by
  rw [markFunction]
  split
  next => rfl
  next =>
    split
    next => rfl
    next => rfl

theorem keeps_register (ctx : MonoContext) (key : InstanceKey) (checked : CheckedGenericInstance) :
    ctx.Keeps (ctx.register key (ctx.closureOwners.internGenericInstance key).2 checked) :=
  ⟨rfl, rfl, rfl, fun _ inside => inside, (ctx.closureOwners.intern_spec key).2⟩

end MonoContext

namespace CheckedProgram

variable {program : CheckedProgram} {ω : InstanceKey → Nat} {active : List FunctionId}
  {ctx next : MonoContext}

/-- An instance is there, or it is a new one that passes the growth check. -/
theorem instantiateGeneric_ok (ran : program.instantiateGeneric ctx key = .ok next) :
    (key ∈ ctx.genericInstances ∧ next = ctx) ∨
      key ∉ ctx.genericInstances ∧ growthDiagnosed ctx.currentStack key.1 key.2 = false ∧
        ∃ template checked, program.templates key.1 = some template ∧
          template (.genericInstance key.1 (ctx.closureOwners.internGenericInstance key).1) key.2 =
            some checked ∧
          next =
            (ctx.register key (ctx.closureOwners.internGenericInstance key).2 checked).markFunction
            (.generic key) := by
  rw [instantiateGeneric] at ran
  split at ran
  next inside =>
    cases ran
    exact .inl ⟨inside, rfl⟩
  next new =>
    split at ran
    next => cases ran
    next template isTemplate =>
      split at ran
      next => cases ran
      next passes =>
        dsimp only at ran
        split at ran
        next => cases ran
        next checked isChecked =>
          cases ran
          exact .inr
            ⟨new, Bool.eq_false_iff.mpr passes, template, checked, isTemplate, isChecked, rfl⟩

theorem keeps_rewriteRequest (ran : program.rewriteRequest ctx request = .ok next) :
    ctx.Keeps next := by
  cases request with
  | function id =>
    cases ran
    exact MonoContext.keeps_mark _ _
  | generic key =>
    obtain ⟨-, rfl⟩ | ⟨-, -, _, checked, -, -, rfl⟩ := instantiateGeneric_ok ran
    · exact .refl _
    · exact (MonoContext.keeps_register ctx key checked).trans (MonoContext.keeps_mark _ _)

theorem keeps_rewriteBlock (body : List Request) :
    ctx.Keeps (program.rewriteBlock ctx body).1 := by
  induction body generalizing ctx with
  | nil => exact .refl ctx
  | cons request rest ih =>
    rw [rewriteBlock]
    split
    next next ran => exact (keeps_rewriteRequest ran).trans ih
    next => exact .refl ctx

/-- What a request stands for has been taken up, if it has a body. -/
def Handled (program : CheckedProgram) (ω : InstanceKey → Nat) (ctx : MonoContext)
    (request : Request) : Prop :=
  request.target ∈ ctx.queued ∨ program.bodyOf ω request.target = none

theorem Handled.of_keeps (handled : program.Handled ω ctx request) (keeps : ctx.Keeps next) :
    program.Handled ω next request :=
  handled.imp_left (keeps.queued _)

section Body

variable {self : FunctionId} {body : List Request}

theorem rewriteRequest_spec (invariant : Invariant program ω active ctx)
    (queued : self ∈ ctx.queued) (reached : program.Reachable ω self ctx.currentStack)
    (hasBody : program.bodyOf ω self = some body) (inside : request ∈ body)
    (ran : program.rewriteRequest ctx request = .ok next) (agrees : next.Agrees ω) :
    Invariant program ω active next ∧ program.Handled ω next request := by
  cases request with
  | function id =>
    cases ran
    obtain ⟨entered, noChain⟩ := invariant.entered_of_inScope queued (bodyOf_inScope hasBody inside)
    have target := Reachable.plain reached hasBody inside
    rw [← noChain] at target
    refine ⟨invariant.mark target, ?_⟩
    by_cases missing : program.bodyOf ω id = none
    · exact .inr missing
    · rw [← invariant.entered _ entered] at missing
      exact .inl (invariant.mem_queued_mark missing)
  | generic key =>
    obtain ⟨old, rfl⟩ | ⟨new, passes, template, checked, isTemplate, isChecked, rfl⟩ :=
      instantiateGeneric_ok ran
    · exact ⟨invariant, .inl (invariant.instances key old)⟩
    · have number : ω key = (ctx.closureOwners.internGenericInstance key).1 := by
        refine agrees key _ ((MonoContext.keeps_mark _ _).owners key _ ?_)
        exact (ctx.closureOwners.intern_spec key).1
      have isInstance : program.instanceOf ω key = some checked := by
        rw [instanceOf, isTemplate, number]
        exact isChecked
      have registered : Invariant program ω active ((ctx.register key
          (ctx.closureOwners.internGenericInstance key).2 checked).markFunction (.generic key)) :=
        invariant.register new isInstance (.generic reached hasBody inside passes)
      exact ⟨registered, .inl (registered.instances key
        ((MonoContext.genericInstances_mark _ _).symm ▸ List.mem_cons_self))⟩

/-- A body that is rewritten keeps the invariant. Without a diagnostic all its requests
are handled. -/
theorem rewriteBlock_spec (hasBody : program.bodyOf ω self = some body) {requests : List Request}
    (within : ∀ request ∈ requests, request ∈ body) (invariant : Invariant program ω active ctx)
    (queued : self ∈ ctx.queued) (reached : program.Reachable ω self ctx.currentStack)
    (agrees : (program.rewriteBlock ctx requests).1.Agrees ω) :
    Invariant program ω active (program.rewriteBlock ctx requests).1 ∧
      ((program.rewriteBlock ctx requests).2 = none → ∀ request ∈ requests,
        program.Handled ω (program.rewriteBlock ctx requests).1 request) := by
  induction requests generalizing ctx with
  | nil => exact ⟨invariant, by simp⟩
  | cons request rest ih =>
    obtain ⟨here, later⟩ := List.forall_mem_cons.mp within
    rw [rewriteBlock] at agrees ⊢
    split at agrees
    next next ran =>
      have keeps := keeps_rewriteRequest ran
      have after : next.Keeps (program.rewriteBlock next rest).1 := keeps_rewriteBlock rest
      obtain ⟨invariant', handled⟩ := rewriteRequest_spec invariant queued reached hasBody here ran
        (agrees.of_keeps after)
      obtain ⟨final, others⟩ := ih later invariant' (keeps.queued self queued)
        (keeps.currentStack ▸ reached) agrees
      refine ⟨final, fun silent => List.forall_mem_cons.mpr ⟨?_, others silent⟩⟩
      exact handled.of_keeps after
    next => exact ⟨invariant, nofun⟩

end Body

/-! ### The loop -/

/-- All requests of a processed function are handled. -/
def Closed (program : CheckedProgram) (ω : InstanceKey → Nat) (ctx : MonoContext) : Prop :=
  ∀ id ∈ ctx.processed, ∀ body, program.bodyOf ω id = some body → ∀ request ∈ body,
    program.Handled ω ctx request

theorem step_cons {rest : List FunctionId} (worklist : ctx.worklist = id :: rest)
    {body : List Request} (unprocessed : id ∉ ctx.processed)
    (known : ctx.functionsByDef.lookup id = some body) :
    program.step ctx =
      let ran := program.rewriteBlock
        { ctx with worklist := rest, currentStack := ctx.chainOf id } body
      { ran.1 with
        diagnostics := ran.1.diagnostics ++ ran.2.toList
        currentStack := ctx.currentStack
        processed := id :: ran.1.processed } := by
  rw [step, worklist]
  simp only [processFunction, if_neg unprocessed, known]
  rfl

/-- One round of the loop: the first function of the worklist is processed. -/
theorem step_spec (invariant : Invariant program ω [] ctx) {rest : List FunctionId}
    (worklist : ctx.worklist = id :: rest) (agrees : (program.step ctx).Agrees ω) :
    Invariant program ω [] (program.step ctx) ∧
      (program.step ctx).processed = id :: ctx.processed ∧
      (∀ other ∈ ctx.queued, other ∈ (program.step ctx).queued) ∧
      ((program.step ctx).diagnostics = [] → ctx.diagnostics = [] ∧
        (program.Closed ω ctx → program.Closed ω (program.step ctx))) := by
  have inside : id ∈ ctx.queued := by
    rw [invariant.queued, worklist]
    simp
  have nodup : (id :: (rest ++ ctx.processed)).Nodup := by
    have := invariant.nodup
    rwa [worklist, List.append_nil, List.cons_append] at this
  obtain ⟨notInside, others⟩ := List.nodup_cons.mp nodup
  have unprocessed : id ∉ ctx.processed := fun processed =>
    notInside (List.mem_append_right _ processed)
  have entered := invariant.entered id (invariant.entered_of_queued inside)
  obtain ⟨body, known⟩ := Option.ne_none_iff_exists'.mp (invariant.known id inside)
  have hasBody : program.bodyOf ω id = some body := entered.symm.trans known
  -- the function is taken from the worklist and is active now
  have started : Invariant program ω [id]
      { ctx with worklist := rest, currentStack := ctx.chainOf id } := {
    entered := invariant.entered
    unknown := invariant.unknown
    noChain := invariant.noChain
    instances := invariant.instances
    reached := invariant.reached
    known := invariant.known
    nodup := by
      refine List.Perm.nodup_iff ?_ |>.mpr nodup
      rw [List.append_assoc]
      exact List.perm_middle
    queued := by
      intro other
      rw [invariant.queued other, worklist]
      simp [or_left_comm] }
  have reached : program.Reachable ω id (ctx.chainOf id) := invariant.reached id inside
  have keeps : ({ ctx with worklist := rest, currentStack := ctx.chainOf id } : MonoContext).Keeps
      (program.rewriteBlock { ctx with worklist := rest, currentStack := ctx.chainOf id } body).1 :=
    keeps_rewriteBlock body
  rw [step_cons worklist unprocessed known] at agrees ⊢
  obtain ⟨final, handled⟩ :=
    rewriteBlock_spec hasBody (fun _ inside => inside) started inside reached
    agrees
  generalize program.rewriteBlock { ctx with worklist := rest, currentStack := ctx.chainOf id }
    body = ran at agrees final handled keeps ⊢
  refine ⟨?_, congrArg (id :: ·) keeps.processed, keeps.queued, fun silent => ?_⟩
  · exact {
      entered := final.entered
      unknown := final.unknown
      noChain := final.noChain
      instances := final.instances
      reached := final.reached
      known := final.known
      nodup := by simpa using final.nodup
      queued := by simpa using final.queued }
  · obtain ⟨before, quiet⟩ := List.append_eq_nil_iff.mp silent
    have finished : ran.2 = none := Option.toList_eq_nil_iff.mp quiet
    refine ⟨keeps.diagnostics.symm.trans before, fun closed => ?_⟩
    refine List.forall_mem_cons.mpr
      ⟨fun body' hasBody' request inside' => ?_, fun other processed => ?_⟩
    · cases hasBody.symm.trans hasBody'
      exact handled finished request inside'
    · intro body' hasBody' request inside'
      rw [keeps.processed] at processed
      exact (closed other processed body' hasBody' request inside').imp_left (keeps.queued _)

theorem initial_invariant : Invariant program ω [] program.initial where
  entered := by
    intro id entered
    cases id with
    | declared defId =>
      have injective : Function.Injective FunctionId.declared := by
        intro a b same
        cases same
        rfl
      exact lookup_map_key injective program.functions defId
    | generic key | generated key => cases entered key rfl
  unknown := by
    intro id missing
    refine lookup_eq_none_of_forall (List.forall_mem_map.mpr fun entry _ same => missing ?_)
    rw [← same]
    intro key isKey
    cases isKey
  noChain := fun _ _ => rfl
  instances := by simp [initial]
  reached := by simp [initial]
  known := by simp [initial]
  nodup := by simp [initial]
  queued := by simp [initial]

variable (program ω) in
theorem start_spec : Invariant program ω [] program.start ∧ program.start.processed = [] ∧
    program.start.diagnostics = [] ∧
    ∀ defId ∈ program.roots, FunctionId.declared defId ∈ program.start.queued ∨
      program.bodyOf ω (.declared defId) = none := by
  have mark {roots : List DefId} (within : ∀ defId ∈ roots, defId ∈ program.roots) :
      ∀ ctx, Invariant program ω [] ctx →
        Invariant program ω []
          (roots.foldl (fun ctx defId => ctx.markFunction (.declared defId)) ctx) ∧
        ctx.Keeps (roots.foldl (fun ctx defId => ctx.markFunction (.declared defId)) ctx) ∧
        ∀ defId ∈ roots, FunctionId.declared defId ∈
            (roots.foldl (fun ctx defId => ctx.markFunction (.declared defId)) ctx).queued ∨
          program.bodyOf ω (.declared defId) = none := by
    induction roots with
    | nil => exact fun ctx invariant => ⟨invariant, .refl ctx, by simp⟩
    | cons defId rest ih =>
      intro ctx invariant
      obtain ⟨here, later⟩ := List.forall_mem_cons.mp within
      have noChain : ctx.chainOf (.declared defId) = [] := by
        rw [MonoContext.chainOf, invariant.noChain _ fun _ _ same => by cases same]
        rfl
      have marked := invariant.mark (noChain ▸ Reachable.root here)
      obtain ⟨final, keeps, handled⟩ := ih later _ marked
      refine ⟨final, (MonoContext.keeps_mark ctx _).trans keeps,
        List.forall_mem_cons.mpr ⟨?_, handled⟩⟩
      by_cases missing : program.bodyOf ω (.declared defId) = none
      · exact .inr missing
      · have known : ctx.functionsByDef.lookup (.declared defId) ≠ none := by
          rwa [invariant.entered _ fun _ same => by cases same]
        exact .inl (keeps.queued _ (invariant.mem_queued_mark known))
  obtain ⟨invariant, keeps, handled⟩ :=
    mark (fun _ inside => inside) program.initial initial_invariant
  exact ⟨invariant, keeps.processed, keeps.diagnostics, handled⟩

/-- Numbers of instances are never changed. -/
theorem owners_step {id : Nat} (found : ctx.closureOwners.genericInstances.lookup key = some id) :
    (program.step ctx).closureOwners.genericInstances.lookup key = some id := by
  rw [step]
  split
  next => exact found
  next rest _ =>
    rw [processFunction]
    split
    next => exact found
    next =>
      split
      next => exact found
      next body _ => exact (keeps_rewriteBlock body).owners key id found

theorem owners_after {rounds more : Nat} (le : rounds ≤ more) {id : Nat}
    (found : (program.after rounds).closureOwners.genericInstances.lookup key = some id) :
    (program.after more).closureOwners.genericInstances.lookup key = some id := by
  induction le with
  | refl => exact found
  | step _ ih =>
    rw [after_succ]
    exact owners_step ih

open Classical in
/-- The numbers that the instances get in the whole run. -/
noncomputable def numbering (program : CheckedProgram) (key : InstanceKey) : Nat :=
  if numbered : ∃ id rounds, (program.after rounds).closureOwners.genericInstances.lookup key =
    some id
  then numbered.choose else 0

variable (program) in
theorem agrees_numbering (rounds : Nat) : (program.after rounds).Agrees program.numbering := by
  intro key id found
  have numbered : ∃ id rounds,
      (program.after rounds).closureOwners.genericInstances.lookup key = some id :=
    ⟨id, rounds, found⟩
  rw [numbering, dif_pos numbered]
  obtain ⟨other, found'⟩ := numbered.choose_spec
  have here := owners_after (Nat.le_max_left rounds other) found
  have there := owners_after (Nat.le_max_right rounds other) found'
  exact Option.some.inj (there.symm.trans here)

variable (program) in
/-- The state after any number of rounds. -/
theorem after_spec (rounds : Nat) :
    Invariant program program.numbering [] (program.after rounds) ∧
      ((program.after rounds).diagnostics = [] →
        program.Closed program.numbering (program.after rounds)) ∧
      ∀ defId ∈ program.roots, FunctionId.declared defId ∈ (program.after rounds).queued ∨
        program.bodyOf program.numbering (.declared defId) = none := by
  induction rounds with
  | zero =>
    obtain ⟨invariant, processed, -, roots⟩ := start_spec program program.numbering
    refine ⟨invariant, fun _ id inside => ?_, roots⟩
    rw [show (program.after 0).processed = [] from processed] at inside
    cases inside
  | succ rounds ih =>
    obtain ⟨invariant, closed, roots⟩ := ih
    have agrees := agrees_numbering program (rounds + 1)
    rw [after_succ] at agrees ⊢
    cases worklist : (program.after rounds).worklist with
    | nil =>
      have same : program.step (program.after rounds) = program.after rounds := by
        rw [step, worklist]
      rw [same]
      exact ⟨invariant, closed, roots⟩
    | cons id rest =>
      obtain ⟨invariant', -, queued, silent⟩ := step_spec invariant worklist agrees
      refine ⟨invariant', fun none => ?_, fun defId isRoot => (roots defId isRoot).imp_left ?_⟩
      · obtain ⟨before, step⟩ := silent none
        exact step (closed before)
      · exact queued _

end CheckedProgram

end Ciel.Mono
