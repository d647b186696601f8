import Mathlib.Logic.Function.Iterate
import Ciel.Mono.Growth

/-!
# The worklist of function instances

Monomorphization starts with the functions that are always compiled and follows
what their bodies refer to. A reference to a generic function names the type
arguments, and the first such reference creates the instance: its body is checked
with the type arguments put in, and it is put on the worklist. Checking the body
may also generate functions, for implementations it uses.

Each instance keeps the chain of expansions that led to it. A closure literal in a
generic body has a type of its own in every instance: the checker numbers the
instances and makes the number part of the closure's type.

Checking a body is not modelled. It may give any references, depending on the type
arguments and on the number of the instance. The fresh ids of instances and of
generated functions are modelled by what they are made for. A generated function that
the checker finds again for a later instance is modelled as one of that instance.
-/

namespace Ciel.Mono

open Ciel.Types

/-- A template and its type arguments. -/
abbrev InstanceKey := DefId × List Ty

/-- `ClosureOwnerTable`. -/
structure ClosureOwnerTable where
  genericInstances : List (InstanceKey × Nat)
  nextGenericInstance : Nat

/-- `intern_generic_instance`. -/
def ClosureOwnerTable.internGenericInstance (table : ClosureOwnerTable) (key : InstanceKey) :
    Nat × ClosureOwnerTable :=
  match table.genericInstances.lookup key with
  | some id => (id, table)
  | none => (table.nextGenericInstance,
      ⟨(key, table.nextGenericInstance) :: table.genericInstances, table.nextGenericInstance + 1⟩)

/-- Functions, by where they come from. -/
inductive FunctionId
  | declared (defId : DefId)
  | generic (key : InstanceKey)
  | generated (key : InstanceKey) (index : Nat)
  deriving DecidableEq

/-- The instance that a function belongs to. -/
def FunctionId.key? : FunctionId → Option InstanceKey
  | declared _ => none
  | generic key | generated key _ => some key

/-- The functions that a body may name, by the instance it belongs to. An instance of a
generic function is not named but asked for. -/
def FunctionId.InScope (owner : Option InstanceKey) : FunctionId → Prop
  | declared _ => True
  | generic _ => False
  | generated key _ => owner = some key

/-- What a body refers to: a function, or a generic function at type arguments. -/
inductive Request
  | function (id : FunctionId)
  | generic (key : InstanceKey)
  deriving DecidableEq

/-- The function that a request stands for. -/
def Request.target : Request → FunctionId
  | function id => id
  | generic key => .generic key

/-- What checking an instance gives: its body, and generated functions. -/
structure CheckedGenericInstance where
  function : List Request
  generated : List (List Request)

/-- A checked program. `templates` is the checker: from the closure owner of an
instance and its type arguments it gives the instance, if there are no diagnostics. -/
structure CheckedProgram where
  functions : List (DefId × List Request)
  roots : List DefId
  templates : DefId → Option (ClosureOwnerId → List Ty → Option CheckedGenericInstance)
  functions_inScope : ∀ entry ∈ functions, ∀ id, .function id ∈ entry.2 → id.InScope none
  templates_inScope : ∀ defId template owner args checked, templates defId = some template →
    template owner args = some checked → ∀ body ∈ checked.function :: checked.generated,
      ∀ id, .function id ∈ body → id.InScope (some (defId, args))

/-- The growth diagnostic notes the chain, with the instance that is refused last. -/
inductive MonoDiagnostic
  | missingTemplate (defId : DefId)
  | infiniteGenericInstantiation (defId : DefId) (chain : List TypeExpansionFrame)
  | rejectedInstance (defId : DefId)
  deriving DecidableEq

structure MonoContext where
  functionsByDef : List (FunctionId × List Request)
  genericChains : List (FunctionId × List TypeExpansionFrame)
  processed : List FunctionId
  queued : List FunctionId
  worklist : List FunctionId
  genericInstances : List InstanceKey
  closureOwners : ClosureOwnerTable
  currentStack : List TypeExpansionFrame
  diagnostics : List MonoDiagnostic

namespace MonoContext

/-- `mark_function`. -/
def markFunction (ctx : MonoContext) (id : FunctionId) : MonoContext :=
  if id ∈ ctx.processed ∨ ctx.functionsByDef.lookup id = none then ctx
  else if id ∈ ctx.queued then ctx
  else { ctx with queued := id :: ctx.queued, worklist := ctx.worklist ++ [id] }

/-- Enter a checked instance, with its generated functions and its chain. -/
def register (ctx : MonoContext) (key : InstanceKey) (owners : ClosureOwnerTable)
    (checked : CheckedGenericInstance) : MonoContext :=
  { ctx with
    closureOwners := owners
    functionsByDef := (.generic key, checked.function) ::
      (checked.generated.zipIdx.map fun entry => (.generated key entry.2, entry.1)) ++
      ctx.functionsByDef
    genericInstances := key :: ctx.genericInstances
    genericChains := (.generic key, ctx.currentStack ++ [⟨key.1, key.2⟩]) :: ctx.genericChains }

end MonoContext

namespace CheckedProgram

variable (program : CheckedProgram)

/-- `instantiate_generic`. -/
def instantiateGeneric (ctx : MonoContext) (key : InstanceKey) :
    Except MonoDiagnostic MonoContext :=
  if key ∈ ctx.genericInstances then .ok ctx
  else
    match program.templates key.1 with
    | none => .error (.missingTemplate key.1)
    | some template =>
      if growthDiagnosed ctx.currentStack key.1 key.2 then
        .error (.infiniteGenericInstantiation key.1 (ctx.currentStack ++ [⟨key.1, key.2⟩]))
      else
        let (id, owners) := ctx.closureOwners.internGenericInstance key
        match template (.genericInstance key.1 id) key.2 with
        | none => .error (.rejectedInstance key.1)
        | some checked => .ok ((ctx.register key owners checked).markFunction (.generic key))

/-- A reference in the body of a function. -/
def rewriteRequest (ctx : MonoContext) : Request → Except MonoDiagnostic MonoContext
  | .function id => .ok (ctx.markFunction id)
  | .generic key => program.instantiateGeneric ctx key

/-- `rewrite_block`: the references of a body in order, up to the first diagnostic. -/
def rewriteBlock : MonoContext → List Request → MonoContext × Option MonoDiagnostic
  | ctx, [] => (ctx, none)
  | ctx, request :: rest =>
    match program.rewriteRequest ctx request with
    | .ok ctx => rewriteBlock ctx rest
    | .error diagnostic => (ctx, some diagnostic)

/-- `process_function`. -/
def processFunction (ctx : MonoContext) (id : FunctionId) : MonoContext :=
  if id ∈ ctx.processed then ctx
  else
    match ctx.functionsByDef.lookup id with
    | none => ctx
    | some body =>
      let chain := (ctx.genericChains.lookup id).getD []
      let (next, diagnostic) := program.rewriteBlock { ctx with currentStack := chain } body
      { next with
        diagnostics := next.diagnostics ++ diagnostic.toList
        currentStack := ctx.currentStack
        processed := id :: next.processed }

/-- One round of the loop in `run`. -/
def step (ctx : MonoContext) : MonoContext :=
  match ctx.worklist with
  | [] => ctx
  | id :: rest => program.processFunction { ctx with worklist := rest } id

/-- `MonoContext::new`. -/
def initial : MonoContext where
  functionsByDef := program.functions.map fun entry => (.declared entry.1, entry.2)
  genericChains := []
  processed := []
  queued := []
  worklist := []
  genericInstances := []
  closureOwners := ⟨[], 0⟩
  currentStack := []
  diagnostics := []

/-- The roots are marked before the loop. -/
def start : MonoContext :=
  program.roots.foldl (fun ctx defId => ctx.markFunction (.declared defId)) program.initial

/-- The state after a number of rounds. -/
def after (rounds : Nat) : MonoContext := program.step^[rounds] program.start

theorem after_succ (rounds : Nat) :
    program.after (rounds + 1) = program.step (program.after rounds) :=
  Function.iterate_succ_apply' _ _ _

/-- The worklist becomes empty. The diagnostics, if any, are reported then. -/
def Ends : Prop := ∃ rounds, (program.after rounds).worklist = []

end CheckedProgram

end Ciel.Mono
