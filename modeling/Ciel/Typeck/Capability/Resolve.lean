import Ciel.Library.Memo
import Ciel.Typeck.Capability.Table

/-!
# Cached resolution

The checker decides queries while it checks bodies, with
`type_implements_capability_by_def`. A cache is asked first. The query itself is
decided by `type_implements_capability_for_receiver`, which is guarded by the
stack of queries in progress and tries what the compiler decides on its own before
the implementations. A template that matches is instantiated: the instance is a
concrete implementation from then on, and is found without looking at its
constraints again.

Unlike the search over the table alone, all templates are tried and all their
constraints are checked. A header is matched as arguments are, up to weaker views, and
only a template whose constraints hold is compared with exactly what was asked. Two
templates that are left are an ambiguity: the query is answered no with a diagnostic,
and an answer with a new diagnostic is not put into the cache. Diagnostics of a
constraint that fails are dropped again.

Both the cache and the instances are answers that are kept, so the checker's
search is a guarded search with a memo. What depends on the standard library's
interfaces and on the representation of types for reflection enters as functions
of the query, and what the marker of spawnable futures needs to know of a state as a
computation that asks queries. Types are without holes.
-/

namespace Ciel.Typeck.Capability

open Ciel.Types
open Library (Ask Goal Plan Memo)

/-- Whether a query is satisfied, and whether a diagnostic was given. -/
structure Answer where
  implements : Bool
  diagnosed : Bool
  deriving DecidableEq, Repr

namespace Answer

def yes : Answer := ⟨true, false⟩

def no : Answer := ⟨false, false⟩

/-- Two templates match. -/
def ambiguous : Answer := ⟨false, true⟩

/-- Add the diagnostics of what was decided before. -/
def after (answer earlier : Answer) : Answer :=
  ⟨answer.implements, earlier.diagnosed || answer.diagnosed⟩

def all : List Answer := [⟨true, true⟩, ⟨true, false⟩, ⟨false, true⟩, ⟨false, false⟩]

theorem mem_all (answer : Answer) : answer ∈ all := by
  obtain ⟨_ | _, _ | _⟩ := answer <;> decide

end Answer

/-- What is decided on the way: a query through the cache, a query past the cache,
and whether there is an implementation for given types. -/
inductive Step
  | byDef (key : CapabilityCheckKey)
  | forReceiver (key : CapabilityCheckKey)
  | implFor (interfaceDef : DefId) (interfaceArgs : List Ty) (receiverTy : Ty)
  deriving DecidableEq, Repr

/-- What matching types depends on besides the types. -/
structure Inference where
  /-- `meta_repr_storage_equivalent`. -/
  storageEquivalent : Ty → Ty → Bool
  /-- What `substitute_ty_normalized` does after the substitution. -/
  normalize : Ty → Ty
  /-- `std_async_future_output_arg`. -/
  futureOutput : Ty → Option Ty
  /-- `std_async_future_accepts_generated`. -/
  futureAccepts : Ty → Ty → Bool

section Inference

variable (unify : Ty → Ty → TySubst → Option TySubst)

def unifyAll : List Ty → List Ty → TySubst → Option TySubst
  | [], [], subst => some subst
  | pattern :: patterns, actual :: actuals, subst =>
    (unify pattern actual subst).bind (unifyAll patterns actuals)
  | _, _, _ => none

/-- `unify_constraint_refs_for_inference`. -/
def unifyRefsForInference : List ConstraintRef → List ConstraintRef → TySubst → Option TySubst
  | [], _, subst => some subst
  | first :: rest, actual, subst => actual.findSome? fun candidate =>
    if first.name = candidate.name then
      (unifyAll unify first.args candidate.args subst).bind (unifyRefsForInference rest actual)
    else none

end Inference

namespace Inference

variable (inference : Inference)

/-- `unify_ty_for_inference`, down to a depth: a pattern is matched up to weaker views, a
slice also with an array and a future of the standard library with a generated one. -/
def unifyTyForInference : (depth : Nat) → Ty → Ty → TySubst → Option TySubst
  | 0, _, _, _ => none
  | depth + 1, pattern, actual, subst =>
    let unify := unifyTyForInference depth
    let pattern := inference.normalize (substituteTy subst pattern)
    if inference.storageEquivalent pattern actual then some subst
    else match pattern, actual with
    | .opaqueState base _, actual => unify base actual subst
    | pattern, .opaqueState base _ => unify pattern base subst
    | .generic name, actual =>
      match subst.lookup name with
      | none => some ((name, actual) :: subst)
      | some existing =>
        if inference.storageEquivalent existing actual then some subst
        else if existing = .generic name then some ((name, actual) :: subst)
        else (unify existing actual subst).map ((name, existing) :: ·)
    | .pointer nullable mutability inner, .pointer nullable' mutability' inner' =>
      if (nullable || !nullable') && pointerViewCanWeaken mutability mutability' then
        unify inner inner' subst
      else none
    | .array len elem, .array len' elem' => if len = len' then unify elem elem' subst else none
    | .slice mutability elem, .slice mutability' elem' =>
      if pointerViewCanWeaken mutability mutability' then unify elem elem' subst else none
    | .slice _ elem, .array _ elem' => unify elem elem' subst
    | .named defId name args, .named defId' name' args' =>
      if namedTyIdentityEq defId name defId' name' then unifyAll unify args args' subst else none
    | .named defId name args, .generatedFuture _ output _ _ _ _ =>
      (inference.futureOutput (.named defId name args)).bind (unify · output subst)
    | .dynamicInterface defId _ args, .dynamicInterface defId' _ args' =>
      if defId = defId' then unifyAll unify args args' subst else none
    | .function isUnsafe abi ret params, .function isUnsafe' abi' ret' params' =>
      if isUnsafe = isUnsafe' ∧ abi = abi' then
        (unify ret ret' subst).bind (unifyAll unify params params')
      else none
    | .closure ret params constraints, .closure ret' params' constraints' =>
      (((unify ret ret' subst).bind (unifyAll unify params params')).bind
        (unifyRefsForInference unify constraints.positive constraints'.positive)).bind
        (unifyRefsForInference unify constraints.negative constraints'.negative)
    | .closure ret params _, .closureInstance _ ret' params' _ =>
      (unify ret ret' subst).bind (unifyAll unify params params')
    | .closureInstance id ret params captures, .closureInstance id' ret' params' captures' =>
      if id = id' then
        ((unify ret ret' subst).bind (unifyAll unify params params')).bind
          (unifyAll unify captures captures')
      else none
    | pattern, actual => if pattern = actual then some subst else none

/-- `impl_term_ty_equivalent`. -/
def implTermTyEquivalent (candidate required : Ty) : Bool :=
  inference.storageEquivalent candidate required || inference.futureAccepts candidate required ||
    inference.futureAccepts required candidate

end Inference

/-- The checker's context. The functions stand for what it knows about the standard
library's interfaces and about representations; nothing is assumed of them but that
a representation needs no further one. -/
structure Checker extends ImplTable where
  inference : Inference
  /-- How deep types are matched. -/
  matchDepth : Nat
  /-- Interfaces that are decided with the opaque state of the receiver. -/
  readsState : DefId → Bool
  /-- `meta_repr_owned_message_witness_ty`, for the clone interface of messages. -/
  messageWitness : CapabilityCheckKey → Option Ty
  /-- `meta_repr_constraint_receiver_ty`. -/
  storageTy : Ty → Ty
  /-- Message interfaces that an affine type does not implement. -/
  rejects : CapabilityCheckKey → Bool
  /-- Message interfaces that a closure implements only if its captures do. -/
  asksCaptures : DefId → Bool
  /-- The marker of futures that can be spawned. -/
  isSpawnableMarker : DefId → Bool
  /-- `spawnable_future_state_violation`: whether there is one, with the queries about the
  types of a future's state that are asked to find out. -/
  spawnableFutureStateViolation : Ty → Ask CapabilityCheckKey Bool Bool
  /-- A generated future, or one of the standard library. -/
  isFuture : Ty → Bool
  /-- What the compiler provides itself, and the interfaces of generated futures. -/
  decides : CapabilityCheckKey → Option Bool
  /-- `generic_impl_matches_without_constraints`, for two interfaces of futures. -/
  unconstrained : CapabilityCheckKey → Bool
  /-- `lower_opaque_returns_in_ty`. -/
  lowerOpaqueReturns : Ty → Ty
  witness_once : ∀ key sopTy, messageWitness key = some sopTy →
    messageWitness { key with receiverTy := sopTy } = none

/-- A bound is the capability that a query asks for. -/
def isCapability (interfaceDef : DefId) (args : List Ty) (entry : ConstraintRef) : Bool :=
  entry.defId == interfaceDef && decide (entry.args = args)

/-- `opaque_return_bounds_forbid` and `opaque_return_bounds_prove`. -/
def opaqueReturnAnswer (key : CapabilityCheckKey) : Option Bool :=
  match key.receiverTy with
  | .opaqueReturn _ _ bounds =>
    if bounds.negative.any (isCapability key.interfaceDef key.args) then some false
    else if bounds.positive.any (isCapability key.interfaceDef key.args) then some true
    else none
  | _ => none

/-- `retained_closure_proves_capability`. -/
def retainedClosureProves (key : CapabilityCheckKey) : Bool :=
  match key.receiverTy with
  | .closure _ _ constraints => constraints.positive.any (isCapability key.interfaceDef key.args)
  | _ => false

def captures : Ty → List Ty
  | .closureInstance _ _ _ captures => captures
  | _ => []

/-- Each of the types implements the interface of the query. -/
def askEach (key : CapabilityCheckKey) : List Ty → Answer → Ask Step Answer Answer
  | [], earlier => pure earlier
  | ty :: rest, earlier => .ask (.byDef { key with receiverTy := ty }) fun answer =>
    if answer.implements then askEach key rest (answer.after earlier)
    else pure (answer.after earlier)

/-- `check_generic_constraints`: whether it gives no diagnostic. Every constraint is
checked, also after one that fails. -/
def checkGoals : List (Goal CapabilityCheckKey) → Ask Step Answer Bool
  | [] => pure true
  | .check ok :: rest => do
      let others ← checkGoals rest
      pure (ok && others)
  | .pos key :: rest => .ask (.byDef key) fun answer => do
      let others ← checkGoals rest
      pure (decide (answer = .yes) && others)
  | .neg key :: rest => .ask (.byDef key) fun answer => do
      let others ← checkGoals rest
      pure (decide (answer = .no) && others)

/-- A computation that asks queries through the cache, with whether one of them gave a
diagnostic. -/
def throughCache {R : Type} : Ask CapabilityCheckKey Bool R → Bool → Ask Step Answer (R × Bool)
  | .done result, diagnosed => pure (result, diagnosed)
  | .ask key next, diagnosed => .ask (.byDef key) fun answer =>
    throughCache (next answer.implements) (diagnosed || answer.diagnosed)

/-- `find_impl_by_full_args`. -/
def ImplSig.isForTerm (implementation : ImplSig) (interfaceDef : DefId) (interfaceArgs : List Ty)
    (receiverTy : Ty) : Bool :=
  implementation.interfaceDef == interfaceDef &&
    decide (implementation.interfaceArgs = interfaceArgs) &&
    decide (implementation.receiverTy = some receiverTy)

namespace Checker

variable (checker : Checker)

/-- The constraints of a template, as `check_generic_constraints` goes through them:
a parameter without a type is passed over. -/
def checkedGoals (template : GenericImplTemplate) (subst : TySubst) :
    List (Goal CapabilityCheckKey) :=
  template.genericConstraints.flatMap fun constraint =>
    match subst.lookup constraint.name with
    | none => []
    | some concrete => checker.parameterGoals subst constraint concrete

/-- The types that the parameters of a template stand for, inferred from the types of an
implementation. -/
def inferTerm (interfaceDef : DefId) (interfaceArgs : List Ty) (receiverTy : Ty)
    (template : GenericImplTemplate) : Option TySubst :=
  let unify := checker.inference.unifyTyForInference checker.matchDepth
  if template.interfaceDef = interfaceDef then
    ((unifyAll unify template.interfaceArgs interfaceArgs (selfSubst template.generics)).bind
      fun subst => match template.receiverTy with
        | some pattern => unify pattern receiverTy subst
        | none => some subst).filter (·.bindsAll template.generics)
  else none

/-- The instance of a template is for exactly the types that were asked for. -/
def isTerm (interfaceArgs : List Ty) (receiverTy : Ty) (template : GenericImplTemplate)
    (subst : TySubst) : Bool :=
  let fits (pattern required : Ty) : Bool := checker.inference.implTermTyEquivalent
    (checker.inference.normalize (substituteTy subst pattern)) required
  (template.interfaceArgs.zip interfaceArgs).all
    (fun (pattern, required) => fits pattern required) &&
    template.receiverTy.all (fits · receiverTy)

/-- How many of the templates match with constraints that hold. -/
def countMatches (interfaceDef : DefId) (interfaceArgs : List Ty) (receiverTy : Ty) :
    List GenericImplTemplate → Ask Step Answer Nat
  | [] => pure 0
  | template :: rest =>
    match checker.inferTerm interfaceDef interfaceArgs receiverTy template with
    | none => countMatches interfaceDef interfaceArgs receiverTy rest
    | some subst => do
        -- the constraints are checked before the instance is compared with what was asked
        let holds ← checkGoals (checker.checkedGoals template subst)
        let others ← countMatches interfaceDef interfaceArgs receiverTy rest
        pure (if holds && checker.isTerm interfaceArgs receiverTy template subst then others + 1
          else others)

/-- `instantiate_generic_impl`. -/
def instantiateGenericImpl (interfaceDef : DefId) (interfaceArgs : List Ty) (receiverTy : Ty) :
    Ask Step Answer Answer :=
  if checker.impls.any (·.isForTerm interfaceDef interfaceArgs receiverTy) then pure .yes
  else do
    let matching ← checker.countMatches interfaceDef interfaceArgs receiverTy checker.genericImpls
    pure (match matching with
      | 0 => .no
      | 1 => .yes
      | _ => .ambiguous)

variable (key : CapabilityCheckKey)

/-- The types that are looked up for a query. An opaque return is looked up as the
type behind it, if its bounds prove the capability. -/
def lookupTerm : Option (List Ty × Ty) :=
  let receiverTy := key.receiverTy.stripOpaqueState
  let interfaceArgs := key.fullArgs.map Ty.stripOpaqueState
  match receiverTy with
  | .opaqueReturn _ _ bounds =>
    if bounds.positive.any (isCapability key.interfaceDef interfaceArgs.tail) then
      let concrete := checker.lowerOpaqueReturns receiverTy
      if concrete = receiverTy then some (interfaceArgs, receiverTy)
      else some (interfaceArgs.map fun arg => (checker.lowerOpaqueReturns arg).stripOpaqueState,
        concrete.stripOpaqueState)
    else none
  | _ => some (interfaceArgs, receiverTy)

/-- `find_or_instantiate_impl_by_full_args_optional_span`. -/
def findOrInstantiateImpl : Ask Step Answer Answer :=
  match checker.lookupTerm key with
  | none => pure .no
  | some (interfaceArgs, receiverTy) =>
    .ask (.implFor key.interfaceDef interfaceArgs receiverTy) fun first =>
      let storageArgs := interfaceArgs.map checker.storageTy
      let storageReceiver := checker.storageTy receiverTy
      if first.implements || decide (storageArgs = interfaceArgs ∧ storageReceiver = receiverTy)
      then pure first
      else .ask (.implFor key.interfaceDef storageArgs storageReceiver) fun second =>
        pure (second.after first)

/-- `type_implements_spawnable_future_marker`. -/
def typeImplementsSpawnableFutureMarker : Ask Step Answer Answer := do
  let (violated, diagnosed) ←
    throughCache (checker.spawnableFutureStateViolation key.receiverTy) false
  let baseTy := key.receiverTy.stripOpaqueState
  if violated then pure ⟨false, diagnosed⟩
  else if checker.isFuture baseTy then pure ⟨true, diagnosed⟩
  else .ask (.implFor key.interfaceDef [baseTy] baseTy) fun found =>
    pure (found.after ⟨true, diagnosed⟩)

/-- `type_implements_capability_inner`, at the receiver without its opaque state. -/
def typeImplementsCapabilityInner : Ask Step Answer Answer :=
  if checker.rejects key then pure .no
  else do
    let captured ← if checker.asksCaptures key.interfaceDef && key.args.isEmpty
      then askEach key (captures key.receiverTy) .yes else pure .yes
    if !captured.implements then pure captured
    else if checker.isSpawnableMarker key.interfaceDef && key.args.isEmpty then do
      let answer ← checker.typeImplementsSpawnableFutureMarker key
      pure (answer.after captured)
    else match checker.decides key with
      | some implements => pure ⟨implements, captured.diagnosed⟩
      | none =>
        if retainedClosureProves key then pure captured
        else do
          let found ← checker.findOrInstantiateImpl key
          pure (Answer.after ⟨found.implements || checker.unconstrained key, found.diagnosed⟩
            captured)

/-- `type_implements_capability_by_def_uncached`. -/
def typeImplementsCapabilityByDef : Ask Step Answer Answer :=
  match opaqueReturnAnswer key with
  | some implements => pure ⟨implements, false⟩
  | none =>
    match checker.messageWitness key with
    | some sopTy => .ask (.byDef { key with receiverTy := sopTy }) pure
    | none => .ask (.forReceiver key) fun first =>
      let storageTy := checker.storageTy key.receiverTy
      if first.implements || decide (storageTy = key.receiverTy) then pure first
      else .ask (.forReceiver { key with receiverTy := storageTy }) fun second =>
        pure (second.after first)

/-- The receiver a query is decided at. -/
def innerKey : CapabilityCheckKey :=
  if checker.readsState key.interfaceDef then key
  else { key with receiverTy := key.receiverTy.stripOpaqueState }

/-- How each step is decided. Only queries past the cache are guarded. -/
def plan : Plan Step Answer where
  body
    | .byDef key => checker.typeImplementsCapabilityByDef key
    | .forReceiver key => checker.typeImplementsCapabilityInner (checker.innerKey key)
    | .implFor interfaceDef interfaceArgs receiverTy =>
      checker.instantiateGenericImpl interfaceDef interfaceArgs receiverTy
  guarded
    | .forReceiver _ => true
    | _ => false
  cut := .no

/-- `capability_resolution_cache_key`: queries about open types are not cached. -/
def cacheable : Bool :=
  !key.fullArgs.any fun ty => containsGeneric ty || ty.any Ty.isHole

/-- Without the cache, only the instances of templates are kept. -/
def keepInstances : Step → Answer → Bool
  | .implFor _ _ _, answer => answer.implements
  | _, _ => false

/-- With the cache, an answer without a new diagnostic is kept as well. -/
def keepAnswers : Step → Answer → Bool
  | .byDef key, answer => cacheable key && !answer.diagnosed
  | step, answer => keepInstances step answer

def isInstance : Step → Bool
  | .implFor _ _ _ => true
  | _ => false

/-- The instances among what was kept. -/
def instances (memo : Memo Step Answer) : Memo Step Answer :=
  memo.filter fun entry => isInstance entry.1

/-- `type_implements_capability_by_def`, with the cache. -/
def cachedQuery (fuel : Nat) (stack : List Step) (key : CapabilityCheckKey)
    (memo : Memo Step Answer) : Option (Answer × Memo Step Answer) :=
  checker.plan.memoSearch keepAnswers fuel stack (.byDef key) memo

/-- The same query decided without a cache, with nothing in progress and with the
instances that exist. -/
def uncachedQuery (fuel : Nat) (key : CapabilityCheckKey) (memo : Memo Step Answer) :
    Option (Answer × Memo Step Answer) :=
  checker.plan.memoSearch keepInstances fuel [] (.byDef key) (instances memo)

/-- A program that uses no interface of the standard library and no reflection. -/
def ofTable (table : ImplTable) : Checker where
  toImplTable := table
  inference := ⟨sameIgnoringOpaqueState, id, fun _ => none, fun _ _ => false⟩
  matchDepth := 100
  readsState _ := false
  messageWitness _ := none
  storageTy := id
  rejects _ := false
  asksCaptures _ := false
  isSpawnableMarker _ := false
  spawnableFutureStateViolation _ := .done false
  isFuture _ := false
  decides _ := none
  unconstrained _ := false
  lowerOpaqueReturns := id
  witness_once := by simp

/-- The steps of a query about types without opaque state in such a program. -/
def steps : List Step :=
  [.byDef key, .forReceiver key, .implFor key.interfaceDef key.fullArgs key.receiverTy]

end Checker

end Ciel.Typeck.Capability
