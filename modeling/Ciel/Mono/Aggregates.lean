import Ciel.Library.Traversal
import Ciel.Mono.Growth
import Ciel.Types.InstanceName
import Mathlib.Data.List.Dedup
import Mathlib.Data.List.Sort

/-!
# Collection of the concrete structs and enums

Code is generated for every struct and enum instance that a type of the program leads
to. The collector goes through a type and everything it mentions: type arguments, the
signatures of dynamic interfaces, the witnesses that a closure retains, and, when it
comes to an instance for the first time, the types of its fields. It follows fields
through pointers and slices.

An instance is known by its name. Dynamic interfaces are stopped when their arguments
grow; struct and enum instances are not. The layout check, which runs on the instances
that were collected, follows only what is stored by value.
-/

namespace Ciel.Mono

open Ciel.Types
open Library.Traversal (Entry visit visitAll)

inductive AggregateKind
  | struct | enum
  deriving DecidableEq, Repr

/-- A struct with the types of its fields, or an enum with the types of the payloads
of all its variants. -/
structure CheckedAggregate where
  kind : AggregateKind
  name : String
  members : List Ty
  deriving DecidableEq

/-- A struct or enum declaration. -/
structure AggregateTemplate where
  generics : List String
  members : List Ty

/-- The first generic parameter of an interface is its receiver. -/
structure CheckedInterface where
  defId : DefId
  generics : List String
  ret : Ty
  params : List Ty

structure CheckedInterfaceAlias where
  defId : DefId
  generics : List String
  positive : List ConstraintRef

/-- What the collector reads of the checked program. `metaStorageTy` is the type that
stands for a meta marker applied to type arguments, `isOwnedMetaPolicyLeaf` says which
types are not taken apart, and `stdFuture` is the library's future struct. -/
structure AggregateProgram where
  templates : AggregateKind → List (String × AggregateTemplate)
  checked : List CheckedAggregate
  interfaces : List CheckedInterface
  interfaceAliases : List CheckedInterfaceAlias
  opaqueReturns : List ((DefId × List Ty) × Ty)
  stdFuture : Option DefId × String
  metaStorageTy : String → List Ty → Option Ty
  isOwnedMetaPolicyLeaf : Ty → Bool

inductive AggregateDiagnostic
  | arity (kind : AggregateKind) (name : String) (expected actual : Nat)
  | infiniteExpansion (defId : DefId) (chain : List TypeExpansionFrame)
  deriving DecidableEq

/-- The sets that a struct or enum instance is in are kept by its kind and name. -/
structure AggregateCollector where
  emitted : List (AggregateKind × String)
  visiting : List (AggregateKind × String)
  expandedDynamicInterfaces : List (DefId × List Ty)
  dynamicInterfaceStack : List TypeExpansionFrame
  retainedClosureInterfaceTys : List (Ty × ConstraintRef)
  checked : List CheckedAggregate
  diagnostics : List AggregateDiagnostic

namespace AggregateCollector

def new : AggregateCollector := ⟨[], [], [], [], [], [], []⟩

def diagnose (collector : AggregateCollector) (diagnostic : AggregateDiagnostic) :
    AggregateCollector :=
  { collector with diagnostics := collector.diagnostics ++ [diagnostic] }

def aggregateEmittedOrVisiting (collector : AggregateCollector) (kind : AggregateKind)
    (instanceName : String) : Bool :=
  collector.emitted.contains (kind, instanceName) ||
    collector.visiting.contains (kind, instanceName)

end AggregateCollector

/-- A call of one of the collector's functions. -/
inductive Visit
  | ty (ty : Ty)
  | aggregate (kind : AggregateKind) (name : String) (args : List Ty)
  | dynamicInterface (defId : DefId) (args : List Ty)
  | retainedClosureInterface (receiver : Ty) (capability : ConstraintRef)
  deriving DecidableEq

/-- Type arguments for generic parameters; the last of equal names counts. -/
def genericSubst (generics : List String) (args : List Ty) : TySubst := (generics.zip args).reverse

/-- `alias_subst`. -/
def aliasSubst (generics : List String) (args : List Ty) : TySubst :=
  if generics.length = args.length then genericSubst generics args else []

namespace CheckedInterface

/-- `interface_subst`. -/
def subst (interface : CheckedInterface) (receiverTy : Ty) (args : List Ty) : TySubst :=
  genericSubst interface.generics (receiverTy :: args)

/-- `interface_signature`: the return type and the parameters after the receiver. -/
def signature (interface : CheckedInterface) (receiverTy : Ty) (args : List Ty) : List Ty :=
  (interface.ret :: interface.params.drop 1).map (substituteTy (interface.subst receiverTy args))

end CheckedInterface

namespace AggregateProgram

variable (program : AggregateProgram)

/-- `std_future_ty`. -/
def stdFutureTy (output : Ty) : Ty := .named program.stdFuture.1 program.stdFuture.2 [output]

def interfaceByDef (defId : DefId) : Option CheckedInterface :=
  program.interfaces.find? (·.defId == defId)

/-- `checked_interface_view`: an interface, or the positive entries of an alias. -/
def checkedInterfaceView (defId : DefId) (args : List Ty) : List (DefId × List Ty) :=
  match program.interfaceByDef defId with
  | some interface => [(interface.defId, args)]
  | none =>
    match program.interfaceAliases.find? (·.defId == defId) with
    | some declared => declared.positive.map fun entry =>
      (entry.defId, substituteTys (aliasSubst declared.generics args) entry.args)
    | none => []

/-- `dynamic_interface_signature` and `retained_closure_interface_signature`. -/
def interfaceSignature (defId : DefId) (receiverTy : Ty) (args : List Ty) : List Ty :=
  match program.interfaceByDef defId with
  | some interface => interface.signature receiverTy args
  | none => []

def checkedAggregateInstance (kind : AggregateKind) (instanceName : String) :
    Option CheckedAggregate :=
  program.checked.find? fun candidate => candidate.kind == kind && candidate.name == instanceName

/-- The types of the fields of a template; the payloads of an enum that are erased are
left out. -/
def templateMembers (kind : AggregateKind) (template : AggregateTemplate) (args : List Ty) :
    List Ty :=
  let members := substituteTys (genericSubst template.generics args) template.members
  match kind with
  | .struct => members
  | .enum => members.filter fun ty => !ty.isErasedValue

variable (collector : AggregateCollector)

/-- `with_aggregate_emission`. -/
def withAggregateEmission (kind : AggregateKind)
    (instanceName : String) (members : List Ty) : Entry AggregateCollector Visit :=
  .into { collector with visiting := (kind, instanceName) :: collector.visiting }
    (members.map .ty)
    fun collector => { collector with
      visiting := collector.visiting.filter (· != (kind, instanceName))
      emitted := (kind, instanceName) :: collector.emitted
      checked := collector.checked ++ [⟨kind, instanceName, members⟩] }

/-- `instantiate_struct` and `instantiate_enum`. -/
def instantiate (kind : AggregateKind) (name : String)
    (args : List Ty) : Entry AggregateCollector Visit :=
  let instanceName := aggregateInstanceName name args
  if collector.aggregateEmittedOrVisiting kind instanceName then .done collector
  else
    match program.checkedAggregateInstance kind instanceName with
    | some checked => withAggregateEmission collector kind instanceName checked.members
    | none =>
      match (program.templates kind).lookup name with
      | none => .done collector
      | some template =>
        if template.generics.length ≠ args.length then
          .done (collector.diagnose (.arity kind name template.generics.length args.length))
        else
          withAggregateEmission collector kind instanceName (templateMembers kind template args)

/-- The calls that `collect_ty` makes for a nominal type. -/
def namedVisits (defId : Option DefId) (name : String) (args : List Ty) : List Visit :=
  match program.metaStorageTy name args with
  | some storageTy => [.ty storageTy]
  | none =>
    let instances := [AggregateKind.struct, .enum].filterMap fun kind =>
      if ((program.templates kind).lookup name).isSome then some (.aggregate kind name args)
      else none
    if program.isOwnedMetaPolicyLeaf (.named defId name args) then instances
    else instances ++ args.map .ty

/-- The calls that `collect_ty` makes, in their order. -/
def tyVisits : Ty → List Visit
  | .named defId name args => program.namedVisits defId name args
  | .pointer _ _ inner => [.ty inner]
  | .array _ elem | .slice _ elem => [.ty elem]
  | .generatedFuture _ output _ _ _ _ => [.ty output, .ty (program.stdFutureTy output)]
  | .opaqueState base state => .ty base :: state.map fun entry => .ty entry.2
  | .dynamicInterface defId _ args => [.dynamicInterface defId args]
  | .opaqueReturn defId args bounds =>
    args.map .ty ++ bounds.tys.map .ty ++
      ((program.opaqueReturns.lookup (defId, args)).map Visit.ty).toList
  | .function _ _ ret params => .ty ret :: params.map .ty
  | .closure ret params constraints =>
    .ty ret :: params.map .ty ++ constraints.tys.map .ty ++
      constraints.positive.map (.retainedClosureInterface (.closure ret params constraints))
  | .closureInstance _ ret params _ => .ty ret :: params.map .ty
  | .hole _ | .never | .void | .primitive _ | .cSpelling _ _ _ | .generic _ | .unknown => []

/-- The receiver of a dynamic interface is a pointer to an unknown value. -/
def dynamicReceiver : Ty := .pointer false .writable .void

def dynamicInterfaceVisits (defId : DefId) (args : List Ty) : List Visit :=
  args.map .ty ++ (program.checkedInterfaceView defId args).flatMap fun interface =>
    (program.interfaceSignature interface.1 dynamicReceiver interface.2).map .ty

/-- `collect_dynamic_interface_tys`. -/
def collectDynamicInterfaceTys (defId : DefId) (args : List Ty) : Entry AggregateCollector Visit :=
  if collector.expandedDynamicInterfaces.contains (defId, args) then .done collector
  else
    let collector := { collector with
      expandedDynamicInterfaces := (defId, args) :: collector.expandedDynamicInterfaces }
    if growthDiagnosed collector.dynamicInterfaceStack defId args then
      .done (collector.diagnose
        (.infiniteExpansion defId (collector.dynamicInterfaceStack ++ [⟨defId, args⟩])))
    else
      .into { collector with
          dynamicInterfaceStack := collector.dynamicInterfaceStack ++ [⟨defId, args⟩] }
        (program.dynamicInterfaceVisits defId args)
        fun collector => { collector with
          dynamicInterfaceStack := collector.dynamicInterfaceStack.dropLast }

def retainedClosureInterfaceVisits (receiver : Ty) (capability : ConstraintRef) : List Visit :=
  (capability.args ++ program.interfaceSignature capability.defId receiver capability.args).map .ty

/-- `collect_retained_closure_interface_tys`. -/
def collectRetainedClosureInterfaceTys (receiver : Ty)
    (capability : ConstraintRef) : Entry AggregateCollector Visit :=
  if collector.retainedClosureInterfaceTys.contains (receiver, capability) then .done collector
  else
    .into { collector with
        retainedClosureInterfaceTys :=
          (receiver, capability) :: collector.retainedClosureInterfaceTys }
      (program.retainedClosureInterfaceVisits receiver capability) id

def enter : Visit → Entry AggregateCollector Visit
  | .ty ty => .into collector (program.tyVisits ty) id
  | .aggregate kind name args => program.instantiate collector kind name args
  | .dynamicInterface defId args => program.collectDynamicInterfaceTys collector defId args
  | .retainedClosureInterface receiver capability =>
    program.collectRetainedClosureInterfaceTys collector receiver capability

/-- `collect_ty`, with a bound on the depth of its calls. -/
def collectTy (depth : Nat) (collector : AggregateCollector) (ty : Ty) :
    Option AggregateCollector :=
  visit program.enter depth collector (.ty ty)

end AggregateProgram

/-! ### The layout check -/

mutual

/-- `collect_layout_edges_from_ty`: the collected aggregates that a value of the type
contains. -/
def layoutEdges (aggregateNames : List String) : Ty → List String
  | .named _ name args =>
    let instanceName := aggregateInstanceName name args
    if aggregateNames.contains instanceName then [instanceName] else []
  | .array _ elem => layoutEdges aggregateNames elem
  | .opaqueState base state =>
    layoutEdges aggregateNames base ++ stateLayoutEdges aggregateNames state
  | _ => []

def stateLayoutEdges (aggregateNames : List String) : List (String × Ty) → List String
  | [] => []
  | entry :: entries =>
    entryLayoutEdges aggregateNames entry ++ stateLayoutEdges aggregateNames entries

def entryLayoutEdges (aggregateNames : List String) : String × Ty → List String
  | (_, ty) => layoutEdges aggregateNames ty

end

/-- A set of names in the order in which the check goes through it. -/
def sortedNames (names : List String) : List String := names.dedup.insertionSort (· ≤ ·)

/-- The edges of the last aggregate of a name. -/
def edgesOf (aggregates : List CheckedAggregate) (name : String) : List String :=
  match aggregates.reverse.find? (·.name == name) with
  | some aggregate => sortedNames
      (aggregate.members.flatMap (layoutEdges (aggregates.map CheckedAggregate.name)))
  | none => []

structure CycleSearch where
  visiting : List String
  visited : List String
  cycles : List (List String)
  deriving DecidableEq

/-- `detect_cycle_from`. -/
def detectCycleFrom (edges : String → List String) (search : CycleSearch) (name : String) :
    Entry CycleSearch String :=
  if search.visited.contains name then .done search
  else
    match search.visiting.idxOf? name with
    | some pos =>
      .done { search with cycles := search.cycles ++ [search.visiting.drop pos ++ [name]] }
    | none =>
      .into { search with visiting := search.visiting ++ [name] } (edges name)
        fun search => { search with
          visiting := search.visiting.dropLast
          visited := name :: search.visited }

/-- `check_checked_aggregate_layouts`, with a bound on the depth of the search: the
cycles that are reported. -/
def checkCheckedAggregateLayouts (depth : Nat) (aggregates : List CheckedAggregate) :
    Option (List (List String)) :=
  (visitAll (visit (detectCycleFrom (edgesOf aggregates)) depth) ⟨[], [], []⟩
    (sortedNames (aggregates.map CheckedAggregate.name))).map CycleSearch.cycles

/-- The check comes to an end and reports no cycle. -/
def LayoutsAccepted (aggregates : List CheckedAggregate) : Prop :=
  ∃ depth, checkCheckedAggregateLayouts depth aggregates = some []

end Ciel.Mono
