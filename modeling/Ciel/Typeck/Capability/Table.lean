import Ciel.Library.Rules
import Ciel.Types.Unify

/-!
# Implementation tables

The checker knows concrete implementations, one for given types, and templates,
generic implementations whose parameters may carry constraints. A query asks
whether a type implements an interface at given arguments. A concrete
implementation answers it if it is for exactly these types; a template if its
header matches them and its constraints hold of the types its parameters stand
for.

So each implementation that matches a query is a rule for it: the constraints of
the template, in order, as goals. `capabilitySatisfied` is the guarded search of
`capability_solve.rs` over these rules.
-/

namespace Ciel.Typeck.Capability

open Ciel.Types
open Library (Goal Rules)

/-- A query: `CapabilityCheckKey`, also `CapabilityResolutionKey`. -/
structure CapabilityCheckKey where
  interfaceDef : DefId
  interfaceName : String
  args : List Ty
  receiverTy : Ty
  deriving DecidableEq, Repr

/-- A concrete implementation. -/
structure ImplSig where
  interfaceDef : DefId
  interfaceArgs : List Ty
  receiverTy : Option Ty
  deriving DecidableEq, Repr

/-- What a template asks of one of its parameters. -/
structure GenericConstraintBounds where
  name : String
  isResource : Bool
  bounds : ConstraintBounds
  deriving DecidableEq, Repr

structure GenericImplTemplate where
  interfaceDef : DefId
  generics : List String
  genericConstraints : List GenericConstraintBounds
  interfaceArgs : List Ty
  receiverTy : Option Ty
  deriving DecidableEq, Repr

/-- The part of the checker's context that queries read. Whether a type is affine
depends on the declared structs and enums; any answer is allowed. -/
structure ImplTable where
  impls : List ImplSig
  genericImpls : List GenericImplTemplate
  isAffine : Ty → Bool

/-- The receiver is the first argument of an interface. -/
def CapabilityCheckKey.fullArgs (key : CapabilityCheckKey) : List Ty := key.receiverTy :: key.args

/-- The query a constraint on a type stands for. -/
def capabilityKey (receiverTy : Ty) (capability : ConstraintRef) : CapabilityCheckKey :=
  ⟨capability.defId, capability.name, capability.args, receiverTy⟩

/-- `interface_non_receiver_args`. -/
def interfaceNonReceiverArgs (args : List Ty) : List Ty := args.tail

/-- The implementation is for the types of the query. -/
def ImplSig.isFor (implementation : ImplSig) (key : CapabilityCheckKey) : Bool :=
  implementation.interfaceDef == key.interfaceDef &&
    decide (interfaceNonReceiverArgs implementation.interfaceArgs = key.args) &&
    decide (implementation.receiverTy = some key.receiverTy)

/-- The types a template's parameters stand for in a query it matches. -/
def GenericImplTemplate.matchKey (template : GenericImplTemplate) (key : CapabilityCheckKey) :
    Option TySubst :=
  if template.interfaceDef = key.interfaceDef then
    matchHeader template.generics template.interfaceArgs key.fullArgs
  else none

/-- `constraint_bounds_satisfied`. -/
def boundsGoals (receiverTy : Ty) (bounds : ConstraintBounds) : List (Goal CapabilityCheckKey) :=
  bounds.positive.map (fun capability => .pos (capabilityKey receiverTy capability)) ++
    bounds.negative.map (fun capability => .neg (capabilityKey receiverTy capability))

namespace ImplTable

variable (table : ImplTable)

/-- The constraints on one parameter of a template, for the type it stands for. -/
def parameterGoals (subst : TySubst) (constraint : GenericConstraintBounds) (concrete : Ty) :
    List (Goal CapabilityCheckKey) :=
  .check (!constraint.isResource || table.isAffine concrete) ::
    boundsGoals concrete (substituteConstraintBounds subst constraint.bounds)

def constraintGoals (subst : TySubst) (constraint : GenericConstraintBounds) :
    List (Goal CapabilityCheckKey) :=
  match subst.lookup constraint.name with
  | none => [.check false]
  | some concrete => table.parameterGoals subst constraint concrete

/-- `generic_impl_constraints_satisfied_inner`. -/
def templateGoals (template : GenericImplTemplate) (subst : TySubst) :
    List (Goal CapabilityCheckKey) :=
  template.genericConstraints.flatMap (table.constraintGoals subst)

/-- The implementations that match a query, as rules. -/
def rules : Rules CapabilityCheckKey := fun key =>
  (table.impls.filter (·.isFor key)).map (fun _ => []) ++
    table.genericImpls.filterMap fun template =>
      (template.matchKey key).map (table.templateGoals template)

/-- `capability_satisfied`: search with the given queries in progress. -/
def capabilitySatisfied (fuel : Nat) (stack : List CapabilityCheckKey) (key : CapabilityCheckKey) :
    Option Bool :=
  table.rules.plan.search fuel stack key

/-- The query is answered satisfied with nothing in progress. -/
abbrev Satisfied (key : CapabilityCheckKey) : Prop :=
  ∃ fuel, table.capabilitySatisfied fuel [] key = some true

/-- Every query is decided, with nothing in progress. -/
def AllTerminate : Prop :=
  ∀ key, ∃ fuel answer, table.capabilitySatisfied fuel [] key = some answer

end ImplTable

/-- A constraint on a parameter holds, if the queries of a set are satisfied. -/
structure ImplTable.ConstraintHolds (table : ImplTable) (S : CapabilityCheckKey → Prop)
    (subst : TySubst) (constraint : GenericConstraintBounds) (concrete : Ty) : Prop where
  bound : subst.lookup constraint.name = some concrete
  resource : constraint.isResource = true → table.isAffine concrete = true
  positive : ∀ capability ∈ (substituteConstraintBounds subst constraint.bounds).positive,
    S (capabilityKey concrete capability)
  negative : ∀ capability ∈ (substituteConstraintBounds subst constraint.bounds).negative,
    ¬S (capabilityKey concrete capability)

/-- Some implementation matches the query and its constraints hold, if the queries
of a set are satisfied. -/
def ImplTable.Implemented (table : ImplTable) (S : CapabilityCheckKey → Prop)
    (key : CapabilityCheckKey) : Prop :=
  (∃ implementation ∈ table.impls, implementation.isFor key = true) ∨
    ∃ template ∈ table.genericImpls, ∃ subst, template.matchKey key = some subst ∧
      ∀ constraint ∈ template.genericConstraints, ∃ concrete,
        table.ConstraintHolds S subst constraint concrete

namespace ImplTable

variable {table : ImplTable} {S : CapabilityCheckKey → Prop}

theorem mem_rules {key : CapabilityCheckKey} {body : List (Goal CapabilityCheckKey)} :
    body ∈ table.rules key ↔
      ((∃ implementation ∈ table.impls, implementation.isFor key = true) ∧ body = []) ∨
        ∃ template ∈ table.genericImpls, ∃ subst, template.matchKey key = some subst ∧
          body = table.templateGoals template subst := by
  simp only [rules, List.mem_append, List.mem_map, List.mem_filter, List.mem_filterMap,
    Option.map_eq_some_iff]
  constructor
  · rintro (⟨implementation, ⟨member, isFor⟩, rfl⟩ | ⟨template, member, subst, found, rfl⟩)
    · exact .inl ⟨⟨implementation, member, isFor⟩, rfl⟩
    · exact .inr ⟨template, member, subst, found, rfl⟩
  · rintro (⟨⟨implementation, member, isFor⟩, rfl⟩ | ⟨template, member, subst, found, rfl⟩)
    · exact .inl ⟨implementation, ⟨member, isFor⟩, rfl⟩
    · exact .inr ⟨template, member, subst, found, rfl⟩

theorem boundsGoals_hold {receiverTy : Ty} {bounds : ConstraintBounds} :
    (∀ goal ∈ boundsGoals receiverTy bounds, goal.HoldsIn S) ↔
      (∀ capability ∈ bounds.positive, S (capabilityKey receiverTy capability)) ∧
        ∀ capability ∈ bounds.negative, ¬S (capabilityKey receiverTy capability) := by
  simp only [boundsGoals, List.mem_append, or_imp, forall_and, List.forall_mem_map]
  rfl

theorem constraintGoals_hold {subst : TySubst} {constraint : GenericConstraintBounds} :
    (∀ goal ∈ table.constraintGoals subst constraint, goal.HoldsIn S) ↔
      ∃ concrete, table.ConstraintHolds S subst constraint concrete := by
  rw [constraintGoals]
  cases found : subst.lookup constraint.name with
  | none =>
    refine iff_of_false (fun all => ?_) ?_
    · cases all _ List.mem_cons_self
    · rintro ⟨concrete, holds⟩
      cases found.symm.trans holds.bound
  | some concrete =>
    have resource : Goal.HoldsIn S (.check (!constraint.isResource || table.isAffine concrete)) ↔
        (constraint.isResource = true → table.isAffine concrete = true) := by
      cases isResource : constraint.isResource <;> simp [Goal.under]
    simp only [parameterGoals, List.forall_mem_cons, resource, boundsGoals_hold]
    constructor
    · rintro ⟨affine, positive, negative⟩
      exact ⟨concrete, found, affine, positive, negative⟩
    · rintro ⟨other, bound, affine, positive, negative⟩
      cases found.symm.trans bound
      exact ⟨affine, positive, negative⟩

/-- The rules say what the implementations do. -/
theorem fires_iff_implemented {key : CapabilityCheckKey} :
    table.rules.Fires S key ↔ table.Implemented S key := by
  simp only [Rules.Fires, mem_rules, Implemented, ← constraintGoals_hold]
  constructor
  · rintro ⟨body, ⟨concrete, rfl⟩ | ⟨template, member, subst, found, rfl⟩, met⟩
    · exact .inl concrete
    · refine .inr ⟨template, member, subst, found, fun constraint inside goal inGoals => ?_⟩
      exact met goal (List.mem_flatMap.mpr ⟨constraint, inside, inGoals⟩)
  · rintro (concrete | ⟨template, member, subst, found, met⟩)
    · exact ⟨[], .inl ⟨concrete, rfl⟩, by simp⟩
    · refine ⟨_, .inr ⟨template, member, subst, found, rfl⟩, fun goal inBody => ?_⟩
      obtain ⟨constraint, inside, inGoals⟩ := List.mem_flatMap.mp inBody
      exact met constraint inside goal inGoals

end ImplTable

end Ciel.Typeck.Capability
