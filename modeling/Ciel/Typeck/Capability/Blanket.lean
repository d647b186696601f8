import Ciel.Library.Memo
import Ciel.Typeck.Capability.Table

/-!
# Blanket implementations

An implementation `impl<T: bounds> interface(T value)` is for every type, and its
constraints are about the same type. In a table of such implementations a query
leads to queries about the same receiver only, at the interfaces that the bounds
name: there are finitely many, so every query is decided.

Such tables are the propositional rules over interfaces, and what can go wrong
with cycles and negation shows on them already.
-/

namespace Ciel.Typeck.Capability

open Ciel.Types
open Library (Goal Rules Plan)

variable {blankets : List Blanket} {key : CapabilityCheckKey}

/-- `impl<T: required + !forbidden> interface(T value)`, with the interfaces of the
bounds by definition and name. -/
structure Blanket where
  interfaceDef : DefId
  required : List (DefId × String)
  forbidden : List (DefId × String)

namespace Blanket

def refs (interfaces : List (DefId × String)) : List ConstraintRef :=
  interfaces.map fun entry => .mk entry.1 entry.2 []

variable (blanket : Blanket)

def bounds : ConstraintBounds :=
  .mk (refs blanket.required) (refs blanket.forbidden)

def template : GenericImplTemplate where
  interfaceDef := blanket.interfaceDef
  generics := ["T"]
  genericConstraints := [⟨"T", false, blanket.bounds⟩]
  interfaceArgs := [.generic "T"]
  receiverTy := some (.generic "T")

/-- The table of some blanket implementations. -/
def table (blankets : List Blanket) : ImplTable where
  impls := []
  genericImpls := blankets.map template
  isAffine _ := false

variable (receiverTy : Ty)

/-- The query for an interface at a type. -/
def capabilityAt (entry : DefId × String) : CapabilityCheckKey :=
  ⟨entry.1, entry.2, [], receiverTy⟩

/-- The goals of a blanket implementation at a type. -/
def goals : List (Goal CapabilityCheckKey) :=
  .check true :: (blanket.required.map (fun entry => .pos (capabilityAt receiverTy entry)) ++
    blanket.forbidden.map (fun entry => .neg (capabilityAt receiverTy entry)))

theorem substitute_refs (subst : TySubst) (interfaces : List (DefId × String)) :
    substituteConstraintRefs subst (refs interfaces) = refs interfaces := by
  induction interfaces with
  | nil => rfl
  | cons entry rest ih => exact congrArg (ConstraintRef.mk entry.1 entry.2 [] :: ·) ih

/-- The substitution by which a blanket implementation matches. -/
def subst : TySubst :=
  [("T", receiverTy.stripOpaqueState), ("T", .generic "T")]

theorem matchHeader_blanket (args : List Ty) :
    matchHeader ["T"] [.generic "T"] (receiverTy :: args) =
      if args = [] ∧ containsGeneric receiverTy.stripOpaqueState = false
      then some (subst receiverTy) else none := by
  have closed : (subst receiverTy).bindsAll ["T"] =
      !containsGeneric receiverTy.stripOpaqueState := by
    simp [TySubst.bindsAll, subst]
  cases args with
  | cons first rest =>
    have longer : matchHeader ["T"] [.generic "T"] (receiverTy :: first :: rest) = none := rfl
    simp [longer]
  | nil =>
    show Option.filter _ (some (subst receiverTy)) = _
    rw [Option.filter_some, closed]
    simp

/-- The query is for the interface of a blanket implementation, at a type without
parameters. -/
abbrev Fits (key : CapabilityCheckKey) : Prop :=
  blanket.interfaceDef = key.interfaceDef ∧ key.args = [] ∧
    containsGeneric key.receiverTy.stripOpaqueState = false

theorem matchKey_template (key : CapabilityCheckKey) : blanket.template.matchKey key =
      if blanket.Fits key then some (subst key.receiverTy) else none := by
  have header := matchHeader_blanket key.receiverTy key.args
  by_cases same : blanket.interfaceDef = key.interfaceDef
  · simpa [GenericImplTemplate.matchKey, template, same, Fits, CapabilityCheckKey.fullArgs]
      using header
  · simp [GenericImplTemplate.matchKey, template, same, Fits]

theorem boundsGoals_bounds :
    .check true :: boundsGoals receiverTy blanket.bounds = blanket.goals receiverTy := by
  simp only [boundsGoals, goals, bounds, refs, ConstraintBounds.positive, ConstraintBounds.negative,
    List.map_map]
  rfl

theorem templateGoals_template (blankets : List Blanket) (blanket : Blanket) (receiverTy : Ty) :
    (table blankets).templateGoals blanket.template (subst receiverTy) =
      blanket.goals receiverTy.stripOpaqueState := by
  have same : substituteConstraintBounds (subst receiverTy) blanket.bounds = blanket.bounds := by
    simp only [bounds, substituteConstraintBounds, substitute_refs]
  have found : (subst receiverTy).lookup "T" = some receiverTy.stripOpaqueState := rfl
  rw [← boundsGoals_bounds, ← same]
  simp [ImplTable.templateGoals, template, ImplTable.constraintGoals, found,
    ImplTable.parameterGoals]

/-- The rules of a query are the blanket implementations of its interface. -/
theorem mem_rules_table {body : List (Goal CapabilityCheckKey)} :
    body ∈ (table blankets).rules key ↔
      ∃ blanket ∈ blankets, blanket.Fits key ∧
        body = blanket.goals key.receiverTy.stripOpaqueState := by
  rw [ImplTable.mem_rules]
  constructor
  · rintro (⟨⟨implementation, member, -⟩, -⟩ | ⟨template, member, subst, found, rfl⟩)
    · cases member
    · obtain ⟨blanket, inside, rfl⟩ := List.mem_map.mp member
      rw [matchKey_template] at found
      split at found
      next fits =>
        cases found
        exact ⟨blanket, inside, fits, templateGoals_template blankets blanket key.receiverTy⟩
      next => cases found
  · rintro ⟨blanket, member, fits, rfl⟩
    refine .inr ⟨blanket.template, List.mem_map_of_mem member, subst key.receiverTy, ?_, ?_⟩
    · rw [matchKey_template, if_pos fits]
    · rw [templateGoals_template]

/-- The interfaces that some bounds name. -/
def interfaces (blankets : List Blanket) : List (DefId × String) :=
  blankets.flatMap fun blanket => blanket.required ++ blanket.forbidden

theorem mentions_table {other : CapabilityCheckKey}
    (mentions : (table blankets).rules.Mentions key other) :
    ∃ entry ∈ interfaces blankets, other = capabilityAt key.receiverTy.stripOpaqueState entry := by
  obtain ⟨body, member, goal, inBody, isQuery⟩ := mentions
  obtain ⟨blanket, inside, -, rfl⟩ := mem_rules_table.mp member
  have named (entry : DefId × String) (inEntries : entry ∈ blanket.required ++ blanket.forbidden) :
      entry ∈ interfaces blankets := List.mem_flatMap.mpr ⟨blanket, inside, inEntries⟩
  obtain rfl | inBody := List.mem_cons.mp inBody
  · cases isQuery
  · obtain inBody | inBody := List.mem_append.mp inBody
    · obtain ⟨entry, inEntries, rfl⟩ := List.mem_map.mp inBody
      cases isQuery
      exact ⟨entry, named entry (List.mem_append_left _ inEntries), rfl⟩
    · obtain ⟨entry, inEntries, rfl⟩ := List.mem_map.mp inBody
      cases isQuery
      exact ⟨entry, named entry (List.mem_append_right _ inEntries), rfl⟩

theorem depends_table {other : CapabilityCheckKey}
    (depends : (table blankets).rules.Depends key other) :
    other = key ∨
      ∃ entry ∈ interfaces blankets,
        other = capabilityAt key.receiverTy.stripOpaqueState entry := by
  induction depends with
  | refl => exact .inl rfl
  | tail _ mentions ih =>
    obtain ⟨entry, member, rfl⟩ := mentions_table mentions
    refine .inr ⟨entry, member, ?_⟩
    obtain rfl | ⟨before, -, rfl⟩ := ih
    · rfl
    · exact congrArg (capabilityAt · entry) (Ty.stripOpaqueState_idem _)

/-- Only finitely many queries can be reached in a table of blanket
implementations. -/
theorem finite_reaches (blankets : List Blanket) (key : CapabilityCheckKey) :
    {other | (table blankets).rules.plan.Reaches key other}.Finite := by
  refine (List.finite_toSet (key :: (interfaces blankets).map
    (capabilityAt key.receiverTy.stripOpaqueState))).subset ?_
  intro other reaches
  have depends := Rules.depends_of_reaches reaches
  obtain rfl | ⟨entry, member, rfl⟩ := depends_table depends
  · simp
  · exact List.mem_cons_of_mem _ (List.mem_map_of_mem member)

end Blanket

end Ciel.Typeck.Capability
