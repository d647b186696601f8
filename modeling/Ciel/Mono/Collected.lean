import Ciel.Mono.Aggregates

/-!
# When the collection of aggregates ends

The collector goes into an instance, a dynamic interface or a retained witness once,
so it ends if a type leads to finitely many of them and nothing else unfolds for ever.
If instance names tell instances apart, it cannot end otherwise without a diagnostic.

An accepted layout does not imply it. `struct Node<T> { ?*Node<Node<T>> next; }`
contains nothing by value, and each of its instances leads to a larger one.
-/

namespace Ciel.Mono

open Ciel.Types
open Library.Traversal

variable {collector : AggregateCollector}

/-- What the collector remembers to have gone into. -/
inductive VisitKey
  | aggregate (kind : AggregateKind) (instanceName : String)
  | dynamicInterface (defId : DefId) (args : List Ty)
  | retainedClosureInterface (receiver : Ty) (capability : ConstraintRef)
  deriving DecidableEq

namespace AggregateCollector

def keys (collector : AggregateCollector) : List VisitKey :=
  (collector.emitted ++ collector.visiting).map (fun entry => .aggregate entry.1 entry.2) ++
    collector.expandedDynamicInterfaces.map (fun entry => .dynamicInterface entry.1 entry.2) ++
    collector.retainedClosureInterfaceTys.map
      (fun entry => .retainedClosureInterface entry.1 entry.2)

def seen (collector : AggregateCollector) : Set VisitKey := {key | key ∈ collector.keys}

def quiet (collector : AggregateCollector) : Prop := collector.diagnostics = []

variable {collector : AggregateCollector} {kind : AggregateKind} {instanceName : String}
  {defId : DefId} {args : List Ty} {receiver : Ty} {capability : ConstraintRef}

@[simp] theorem aggregate_mem_seen : VisitKey.aggregate kind instanceName ∈ collector.seen ↔
    (kind, instanceName) ∈ collector.emitted ∨ (kind, instanceName) ∈ collector.visiting := by
  simp [seen, keys]

@[simp] theorem dynamicInterface_mem_seen : VisitKey.dynamicInterface defId args ∈ collector.seen ↔
    (defId, args) ∈ collector.expandedDynamicInterfaces := by
  simp [seen, keys]

@[simp] theorem retainedClosureInterface_mem_seen :
    VisitKey.retainedClosureInterface receiver capability ∈ collector.seen ↔
      (receiver, capability) ∈ collector.retainedClosureInterfaceTys := by
  simp [seen, keys]

end AggregateCollector

namespace AggregateProgram

variable (program : AggregateProgram)

/-- The members of an instance: those of the instance that the checker has made, or
those of the template. -/
def members (kind : AggregateKind) (name : String) (args : List Ty) : Option (List Ty) :=
  match program.checkedAggregateInstance kind (aggregateInstanceName name args) with
  | some checked => some checked.members
  | none =>
    match (program.templates kind).lookup name with
    | none => none
    | some template =>
      if template.generics.length ≠ args.length then none
      else some (templateMembers kind template args)

/-- What a visit leads to. -/
def visits : Visit → List Visit
  | .ty ty => program.tyVisits ty
  | .aggregate kind name args => ((program.members kind name args).getD []).map .ty
  | .dynamicInterface defId args => program.dynamicInterfaceVisits defId args
  | .retainedClosureInterface receiver capability =>
    program.retainedClosureInterfaceVisits receiver capability

/-- What a visit is remembered by. Going through a type is not remembered, and neither
is a struct or enum that has no such instance. -/
def keyOf : Visit → Option VisitKey
  | .ty _ => none
  | .aggregate kind name args =>
    if (program.members kind name args).isSome then
      some (.aggregate kind (aggregateInstanceName name args))
    else none
  | .dynamicInterface defId args => some (.dynamicInterface defId args)
  | .retainedClosureInterface receiver capability =>
    some (.retainedClosureInterface receiver capability)

def LeadsTo (node part : Visit) : Prop := part ∈ program.visits node

/-- The three things that asking for an instance can come to. -/
theorem instantiate_cases (collector : AggregateCollector) (kind : AggregateKind) (name : String)
    (args : List Ty) :
    (program.instantiate collector kind name args = .done collector ∧
      (.aggregate kind (aggregateInstanceName name args) ∈ collector.seen ∨
        program.members kind name args = none)) ∨
    (program.members kind name args = none ∧ ∃ diagnostic,
      program.instantiate collector kind name args = .done (collector.diagnose diagnostic)) ∨
    ∃ members, program.members kind name args = some members ∧
      .aggregate kind (aggregateInstanceName name args) ∉ collector.seen ∧
      program.instantiate collector kind name args =
        withAggregateEmission collector kind (aggregateInstanceName name args) members := by
  have known : collector.aggregateEmittedOrVisiting kind (aggregateInstanceName name args) = true ↔
      .aggregate kind (aggregateInstanceName name args) ∈ collector.seen := by
    simp [AggregateCollector.aggregateEmittedOrVisiting]
  unfold instantiate members
  by_cases old : collector.aggregateEmittedOrVisiting kind (aggregateInstanceName name args) = true
  · exact .inl ⟨if_pos old, .inl (known.mp old)⟩
  · simp only [if_neg old]
    have new := mt known.mpr old
    cases program.checkedAggregateInstance kind (aggregateInstanceName name args) with
    | some checked => exact .inr (.inr ⟨checked.members, rfl, new, rfl⟩)
    | none =>
      cases (program.templates kind).lookup name with
      | none => exact .inl ⟨rfl, .inr rfl⟩
      | some template =>
        by_cases wrong : template.generics.length ≠ args.length
        · exact .inr (.inl ⟨if_pos wrong, _, if_pos wrong⟩)
        · exact .inr (.inr ⟨_, if_neg wrong, new, if_neg wrong⟩)

/-- What going into a visit does: the key of the visit is new and is added, and is
still there when the visit is left. -/
structure Opened (collector : AggregateCollector) (node : Visit) (collector' : AggregateCollector)
    (leave : AggregateCollector → AggregateCollector) : Prop where
  diagnostics : collector'.diagnostics = collector.diagnostics
  seen : ∀ key, key ∈ collector'.seen ↔ key ∈ collector.seen ∨ program.keyOf node = some key
  new : ∀ key, program.keyOf node = some key → key ∉ collector.seen
  left_diagnostics : ∀ last, (leave last).diagnostics = last.diagnostics
  left_seen : ∀ last key, key ∈ (leave last).seen ↔
    key ∈ last.seen ∨ (∃ kind name, key = .aggregate kind name ∧ program.keyOf node = some key)

theorem opened_instance {kind : AggregateKind} {name : String} {args members : List Ty}
    (found : program.members kind name args = some members)
    (fresh : .aggregate kind (aggregateInstanceName name args) ∉ collector.seen) :
    ∃ collector' leave,
      withAggregateEmission collector kind (aggregateInstanceName name args) members =
        .into collector' (program.visits (.aggregate kind name args)) leave ∧
      program.Opened collector (.aggregate kind name args) collector' leave := by
  have key : program.keyOf (.aggregate kind name args) =
      some (.aggregate kind (aggregateInstanceName name args)) := by simp [keyOf, found]
  have visits : program.visits (.aggregate kind name args) = members.map .ty := by
    simp [AggregateProgram.visits, found]
  rw [visits]
  refine ⟨_, _, rfl, rfl, fun other => ?_, fun other same => ?_, fun _ => rfl, fun last other => ?_⟩
  · rw [key]
    cases other with
    | aggregate kind' name' =>
      simp only [AggregateCollector.aggregate_mem_seen, List.mem_cons, Prod.mk.injEq,
        Option.some.injEq, VisitKey.aggregate.injEq]
      grind
    | _ => simp
  · rw [key] at same
    cases same
    exact fresh
  · rw [key]
    cases other with
    | aggregate kind' name' =>
      -- leaving moves the name from one set to the other
      simp only [AggregateCollector.aggregate_mem_seen, List.mem_cons, List.mem_filter,
        Prod.mk.injEq, Option.some.injEq, VisitKey.aggregate.injEq, bne_iff_ne]
      grind
    | _ => simp

theorem opened_dynamicInterface {defId : DefId} {args : List Ty}
    (fresh : (defId, args) ∉ collector.expandedDynamicInterfaces)
    (stack : List TypeExpansionFrame) :
    program.Opened collector (.dynamicInterface defId args)
      { collector with
        expandedDynamicInterfaces := (defId, args) :: collector.expandedDynamicInterfaces
        dynamicInterfaceStack := stack }
      fun last => { last with dynamicInterfaceStack := last.dynamicInterfaceStack.dropLast } := by
  refine ⟨rfl, fun other => ?_, fun other same => ?_, fun _ => rfl, fun last other => ?_⟩
  · cases other <;> simp [keyOf, or_comm, eq_comm]
  · cases same
    simpa using fresh
  · cases other <;> simp [keyOf]

theorem opened_retainedClosureInterface {receiver : Ty} {capability : ConstraintRef}
    (fresh : (receiver, capability) ∉ collector.retainedClosureInterfaceTys) :
    program.Opened collector (.retainedClosureInterface receiver capability)
      { collector with
        retainedClosureInterfaceTys :=
          (receiver, capability) :: collector.retainedClosureInterfaceTys } id := by
  refine ⟨rfl, fun other => ?_, fun other same => ?_, fun _ => rfl, fun last other => ?_⟩
  · cases other <;> simp [keyOf, or_comm, eq_comm]
  · cases same
    simpa using fresh
  · cases other <;> simp [keyOf]

/-- A visit is ended at once, because nothing is left to do or with a diagnostic, or it
is gone into. -/
theorem enter_cases (collector : AggregateCollector) (node : Visit) :
    (program.enter collector node = .done collector ∧
      ((∃ key ∈ collector.seen, program.keyOf node = some key) ∨
        (program.keyOf node = none ∧ program.visits node = []))) ∨
    (∃ collector', program.enter collector node = .done collector' ∧
      collector.seen ⊆ collector'.seen ∧ ¬collector'.quiet) ∨
    ∃ collector' leave, program.enter collector node =
      .into collector' (program.visits node) leave ∧
      program.Opened collector node collector' leave := by
  cases node with
  | ty ty =>
    refine .inr
      (.inr ⟨collector, id, rfl, rfl, fun key => ?_, nofun, fun _ => rfl, fun last key => ?_⟩)
    · simp [keyOf]
    · simp [keyOf]
  | aggregate kind name args =>
    obtain ⟨ended, old | missing⟩ | ⟨-, diagnostic, ended⟩ | ⟨members, found, fresh, into⟩ :=
      program.instantiate_cases collector kind name args
    · cases found : program.members kind name args with
      | none => exact .inl ⟨ended, .inr (by simp [keyOf, visits, found])⟩
      | some members => exact .inl ⟨ended, .inl ⟨_, old, by simp [keyOf, found]⟩⟩
    · exact .inl ⟨ended, .inr (by simp [keyOf, visits, missing])⟩
    · refine .inr (.inl ⟨_, ended, fun _ inside => inside, ?_⟩)
      simp [AggregateCollector.quiet, AggregateCollector.diagnose]
    · obtain ⟨collector', leave, emission, opened⟩ := program.opened_instance found fresh
      exact .inr (.inr ⟨collector', leave, into.trans emission, opened⟩)
  | dynamicInterface defId args =>
    simp only [enter, collectDynamicInterfaceTys]
    by_cases old : (defId, args) ∈ collector.expandedDynamicInterfaces
    · refine .inl ⟨if_pos (List.contains_iff_mem.mpr old), .inl ⟨_, ?_, rfl⟩⟩
      exact AggregateCollector.dynamicInterface_mem_seen.mpr old
    · rw [if_neg (mt List.contains_iff_mem.mp old)]
      by_cases grows : growthDiagnosed collector.dynamicInterfaceStack defId args = true
      · refine .inr (.inl ⟨_, if_pos grows, fun key inside => ?_, ?_⟩)
        · cases key <;> simp_all [AggregateCollector.diagnose]
        · simp [AggregateCollector.quiet, AggregateCollector.diagnose]
      · exact .inr (.inr ⟨_, _, if_neg grows, program.opened_dynamicInterface old _⟩)
  | retainedClosureInterface receiver capability =>
    simp only [enter, collectRetainedClosureInterfaceTys]
    by_cases old : (receiver, capability) ∈ collector.retainedClosureInterfaceTys
    · refine .inl ⟨if_pos (List.contains_iff_mem.mpr old), .inl ⟨_, ?_, rfl⟩⟩
      exact AggregateCollector.retainedClosureInterface_mem_seen.mpr old
    · exact .inr (.inr ⟨_, _, if_neg (mt List.contains_iff_mem.mp old),
        program.opened_retainedClosureInterface old⟩)

theorem opened_of_into {collector' : AggregateCollector} {node : Visit} {parts : List Visit}
    {leave : AggregateCollector → AggregateCollector}
    (entered : program.enter collector node = .into collector' parts leave) :
    parts = program.visits node ∧ program.Opened collector node collector' leave := by
  obtain ⟨done, -⟩ | ⟨_, done, -⟩ | ⟨_, _, into, opened⟩ := program.enter_cases collector node
  · cases done.symm.trans entered
  · cases done.symm.trans entered
  · cases into.symm.trans entered
    exact ⟨rfl, opened⟩

theorem guarded :
    Guarded program.enter program.keyOf AggregateCollector.seen program.LeadsTo where
  done := by
    intro collector node collector' ended
    obtain ⟨done, -⟩ | ⟨_, done, grows, -⟩ | ⟨_, _, into, -⟩ := program.enter_cases collector node
    · cases done.symm.trans ended
      exact Set.Subset.refl _
    · cases done.symm.trans ended
      exact grows
    · cases into.symm.trans ended
  into := by
    intro collector node collector' parts leave entered
    obtain ⟨rfl, opened⟩ := program.opened_of_into entered
    exact ⟨fun key inside => (opened.seen key).mpr (.inl inside), fun part isPart => isPart⟩
  leave := by
    intro collector node collector' parts leave entered last key inside
    obtain ⟨-, opened⟩ := program.opened_of_into entered
    exact (opened.left_seen last key).mpr (.inl inside)
  fresh := by
    intro collector node collector' parts leave key entered hasKey
    obtain ⟨-, opened⟩ := program.opened_of_into entered
    exact ⟨opened.new key hasKey, (opened.seen key).mpr (.inr hasKey)⟩

end AggregateProgram

/-- A program without interfaces, closures, futures and meta types. -/
def plainAggregates (structs : List (String × AggregateTemplate)) : AggregateProgram where
  templates
    | .struct => structs
    | .enum => []
  checked := []
  interfaces := []
  interfaceAliases := []
  opaqueReturns := []
  stdFuture := (none, "Future")
  metaStorageTy := fun _ _ => none
  isOwnedMetaPolicyLeaf := fun _ => false

/-! ### Growth behind a pointer -/

/-- `i64`, `Node<i64>`, `Node<Node<i64>>` and so on. -/
def nodeArg : Nat → Ty
  | 0 => .primitive .i64
  | n + 1 => .named (some 0) "Node" [nodeArg n]

def nodeName (n : Nat) : String := aggregateInstanceName "Node" [nodeArg n]

theorem nodeName_length (n : Nat) : (nodeName n).length = 5 * n + 8 := by
  induction n with
  | zero => decide
  | succ n ih =>
    have step : nodeName (n + 1) = "Node_" ++ nodeName n := rfl
    rw [step, String.length_append, ih]
    have word : "Node_".length = 5 := rfl
    omega

/-- The instance of `Node` at the given argument, as it is collected. -/
def nodeInstance (n : Nat) : CheckedAggregate :=
  ⟨.struct, nodeName n, [.pointer true .writable (nodeArg (n + 2))]⟩

/-- `struct Node<T> { ?*Node<Node<T>> next; }` and
`interface<T, U> *const Node<U> peek(*const T value);`. -/
def nodeProgram : AggregateProgram where
  __ := plainAggregates [("Node", ⟨["T"], [.pointer true .writable
    (.named (some 0) "Node" [.named (some 0) "Node" [.generic "T"]])]⟩)]
  interfaces := [⟨1, ["T", "U"], .pointer false .readOnly (.named (some 0) "Node" [.generic "U"]),
    [.pointer false .readOnly (.generic "T")]⟩]

/-- `?*peek<i64>`. -/
def peekTy : Ty := .pointer true .writable (.dynamicInterface 1 "peek" [.primitive .i64])

/-- No instance of `Node` from a size on has been come to. -/
def NodesUnseen (collector : AggregateCollector) (n : Nat) : Prop :=
  ∀ m ≥ n, .aggregate .struct (nodeName m) ∉ collector.seen

theorem instantiate_node {n : Nat} (new : NodesUnseen collector n) : ∃ collector' leave,
      nodeProgram.enter collector (.aggregate .struct "Node" [nodeArg n]) =
        .into collector' [.ty (.pointer true .writable (nodeArg (n + 2)))] leave ∧
      NodesUnseen collector' (n + 1) := by
  have found : nodeProgram.members .struct "Node" [nodeArg n] =
      some [.pointer true .writable (nodeArg (n + 2))] := rfl
  obtain ⟨collector', leave, emission, opened⟩ := nodeProgram.opened_instance found (new n le_rfl)
  obtain ⟨-, old | missing⟩ | ⟨missing, -⟩ | ⟨members, found', -, into⟩ :=
    nodeProgram.instantiate_cases collector .struct "Node" [nodeArg n]
  · exact absurd old (new n le_rfl)
  · cases found.symm.trans missing
  · cases found.symm.trans missing
  · cases found.symm.trans found'
    refine ⟨collector', leave, into.trans emission, fun m larger inside => ?_⟩
    obtain old | same := (opened.seen _).mp inside
    · exact new m (by omega) old
    · simp only [AggregateProgram.keyOf, found, Option.isSome_some, if_true, Option.some.injEq,
        VisitKey.aggregate.injEq, true_and] at same
      have lengths : (nodeName n).length = (nodeName m).length := congrArg String.length same
      rw [nodeName_length, nodeName_length] at lengths
      omega

/-- Whatever the depth, the instance, its type and pointers to it lead to a larger
instance first. -/
theorem node_endless (depth : Nat) : ∀ {collector : AggregateCollector} {n : Nat},
    NodesUnseen collector n →
      visit nodeProgram.enter depth collector (.aggregate .struct "Node" [nodeArg n]) = none ∧
      visit nodeProgram.enter depth collector (.ty (nodeArg (n + 1))) = none ∧
      ∀ nullable mutability, visit nodeProgram.enter depth collector
        (.ty (.pointer nullable mutability (nodeArg (n + 1)))) = none := by
  induction depth with
  | zero => exact fun _ => ⟨rfl, rfl, fun _ _ => rfl⟩
  | succ depth ih =>
    intro collector n new
    obtain ⟨collector', leave, entered, larger⟩ := instantiate_node new
    refine ⟨visit_eq_none entered ((ih larger).2.2 _ _), ?_, fun nullable mutability => ?_⟩
    · exact visit_eq_none rfl (ih new).1
    · exact visit_eq_none rfl (ih new).2.1

/-- Without by-value edges the search finds no cycle. -/
theorem detectCycles_of_no_edges {edges : String → List String} (noEdges : ∀ name, edges name = [])
    (names visited : List String) : ∃ visited',
      visitAll (visit (detectCycleFrom edges) 1) ⟨[], visited, []⟩ names =
        some ⟨[], visited', []⟩ := by
  induction names generalizing visited with
  | nil => exact ⟨visited, rfl⟩
  | cons name rest ih =>
    have first : ∃ visited', visit (detectCycleFrom edges) 1 ⟨[], visited, []⟩ name =
        some ⟨[], visited', []⟩ := by
      by_cases old : name ∈ visited
      · exact ⟨visited, by simp [visit, detectCycleFrom, old]⟩
      · exact ⟨name :: visited, by simp [visit, detectCycleFrom, old, noEdges, visitAll]⟩
    obtain ⟨visited', first⟩ := first
    obtain ⟨visited'', later⟩ := ih visited'
    exact ⟨visited'', Option.bind_eq_some_iff.mpr ⟨_, first, later⟩⟩

theorem nodes_accepted (count : Nat) : LayoutsAccepted ((List.range count).map nodeInstance) := by
  have noEdges (name : String) : edgesOf ((List.range count).map nodeInstance) name = [] := by
    unfold edgesOf
    split
    · rename_i aggregate found
      obtain ⟨n, -, rfl⟩ := List.mem_map.mp (List.mem_reverse.mp (List.mem_of_find?_eq_some found))
      rfl
    · rfl
  obtain ⟨visited', searched⟩ := detectCycles_of_no_edges noEdges
    (sortedNames (((List.range count).map nodeInstance).map CheckedAggregate.name)) []
  exact ⟨1, by rw [checkCheckedAggregateLayouts, searched]; rfl⟩

end Ciel.Mono
