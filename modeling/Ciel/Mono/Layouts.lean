import Ciel.Mono.Aggregates
import Mathlib.Data.List.Chain

/-!
# The layout check

The check searches the aggregates depth first and reports an aggregate when it comes
back to it on the way. Aggregates that are finished are not gone through again, so not
every cycle is reported. But the aggregate of a cycle that is finished first has a
successor on the cycle that is on the way at that moment, and this one is reported.

An aggregate is known to the check by its instance name. The cycles that it goes by are
those of containment as long as no two instances share a name: the edges of an enum
replace those of a struct of the same name.
-/

namespace Ciel.Mono

open Ciel.Types
open Library.Traversal (visit visitAll)

variable {search : CycleSearch} {name : String} {names : List String}

/-- A value of the type holds a value of the part in itself. An opaque state is kept
beside its base. -/
inductive StoredIn (part : Ty) : Ty → Prop
  | self : StoredIn part part
  | array {len : Nat} {elem : Ty} (stored : StoredIn part elem) : StoredIn part (.array len elem)
  | base {base : Ty} {state : List (String × Ty)} (stored : StoredIn part base) :
      StoredIn part (.opaqueState base state)
  | state {base : Ty} {state : List (String × Ty)} {entry : String × Ty} (member : entry ∈ state)
      (stored : StoredIn part entry.2) : StoredIn part (.opaqueState base state)

variable (aggregates : List CheckedAggregate)

/-- The aggregate that the name stands for: the last one with the name. -/
def Latest (name : String) (aggregate : CheckedAggregate) : Prop :=
  aggregate.name = name ∧ ∃ before after, aggregates = before ++ aggregate :: after ∧
    ∀ later ∈ after, later.name ≠ name

/-- What the check takes for containment: the aggregate of a name has a field or a payload
that holds a value of a type of the other name. -/
def Leads (outer inner : String) : Prop :=
  inner ∈ aggregates.map CheckedAggregate.name ∧ ∃ aggregate, Latest aggregates outer aggregate ∧
    ∃ ty ∈ aggregate.members, ∃ defId name args,
      StoredIn (.named defId name args) ty ∧ aggregateInstanceName name args = inner

theorem mem_stateLayoutEdges {inner : String} {state : List (String × Ty)} :
    inner ∈ stateLayoutEdges names state ↔ ∃ entry ∈ state, inner ∈ layoutEdges names entry.2 := by
  induction state with
  | nil => simp [stateLayoutEdges]
  | cons entry state ih =>
    obtain ⟨label, ty⟩ := entry
    simp only [stateLayoutEdges, entryLayoutEdges, List.mem_append, ih, List.mem_cons,
      exists_eq_or_imp]

theorem mem_layoutEdges {inner : String} {ty : Ty} :
    inner ∈ layoutEdges names ty ↔ inner ∈ names ∧ ∃ defId name args,
      StoredIn (.named defId name args) ty ∧ aggregateInstanceName name args = inner := by
  constructor
  · induction ty with
    | step ty ih =>
      intro edge
      cases ty
      case named defId name args =>
        by_cases known : aggregateInstanceName name args ∈ names <;>
          simp [layoutEdges, known] at edge
        exact ⟨edge ▸ known, defId, name, args, .self, edge.symm⟩
      case array len elem =>
        obtain ⟨known, defId, name, args, stored, same⟩ :=
          ih elem (by simp [Ty.children]) (by simpa [layoutEdges] using edge)
        exact ⟨known, defId, name, args, .array stored, same⟩
      case opaqueState base state =>
        rw [layoutEdges, List.mem_append, mem_stateLayoutEdges] at edge
        obtain inBase | ⟨entry, member, inEntry⟩ := edge
        · obtain ⟨known, defId, name, args, stored, same⟩ := ih base (by simp [Ty.children]) inBase
          exact ⟨known, defId, name, args, .base stored, same⟩
        · obtain ⟨known, defId, name, args, stored, same⟩ :=
            ih entry.2 (List.mem_cons_of_mem _ (List.mem_map_of_mem member)) inEntry
          exact ⟨known, defId, name, args, .state member stored, same⟩
      all_goals simp [layoutEdges] at edge
  · rintro ⟨known, defId, name, args, stored, rfl⟩
    induction stored with
    | self => simp [layoutEdges, known]
    | array _ ih => simpa [layoutEdges] using ih
    | base _ ih => exact List.mem_append_left _ ih
    | state member _ ih => exact List.mem_append_right _ (mem_stateLayoutEdges.mpr ⟨_, member, ih⟩)

theorem mem_sortedNames :
    name ∈ sortedNames names ↔ name ∈ names := by
  simp [sortedNames]

theorem find?_latest {aggregates : List CheckedAggregate} {aggregate : CheckedAggregate} :
    aggregates.reverse.find? (·.name == name) = some aggregate ↔
      Latest aggregates name aggregate := by
  rw [List.find?_eq_some_iff_append, beq_iff_eq]
  refine and_congr_right fun _ => ⟨?_, ?_⟩
  · rintro ⟨after, before, order, others⟩
    refine ⟨before.reverse, after.reverse, ?_, fun later member => ?_⟩
    · rw [List.reverse_eq_iff.mp order]
      simp
    · simpa using others later (List.mem_reverse.mp member)
  · rintro ⟨before, after, rfl, others⟩
    exact ⟨after.reverse, before.reverse, by simp, fun later member =>
      by simpa using others later (List.mem_reverse.mp member)⟩

theorem mem_edgesOf {aggregates : List CheckedAggregate} {outer inner : String} :
    inner ∈ edgesOf aggregates outer ↔ Leads aggregates outer inner := by
  unfold edgesOf Leads
  simp only [← find?_latest]
  cases aggregates.reverse.find? (·.name == outer) with
  | none => simp
  | some aggregate =>
    simp only [mem_sortedNames, List.mem_flatMap, mem_layoutEdges, Option.some.injEq,
      exists_eq_left']
    constructor
    · rintro ⟨ty, member, known, stored⟩
      exact ⟨known, ty, member, stored⟩
    · rintro ⟨known, ty, member, stored⟩
      exact ⟨ty, member, known, stored⟩

/-! ### The search -/

/-- A way along the edges that comes back to where it began. -/
def ClosedPath {α : Type} (edge : α → α → Prop) (path : List α) : Prop :=
  ∃ node way, path = node :: way ++ [node] ∧ path.IsChain edge

theorem ClosedPath.onward {α : Type} {edge : α → α → Prop} {path : List α}
    (closed : ClosedPath edge path) : ∀ name ∈ path, ∃ next ∈ path, edge name next := by
  obtain ⟨start, way, rfl, chain⟩ := closed
  intro name member
  have inside : name ∈ start :: way := by simpa [or_comm] using member
  obtain ⟨before, after, split⟩ := List.append_of_mem inside
  rw [split, List.append_assoc] at chain ⊢
  cases after with
  | nil => exact ⟨start, by simp, chain.right_of_append.rel⟩
  | cons next after => exact ⟨next, by simp, chain.right_of_append.rel⟩

variable (edges : String → List String)

/-- The successors of an aggregate that is finished were finished before it, or are
reported. -/
inductive Settled (reported : String → Prop) : List String → Prop
  | nil : Settled reported []
  | cons {name : String} {finished : List String}
      (onward : ∀ next ∈ edges name, next ∈ finished ∨ reported next)
      (rest : Settled reported finished) : Settled reported (name :: finished)

variable {edges}

theorem Settled.mono {reported more : String → Prop} {finished : List String}
    (settled : Settled edges reported finished) (sub : ∀ name, reported name → more name) :
    Settled edges more finished := by
  induction settled with
  | nil => exact .nil
  | cons onward _ ih => exact .cons (fun next edge => (onward next edge).imp_right (sub next)) ih

/-- No cycle without a reported aggregate is among what is finished: by induction, its
aggregate that was finished first would have no successor on it. -/
theorem Settled.not_mem {reported : String → Prop} {finished path : List String}
    (settled : Settled edges reported finished) (closed : ClosedPath (fun a b => b ∈ edges a) path)
    (silent : ∀ name ∈ path, ¬ reported name) : ∀ name ∈ finished, name ∉ path := by
  induction settled with
  | nil => simp
  | cons onward _ ih =>
    refine List.forall_mem_cons.mpr ⟨fun member => ?_, ih⟩
    obtain ⟨next, inPath, edge⟩ := closed.onward _ member
    obtain earlier | known := onward next edge
    · exact ih next earlier inPath
    · exact silent next inPath known

namespace CycleSearch

/-- The aggregate that the diagnostic of a cycle is about. -/
def Reports (search : CycleSearch) (name : String) : Prop :=
  ∃ cycle ∈ search.cycles, cycle.getLast? = some name

variable (edges) (nodes : List String)

structure Sound (search : CycleSearch) : Prop where
  distinct : search.visiting.Nodup
  known : search.visiting ⊆ nodes
  path : search.visiting.IsChain fun a b => b ∈ edges a
  settled : Settled edges search.Reports search.visited
  closed : ∀ cycle ∈ search.cycles, ClosedPath (fun a b => b ∈ edges a) cycle

/-- What going through aggregates comes to. -/
structure Advances (before after : CycleSearch) (names : List String) : Prop where
  sound : after.Sound edges nodes
  visiting : after.visiting = before.visiting
  visited : before.visited ⊆ after.visited
  cycles : before.cycles ⊆ after.cycles
  settled : ∀ name ∈ names, name ∈ after.visited ∨ after.Reports name

variable {edges} {nodes}

theorem Reports.mono {before after : CycleSearch} (sub : before.cycles ⊆ after.cycles)
    (reports : before.Reports name) : after.Reports name := by
  obtain ⟨cycle, member, last⟩ := reports
  exact ⟨cycle, sub member, last⟩

theorem Advances.trans {s t u : CycleSearch} {more : List String}
    (first : Advances edges nodes s t names) (second : Advances edges nodes t u more) :
    Advances edges nodes s u (names ++ more) where
  sound := second.sound
  visiting := second.visiting.trans first.visiting
  visited := List.Subset.trans first.visited second.visited
  cycles := List.Subset.trans first.cycles second.cycles
  settled := by
    refine List.forall_mem_append.mpr ⟨fun name member => ?_, second.settled⟩
    exact (first.settled name member).imp (second.visited ·) (Reports.mono second.cycles)

theorem advances_visitAll {step : CycleSearch → String → Option CycleSearch} (names : List String)
    (sound : search.Sound edges nodes)
    (each : ∀ name ∈ names, ∀ s : CycleSearch, s.Sound edges nodes → s.visiting = search.visiting →
      ∃ t, step s name = some t ∧ Advances edges nodes s t [name]) :
    ∃ t, visitAll step search names = some t ∧ Advances edges nodes search t names := by
  induction names generalizing search with
  | nil => exact ⟨search, rfl, sound, rfl, List.Subset.refl _, List.Subset.refl _, by simp⟩
  | cons name rest ih =>
    obtain ⟨here, later⟩ := List.forall_mem_cons.mp each
    obtain ⟨t, ran, first⟩ := here search sound rfl
    obtain ⟨u, others, second⟩ := ih first.sound fun name member s sound same =>
      later name member s sound (same.trans first.visiting)
    exact ⟨u, by rw [visitAll, ran, Option.bind_some, others], first.trans second⟩

/-- Coming back to an aggregate on the way reports a cycle. -/
theorem Sound.report (sound : search.Sound edges nodes) {pos : Nat}
    (reached : (search.visiting ++ [name]).IsChain fun a b => b ∈ edges a)
    (found : search.visiting.idxOf? name = some pos) :
    Advances edges nodes search
      { search with cycles := search.cycles ++ [search.visiting.drop pos ++ [name]] } [name] := by
  have more : search.cycles ⊆ search.cycles ++ [search.visiting.drop pos ++ [name]] :=
    List.subset_append_left _ _
  refine ⟨⟨sound.distinct, sound.known, sound.path, sound.settled.mono fun _ => Reports.mono more,
    ?_⟩,
    rfl, List.Subset.refl _, more, ?_⟩
  · refine List.forall_mem_append.mpr ⟨sound.closed, List.forall_mem_singleton.mpr ?_⟩
    obtain ⟨inside, same, -⟩ := List.idxOf?_eq_some_iff.mp found
    refine ⟨name, search.visiting.drop (pos + 1), ?_, ?_⟩
    · rw [List.drop_eq_getElem_cons inside, same]
    · rw [← List.take_append_drop pos search.visiting, List.append_assoc] at reached
      exact reached.right_of_append
  · exact List.forall_mem_singleton.mpr
      (.inr ⟨_, List.mem_append_right _ (List.mem_singleton_self _), by simp⟩)

theorem Sound.enter (sound : search.Sound edges nodes) (inside : name ∈ nodes)
    (new : name ∉ search.visiting)
    (reached : (search.visiting ++ [name]).IsChain fun a b => b ∈ edges a) :
    Sound edges nodes { search with visiting := search.visiting ++ [name] } where
  distinct := by
    rw [List.nodup_append_comm]
    exact List.nodup_cons.mpr ⟨new, sound.distinct⟩
  known := List.append_subset.mpr ⟨sound.known, by simpa using inside⟩
  path := reached
  settled := sound.settled
  closed := sound.closed

/-- The way goes back to where it was, and the aggregate is finished after all its
successors. -/
theorem Advances.leave {t : CycleSearch} (sound : search.Sound edges nodes)
    (advances : Advances edges nodes { search with visiting := search.visiting ++ [name] } t
      (edges name)) :
    Advances edges nodes search
      { t with visiting := t.visiting.dropLast, visited := name :: t.visited } [name] := by
  have same : t.visiting.dropLast = search.visiting := by simp [advances.visiting]
  rw [same]
  refine ⟨⟨sound.distinct, sound.known, sound.path, ?_, advances.sound.closed⟩, rfl, ?_,
    advances.cycles, by simp⟩
  · exact .cons advances.settled advances.sound.settled
  · exact List.Subset.trans advances.visited (List.subset_cons_self _ _)

theorem Sound.length_le (sound : search.Sound edges nodes) :
    search.visiting.length ≤ nodes.length :=
  (sound.distinct.subperm sound.known).length_le

/-- The search ends: the way it has come holds no aggregate twice. -/
theorem advances_detectCycleFrom (closed : ∀ name ∈ nodes, edges name ⊆ nodes) (depth : Nat)
    (sound : search.Sound edges nodes) (inside : name ∈ nodes)
    (reached : (search.visiting ++ [name]).IsChain fun a b => b ∈ edges a)
    (enough : nodes.length < depth + search.visiting.length) :
    ∃ t, visit (detectCycleFrom edges) depth search name = some t ∧
      Advances edges nodes search t [name] := by
  induction depth generalizing search name with
  | zero => exact absurd sound.length_le (by omega)
  | succ depth ih =>
    by_cases finished : name ∈ search.visited
    · refine ⟨search, by simp [visit, detectCycleFrom, finished], sound, rfl, List.Subset.refl _,
        List.Subset.refl _, by simp [finished]⟩
    cases found : search.visiting.idxOf? name with
    | some pos =>
      exact ⟨_, by simp [visit, detectCycleFrom, finished, found], sound.report reached found⟩
    | none =>
      have new : name ∉ search.visiting := List.idxOf?_eq_none_iff.mp found
      obtain ⟨t, ran, advances⟩ := advances_visitAll (edges name)
        (sound.enter inside new reached) fun next edge s sound' same => by
          refine ih sound' (closed name inside edge) ?_ ?_
          · rw [same]
            exact reached.append (List.isChain_singleton next) (by simpa using edge)
          · rw [same, List.length_append, List.length_singleton]
            omega
      exact ⟨_, by simp [visit, detectCycleFrom, finished, found, ran], advances.leave sound⟩

end CycleSearch

/-- For every set of aggregates the check comes to an end. It reports nothing exactly if
no name leads back to itself, and every such cycle has a name that is reported. -/
theorem checkCheckedAggregateLayouts_leads :
    ∃ depth cycles, checkCheckedAggregateLayouts depth aggregates = some cycles ∧
      (cycles = [] ↔ ¬ ∃ path, ClosedPath (Leads aggregates) path) ∧
      ∀ path, ClosedPath (Leads aggregates) path →
        ∃ name ∈ path, ∃ cycle ∈ cycles, cycle.getLast? = some name := by
  have edge : (fun a b => b ∈ edgesOf aggregates a) = Leads aggregates := by
    funext a b
    exact propext mem_edgesOf
  let nodes := sortedNames (aggregates.map CheckedAggregate.name)
  have closed : ∀ name ∈ nodes, edgesOf aggregates name ⊆ nodes := fun name _ inner isEdge =>
    mem_sortedNames.mpr (mem_edgesOf.mp isEdge).1
  have start : CycleSearch.Sound (edgesOf aggregates) nodes ⟨[], [], []⟩ :=
    ⟨by simp, by simp, by simp, .nil, by simp⟩
  obtain ⟨t, ran, advances⟩ := CycleSearch.advances_visitAll nodes start
    fun name inside s sound same =>
      CycleSearch.advances_detectCycleFrom closed (nodes.length + 1) sound inside
        (by simp [same]) (by simp [same])
  have reported : ∀ path, ClosedPath (Leads aggregates) path → ∃ name ∈ path, t.Reports name := by
    intro path isClosed
    obtain ⟨name, way, rfl, -⟩ := id isClosed
    obtain ⟨next, inPath, contains⟩ := isClosed.onward name (by simp)
    by_contra silent
    have unreported : ∀ other ∈ name :: way ++ [name], ¬ t.Reports other :=
      fun other member reports => silent ⟨other, member, reports⟩
    have finished : next ∈ t.visited :=
      (advances.settled next (mem_sortedNames.mpr contains.1)).resolve_right
        (unreported next inPath)
    exact advances.sound.settled.not_mem (edge ▸ isClosed) unreported next finished inPath
  refine ⟨nodes.length + 1, t.cycles, ?_, ⟨?_, ?_⟩, reported⟩
  · rw [checkCheckedAggregateLayouts, ran, Option.map_some]
  · rintro none ⟨path, isClosed⟩
    obtain ⟨name, -, cycle, member, -⟩ := reported path isClosed
    simp [none] at member
  · intro acyclic
    rw [List.eq_nil_iff_forall_not_mem]
    intro cycle member
    exact acyclic ⟨cycle, edge ▸ advances.sound.closed cycle member⟩

/-! ### Containment -/

/-- A struct or enum instance, with the type that it is the instance of. -/
structure Instance where
  kind : AggregateKind
  defId : Option DefId
  name : String
  args : List Ty
  members : List Ty

namespace Instance

def ty (i : Instance) : Ty := .named i.defId i.name i.args

def instanceName (i : Instance) : String := aggregateInstanceName i.name i.args

def checked (i : Instance) : CheckedAggregate := ⟨i.kind, i.instanceName, i.members⟩

end Instance

/-- An instance has a field or a payload that holds a value of another instance. -/
def Contains (instances : List Instance) (outer inner : Instance) : Prop :=
  outer ∈ instances ∧ inner ∈ instances ∧ ∃ ty ∈ outer.members, StoredIn inner.ty ty

/-- The name of an instance belongs to it: no other instance has it, and no other type
that an instance holds by value. -/
def NamesApart (instances : List Instance) : Prop :=
  ∀ inner ∈ instances,
    (∀ other ∈ instances, other.instanceName = inner.instanceName → other = inner) ∧
    ∀ outer ∈ instances, ∀ ty ∈ outer.members, ∀ defId name args,
      StoredIn (.named defId name args) ty →
      aggregateInstanceName name args = inner.instanceName → .named defId name args = inner.ty

section Names

variable {instances : List Instance} {outer inner : Instance}

theorem NamesApart.latest (apart : NamesApart instances) (member : outer ∈ instances)
    {aggregate : CheckedAggregate} :
    Latest (instances.map Instance.checked) outer.instanceName aggregate ↔
      aggregate = outer.checked := by
  have only : ∀ candidate ∈ instances.map Instance.checked, candidate.name = outer.instanceName →
      candidate = outer.checked := by
    intro candidate inside same
    obtain ⟨other, inInstances, rfl⟩ := List.mem_map.1 inside
    rw [(apart outer member).1 other inInstances same]
  constructor
  · rintro ⟨same, before, after, split, -⟩
    exact only aggregate (by simp [split]) same
  · rintro rfl
    -- one of the aggregates has the name, so there is a last one
    have some : ((instances.map Instance.checked).reverse.find?
        (·.name == outer.instanceName)).isSome := by
      rw [List.find?_isSome]
      exact ⟨outer.checked, by simpa using ⟨outer, member, rfl⟩, by simp [Instance.checked]⟩
    obtain ⟨found, isFound⟩ := Option.isSome_iff_exists.1 some
    have latest := find?_latest.1 isFound
    obtain ⟨same, before, after, split, -⟩ := id latest
    rwa [only found (by simp [split]) same] at latest

/-- Among instances with names of their own, the check goes by containment. -/
theorem NamesApart.leads_iff (apart : NamesApart instances) (member : outer ∈ instances)
    (member' : inner ∈ instances) :
    Leads (instances.map Instance.checked) outer.instanceName inner.instanceName ↔
      Contains instances outer inner := by
  simp only [Leads, apart.latest member, exists_eq_left, Contains, member, member', true_and]
  constructor
  · rintro ⟨-, ty, inMembers, defId, name, args, stored, same⟩
    rw [(apart inner member').2 outer member ty inMembers defId name args stored same] at stored
    exact ⟨ty, inMembers, stored⟩
  · rintro ⟨ty, inMembers, stored⟩
    refine ⟨?_, ty, inMembers, inner.defId, inner.name, inner.args, stored, rfl⟩
    exact List.mem_map.2 ⟨inner.checked, List.mem_map_of_mem member', rfl⟩

theorem leads_known {name next : String}
    (leads : Leads (instances.map Instance.checked) name next) :
    ∃ outer ∈ instances, outer.instanceName = name := by
  obtain ⟨-, aggregate, ⟨rfl, before, after, split, -⟩, -⟩ := leads
  have inside : aggregate ∈ instances.map Instance.checked := by simp [split]
  obtain ⟨outer, member, rfl⟩ := List.mem_map.1 inside
  exact ⟨outer, member, rfl⟩

/-- The names along a cycle of instances are a cycle of names. -/
theorem NamesApart.names_closed (apart : NamesApart instances) {path : List Instance}
    (closed : ClosedPath (Contains instances) path) :
    ClosedPath (Leads (instances.map Instance.checked)) (path.map Instance.instanceName) := by
  obtain ⟨start, way, rfl, chain⟩ := closed
  refine ⟨start.instanceName, way.map Instance.instanceName, by simp, ?_⟩
  exact List.isChain_map_of_isChain _
    (fun _ _ contains => (apart.leads_iff contains.1 contains.2.1).2 contains) chain

/-- A cycle of names comes from a cycle of instances. -/
theorem NamesApart.instances_closed (apart : NamesApart instances) {path : List String}
    (closed : ClosedPath (Leads (instances.map Instance.checked)) path) :
    ∃ path, ClosedPath (Contains instances) path := by
  have known : ∀ name ∈ path, ∃ i ∈ instances, i.instanceName = name := fun name member =>
    have ⟨_, _, leads⟩ := closed.onward name member
    leads_known leads
  obtain ⟨start, way, rfl, chain⟩ := closed
  have : Nonempty Instance := ⟨(known start (by simp)).choose⟩
  choose! find inside named using known
  refine ⟨_, find start, way.map find, rfl, ?_⟩
  have whole : find start :: way.map find ++ [find start] = (start :: way ++ [start]).map find := by
    simp
  rw [whole, List.isChain_map]
  refine chain.imp_of_mem_imp fun a b inA inB leads => ?_
  rw [← named a inA, ← named b inB] at leads
  exact (apart.leads_iff (inside a inA) (inside b inB)).1 leads

end Names

/-- The instances for `A` of `struct Box<T> { Other<T> other; }` and
`struct Other<T> { Box<T> box; }`. -/
def boxAndOther : List Instance :=
  let a := .named none "A" []
  [⟨.struct, none, "Box", [a], [.named none "Other" [a]]⟩,
    ⟨.struct, none, "Other", [a], [.named none "Box" [a]]⟩]

theorem boxAndOther_closed (more : List Instance) :
    ∃ path, ClosedPath (Contains (boxAndOther ++ more)) path := by
  refine ⟨_, boxAndOther[0], [boxAndOther[1]], rfl, ?_⟩
  refine .cons_cons ⟨by simp [boxAndOther], by simp [boxAndOther], _, List.mem_cons_self, .self⟩
    (.cons_cons ⟨by simp [boxAndOther], by simp [boxAndOther], _, List.mem_cons_self, .self⟩
      (.singleton _))

/-- `enum Box_A { Empty }`. -/
def boxA : Instance := ⟨.enum, none, "Box_A", [], []⟩

end Ciel.Mono
