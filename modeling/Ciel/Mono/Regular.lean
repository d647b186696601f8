import Mathlib.Algebra.Order.BigOperators.Group.List
import Mathlib.Algebra.Order.Ring.Nat
import Ciel.Library.Budget
import Ciel.Mono.Instances
import Ciel.Types.Shapes

/-!
# Recursions that the growth check bounds

The growth check compares sizes. It bounds a recursion of templates whose type arguments are
built with finitely many type constructors, and contain what they have grown from. A closure
literal has a type of its own in every instance, which is another constructor each time. It may
leave the recursion, but a recursion that passes it on has infinitely many instances of one
size.

Templates are ranked, and a request for a template of higher rank leaves the recursion. The
functions generated with an instance start without a chain, so that the growth check does not
see a recursion through them.
-/

namespace Ciel.Mono

open Ciel.Types

/-! ### Sizes and parts of types -/

theorem tyContains_trans {outer inner part : Ty} (first : tyContains outer inner = true)
    (second : tyContains inner part = true) : tyContains outer part = true := by
  induction outer with
  | step outer ih =>
    obtain rfl | ⟨child, inside, contains⟩ := tyContains_iff.mp first
    · exact second
    · exact tyContains_iff.mpr (.inr ⟨child, inside, ih child inside contains⟩)

theorem typeComplexity_le {ty : Ty} {tys : List Ty} (inside : ty ∈ tys) :
    typeComplexity ty ≤ tysComplexity tys := by
  induction tys with
  | nil => cases inside
  | cons first rest ih =>
    rw [tysComplexity]
    obtain rfl | inside := List.mem_cons.mp inside
    · omega
    · have := ih inside
      omega

theorem tysComplexity_append (first second : List Ty) :
    tysComplexity (first ++ second) = tysComplexity first + tysComplexity second := by
  induction first with
  | nil => simp [tysComplexity]
  | cons ty first ih => rw [List.cons_append, tysComplexity, tysComplexity, ih, Nat.add_assoc]

theorem stateComplexity_eq (state : List (String × Ty)) :
    stateComplexity state = tysComplexity (state.map Prod.snd) := by
  induction state with
  | nil => rfl
  | cons entry state ih => rw [stateComplexity, ih, List.map_cons, tysComplexity, entryComplexity]

theorem tysComplexity_refs (refs : List ConstraintRef) :
    tysComplexity (refs.flatMap ConstraintRef.args) ≤ constraintRefsComplexity refs := by
  induction refs with
  | nil => exact Nat.le_refl 0
  | cons ref refs ih =>
    obtain ⟨defId, name, args⟩ := ref
    rw [List.flatMap_cons, tysComplexity_append, constraintRefsComplexity, constraintRefComplexity,
      ConstraintRef.args]
    omega

theorem tysComplexity_bounds (bounds : ConstraintBounds) :
    tysComplexity bounds.tys ≤ constraintBoundsComplexity bounds := by
  obtain ⟨positive, negative⟩ := bounds
  have := tysComplexity_refs positive
  have := tysComplexity_refs negative
  rw [ConstraintBounds.tys, List.flatMap_append, tysComplexity_append, constraintBoundsComplexity,
    ConstraintBounds.positive, ConstraintBounds.negative]
  omega

theorem tysComplexity_children (ty : Ty) :
    ty.children = [] ∨ tysComplexity ty.children < typeComplexity ty := by
  cases ty with
  | hole | never | void | primitive | cSpelling | generic | unknown => exact .inl rfl
  | opaqueReturn _ _ bounds | closure _ _ bounds =>
    have := tysComplexity_bounds bounds
    simp only [Ty.children, typeComplexity, tysComplexity, tysComplexity_append, List.cons_append]
    omega
  | _ =>
    simp only [Ty.children, typeComplexity, tysComplexity, tysComplexity_append, List.cons_append,
      stateComplexity_eq]
    omega

/-- Parts are smaller. -/
theorem typeComplexity_lt {ty part : Ty} (inside : part ∈ ty.children) :
    typeComplexity part < typeComplexity ty := by
  obtain none | smaller := tysComplexity_children ty
  · rw [none] at inside
    cases inside
  · exact (typeComplexity_le inside).trans_lt smaller

/-- All parts of a type have shapes from a set. -/
def Over (shapes : Set Ty) (ty : Ty) : Prop :=
  ∀ part, tyContains ty part = true → part.shape ∈ shapes

theorem Over.within {shapes : Set Ty} {ty : Ty} {n : Nat} (made : Over shapes ty)
    (small : typeComplexity ty ≤ n) : ty.Within shapes n := by
  induction n generalizing ty with
  | zero =>
    refine ⟨made ty (tyContains_self ty), List.eq_nil_iff_forall_not_mem.mpr fun part inside => ?_⟩
    have := typeComplexity_lt inside
    omega
  | succ n ih =>
    refine ⟨made ty (tyContains_self ty), fun part inside => ih (fun other contains => ?_) ?_⟩
    · exact made other (tyContains_iff.mpr (.inr ⟨part, inside, contains⟩))
    · have := typeComplexity_lt inside
      omega

/-- Every type is built with finitely many shapes. -/
theorem exists_over (tys : List Ty) :
    ∃ shapes : Set Ty, shapes.Finite ∧ ∀ ty ∈ tys, Over shapes ty := by
  obtain ⟨shapes, n, finite, within⟩ := Ty.exists_within tys
  refine ⟨shapes, finite, fun ty inside => ?_⟩
  have each := within ty inside
  clear within inside
  induction ty with
  | step ty ih =>
    intro part contains
    obtain rfl | ⟨child, inside, contains⟩ := tyContains_iff.mp contains
    · exact each.shape_mem
    · exact ih child inside (each.of_child child inside) part contains

/-! ### The condition -/

/-- Every part of the type is a part of one of the others or has a shape from the set. -/
def BuiltFrom (shapes : Set Ty) (args : List Ty) (ty : Ty) : Prop :=
  ∀ part, tyContains ty part = true →
    part.shape ∈ shapes ∨ ∃ arg ∈ args, tyContains arg part = true

/-- The type arguments of a request inside of a recursion: each is built from the caller's and
contains one of them. -/
structure Recurs (shapes : Set Ty) (args next : List Ty) : Prop where
  built : ∀ ty ∈ next, BuiltFrom shapes args ty
  contains : ∀ ty ∈ next, ∃ arg ∈ args, tyContains ty arg = true

/-- Checking an instance gives its functions. -/
def CheckedProgram.Checks (program : CheckedProgram) (owner : ClosureOwnerId) (key : InstanceKey)
    (checked : CheckedGenericInstance) : Prop :=
  ∃ template, program.templates key.1 = some template ∧ template owner key.2 = some checked

/-- Finitely many templates, with ranks. An instance asks for one of finitely many fixed
instances, for a template of higher rank at any type arguments, or for one of its own rank at
type arguments that are built from its own. A generated function does not do the last. -/
structure CheckedProgram.Regular (program : CheckedProgram) where
  templates : List DefId
  width : Nat
  rank : DefId → Nat
  shapes : Set Ty
  fixed : List InstanceKey
  finite : shapes.Finite
  declared : ∀ entry ∈ program.functions, ∀ next, .generic next ∈ entry.2 →
    next.1 ∈ templates ∧ next.2.length ≤ width
  asked : ∀ owner key checked, program.Checks owner key checked → key.2.length ≤ width →
    ∀ body ∈ checked.function :: checked.generated, ∀ next, .generic next ∈ body →
      next.1 ∈ templates ∧ next.2.length ≤ width
  function : ∀ owner key checked, program.Checks owner key checked →
    ∀ next, .generic next ∈ checked.function → next ∈ fixed ∨ rank key.1 < rank next.1 ∨
      rank key.1 = rank next.1 ∧ Recurs shapes key.2 next.2
  generated : ∀ owner key checked, program.Checks owner key checked →
    ∀ body ∈ checked.generated, ∀ next, .generic next ∈ body →
      next ∈ fixed ∨ rank key.1 < rank next.1

/-! ### One recursion -/

section Recursion

variable {templates : List DefId} {shapes more : Set Ty} {bound : ℕ → ℕ}
  {before segment : List TypeExpansionFrame} {key next : InstanceKey}

/-- How often a template was expanded for the first or second time. -/
def spent (templates : List DefId) (segment : List TypeExpansionFrame) : Nat :=
  (templates.map fun defId => min 2 (segment.filter (·.defId == defId)).length).sum

theorem spent_le : spent templates segment ≤ 2 * templates.length := by
  have := List.sum_le_card_nsmul (templates.map fun defId =>
    min 2 (segment.filter (·.defId == defId)).length) 2 (by simp)
  rw [List.length_map] at this
  exact this.trans_eq (Nat.mul_comm _ 2)

theorem spent_mono (frame : TypeExpansionFrame) :
    spent templates segment ≤ spent templates (segment ++ [frame]) := by
  refine List.sum_le_sum fun defId _ => ?_
  rw [List.filter_append, List.length_append]
  omega

theorem spent_lt {frame : TypeExpansionFrame} (isTemplate : frame.defId ∈ templates)
    (early : (segment.filter (·.defId == frame.defId)).length < 2) :
    spent templates segment < spent templates (segment ++ [frame]) := by
  refine List.sum_lt_sum _ _ (fun defId _ => ?_) ⟨frame.defId, isTemplate, ?_⟩
  · rw [List.filter_append, List.length_append]
    omega
  · simp only [List.filter_append, List.length_append, List.filter_singleton, beq_self_eq_true]
    simp
    omega

/-- The chain of a recursion, from where it was entered. -/
structure Recursion (templates : List DefId) (more : Set Ty) (bound : ℕ → ℕ)
    (segment : List TypeExpansionFrame) (key : InstanceKey) : Prop where
  last : ⟨key.1, key.2⟩ ∈ segment
  made : ∀ ty ∈ key.2, Over more ty
  contains : ∀ frame ∈ segment, ∀ ty ∈ key.2, ∃ arg ∈ frame.typeArgs, tyContains ty arg = true
  small : ∀ frame ∈ segment, tysComplexity frame.typeArgs ≤ bound (spent templates segment)

theorem recursion_start (monotone : Monotone bound) (made : ∀ ty ∈ key.2, Over more ty)
    (small : tysComplexity key.2 ≤ bound 0) :
    Recursion templates more bound [⟨key.1, key.2⟩] key where
  last := List.mem_singleton_self _
  made := made
  contains := List.forall_mem_singleton.mpr fun ty inside => ⟨ty, inside, tyContains_self ty⟩
  small := List.forall_mem_singleton.mpr (small.trans (monotone (Nat.zero_le _)))

/-- An instance that passes the growth check after two others is no larger than one of the
recursion, if it contains what that was expanded at. -/
theorem exists_le_of_passes (passes : growthDiagnosed (before ++ segment) next.1 next.2 = false)
    (late : 2 ≤ (segment.filter (·.defId == next.1)).length)
    (contains : ∀ frame ∈ segment, ∀ ty ∈ next.2, ∃ arg ∈ frame.typeArgs,
      tyContains ty arg = true) :
    ∃ frame ∈ segment, tysComplexity next.2 ≤ tysComplexity frame.typeArgs := by
  have some : segment.filter (·.defId == next.1) ≠ [] := by
    rintro none
    simp [none] at late
  obtain ⟨frame, isLast⟩ := Option.isSome_iff_exists.mp (List.getLast?_isSome.mpr some)
  have inside : frame ∈ segment := List.mem_of_mem_filter (List.mem_of_getLast? isLast)
  refine ⟨frame, inside, ?_⟩
  have notGrown : isStrictTypeArgumentGrowth frame.typeArgs next.2 = false := by
    have enough : 2 ≤ ((before ++ segment).filter (·.defId == next.1)).length := by
      rw [List.filter_append, List.length_append]
      omega
    rw [growthDiagnosed, Bool.and_eq_false_iff] at passes
    have quiet := passes.resolve_left fun few => of_decide_eq_false few enough
    refine (Option.any_eq_false _ _).mp quiet frame ?_
    rw [List.filter_append, List.getLast?_append, isLast]
    rfl
  by_contra larger
  have nonempty : next.2 ≠ [] := fun empty => larger (empty ▸ Nat.zero_le _)
  obtain ⟨ty, isArg⟩ := List.exists_mem_of_ne_nil _ nonempty
  obtain ⟨old, isOld, contained⟩ := contains frame inside ty isArg
  rw [isStrictTypeArgumentGrowth, Bool.and_eq_false_iff, decide_eq_false_iff_not] at notGrown
  have none := notGrown.resolve_left (not_not.mpr (Nat.lt_of_not_le larger))
  exact (List.any_eq_false.mp none old isOld) (List.any_eq_true.mpr ⟨ty, isArg, contained⟩)

theorem Recursion.step (recursion : Recursion templates more bound segment key)
    (monotone : Monotone bound) (known : shapes ⊆ more) (isTemplate : next.1 ∈ templates)
    (recurs : Recurs shapes key.2 next.2)
    (grows : ∀ m, tysComplexity key.2 ≤ bound m → tysComplexity next.2 ≤ bound (m + 1))
    (passes : growthDiagnosed (before ++ segment) next.1 next.2 = false) :
    Recursion templates more bound (segment ++ [⟨next.1, next.2⟩]) next := by
  have contains : ∀ frame ∈ segment, ∀ ty ∈ next.2, ∃ arg ∈ frame.typeArgs,
      tyContains ty arg = true := by
    intro frame inside ty isArg
    obtain ⟨middle, isMiddle, contains⟩ := recurs.contains ty isArg
    obtain ⟨old, isOld, contained⟩ := recursion.contains frame inside middle isMiddle
    exact ⟨old, isOld, tyContains_trans contains contained⟩
  refine ⟨by simp, fun ty isArg part inside => ?_, ?_, ?_⟩
  · obtain new | ⟨old, isOld, contained⟩ := recurs.built ty isArg part inside
    · exact known new
    · exact recursion.made old isOld part contained
  · refine List.forall_mem_append.mpr ⟨contains, List.forall_mem_singleton.mpr ?_⟩
    exact fun ty isArg => ⟨ty, isArg, tyContains_self ty⟩
  · refine List.forall_mem_append.mpr ⟨fun frame inside => ?_, List.forall_mem_singleton.mpr ?_⟩
    · exact (recursion.small frame inside).trans (monotone (spent_mono _))
    by_cases early : (segment.filter (·.defId == next.1)).length < 2
    · exact (grows _ (recursion.small _ recursion.last)).trans
        (monotone (spent_lt isTemplate early))
    · obtain ⟨frame, inside, le⟩ :=
        exists_le_of_passes passes (Nat.le_of_not_lt early) contains
      exact (le.trans (recursion.small frame inside)).trans (monotone (spent_mono _))

/-- The instances of the templates at so many type arguments over the shapes. -/
def keysOver (templates : List DefId) (width : Nat) (more : Set Ty) : Set InstanceKey :=
  {key | (key.1 ∈ templates ∧ key.2.length ≤ width) ∧ ∀ ty ∈ key.2, Over more ty}

/-- There are finitely many of each size over finitely many shapes. -/
theorem finite_keys (templates : List DefId) (finite : more.Finite) (width n : Nat) :
    {key ∈ keysOver templates width more | tysComplexity key.2 ≤ n}.Finite := by
  refine ((List.finite_toSet templates).prod
    (Library.finite_lists (Ty.finite_within finite n) width)).subset ?_
  rintro key ⟨⟨⟨isTemplate, short⟩, made⟩, small⟩
  refine ⟨isTemplate, short, fun ty inside => (made ty inside).within ?_⟩
  exact (typeComplexity_le inside).trans small

end Recursion

/-! ### From rank to rank -/

namespace CheckedProgram

variable {program : CheckedProgram} {ω : InstanceKey → Nat} {id : FunctionId} {key : InstanceKey}
  {body : List Request} {chain : List TypeExpansionFrame}

/-- What the functions of an instance refer to. -/
def targets (program : CheckedProgram) (ω : InstanceKey → Nat) (key : InstanceKey) :
    Set FunctionId :=
  {id | ∃ checked, program.instanceOf ω key = some checked ∧
    ∃ body ∈ checked.function :: checked.generated, ∃ request ∈ body, request.target = id}

theorem finite_targets (program : CheckedProgram) (ω : InstanceKey → Nat) (key : InstanceKey) :
    (program.targets ω key).Finite := by
  cases isInstance : program.instanceOf ω key with
  | none => exact Set.finite_empty.subset fun id ⟨checked, found, _⟩ => by cases isInstance ▸ found
  | some checked =>
    refine (List.finite_toSet
      ((checked.function :: checked.generated).flatten.map Request.target)).subset ?_
    rintro id ⟨other, found, body, isBody, request, inside, rfl⟩
    obtain rfl := Option.some.inj (isInstance.symm.trans found)
    exact List.mem_map_of_mem (List.mem_flatten_of_mem isBody inside)

/-- A body is that of a declared function, or one of an instance. -/
theorem bodyOf_cases (hasBody : program.bodyOf ω id = some body) :
    (∃ defId, (defId, body) ∈ program.functions) ∨ ∃ key checked, id.key? = some key ∧
      program.instanceOf ω key = some checked ∧ body ∈ checked.function :: checked.generated ∧
        (body ∈ checked.generated ∨ id = .generic key ∧ body = checked.function) := by
  cases id with
  | declared defId =>
    obtain ⟨before, after, entries, -⟩ := List.lookup_eq_some_iff.mp hasBody
    exact .inl ⟨defId, by simp [entries]⟩
  | generic key =>
    obtain ⟨checked, isInstance, isBody⟩ := Option.bind_eq_some_iff.mp hasBody
    obtain rfl := Option.some.inj isBody
    exact .inr ⟨key, checked, rfl, isInstance, List.mem_cons_self, .inr ⟨rfl, rfl⟩⟩
  | generated key =>
    obtain ⟨checked, isInstance, isBody⟩ := Option.bind_eq_some_iff.mp hasBody
    have isGenerated := List.mem_of_getElem? isBody
    exact .inr ⟨key, checked, rfl, isInstance, List.mem_cons_of_mem _ isGenerated, .inl isGenerated⟩

theorem checks_of_instanceOf {checked : CheckedGenericInstance}
    (isInstance : program.instanceOf ω key = some checked) :
    program.Checks (.genericInstance key.1 (ω key)) key checked :=
  Option.bind_eq_some_iff.mp isInstance

namespace Regular

variable (regular : program.Regular)

include regular

/-- The instance of a function that can be reached can be reached, and is one of the templates
at so many arguments. -/
theorem reached (reached : program.Reachable ω id chain) (ofKey : id.key? = some key) :
    .generic key ∈ program.reachable ω ∧
      key.1 ∈ regular.templates ∧ key.2.length ≤ regular.width := by
  induction reached generalizing key with
  | root => cases ofKey
  | @plain id target chain body _ hasBody inside ih =>
    have inScope := bodyOf_inScope hasBody inside
    cases target with
    | declared => cases ofKey
    | generic => exact inScope.elim
    | generated other =>
      cases ofKey
      exact ih inScope
  | generic reached hasBody inside passes ih =>
    cases ofKey
    refine ⟨⟨_, .generic reached hasBody inside passes⟩, ?_⟩
    obtain ⟨defId, isFunction⟩ | ⟨owner, checked, ofOwner, isInstance, isBody, -⟩ :=
      bodyOf_cases hasBody
    · exact regular.declared _ isFunction _ inside
    · exact regular.asked _ _ _ (checks_of_instanceOf isInstance) (ih ofOwner).2.2 _ isBody _ inside

/-- The requests by which a recursion is entered. -/
def entries (ω : InstanceKey → Nat) (rank : Nat) : Set InstanceKey :=
  {key | key ∈ regular.fixed ∨ (∃ entry ∈ program.functions, .generic key ∈ entry.2) ∨
    ∃ caller, .generic caller ∈ program.reachable ω ∧ regular.rank caller.1 < rank ∧
      .generic key ∈ program.targets ω caller}

theorem finite_entries {rank : Nat}
    (lower : {key | .generic key ∈ program.reachable ω ∧ regular.rank key.1 < rank}.Finite) :
    (regular.entries ω rank).Finite := by
  have asked : {key | Request.generic key ∈ program.functions.flatMap Prod.snd}.Finite :=
    (List.finite_toSet _).preimage fun _ _ _ _ => Request.generic.inj
  have called := lower.biUnion fun caller _ =>
    (program.finite_targets ω caller).preimage fun _ _ _ _ => FunctionId.generic.inj
  refine ((List.finite_toSet regular.fixed).union (asked.union called)).subset ?_
  rintro key (isFixed | ⟨entry, isFunction, inside⟩ | ⟨caller, reached, less, inside⟩)
  · exact .inl isFixed
  · exact .inr (.inl (List.mem_flatMap.mpr ⟨entry, isFunction, inside⟩))
  · exact .inr (.inr (Set.mem_biUnion (show caller ∈ {key | _ ∧ _} from ⟨reached, less⟩) inside))

/-- An instance is entered, or asked for by one of the same recursion. -/
theorem entered_or_recurs {next : InstanceKey} (reached : program.Reachable ω id chain)
    (hasBody : program.bodyOf ω id = some body) (inside : .generic next ∈ body) :
    next ∈ regular.entries ω (regular.rank next.1) ∨ ∃ key, id = .generic key ∧
      regular.rank key.1 = regular.rank next.1 ∧ .generic next ∈ program.targets ω key ∧
        Recurs regular.shapes key.2 next.2 := by
  obtain ⟨defId, isFunction⟩ | ⟨key, checked, ofKey, isInstance, isBody, kind⟩ :=
    bodyOf_cases hasBody
  · exact .inl (.inr (.inl ⟨_, isFunction, inside⟩))
  have isTarget : .generic next ∈ program.targets ω key :=
    ⟨checked, isInstance, _, isBody, _, inside, rfl⟩
  have checks := checks_of_instanceOf isInstance
  have left (less : regular.rank key.1 < regular.rank next.1) :
      next ∈ regular.entries ω (regular.rank next.1) :=
    .inr (.inr ⟨key, (regular.reached reached ofKey).1, less, isTarget⟩)
  obtain isGenerated | ⟨rfl, rfl⟩ := kind
  · exact .inl ((regular.generated _ _ _ checks _ isGenerated next inside).elim .inl left)
  · obtain isFixed | less | ⟨same, recurs⟩ := regular.function _ _ _ checks next inside
    · exact .inl (.inl isFixed)
    · exact .inl (left less)
    · exact .inr ⟨key, rfl, same, isTarget, recurs⟩

/-- The chain of an instance ends with a recursion, from where its rank was entered. -/
theorem exists_recursion {more : Set Ty} {bound : ℕ → ℕ} (known : regular.shapes ⊆ more)
    (monotone : Monotone bound)
    (starts : ∀ entry ∈ regular.entries ω (regular.rank key.1),
      (∀ ty ∈ entry.2, Over more ty) ∧ tysComplexity entry.2 ≤ bound 0)
    (grows : ∀ m, ∀ caller ∈ keysOver regular.templates regular.width more,
      tysComplexity caller.2 ≤ bound m → ∀ next, .generic next ∈ program.targets ω caller →
        tysComplexity next.2 ≤ bound (m + 1))
    (reached : program.Reachable ω (.generic key) chain) :
    ∃ before segment, chain = before ++ segment ∧
      Recursion regular.templates more bound segment key := by
  generalize same : FunctionId.generic key = id at reached
  induction reached generalizing key with
  | root => cases same
  | plain _ hasBody inside =>
    subst same
    exact (bodyOf_inScope hasBody inside).elim
  | generic reached hasBody inside passes ih =>
    cases same
    obtain entered | ⟨caller, rfl, sameRank, isTarget, recurs⟩ :=
      regular.entered_or_recurs reached hasBody inside
    · obtain ⟨made, small⟩ := starts _ entered
      exact ⟨_, _, rfl, recursion_start monotone made small⟩
    · obtain ⟨before, segment, rfl, recursion⟩ := ih (sameRank ▸ starts) rfl
      have isCaller := (regular.reached reached rfl).2
      have isTemplate := (regular.reached (.generic reached hasBody inside passes) rfl).2.1
      refine ⟨before, _, List.append_assoc .., recursion.step monotone known isTemplate recurs ?_
        passes⟩
      exact fun m small => grows m caller ⟨isCaller, recursion.made⟩ small _ isTarget

/-- The instances of one rank, if those of lower ranks are finitely many. -/
theorem finite_rank {rank : Nat}
    (lower : {key | .generic key ∈ program.reachable ω ∧ regular.rank key.1 < rank}.Finite) :
    {key | .generic key ∈ program.reachable ω ∧ regular.rank key.1 = rank}.Finite := by
  have finite := regular.finite_entries lower
  obtain ⟨shapes, finiteShapes, made⟩ := exists_over (finite.toFinset.toList.flatMap Prod.snd)
  obtain ⟨start, isStart⟩ := (finite.image fun key => tysComplexity key.2).bddAbove
  have few := finite_keys regular.templates (regular.finite.union finiteShapes) regular.width
  obtain ⟨bound, monotone, base, grows⟩ := Library.exists_bound few (fun key =>
    (program.finite_targets ω key).preimage fun _ _ _ _ => FunctionId.generic.inj) start
  refine (few (bound (2 * regular.templates.length))).subset ?_
  rintro key ⟨⟨chain, reached⟩, rfl⟩
  have starts : ∀ entry ∈ regular.entries ω (regular.rank key.1),
      (∀ ty ∈ entry.2, Over (regular.shapes ∪ shapes) ty) ∧ tysComplexity entry.2 ≤ bound 0 := by
    refine fun entry entered => ⟨fun ty isArg part contains => .inr (made ty ?_ part contains),
      (isStart ⟨entry, entered, rfl⟩).trans base⟩
    have listed := Finset.mem_toList.mpr (finite.mem_toFinset.mpr entered)
    exact List.mem_flatMap.mpr ⟨entry, listed, isArg⟩
  obtain ⟨before, segment, -, recursion⟩ :=
    regular.exists_recursion Set.subset_union_left monotone starts grows reached
  refine ⟨⟨(regular.reached reached rfl).2, recursion.made⟩, ?_⟩
  exact (recursion.small _ recursion.last).trans (monotone spent_le)

theorem finite_generic : {key | .generic key ∈ program.reachable ω}.Finite := by
  have below (rank : Nat) :
      {key | .generic key ∈ program.reachable ω ∧ regular.rank key.1 < rank}.Finite := by
    induction rank with
    | zero => exact Set.finite_empty.subset fun key ⟨_, less⟩ => by cases less
    | succ rank ih =>
      refine (ih.union (regular.finite_rank ih)).subset fun key ⟨reached, less⟩ => ?_
      obtain less | same := Nat.lt_succ_iff_lt_or_eq.mp less
      · exact .inl ⟨reached, less⟩
      · exact .inr ⟨reached, same⟩
  obtain ⟨top, isTop⟩ := (List.finite_toSet (regular.templates.map regular.rank)).bddAbove
  refine (below (top + 1)).subset fun key ⟨chain, reached⟩ => ?_
  refine ⟨⟨chain, reached⟩, Nat.lt_succ_of_le (isTop ?_)⟩
  exact List.mem_map_of_mem (regular.reached reached rfl).2.1

/-- Only finitely many functions can be reached. -/
theorem finite_reachable : (program.reachable ω).Finite := by
  have roots := List.finite_toSet (program.roots.map FunctionId.declared)
  have declared := List.finite_toSet
    ((program.functions.flatMap Prod.snd).map Request.target)
  have instances := (regular.finite_generic (ω := ω)).biUnion fun key _ =>
    program.finite_targets ω key
  refine (roots.union (declared.union instances)).subset ?_
  rintro id ⟨chain, reached⟩
  have follow {id target : FunctionId} {chain : List TypeExpansionFrame} {body : List Request}
      {request : Request} (reached : program.Reachable ω id chain)
      (hasBody : program.bodyOf ω id = some body) (inside : request ∈ body)
      (isTarget : request.target = target) :
      target ∈ {id | id ∈ (program.functions.flatMap Prod.snd).map Request.target} ∪
        ⋃ key ∈ {key | .generic key ∈ program.reachable ω}, program.targets ω key := by
    obtain ⟨defId, isFunction⟩ | ⟨key, checked, ofKey, isInstance, isBody, -⟩ :=
      bodyOf_cases hasBody
    · refine .inl (List.mem_map.mpr ⟨request, ?_, isTarget⟩)
      exact List.mem_flatMap.mpr ⟨_, isFunction, inside⟩
    · exact .inr (Set.mem_biUnion (show key ∈ {key | _} from (regular.reached reached ofKey).1)
        ⟨checked, isInstance, body, isBody, request, inside, isTarget⟩)
  cases reached with
  | root isRoot => exact .inl (List.mem_map_of_mem isRoot)
  | plain reached hasBody inside => exact .inr (follow reached hasBody inside rfl)
  | generic reached hasBody inside passes => exact .inr (follow reached hasBody inside rfl)

end Regular

end CheckedProgram

end Ciel.Mono
