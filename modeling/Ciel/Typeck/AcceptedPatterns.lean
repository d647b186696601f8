import Ciel.Typeck.Exhaustive
import Ciel.Typeck.Outline

/-!
# Accepted patterns

The patterns that the checker accepts for a scrutinee fit the column of its
type: a variant pattern names a variant of the enum, and its stored subpatterns
are as many as the stored payload types and fit them in turn. With that the
exhaustiveness check is exact on every list of accepted patterns, if the leaves
of the type are inhabited.
-/

namespace Ciel.Typeck.Patterns

open Ciel.Types

variable {program : Program}

theorem checkPattern_isErasedValue {isCaseHead : Bool} {pattern : Pattern} {expected : Ty}
    {checked : TPattern}
    (accepted : checkPattern program isCaseHead pattern expected = some checked) :
    checked.ty.isErasedValue = expected.isErasedValue := by
  cases pattern with
  | wildcard =>
    simp only [checkPattern, Option.ite_none_left_eq_some, Option.some.injEq] at accepted
    rw [← accepted.2]
    rfl
  | named kind subpatterns =>
    cases kind with
    | error => cases accepted
    | binding id =>
      simp only [checkPattern, Option.ite_none_right_eq_some, Option.some.injEq] at accepted
      rw [← accepted.2]
      rfl
    | variants candidates =>
      simp only [checkPattern] at accepted
      split at accepted
      · split at accepted
        · split at accepted
          · obtain ⟨payload, -, rfl⟩ := Option.map_eq_some_iff.mp accepted
            cases expected <;> rfl
          · cases accepted
        · cases accepted
      · cases accepted

/-- What a selected candidate says about the enum it belongs to. -/
theorem selectVariantCandidate_sound {candidates : List VariantRef} {expected : Ty}
    {sig : VariantSig} (selected : selectVariantCandidate program candidates expected = some sig) :
    ∃ template variant, program.enums sig.enumName = some template ∧
      template.variants[sig.index]? = some variant ∧ variant.name = sig.name ∧
      sig.enumGenerics = template.generics ∧ sig.payload = variant.payload := by
  have inCandidates : sig ∈ candidates.filterMap program.variantSig := by
    simp only [selectVariantCandidate] at selected
    split at selected
    · split at selected
      next ofEnum =>
        cases selected
        exact List.mem_of_mem_filter (ofEnum ▸ List.mem_singleton_self sig)
      next _ only =>
        cases selected
        exact only ▸ List.mem_singleton_self sig
      next => cases selected
    · split at selected
      next only =>
        cases selected
        exact only ▸ List.mem_singleton_self sig
      next => cases selected
  obtain ⟨ref, -, found⟩ := List.mem_filterMap.mp inCandidates
  unfold Program.variantSig at found
  split at found
  · cases found
  next template atName =>
    obtain ⟨variant, atIndex, rfl⟩ := Option.map_eq_some_iff.mp found
    exact ⟨template, variant, atName, atIndex, rfl, rfl, rfl⟩

theorem physicalPayload_idem (tys : List Ty) :
    physicalPayload (physicalPayload tys) = physicalPayload tys := by
  simp [physicalPayload]

/-- Types of the same outlines, position by position. -/
abbrev Alike (program : Program) : List Ty → List Ty → Prop :=
  List.Forall₂ fun left right => outline program left = outline program right

theorem alike_logicalPayload {generics : List String} {left right : List Ty}
    (same : outlines program left = outlines program right) (payload : List Ty) :
    Alike program (logicalPayload generics left payload)
      (logicalPayload generics right payload) := by
  unfold logicalPayload
  apply List.forall₂_map_left_iff.mpr
  apply List.forall₂_map_right_iff.mpr
  exact List.forall₂_same.mpr fun ty _ => outline_substituteTy (lookup_zip_outline same) ty

theorem Alike.physicalPayload {left right : List Ty} (alike : Alike program left right) :
    Alike program (physicalPayload left) (physicalPayload right) := by
  induction alike with
  | nil => exact .nil
  | @cons first second left right head tail ih =>
    unfold Patterns.physicalPayload at ih ⊢
    rw [List.filter_cons, List.filter_cons, isErasedValue_congr head]
    split
    · exact .cons head ih
    · exact ih

/-- A type that is still to be inferred has no values. -/
theorem LeavesInhabited.inferred {ty : Ty} (inhabited : LeavesInhabited program ty) :
    ty.stripOpaqueState.isHole = false := by
  have none_of_hole {ty : Ty} (hole : ty.stripOpaqueState.isHole = true) :
      declaredEnum program ty = none := by
    cases ty <;> first | rfl | cases hole
  have no_values {value : Value} {ty : Ty} (hole : ty.stripOpaqueState.isHole = true) :
      ¬HasType program value ty := by
    induction ty with
    | step ty ih =>
      intro typed
      cases ty with
      | opaqueState base state =>
        cases typed with
        | atom atomic => cases atomic
        | hidden typed => exact ih base (by simp [Ty.children]) hole typed
        | variant found => cases found
      | hole id =>
        cases typed with
        | atom atomic => cases atomic
        | variant found => cases found
      | _ => cases hole
  cases hole : ty.stripOpaqueState.isHole with
  | false => rfl
  | true =>
    obtain ⟨value, typed, -⟩ := inhabited ty .self (none_of_hole hole)
    exact absurd typed (no_values hole)

/-- Patterns that fit their columns one by one fit the stored payload. -/
theorem suitsStored_of_checkPatterns {state : List (String × Ty)} {variantName : String}
    {subpatterns : List Pattern} {index : Nat} {tys columns : List Ty} {payload : List TPattern}
    (each : ∀ pattern ∈ subpatterns, ∀ expected column checked,
      checkPattern program false pattern expected = some checked → Stands program expected column →
      LeavesInhabited program column → Suits program checked column)
    (alike : Alike program tys columns) (same : subpatterns.length = tys.length)
    (inhabited : ∀ column ∈ physicalPayload columns, LeavesInhabited program column)
    (accepted : checkPatterns program subpatterns
      (projectedPayload program state variantName index tys) = some payload) :
    SuitsStored program payload (physicalPayload columns) := by
  induction alike generalizing subpatterns index payload with
  | nil =>
    obtain rfl := List.length_eq_zero_iff.mp same
    cases accepted
    rfl
  | @cons ty column tys columns head tail ih =>
    obtain _ | ⟨pattern, subpatterns⟩ := subpatterns
    · cases same
    have shorter : subpatterns.length = tys.length := by simpa using same
    have rest := fun other member => each other (List.mem_cons_of_mem pattern member)
    unfold physicalPayload at inhabited ih ⊢
    rw [List.filter_cons] at inhabited ⊢
    rw [projectedPayload] at accepted
    rw [isErasedValue_congr head] at accepted
    cases erased : column.isErasedValue with
    | true =>
      -- nothing is stored for this part, and its pattern is passed over
      rw [erased] at accepted inhabited
      simp only [if_true, checkPatterns] at accepted
      split at accepted
      · cases accepted
      next checked first =>
        obtain ⟨payload, tailAccepted, rfl⟩ := Option.map_eq_some_iff.mp accepted
        have skipped : checked.ty.isErasedValue = true := by
          rw [checkPattern_isErasedValue first, isErasedValue_congr head, erased]
        rw [SuitsStored, if_pos skipped]
        exact ih rest shorter inhabited tailAccepted
    | false =>
      rw [erased] at accepted inhabited
      simp only [Bool.not_false, if_true] at inhabited
      simp only [Bool.false_eq_true, if_false, checkPatterns] at accepted
      split at accepted
      · cases accepted
      next checked first =>
        obtain ⟨payload, tailAccepted, rfl⟩ := Option.map_eq_some_iff.mp accepted
        have leaf : LeavesInhabited program column := inhabited column List.mem_cons_self
        have stands : Stands program (projectVariantPayloadTy program state variantName index ty)
            column := by
          have inferred : ty.stripOpaqueState.isHole = false := by
            rw [isHole_congr head, leaf.inferred]
          have stored : ty.isErasedValue = false := by rw [isErasedValue_congr head, erased]
          exact (projectOpaqueStateTy_stands stored inferred _).trans head
        have stored : checked.ty.isErasedValue = false := by
          rw [checkPattern_isErasedValue first, stands.isErasedValue_eq, erased]
        rw [SuitsStored, if_neg (by simp [stored])]
        exact ⟨column, _, rfl, each pattern List.mem_cons_self _ _ _ first stands leaf,
          ih rest shorter (fun other member => inhabited other (List.mem_cons_of_mem _ member))
            tailAccepted⟩

/-- The variants of a column that has the outline of the checked enum. -/
theorem variant_of_outline {defId : Option DefId} {name : String} {args : List Ty} {column : Ty}
    {variants : List CheckedVariant} {template : EnumTemplate} {decl : VariantDecl} {index : Nat}
    (same : outline program (.named defId name args) = outline program column)
    (found : declaredEnum program column = some variants)
    (atName : program.enums (program.nameOf defId name) = some template)
    (atIndex : template.variants[index]? = some decl) :
    ∃ columnArgs, outlines program args = outlines program columnArgs ∧
      variants[index]? = some
        ⟨decl.name,
          physicalPayload (logicalPayload template.generics columnArgs decl.payload)⟩ := by
  cases column <;> try cases found
  next defId' name' columnArgs =>
    rw [outline, outline, Outline.named.injEq] at same
    simp only [declaredEnum, ← same.1, atName, Option.ite_none_left_eq_some,
      Option.some.injEq] at found
    refine ⟨columnArgs, same.2, ?_⟩
    rw [← found.2, List.getElem?_map, atIndex]
    rfl

theorem patternPayload_cases {sig : VariantSig} {args : List Ty} {count : Nat} {tys : List Ty}
    (chosen : patternPayload sig args count = some tys) :
    count = tys.length ∧ (tys = logicalPayload sig.enumGenerics args sig.payload ∨
      tys = physicalPayload (logicalPayload sig.enumGenerics args sig.payload)) := by
  simp only [patternPayload] at chosen
  split at chosen
  next same =>
    cases chosen
    exact ⟨same, .inl rfl⟩
  split at chosen
  next same =>
    cases chosen
    exact ⟨same, .inr rfl⟩
  cases chosen

/-- An accepted pattern fits the column of its type. -/
theorem suits_of_checkPattern (pattern : Pattern) {isCaseHead : Bool} {expected column : Ty}
    {checked : TPattern}
    (accepted : checkPattern program isCaseHead pattern expected = some checked)
    (stands : Stands program expected column) (inhabited : LeavesInhabited program column) :
    Suits program checked column := by
  match pattern with
  | .wildcard =>
    simp only [checkPattern, Option.ite_none_left_eq_some, Option.some.injEq] at accepted
    rw [← accepted.2]
    exact trivial
  | .named .error _ => cases accepted
  | .named (.binding id) subpatterns =>
    simp only [checkPattern, Option.ite_none_right_eq_some, Option.some.injEq] at accepted
    rw [← accepted.2]
    exact trivial
  | .named (.variants candidates) subpatterns =>
    have each : ∀ inner ∈ subpatterns, ∀ expected column checked,
        checkPattern program false inner expected = some checked → Stands program expected column →
        LeavesInhabited program column → Suits program checked column :=
      fun inner member _ _ _ accepted stands inhabited =>
        have := List.sizeOf_lt_of_mem member
        suits_of_checkPattern inner accepted stands inhabited
    simp only [checkPattern] at accepted
    split at accepted
    swap
    · cases accepted
    rename_i sig defId name args selected base
    split at accepted
    swap
    · cases accepted
    rename_i belongs
    split at accepted
    swap
    · cases accepted
    rename_i tys chosen
    obtain ⟨payload, inner, rfl⟩ := Option.map_eq_some_iff.mp accepted
    obtain ⟨template, decl, atName, atIndex, named, generics, sigPayload⟩ :=
      selectVariantCandidate_sound selected
    obtain ⟨same, all⟩ := patternPayload_cases chosen
    -- the checked enum is the enum of the column, up to opaque state
    have outlined : outline program (.named defId name args) = outline program column := by
      obtain outlined | ⟨notNamed, -⟩ := stands
      · rw [← base, outline_splitOpaqueState, outlined]
      · exact absurd base (notNamed _ _ _)
    intro variants found
    obtain ⟨columnArgs, alikeArgs, atColumn⟩ :=
      variant_of_outline outlined found (belongs.1 ▸ atName) atIndex
    refine ⟨_, atColumn, named, ?_⟩
    have stored : ∀ part ∈ physicalPayload
        (logicalPayload template.generics columnArgs decl.payload),
        LeavesInhabited program part := fun part inPayload leaf inside =>
      inhabited leaf (.payload found (List.mem_of_getElem? atColumn) inPayload inside)
    have alike : Alike program (logicalPayload sig.enumGenerics args sig.payload)
        (logicalPayload template.generics columnArgs decl.payload) := by
      rw [generics, sigPayload]
      exact alike_logicalPayload alikeArgs _
    obtain rfl | rfl := all
    · exact suitsStored_of_checkPatterns each alike same stored inner
    · rw [← physicalPayload_idem] at stored ⊢
      exact suitsStored_of_checkPatterns each alike.physicalPayload same stored inner
termination_by sizeOf pattern

theorem checkCasePattern_sound {scrutinee : Ty} {pattern : Pattern} {checked : TPattern}
    {enums after : CheckedEnums}
    (accepted : (checkCasePattern program scrutinee pattern).run enums = some (checked, after)) :
    checkPattern program true pattern scrutinee = some checked := by
  simp only [checkCasePattern, StateT.run_bind, Option.bind_eq_bind, Option.bind_eq_some_iff,
    Prod.exists, StateT.run_monadLift] at accepted
  obtain ⟨found, _, ⟨_, checked', head⟩, variants, _, -, accepted⟩ := accepted
  cases head
  split at accepted
  · cases accepted
    exact checked'
  · cases accepted

theorem exists_of_mem_mapM {α β σ : Type} {f : α → StateT σ Option β} {items : List α}
    {results : List β} {s t : σ} (all : (items.mapM f).run s = some (results, t)) {result : β}
    (member : result ∈ results) : ∃ item ∈ items, ∃ s t, (f item).run s = some (result, t) := by
  induction items generalizing results s with
  | nil =>
    cases all
    cases member
  | cons item items ih =>
    rw [List.mapM_cons] at all
    obtain ⟨⟨first, s'⟩, head, all⟩ := Option.bind_eq_some_iff.mp all
    obtain ⟨⟨rest, t'⟩, tail, all⟩ := Option.bind_eq_some_iff.mp all
    cases all
    obtain rfl | member := List.mem_cons.mp member
    · exact ⟨item, List.mem_cons_self, _, _, head⟩
    · obtain ⟨other, inItems, found⟩ := ih tail member
      exact ⟨other, List.mem_cons_of_mem _ inItems, found⟩

/-- An answer for patterns that fit the type is right. -/
theorem answer_exact {ty : Ty} {checked : List TPattern} {fuel : Nat} {answer : Bool}
    (suits : ∀ pattern ∈ checked, Suits program pattern ty) (inhabited : LeavesInhabited program ty)
    (answered : tuplesExhaustive program fuel [ty] (checked.map fun pattern => [pattern]) =
      some answer) :
    answer = true ↔
      ∀ value, HasType program value ty → ∃ pattern ∈ checked, pattern.matches value = true := by
  have rows : ∀ row ∈ checked.map fun pattern => [pattern], SuitsRow program row [ty] := by
    intro row member
    obtain ⟨pattern, inChecked, rfl⟩ := List.mem_map.mp member
    exact .cons (suits pattern inChecked) .nil
  have single (pattern : TPattern) (value : Value) :
      rowMatches [pattern] [value] = pattern.matches value := by
    simp [rowMatches]
  constructor
  · rintro rfl value typed
    obtain ⟨row, member, matched⟩ :=
      matched_of_exhaustive rows answered (HasTypes.cons typed .nil)
    obtain ⟨pattern, inChecked, rfl⟩ := List.mem_map.mp member
    exact ⟨pattern, inChecked, (single pattern value).symm.trans matched⟩
  · intro all
    cases answer with
    | true => rfl
    | false =>
      obtain ⟨values, typed, unmatched⟩ :=
        unmatched_of_not_exhaustive rows (by simpa using inhabited) answered
      obtain _ | ⟨head, tail⟩ := typed
      cases tail
      obtain ⟨pattern, inChecked, matched⟩ := all _ head
      have := unmatched [pattern] (List.mem_map.mpr ⟨pattern, inChecked, rfl⟩)
      rw [single, matched] at this
      cases this

/-- On a type of finite by-value structure whose leaves are inhabited and whose
components have instance names that tell them apart, and on every list of patterns
accepted for it, the check ends and answers `true` exactly if every value of the type
is matched by one of the patterns. -/
theorem patternsExhaustive_exact {scrutinee ty : Ty} {patterns : List Pattern}
    {checked : List TPattern} {before enums : CheckedEnums}
    (base : (splitOpaqueState scrutinee).1 = ty)
    (accepted : (patterns.mapM (checkCasePattern program scrutinee)).run before =
      some (checked, enums))
    (finite : FiniteByValue program ty) (inhabited : LeavesInhabited program ty)
    (apart : NamesApart program (Component program ty) enums) :
    ∃ fuel answer, (∀ more, fuel ≤ more → ∃ after,
        (patternsExhaustiveForType program more ty checked).run enums = some (answer, after)) ∧
      (answer = true ↔
        ∀ value, HasType program value ty → ∃ pattern ∈ checked, pattern.matches value = true) := by
  have suits : ∀ pattern ∈ checked, Suits program pattern ty := by
    intro pattern member
    obtain ⟨source, -, _, _, found⟩ := exists_of_mem_mapM accepted member
    refine suits_of_checkPattern source (checkCasePattern_sound found) (.inl ?_) inhabited
    rw [← base, outline_splitOpaqueState]
  obtain ⟨fuel, enough⟩ := finite.enough [] Enough.nil
  obtain ⟨answer, answered⟩ := enough fuel (Nat.le_refl fuel) (checked.map fun pattern => [pattern])
  have right := answer_exact suits inhabited answered
  refine ⟨fuel, answer, fun more le => ?_, right⟩
  -- the answers for different amounts of fuel say the same thing
  obtain ⟨answer', answered'⟩ := enough more le (checked.map fun pattern => [pattern])
  have same : answer' = answer := by
    rw [Bool.eq_iff_iff, right]
    exact answer_exact suits inhabited answered'
  obtain ⟨after, run, -⟩ := tuplePatternsExhaustive_run apart (by simp) (same ▸ answered')
  exact ⟨after, run⟩

/-! ### An exhaustive switch over nested variants -/

/-- `enum Inner { A(i64), B }` and `enum Outer { Wrap(Inner, Inner), Empty }`. -/
def nestedEnums : Program where
  enums := fun name =>
    if name = "Inner" then some ⟨[], [⟨"A", [.primitive .i64]⟩, ⟨"B", []⟩], by decide⟩
    else if name = "Outer" then
      some
        ⟨[], [⟨"Wrap", [.named none "Inner" [], .named none "Inner" []]⟩, ⟨"Empty", []⟩], by decide⟩
    else none
  structs := fun _ => none
  nominalTypeName := fun _ => ""
  isFuture := fun _ _ => false

/-- `case Wrap(A(x), _)`, `case Wrap(B, A(y))`, `case Wrap(B, B)`, `case Empty`. -/
def nestedCases : List Pattern :=
  let variant (enumName : String) (index : Nat) (payload : List Pattern) : Pattern :=
    .named (.variants [⟨enumName, index⟩]) payload
  let b := variant "Inner" 1 []
  [variant "Outer" 0 [variant "Inner" 0 [.named (.binding 0) []], .wildcard],
    variant "Outer" 0 [b, variant "Inner" 0 [.named (.binding 1) []]],
    variant "Outer" 0 [b, b], variant "Outer" 1 []]

theorem LeavesInhabited.enum {ty : Ty} {variants : List CheckedVariant}
    (found : declaredEnum program ty = some variants)
    (payload : ∀ variant ∈ variants, ∀ part ∈ variant.payload, LeavesInhabited program part) :
    LeavesInhabited program ty := by
  intro leaf inside notEnum
  cases inside with
  | self => simp [found] at notEnum
  | payload found' member inPayload inside =>
    rw [found] at found'
    cases found'
    exact payload _ member _ inPayload leaf inside notEnum

theorem LeavesInhabited.atomic {ty : Ty} (notEnum : declaredEnum program ty = none)
    (atomic : isAtomic program ty = true) : LeavesInhabited program ty := by
  intro leaf inside _
  cases inside with
  | self => exact ⟨.atom, .atom atomic, rfl⟩
  | payload found => simp [notEnum] at found

theorem patternsExhaustive_exact_nested :
    ∃ checked enums, (nestedCases.mapM (checkCasePattern nestedEnums
        (.named none "Outer" []))).run [] = some (checked, enums) ∧
      ∃ fuel answer, (∀ more, fuel ≤ more → ∃ after, (patternsExhaustiveForType nestedEnums more
          (.named none "Outer" []) checked).run enums = some (answer, after)) ∧
        (answer = true ↔ ∀ value, HasType nestedEnums value (.named none "Outer" []) →
          ∃ pattern ∈ checked, pattern.matches value = true) := by
  have number : declaredEnum nestedEnums (.primitive .i64) = none := rfl
  have atInner : declaredEnum nestedEnums (.named none "Inner" []) =
      some [⟨"A", [.primitive .i64]⟩, ⟨"B", []⟩] := rfl
  have outer : declaredEnum nestedEnums (.named none "Outer" []) = some
      [⟨"Wrap", [.named none "Inner" [], .named none "Inner" []]⟩, ⟨"Empty", []⟩] := rfl
  have finiteInner : FiniteByValue nestedEnums (.named none "Inner" []) :=
    .enum atInner (by simp [FiniteByValue.other number])
  have inhabitedInner : LeavesInhabited nestedEnums (.named none "Inner" []) :=
    .enum atInner (by simp [LeavesInhabited.atomic number rfl])
  obtain ⟨checked, accepted⟩ : ∃ checked, (nestedCases.mapM
      (checkCasePattern nestedEnums (.named none "Outer" []))).run [] = some (checked,
        [("Outer", [⟨"Wrap", [.named none "Inner" [], .named none "Inner" []]⟩, ⟨"Empty", []⟩])]) :=
    ⟨_, rfl⟩
  have parts : ∀ part, Component nestedEnums (.named none "Outer" []) part →
      part = .named none "Outer" [] ∨ part = .named none "Inner" [] ∨ part = .primitive .i64 := by
    intro part inside
    refine inside.induct (C := fun part => part = _ ∨ part = _ ∨ part = _) (.inl rfl)
      fun ty variants variant inner closed found member inPayload => ?_
    obtain rfl | rfl | rfl := closed
    · cases outer.symm.trans found
      obtain rfl | rfl : variant = _ ∨ variant = _ := by simpa using member
      · simp_all
      · cases inPayload
    · cases atInner.symm.trans found
      obtain rfl | rfl : variant = _ ∨ variant = _ := by simpa using member
      · simp_all
      · cases inPayload
    · cases found
  have apart : NamesApart nestedEnums (Component nestedEnums (.named none "Outer" []))
      [("Outer", [⟨"Wrap", [.named none "Inner" [], .named none "Inner" []]⟩, ⟨"Empty", []⟩])] := by
    constructor
    · intro a b name inA inB namedA namedB
      obtain rfl | rfl | rfl := parts a inA <;> obtain rfl | rfl | rfl := parts b inB <;>
        first | rfl | exact absurd (namedA.trans namedB.symm) (by decide)
    · intro a name variants inA named found
      obtain rfl | rfl | rfl := parts a inA
      · cases named
        exact found ▸ outer
      · cases named
        cases found
      · cases named
  exact ⟨checked, _, accepted, patternsExhaustive_exact rfl accepted
    (.enum outer (by simp [finiteInner])) (.enum outer (by simp [inhabitedInner])) apart⟩

/-! ### A payload without values -/

/-- `enum Nothing {}`, `struct Holder { Nothing nothing; }` and
`enum Choice { Held(Holder), Done }`. -/
def emptyPayload : Program where
  enums := fun name =>
    if name = "Nothing" then some ⟨[], [], by decide⟩
    else if name = "Choice" then
      some ⟨[], [⟨"Held", [.named none "Holder" []]⟩, ⟨"Done", []⟩], by decide⟩
    else none
  structs := fun name =>
    if name = "Holder" then some ⟨[], [.named none "Nothing" []]⟩ else none
  nominalTypeName := fun _ => ""
  isFuture := fun _ _ => false

/-- No value of `Holder` exists, so the case `Done` alone matches every value of
`Choice`, and the check answers that it does not. -/
theorem emptyPayload_not_exact :
    ∃ checked enums, ([Pattern.named (.variants [⟨"Choice", 1⟩]) []].mapM
        (checkCasePattern emptyPayload (.named none "Choice" []))).run [] = some (checked, enums) ∧
      FiniteByValue emptyPayload (.named none "Choice" []) ∧
      (∀ fuel, 3 ≤ fuel → ((patternsExhaustiveForType emptyPayload fuel (.named none "Choice" [])
        checked).run enums).map Prod.fst = some false) ∧
      ∀ value, HasType emptyPayload value (.named none "Choice" []) →
        ∃ pattern ∈ checked, pattern.matches value = true := by
  have holder : declaredEnum emptyPayload (.named none "Holder" []) = none := rfl
  have nothing : declaredEnum emptyPayload (.named none "Nothing" []) = some [] := rfl
  have choice : declaredEnum emptyPayload (.named none "Choice" []) =
      some [⟨"Held", [.named none "Holder" []]⟩, ⟨"Done", []⟩] := rfl
  have noNothing (value : Value) : ¬HasType emptyPayload value (.named none "Nothing" []) := by
    intro typed
    obtain ⟨index, variant, payload, rfl, atIndex, -⟩ := typed.enum_inv nothing
    simp at atIndex
  have noHolder (value : Value) : ¬HasType emptyPayload value (.named none "Holder" []) := by
    intro typed
    cases typed with
    | atom atomic => cases atomic
    | variant found => cases found
    | struct found noEnum fields =>
      cases found
      obtain _ | ⟨head, tail⟩ := fields
      exact noNothing _ head
  refine ⟨_, _, rfl, .enum choice (by simp [FiniteByValue.other holder]), ?_, ?_⟩
  · intro fuel le
    obtain ⟨n, rfl⟩ : ∃ n, fuel = n + 3 := ⟨fuel - 3, by omega⟩
    rfl
  · intro value typed
    obtain ⟨index, variant, payload, rfl, atIndex, stored⟩ := typed.enum_inv choice
    match index with
    | 0 =>
      cases atIndex
      obtain _ | ⟨head, tail⟩ := stored
      exact absurd head (noHolder _)
    | 1 =>
      cases atIndex
      cases stored
      exact ⟨_, List.mem_singleton_self _, rfl⟩
    | index + 2 => simp at atIndex

end Ciel.Typeck.Patterns
