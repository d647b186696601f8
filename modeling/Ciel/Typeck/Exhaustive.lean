import Mathlib.Data.List.Forall2
import Ciel.Library.Search
import Ciel.Typeck.Values

/-!
# Exhaustiveness is exact

The matrix decomposition answers `true` exactly when every tuple of values is
matched by a row. One direction needs no assumption: a row is kept in a
specialised matrix only if it matches there what it matched before. In the other
direction a column that is not an enum is dropped together with the rows that
look into it, so such a column must have a value that these rows do not match.

A type without values that is not itself an enum has none. The check then asks
for a pattern although nothing is left to match.

All this is about the decomposition by the declarations. The checker's own finds the
same variants as long as the instance names of the types it meets tell them apart.
-/

namespace Ciel.Typeck.Patterns

open Ciel.Types

variable {program : Program}
variable {variants : List CheckedVariant} {row' : List TPattern}

/-- The by-value structure of a type, as far as patterns can look into it, is
finite. -/
inductive FiniteByValue (program : Program) : Ty → Prop
  | enum {ty : Ty} {variants : List CheckedVariant}
      (found : declaredEnum program ty = some variants)
      (payload : ∀ variant ∈ variants, ∀ part ∈ variant.payload, FiniteByValue program part) :
      FiniteByValue program ty
  | other {ty : Ty} (notEnum : declaredEnum program ty = none) : FiniteByValue program ty

/-- The types that patterns for `ty` can reach. -/
inductive Component (program : Program) : Ty → Ty → Prop
  | self {ty : Ty} : Component program ty ty
  | payload {ty part inner : Ty} {variants : List CheckedVariant} {variant : CheckedVariant}
      (found : declaredEnum program ty = some variants) (member : variant ∈ variants)
      (inPayload : part ∈ variant.payload) (inside : Component program part inner) :
      Component program ty inner

/-- What holds of a type and passes from a type to its payload holds of the components. -/
theorem Component.induct {C : Ty → Prop} {ty part : Ty} (inside : Component program ty part)
    (start : C ty) (closed : ∀ outer variants variant inner, C outer →
      declaredEnum program outer = some variants → variant ∈ variants → inner ∈ variant.payload →
      C inner) : C part := by
  induction inside with
  | self => exact start
  | payload found member inPayload _ ih => exact ih (closed _ _ _ _ start found member inPayload)

/-- Every component that is not an enum has a value that no variant pattern
matches. -/
def LeavesInhabited (program : Program) (ty : Ty) : Prop :=
  ∀ leaf, Component program ty leaf → declaredEnum program leaf = none →
    ∃ value, HasType program value leaf ∧ value.isVariant = false

/-- The decomposition, with every type looked up by its declaration. -/
def tuplesExhaustive (program : Program) : Nat → List Ty → List (List TPattern) → Option Bool
  | 0, _, _ => none
  | _ + 1, [], rows => some !rows.isEmpty
  | fuel + 1, ty :: rest, rows =>
    if rows.any fun row => row.length != rest.length + 1 then some false
    else match declaredEnum program ty with
      | some variants =>
        variants.allM fun variant =>
          tuplesExhaustive program fuel (variant.payload ++ rest)
            (rows.filterMap (specializeRow variant))
      | none => tuplesExhaustive program fuel rest (rows.filterMap dropColumn)

section Termination

/-- Enough fuel for the columns, whatever the rows are. -/
def Enough (program : Program) (tys : List Ty) : Prop :=
  ∃ fuel, ∀ more, fuel ≤ more → ∀ rows,
    ∃ answer, tuplesExhaustive program more tys rows = some answer

theorem allM_isSome {α : Type} {f : α → Option Bool} {items : List α}
    (all : ∀ item ∈ items, ∃ answer, f item = some answer) :
    ∃ answer, items.allM f = some answer := by
  induction items with
  | nil => exact ⟨true, rfl⟩
  | cons item items ih =>
    obtain ⟨answer, head⟩ := all item List.mem_cons_self
    obtain ⟨rest, tail⟩ := ih fun other member => all other (List.mem_cons_of_mem _ member)
    cases answer
    · exact ⟨false, by simp [List.allM, head]⟩
    · exact ⟨rest, by simp [List.allM, head, tail]⟩

theorem Enough.nil : Enough program [] := by
  refine ⟨1, fun more le rows => ?_⟩
  obtain ⟨fuel, rfl⟩ : ∃ fuel, more = fuel + 1 := ⟨more - 1, by omega⟩
  exact ⟨_, rfl⟩

theorem Enough.append {front tys : List Ty}
    (each : ∀ ty ∈ front, ∀ rest, Enough program rest → Enough program (ty :: rest))
    (enough : Enough program tys) : Enough program (front ++ tys) := by
  induction front with
  | nil => exact enough
  | cons ty front ih =>
    exact each ty List.mem_cons_self _ (ih fun other member =>
      each other (List.mem_cons_of_mem _ member))

/-- A column of finite by-value structure adds finitely many steps. -/
theorem FiniteByValue.enough {ty : Ty} (finite : FiniteByValue program ty) :
    ∀ rest, Enough program rest → Enough program (ty :: rest) := by
  induction finite with
  | other notEnum =>
    rintro rest ⟨fuel, enough⟩
    refine ⟨fuel + 1, fun more le rows => ?_⟩
    obtain ⟨more, rfl⟩ : ∃ n, more = n + 1 := ⟨more - 1, by omega⟩
    rw [tuplesExhaustive, notEnum]
    split
    · exact ⟨_, rfl⟩
    · exact enough more (by omega) _
  | enum found _ ih =>
    intro rest enough
    obtain ⟨fuel, common⟩ :=
      Library.exists_common_fuel (P := fun (variant : CheckedVariant) more => ∀ rows, ∃ answer,
      tuplesExhaustive program more (variant.payload ++ rest) rows = some answer)
      fun variant member => Enough.append (ih variant member) enough
    refine ⟨fuel + 1, fun more le rows => ?_⟩
    obtain ⟨more, rfl⟩ : ∃ n, more = n + 1 := ⟨more - 1, by omega⟩
    rw [tuplesExhaustive, found]
    split
    · exact ⟨_, rfl⟩
    · exact allM_isSome fun variant member => common more (by omega) variant member _

end Termination

/-! ### Rows that fit their columns -/

mutual

/-- What the checker guarantees of a pattern for a column. -/
def Suits (program : Program) : TPattern → Ty → Prop
  | .wildcard _, _ => True
  | .binding _ _, _ => True
  | .variant _ name index payload, ty => ∀ variants, declaredEnum program ty = some variants →
      ∃ variant, variants[index]? = some variant ∧ variant.name = name ∧
        SuitsStored program payload variant.payload

def SuitsStored (program : Program) : List TPattern → List Ty → Prop
  | [], tys => tys = []
  | pattern :: patterns, tys =>
    if pattern.ty.isErasedValue then SuitsStored program patterns tys
    else ∃ ty rest, tys = ty :: rest ∧ Suits program pattern ty ∧ SuitsStored program patterns rest

end

abbrev SuitsRow (program : Program) : List TPattern → List Ty → Prop :=
  List.Forall₂ (Suits program)

theorem SuitsStored.row {payload : List TPattern} {tys : List Ty}
    (suits : SuitsStored program payload tys) : SuitsRow program (TPattern.stored payload) tys := by
  induction payload generalizing tys with
  | nil =>
    obtain rfl : tys = [] := suits
    exact .nil
  | cons pattern patterns ih =>
    rw [SuitsStored] at suits
    unfold TPattern.stored at ih ⊢
    rw [List.filter_cons]
    cases erased : pattern.ty.isErasedValue
    · obtain ⟨ty, rest, rfl, head, tail⟩ : ∃ ty rest, tys = ty :: rest ∧
          Suits program pattern ty ∧ SuitsStored program patterns rest := by
        simpa [erased] using suits
      exact .cons head (ih tail)
    · exact ih (by simpa [erased] using suits)

/-- The variants of an enum are told apart by their names. -/
theorem index_eq_of_name_eq {ty : Ty} {first second : Nat} {left right : CheckedVariant}
    (found : declaredEnum program ty = some variants) (atFirst : variants[first]? = some left)
    (atSecond : variants[second]? = some right) (same : left.name = right.name) :
    first = second := by
  have distinct : (variants.map CheckedVariant.name).Nodup := by
    cases ty <;> try cases found
    simp only [declaredEnum] at found
    split at found
    · cases found
    next template _ =>
      split at found
      · cases found
      · cases found
        simpa [Function.comp_def] using template.distinct
  have firstLt : first < (variants.map CheckedVariant.name).length := by
    simpa using (List.getElem?_eq_some_iff.mp atFirst).1
  apply (List.getElem?_inj firstLt distinct).mp
  simp [atFirst, atSecond, same]

theorem rowMatches_wildcards {tys : List Ty} {values : List Value}
    (same : values.length = tys.length) : rowMatches (tys.map TPattern.wildcard) values = true := by
  induction tys generalizing values with
  | nil =>
    obtain rfl := List.length_eq_zero_iff.mp same
    rfl
  | cons ty tys ih =>
    cases values with
    | nil => simp at same
    | cons value values =>
      have shorter : values.length = tys.length := by simpa using same
      simp [rowMatches, TPattern.matches, ih shorter]

theorem suitsRow_wildcards (tys : List Ty) :
    SuitsRow program (tys.map TPattern.wildcard) tys := by
  induction tys with
  | nil => exact .nil
  | cons ty tys ih => exact .cons trivial ih

section Columns

variable {ty : Ty} {tys : List Ty} {row : List TPattern} {values : List Value}

/-- Specialising keeps what a row matches among the values of the variant. -/
theorem specializeRow_matches {variant : CheckedVariant} {index : Nat} {payload : List Value}
    (found : declaredEnum program ty = some variants)
    (atIndex : variants[index]? = some variant) (suits : SuitsRow program row (ty :: tys))
    (typed : HasTypes program payload variant.payload) :
    rowMatches row (.variant index payload :: values) =
      ((specializeRow variant row).elim false fun row' => rowMatches row' (payload ++ values)) := by
  obtain _ | ⟨head, tail⟩ := suits
  rename_i head' rest
  have anything : rowMatches (variant.payload.map TPattern.wildcard ++ rest) (payload ++ values) =
      rowMatches rest values := by
    rw [rowMatches_append (by simp [typed.length_eq]), rowMatches_wildcards typed.length_eq,
      Bool.true_and]
  cases head' with
  | wildcard | binding => simp [rowMatches, TPattern.matches, specializeRow, anything]
  | variant patternTy name index' patterns =>
    obtain ⟨variant', atIndex', named, stored⟩ := head variants found
    rw [specializeRow]
    split
    next sameName =>
      -- the name of the pattern is that of the variant, so the indices agree
      obtain rfl := index_eq_of_name_eq found atIndex' atIndex (named.trans sameName)
      obtain rfl : variant' = variant := Option.some.inj (atIndex'.symm.trans atIndex)
      have sameLength : (TPattern.stored patterns).length = payload.length := by
        rw [stored.row.length_eq, typed.length_eq]
      simp [rowMatches, TPattern.matches, matchesStored_eq, rowMatches_append sameLength]
    next otherName =>
      have otherIndex : index' ≠ index := by
        rintro rfl
        rw [atIndex] at atIndex'
        cases atIndex'
        exact otherName named.symm
      simp [rowMatches, TPattern.matches, otherIndex]

theorem specializeRow_suits {variant : CheckedVariant} {index : Nat}
    (found : declaredEnum program ty = some variants)
    (atIndex : variants[index]? = some variant) (suits : SuitsRow program row (ty :: tys))
    (specialized : specializeRow variant row = some row') :
    SuitsRow program row' (variant.payload ++ tys) := by
  obtain _ | ⟨head, tail⟩ := suits
  rename_i head' rest
  cases head' with
  | wildcard | binding =>
    cases specialized
    exact List.rel_append (suitsRow_wildcards _) tail
  | variant patternTy name index' patterns =>
    obtain ⟨variant', atIndex', named, stored⟩ := head variants found
    rw [specializeRow] at specialized
    split at specialized
    next sameName =>
      cases specialized
      obtain rfl := index_eq_of_name_eq found atIndex' atIndex (named.trans sameName)
      obtain rfl : variant' = variant := Option.some.inj (atIndex'.symm.trans atIndex)
      exact List.rel_append stored.row tail
    next => cases specialized

/-- A dropped column takes nothing away from the rows that are kept. -/
theorem dropColumn_matches {value : Value} (kept : dropColumn row = some row') :
    rowMatches row (value :: values) = rowMatches row' values := by
  obtain _ | ⟨head, rest⟩ := row
  · cases kept
  · cases head <;> cases kept <;> simp [rowMatches, TPattern.matches]

/-- A row that looks into the column does not match a value without a variant. -/
theorem dropColumn_none {value : Value} (gone : dropColumn row = none)
    (plain : value.isVariant = false) : rowMatches row (value :: values) = false := by
  obtain _ | ⟨head, rest⟩ := row
  · rfl
  · cases head <;> cases gone
    cases value with
    | variant => cases plain
    | _ => simp [rowMatches, TPattern.matches]

theorem dropColumn_suits (suits : SuitsRow program row (ty :: tys))
    (kept : dropColumn row = some row') : SuitsRow program row' tys := by
  obtain _ | ⟨head, tail⟩ := suits
  rename_i head' rest
  cases head' <;> cases kept <;> exact tail

end Columns

/-! ### The two directions -/

section Exact

variable {tys : List Ty} {rows : List (List TPattern)} {answer : Bool} {fuel : Nat}

theorem allM_true {α : Type} {f : α → Option Bool} {items : List α}
    (all : items.allM f = some true) : ∀ item ∈ items, f item = some true := by
  induction items with
  | nil => simp
  | cons item items ih =>
    rw [List.allM] at all
    cases head : f item with
    | none => simp [head] at all
    | some answer =>
      cases answer
      · simp [head] at all
      · intro other member
        obtain rfl | member := List.mem_cons.mp member
        · exact head
        · exact ih (by simpa [head] using all) other member

theorem allM_false {α : Type} {f : α → Option Bool} {items : List α}
    (all : items.allM f = some false) : ∃ item ∈ items, f item = some false := by
  induction items with
  | nil => cases all
  | cons item items ih =>
    rw [List.allM] at all
    cases head : f item with
    | none => simp [head] at all
    | some answer =>
      cases answer
      · exact ⟨item, List.mem_cons_self, head⟩
      · obtain ⟨other, member, found⟩ := ih (by simpa [head] using all)
        exact ⟨other, List.mem_cons_of_mem _ member, found⟩

section

variable (suits : ∀ row ∈ rows, SuitsRow program row tys)

include suits

theorem lengths_agree : (rows.any fun row => row.length != tys.length) = false := by
  rw [List.any_eq_false]
  intro row member
  simp [(suits row member).length_eq]

/-- An answer `true` is right: every tuple of values is matched. -/
theorem matched_of_exhaustive
    (yes : tuplesExhaustive program fuel tys rows = some true) {values : List Value}
    (typed : HasTypes program values tys) : ∃ row ∈ rows, rowMatches row values = true := by
  induction fuel generalizing tys rows values with
  | zero => cases yes
  | succ fuel ih =>
    cases typed with
    | nil =>
      obtain ⟨row, rest, rfl⟩ : ∃ row rest, rows = row :: rest := by
        cases rows with
        | nil => simp [tuplesExhaustive] at yes
        | cons row rest => exact ⟨row, rest, rfl⟩
      cases suits row List.mem_cons_self
      exact ⟨[], List.mem_cons_self, rfl⟩
    | @cons value ty values tys head tail =>
      have agree := lengths_agree suits
      rw [List.length_cons] at agree
      rw [tuplesExhaustive, agree] at yes
      cases found : declaredEnum program ty with
      | none =>
        obtain ⟨row', member', matched⟩ := ih (fun row' member' => by
          obtain ⟨row, member, kept⟩ := List.mem_filterMap.mp member'
          exact dropColumn_suits (suits row member) kept) (by simpa [found] using yes) tail
        obtain ⟨row, member, kept⟩ := List.mem_filterMap.mp member'
        exact ⟨row, member, by rw [dropColumn_matches kept, matched]⟩
      | some variants =>
        obtain ⟨index, variant, payload, rfl, atIndex, typed⟩ := head.enum_inv found
        have all := allM_true (by simpa [found] using yes) variant
          (List.mem_of_getElem? atIndex)
        obtain ⟨row', member', matched⟩ := ih (fun row' member' => by
          obtain ⟨row, member, special⟩ := List.mem_filterMap.mp member'
          exact specializeRow_suits found atIndex (suits row member) special) all
          (typed.append tail)
        obtain ⟨row, member, special⟩ := List.mem_filterMap.mp member'
        refine ⟨row, member, ?_⟩
        rw [specializeRow_matches found atIndex (suits row member) typed, special]
        exact matched

/-- An answer `false` is right if the leaves are inhabited: some tuple of values
is matched by no row. -/
theorem unmatched_of_not_exhaustive (inhabited : ∀ ty ∈ tys, LeavesInhabited program ty)
    (no : tuplesExhaustive program fuel tys rows = some false) :
    ∃ values, HasTypes program values tys ∧ ∀ row ∈ rows, rowMatches row values = false := by
  induction fuel generalizing tys rows with
  | zero => cases no
  | succ fuel ih =>
    cases tys with
    | nil =>
      obtain rfl : rows = [] := by simpa [tuplesExhaustive] using no
      exact ⟨[], .nil, by simp⟩
    | cons ty tys =>
      have agree := lengths_agree suits
      rw [List.length_cons] at agree
      rw [tuplesExhaustive, agree] at no
      have rest : ∀ other ∈ tys, LeavesInhabited program other :=
        fun other member => inhabited other (List.mem_cons_of_mem _ member)
      have first : LeavesInhabited program ty := inhabited ty List.mem_cons_self
      cases found : declaredEnum program ty with
      | none =>
        obtain ⟨values, typed, unmatched⟩ := ih (fun row' member' => by
          obtain ⟨row, member, kept⟩ := List.mem_filterMap.mp member'
          exact dropColumn_suits (suits row member) kept) rest (by simpa [found] using no)
        -- a value that the rows which look into the column do not match
        obtain ⟨value, head, plain⟩ := first ty .self found
        refine ⟨value :: values, .cons head typed, fun row member => ?_⟩
        cases kept : dropColumn row with
        | none => exact dropColumn_none kept plain
        | some row' =>
          rw [dropColumn_matches kept]
          exact unmatched row' (List.mem_filterMap.mpr ⟨row, member, kept⟩)
      | some variants =>
        obtain ⟨variant, inVariants, unmatchedVariant⟩ :=
          allM_false (by simpa [found] using no)
        obtain ⟨index, atIndex⟩ := List.mem_iff_getElem?.mp inVariants
        have payload : ∀ part ∈ variant.payload, LeavesInhabited program part :=
          fun part inPayload leaf inside => first leaf (.payload found inVariants inPayload inside)
        obtain ⟨all, typed, unmatched⟩ := ih (fun row' member' => by
          obtain ⟨row, member, special⟩ := List.mem_filterMap.mp member'
          exact specializeRow_suits found atIndex (suits row member) special)
          (fun part member => (List.mem_append.mp member).elim (payload part) (rest part))
          unmatchedVariant
        obtain ⟨stored, values, rfl, inPayload, inRest⟩ := typed.append_inv
        refine ⟨.variant index stored :: values,
          .cons (.variant found atIndex inPayload) inRest, fun row member => ?_⟩
        rw [specializeRow_matches found atIndex (suits row member) inPayload]
        cases special : specializeRow variant row with
        | none => rfl
        | some row' => exact unmatched row' (List.mem_filterMap.mpr ⟨row, member, special⟩)

end

end Exact

/-! ### The recorded instances -/

/-- Instance names tell the enums among the given types apart: two types of one name
have the same variants, and what is recorded under the name of one are its variants. -/
structure NamesApart (program : Program) (R : Ty → Prop) (enums : CheckedEnums) : Prop where
  same : ∀ {a b name}, R a → R b → enumInstanceName a = some name →
    enumInstanceName b = some name → declaredEnum program a = declaredEnum program b
  recorded : ∀ {a name variants}, R a → enumInstanceName a = some name →
    enums.lookup name = some variants → declaredEnum program a = some variants

section Recorded

variable {R : Ty → Prop} {enums : CheckedEnums}

theorem NamesApart.ensure {ty : Ty} (apart : NamesApart program R enums) (here : R ty) :
    NamesApart program R (ensureEnumInstance program ty enums) := by
  unfold ensureEnumInstance
  split
  next name variants named declared =>
    split
    · exact apart
    · refine ⟨apart.same, fun {a name' variants'} inside named' found => ?_⟩
      rw [List.lookup_cons] at found
      split at found
      next same =>
        cases found
        rw [apart.same inside here named' (by rw [named, beq_iff_eq.1 same]), declared]
      · exact apart.recorded inside named' found
  · exact apart

/-- The lookup by name finds the declaration of the type. -/
theorem checkedEnumForType_run {ty : Ty} (apart : NamesApart program R enums) (here : R ty) :
    (checkedEnumForType program ty).run enums =
      some (declaredEnum program ty, ensureEnumInstance program ty enums) := by
  have found :
      ((enumInstanceName ty).bind fun name => (ensureEnumInstance program ty enums).lookup name) =
      declaredEnum program ty := by
    cases named : enumInstanceName ty with
    | none => cases ty <;> first | rfl | cases named
    | some name =>
      have after := apart.ensure here
      cases known : (ensureEnumInstance program ty enums).lookup name with
      | some variants => simpa [known] using (after.recorded here named known).symm
      | none =>
        cases declared : declaredEnum program ty with
        | none => simpa using known
        | some variants =>
          simp only [ensureEnumInstance, named, declared] at known
          split at known
          next some => rw [known] at some; cases some
          · simp at known
  show some (((enumInstanceName ty).bind fun name =>
    (ensureEnumInstance program ty enums).lookup name), _) = _
  rw [found]

theorem allM_run {α : Type} {f : α → Option Bool} {g : α → Checking Bool} {items : List α}
    {answer : Bool} (apart : NamesApart program R enums)
    (each : ∀ item ∈ items, ∀ answer enums, f item = some answer → NamesApart program R enums →
      ∃ after, (g item).run enums = some (answer, after) ∧ NamesApart program R after)
    (all : items.allM f = some answer) :
    ∃ after, (items.allM g).run enums = some (answer, after) ∧ NamesApart program R after := by
  induction items generalizing enums with
  | nil =>
    cases all
    exact ⟨enums, rfl, apart⟩
  | cons item items ih =>
    rw [List.allM] at all
    obtain ⟨first, head, all⟩ := Option.bind_eq_some_iff.1 all
    obtain ⟨after, run, apart'⟩ := each item List.mem_cons_self first enums head apart
    cases first with
    | false =>
      cases all
      exact ⟨after, by simp [List.allM, run], apart'⟩
    | true =>
      obtain ⟨last, rest, apart''⟩ :=
        ih apart' (fun other member => each other (List.mem_cons_of_mem _ member)) all
      exact ⟨last, by simp [List.allM, run, rest], apart''⟩

/-- Where names tell the types apart that the decomposition meets, the checker's answer
is that of the declarations. -/
theorem tuplePatternsExhaustive_run {fuel : Nat} {tys : List Ty} {rows : List (List TPattern)}
    {answer : Bool} (apart : NamesApart program R enums)
    (inside : ∀ ty ∈ tys, ∀ part, Component program ty part → R part)
    (answered : tuplesExhaustive program fuel tys rows = some answer) :
    ∃ after, (tuplePatternsExhaustive program fuel tys rows).run enums = some (answer, after) ∧
      NamesApart program R after := by
  induction fuel generalizing tys rows answer enums with
  | zero => cases answered
  | succ fuel ih =>
    cases tys with
    | nil =>
      cases answered
      exact ⟨enums, rfl, apart⟩
    | cons ty rest =>
      have here : R ty := inside ty List.mem_cons_self ty .self
      have others : ∀ other ∈ rest, ∀ part, Component program other part → R part :=
        fun other member => inside other (List.mem_cons_of_mem _ member)
      rw [tuplesExhaustive] at answered
      split at answered
      next ragged =>
        cases answered
        exact ⟨enums, by simp [tuplePatternsExhaustive, ragged], apart⟩
      rename_i even
      cases found : declaredEnum program ty with
      | none =>
        rw [found] at answered
        obtain ⟨after, run, apart'⟩ := ih (apart.ensure here) others answered
        refine ⟨after, ?_, apart'⟩
        simp [tuplePatternsExhaustive, even, checkedEnumForType_run apart here, found, run]
      | some variants =>
        rw [found] at answered
        obtain ⟨after, run, apart'⟩ := allM_run (apart.ensure here)
          (fun variant member answer enums answered apart => ih apart (fun part inPayload => by
            obtain inPayload | inRest := List.mem_append.1 inPayload
            · exact fun inner below =>
                inside ty List.mem_cons_self inner (.payload found member inPayload below)
            · exact others part inRest) answered) answered
        refine ⟨after, ?_, apart'⟩
        simp [tuplePatternsExhaustive, even, checkedEnumForType_run apart here, found, run]

end Recorded

end Ciel.Typeck.Patterns
