import Ciel.Typeck.Patterns

/-!
# Values and what patterns match

A value of an enum type is a variant with a value for each stored payload; the
values of structs and arrays are made of the values of their parts. All other
types but `never` have values that no pattern looks into.

A pattern is matched as the generated code does it: by the index of the variant,
then by the stored parts of its payload in their order.
-/

namespace Ciel.Typeck.Patterns

open Ciel.Types

inductive Value
  | atom
  | parts (values : List Value)
  | variant (index : Nat) (payload : List Value)

/-- The types whose values have no parts that a pattern could see. A type that
is not concrete has no values. -/
def isAtomic (program : Program) : Ty → Bool
  | .never | .array .. | .opaqueState .. | .hole _ | .generic _ | .unknown => false
  | .named defId name _ =>
    (program.enums (program.nameOf defId name)).isNone &&
      (program.structs (program.nameOf defId name)).isNone
  | _ => true

mutual

inductive HasType (program : Program) : Value → Ty → Prop
  | atom {ty : Ty} (atomic : isAtomic program ty = true) : HasType program .atom ty
  | struct {defId : Option DefId} {name : String} {args : List Ty} {template : StructTemplate}
      {values : List Value} (found : program.structs (program.nameOf defId name) = some template)
      (noEnum : program.enums (program.nameOf defId name) = none)
      (fields : HasTypes program values (logicalPayload template.generics args template.fields)) :
      HasType program (.parts values) (.named defId name args)
  | array {len : Nat} {elem : Ty} {values : List Value}
      (elems : HasTypes program values (List.replicate len elem)) :
      HasType program (.parts values) (.array len elem)
  | hidden {base : Ty} {state : List (String × Ty)} {value : Value}
      (typed : HasType program value base) : HasType program value (.opaqueState base state)
  | variant {ty : Ty} {variants : List CheckedVariant} {variant : CheckedVariant} {index : Nat}
      {payload : List Value} (found : declaredEnum program ty = some variants)
      (atIndex : variants[index]? = some variant)
      (typed : HasTypes program payload variant.payload) :
      HasType program (.variant index payload) ty

inductive HasTypes (program : Program) : List Value → List Ty → Prop
  | nil : HasTypes program [] []
  | cons {value : Value} {ty : Ty} {values : List Value} {tys : List Ty}
      (head : HasType program value ty) (tail : HasTypes program values tys) :
      HasTypes program (value :: values) (ty :: tys)

end

def Value.isVariant : Value → Bool
  | .variant .. => true
  | _ => false

mutual

def TPattern.matches : TPattern → Value → Bool
  | .wildcard _, _ => true
  | .binding _ _, _ => true
  | .variant _ _ index payload, .variant index' values =>
    index == index' && matchesStored payload values
  | .variant .., _ => false

/-- The subpatterns against the stored payload. Nothing is stored for a part of
an erased type, and its pattern is passed over. -/
def matchesStored : List TPattern → List Value → Bool
  | [], values => values.isEmpty
  | pattern :: patterns, values =>
    if pattern.ty.isErasedValue then matchesStored patterns values
    else match values with
      | [] => false
      | value :: values => pattern.matches value && matchesStored patterns values

end

/-- A row of patterns against a tuple of values. -/
def rowMatches : List TPattern → List Value → Bool
  | [], [] => true
  | pattern :: patterns, value :: values => pattern.matches value && rowMatches patterns values
  | _, _ => false

theorem matchesStored_eq (payload : List TPattern) (values : List Value) :
    matchesStored payload values = rowMatches (TPattern.stored payload) values := by
  induction payload generalizing values with
  | nil => cases values <;> simp [matchesStored, TPattern.stored, rowMatches]
  | cons pattern patterns ih =>
    unfold TPattern.stored at ih ⊢
    rw [matchesStored.eq_def, List.filter_cons]
    cases erased : pattern.ty.isErasedValue
    · cases values with
      | nil => simp [rowMatches, erased]
      | cons value values => simp [rowMatches, erased, ih]
    · simp [erased, ih]

theorem rowMatches_append {front patterns : List TPattern} {first values : List Value}
    (same : front.length = first.length) :
    rowMatches (front ++ patterns) (first ++ values) =
      (rowMatches front first && rowMatches patterns values) := by
  induction front generalizing first with
  | nil =>
    obtain rfl := List.length_eq_zero_iff.mp same.symm
    simp [rowMatches]
  | cons pattern front ih =>
    cases first with
    | nil => simp at same
    | cons value first =>
      have shorter : front.length = first.length := by simpa using same
      simp [rowMatches, ih shorter, Bool.and_assoc]

namespace HasTypes

variable {program : Program}

theorem length_eq {values : List Value} {tys : List Ty} (typed : HasTypes program values tys) :
    values.length = tys.length := by
  induction tys generalizing values with
  | nil => cases typed; rfl
  | cons ty tys ih =>
    cases typed with
    | cons _ tail => simp [ih tail]

theorem append {first values : List Value} {front tys : List Ty}
    (left : HasTypes program first front) (right : HasTypes program values tys) :
    HasTypes program (first ++ values) (front ++ tys) := by
  induction front generalizing first with
  | nil => cases left; exact right
  | cons ty front ih =>
    cases left with
    | cons head tail => exact .cons head (ih tail)

theorem append_inv {front tys : List Ty} {all : List Value}
    (typed : HasTypes program all (front ++ tys)) :
    ∃ first values, all = first ++ values ∧ HasTypes program first front ∧
      HasTypes program values tys := by
  induction front generalizing all with
  | nil => exact ⟨[], all, rfl, .nil, typed⟩
  | cons ty front ih =>
    cases typed with
    | cons head tail =>
      obtain ⟨first, values, rfl, left, right⟩ := ih tail
      exact ⟨_ :: first, values, rfl, .cons head left, right⟩

end HasTypes

/-- The values of an enum type are its variants. -/
theorem HasType.enum_inv {program : Program} {value : Value} {ty : Ty}
    {variants : List CheckedVariant} (typed : HasType program value ty)
    (found : declaredEnum program ty = some variants) :
    ∃ index variant payload, value = .variant index payload ∧ variants[index]? = some variant ∧
      HasTypes program payload variant.payload := by
  cases typed with
  | variant found' atIndex typed =>
    rw [found] at found'
    cases found'
    exact ⟨_, _, _, rfl, atIndex, typed⟩
  | atom atomic =>
    cases ty <;> try cases found
    simp only [isAtomic, Bool.and_eq_true, Option.isNone_iff_eq_none] at atomic
    simp [declaredEnum, atomic.1] at found
  | struct _ noEnum => simp [declaredEnum, noEnum] at found
  | array => cases found
  | hidden => cases found

end Ciel.Typeck.Patterns
