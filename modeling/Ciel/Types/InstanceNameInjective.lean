import Ciel.Library.Words
import Ciel.Types.InstanceName
import Ciel.Types.Structure

/-!
# When instance names determine types

An instance name is a list of words, cut at the underscores. The words of most
types are delimited: the first words fix a head, the head fixes the number of
arguments, and the arguments follow. Reading such a name is reading prefix notation,
provided that where a head is a beginning of another one, the next word of the longer
one begins no type. User names can break this, since they may contain underscores. It
does not matter in a program whose aggregates take no arguments.

A function type is not delimited. Its parameters are written without an end, so a
reader knows where they stop only if nothing follows.
-/

namespace Ciel.Types

open Library

variable {head : Head}

/-! ## Types of a program -/

namespace ResolvedProgram

/-- `name` and `arity` belong to the struct, enum or opaque extern struct `defId`. -/
def isAggregate (resolved : ResolvedProgram) (defId : Option DefId) (name : String)
    (arity : Nat) : Bool :=
  match defId with
  | none => false
  | some defId =>
    match resolved.defs[defId]? with
    | none => false
    | some definition =>
      (definition.kind.isNominal || definition.kind == .opaqueStruct) &&
        resolved.nominalName defId definition == name && definition.generics == arity

/-- `name` and `arity` belong to the interface or interface alias `defId`. -/
def isDynamic (resolved : ResolvedProgram) (defId : DefId) (name : String) (arity : Nat) : Bool :=
  match resolved.defs[defId]? with
  | none => false
  | some definition =>
    definition.name == name && definition.dynamicArity? == some arity

/-- Some aggregate takes arguments, so that instance names join words of several types. -/
def joins (resolved : ResolvedProgram) : Bool :=
  resolved.defs.any fun definition => definition.generics != 0 &&
    (definition.kind.isNominal || definition.kind == .opaqueStruct)

mutual

/-- The concrete types that a program can form: no generic or inference hole is
left, and aggregates carry their own name and as many arguments as they declare. -/
def forms (resolved : ResolvedProgram) : Ty → Bool
  | .hole _ | .generic _ | .unknown => false
  | .never | .void | .primitive _ | .cSpelling .. => true
  | .pointer _ _ inner => forms resolved inner
  | .array _ elem => forms resolved elem
  | .slice _ elem => forms resolved elem
  | .named defId name args =>
    resolved.isAggregate defId name args.length && formsAll resolved args
  | .generatedFuture _ output _ _ _ _ => forms resolved output
  | .opaqueState base _ => forms resolved base
  | .dynamicInterface defId name args =>
    resolved.isDynamic defId name args.length && formsAll resolved args
  | .opaqueReturn _ args bounds => formsAll resolved args && formsBounds resolved bounds
  | .function _ _ ret params => forms resolved ret && formsAll resolved params
  | .closure ret params constraints =>
    forms resolved ret && formsAll resolved params && formsBounds resolved constraints
  | .closureInstance _ ret params captures =>
    forms resolved ret && formsAll resolved params && formsAll resolved captures

def formsAll (resolved : ResolvedProgram) : List Ty → Bool
  | [] => true
  | ty :: tys => forms resolved ty && formsAll resolved tys

def formsRef (resolved : ResolvedProgram) : ConstraintRef → Bool
  | .mk _ _ args => formsAll resolved args

def formsRefs (resolved : ResolvedProgram) : List ConstraintRef → Bool
  | [] => true
  | entry :: entries => formsRef resolved entry && formsRefs resolved entries

def formsBounds (resolved : ResolvedProgram) : ConstraintBounds → Bool
  | .mk positive negative => formsRefs resolved positive && formsRefs resolved negative

end

end ResolvedProgram

/-! ## Delimited types -/

/-- A single parameter of type `void` is written like no parameter. -/
def onlyVoid : List Ty → Bool
  | [.void] => true
  | _ => false

mutual

/-- Types without annotations whose name shows where it ends. -/
def closed : Ty → Bool
  | .never | .void | .primitive _ => true
  | .pointer _ _ inner => closed inner
  | .array _ elem => closed elem
  | .slice _ elem => closed elem
  | .named _ _ args => closedAll args
  | .dynamicInterface _ _ args => closedAll args
  | .closure ret params (.mk [] []) => closed ret && closedAll params && !onlyVoid params
  | _ => false

def closedAll : List Ty → Bool
  | [] => true
  | ty :: tys => closed ty && closedAll tys

end

mutual

/-- Types whose name can be read when nothing follows: a function type may stand in
the last place. -/
def delimited : Ty → Bool
  | .pointer _ _ inner => delimited inner
  | .array _ elem => delimited elem
  | .slice _ elem => delimited elem
  | .named _ _ args => delimitedArgs args
  | .dynamicInterface _ _ args => delimitedArgs args
  | .function _ abi ret params =>
    (abi == none || abi == some "C") && closed ret && closedAll params && !onlyVoid params
  | ty => closed ty

def delimitedArgs : List Ty → Bool
  | [] => true
  | ty :: tys => if tys.isEmpty then delimited ty else closed ty && delimitedArgs tys

end

/-! ## Separated names -/

/-- First words that the mangler writes itself, and the words that end a list. -/
def builtinWords : List String :=
  ["never", "void", "bool", "char", "i8", "i16", "i32", "i64", "u8", "u16", "u32", "u64", "usize",
    "f32", "f64", "ptr", "cptr", "qptr", "qcptr", "slice", "cslice", "dyn", "fn", "closure", "args",
    "caps"]

def reserved (word : List Char) : Bool :=
  builtinWords.any (·.toList == word) ||
    (word.take 3 == "arr".toList && (word.drop 3).all Char.isDigit)

/-- The words of a dynamic interface after the first one. -/
def dynamicName (defId : DefId) (name : String) : String := name ++ "_def" ++ toString defId

/-- A word that begins a type or ends a list. -/
def ResolvedProgram.Begins (resolved : ResolvedProgram) (word : List Char) : Prop :=
  reserved word = true ∨ ∃ defId name arity, resolved.isAggregate (some defId) name arity = true ∧
    (words '_' name).headD [] = word

/-- The longer name goes on with a word that begins no type. -/
def ResolvedProgram.GoesOn (resolved : ResolvedProgram) (name longer : String) : Prop :=
  ∃ word ∈ ((words '_' longer).drop (words '_' name).length).head?, ¬resolved.Begins word

/-- No nominal name starts with a word of the mangler, and a name that is a beginning of
another one, word by word, goes on there with a word that begins no type. -/
structure ResolvedProgram.Decodable (resolved : ResolvedProgram) : Prop where
  unreserved : ∀ {defId name arity}, resolved.isAggregate (some defId) name arity = true →
    reserved ((words '_' name).headD []) = false
  apart : ∀ {defId defId' name name' arity arity'},
    resolved.isAggregate (some defId) name arity = true →
    resolved.isAggregate (some defId') name' arity' = true →
    words '_' name <+: words '_' name' → defId = defId' ∨ resolved.GoesOn name name'
  dynamicApart : ∀ {defId defId' name name' arity arity'},
    resolved.isDynamic defId name arity = true → resolved.isDynamic defId' name' arity' = true →
    words '_' (dynamicName defId name) <+: words '_' (dynamicName defId' name') →
      defId = defId' ∨ resolved.GoesOn (dynamicName defId name) (dynamicName defId' name')

/-- Nominal names are different, and where arguments are joined to them, the words can be
read back. -/
structure ResolvedProgram.Separated (resolved : ResolvedProgram) : Prop where
  distinct : ∀ {defId defId' name arity arity'},
    resolved.isAggregate (some defId) name arity = true →
    resolved.isAggregate (some defId') name arity' = true → defId = defId'
  decodable : resolved.joins = true → resolved.Decodable

/-! ## Words of a name -/

/-- The words of a mangled type. -/
def code (ty : Ty) : List (List Char) := words '_' (mangleTyFragment ty)

theorem words_join (s t : String) : words '_' (s ++ "_" ++ t) = words '_' s ++ words '_' t :=
  words_append s t

theorem words_intercalate {fragments : List String} (some : fragments ≠ []) :
    words '_' (String.intercalate "_" fragments) = fragments.flatMap (words '_') := by
  induction fragments with
  | nil => exact absurd rfl some
  | cons s rest ih =>
    obtain _ | ⟨t, rest⟩ := rest
    · simp
    · rw [String.intercalate_cons_cons, words_join, ih (by simp)]
      rfl

theorem words_instanceName (name : String) (args : List Ty) :
    words '_' (instanceName name (mangleTys args)) = words '_' name ++ args.flatMap code := by
  rw [mangleTys_eq_map, instanceName]
  split
  · rename_i none
    rw [List.map_eq_nil_iff.mp none]
    simp
  · rename_i some
    rw [words_join, words_intercalate some, List.flatMap_map]
    rfl

theorem words_toString (prefix_ : String) (n : Nat) (plain : '_' ∉ prefix_.toList) :
    words '_' (prefix_ ++ toString n) = [(prefix_ ++ toString n).toList] := by
  apply words_of_not_mem
  simp [plain, Nat.underscore_not_in_toDigits]

/-- The head of a delimited type: what its first words stand for. -/
inductive Head
  | never
  | void
  | primitive (primitive : PrimitiveType)
  | pointer (nullable : Bool) (mutability : ViewMutability)
  | array (len : Nat)
  | slice (mutability : ViewMutability)
  | named (defId : DefId) (name : String)
  | dynamic (defId : DefId) (name : String)
  deriving DecidableEq

def Head.word : Head → String
  | .never => "never"
  | .void => "void"
  | .primitive p => primitiveWord p
  | .pointer nullable mutability => pointerWord nullable mutability
  | .array len => "arr" ++ toString len
  | .slice mutability => sliceWord mutability
  | .named _ name => name
  | .dynamic defId name => "dyn_" ++ name ++ "_def" ++ toString defId

/-- A type seen as a head with arguments. -/
inductive Shape : Ty → Head → List Ty → Prop
  | never : Shape .never .never []
  | void : Shape .void .void []
  | primitive {p : PrimitiveType} : Shape (.primitive p) (.primitive p) []
  | pointer {nullable : Bool} {mutability : ViewMutability} {inner : Ty} :
      Shape (.pointer nullable mutability inner) (.pointer nullable mutability) [inner]
  | array {len : Nat} {elem : Ty} : Shape (.array len elem) (.array len) [elem]
  | slice {mutability : ViewMutability} {elem : Ty} :
      Shape (.slice mutability elem) (.slice mutability) [elem]
  | named {defId : DefId} {name : String} {args : List Ty} :
      Shape (.named (some defId) name args) (.named defId name) args
  | dynamic {defId : DefId} {name : String} {args : List Ty} :
      Shape (.dynamicInterface defId name args) (.dynamic defId name) args

namespace Shape

variable {ty ty' : Ty} {head : Head} {args args' : List Ty}

/-- Head and arguments make up the type. -/
theorem unique (shape : Shape ty head args) (shape' : Shape ty' head args) : ty = ty' := by
  cases shape <;> cases shape' <;> rfl

theorem code_eq (shape : Shape ty head args) :
    code ty = words '_' head.word ++ args.flatMap code := by
  cases shape with
  | never | void | primitive => exact (List.append_nil _).symm
  | pointer | array | slice =>
    rw [List.flatMap_singleton]
    exact words_join _ _
  | named | dynamic => exact words_instanceName _ args

theorem size_lt (shape : Shape ty head args) : ∀ arg ∈ args, sizeOf arg < sizeOf ty := by
  intro arg member
  cases shape with
  | never | void | primitive => cases member
  | pointer | array | slice =>
    obtain rfl := List.mem_singleton.mp member
    simp
    try omega
  | named | dynamic =>
    have := List.sizeOf_lt_of_mem member
    simp
    omega

end Shape

/-! ## Heads can be told apart -/

namespace Head

/-- Heads that are one word of the mangler. -/
def builtin : Head → Bool
  | .named .. | .dynamic .. => false
  | _ => true

theorem words_dynamic (defId : DefId) (name : String) :
    words '_' (Head.dynamic defId name).word = "dyn".toList ::
      words '_' (dynamicName defId name) := by
  have split : (Head.dynamic defId name).word = "dyn" ++ "_" ++ dynamicName defId name := by
    simp [Head.word, dynamicName, ← String.append_assoc]
  rw [split, words_join]
  rfl

/-- The builtin heads other than arrays. -/
def plain : List Head :=
  [.never, .void, .primitive .bool, .primitive .char, .primitive .i8, .primitive .i16,
    .primitive .i32, .primitive .i64, .primitive .u8, .primitive .u16, .primitive .u32,
    .primitive .u64, .primitive .usize, .primitive .f32, .primitive .f64, .pointer false .writable,
    .pointer false .readOnly, .pointer true .writable, .pointer true .readOnly, .slice .writable,
    .slice .readOnly]

theorem plain_inj : ∀ head ∈ plain, ∀ head' ∈ plain, head.word = head'.word → head = head' := by
  decide

/-- Words that are kept from names and begin no builtin head. -/
def keywords : List (List Char) :=
  ["dyn".toList, "fn".toList, "closure".toList, "args".toList, "caps".toList]

theorem plain_spec : ∀ head ∈ plain, '_' ∉ head.word.toList ∧ reserved head.word.toList = true ∧
    head.word.toList.take 3 ≠ "arr".toList ∧ head.word.toList ∉ keywords := by
  decide

theorem builtin_cases (h : head.builtin = true) :
    head ∈ plain ∨ ∃ len, head = .array len := by
  cases head with
  | array len => exact .inr ⟨len, rfl⟩
  | primitive p => exact .inl (by cases p <;> decide)
  | pointer nullable mutability => exact .inl (by cases nullable <;> cases mutability <;> decide)
  | slice mutability => exact .inl (by cases mutability <;> decide)
  | never | void => exact .inl (by decide)
  | named | dynamic => cases h

theorem words_builtin (h : head.builtin = true) :
    words '_' head.word = [head.word.toList] := by
  rcases builtin_cases h with plain | ⟨len, rfl⟩
  · exact words_of_not_mem (plain_spec head plain).1
  · exact words_toString "arr" len (by decide)

theorem reserved_builtin (h : head.builtin = true) :
    reserved head.word.toList = true := by
  rcases builtin_cases h with plain | ⟨len, rfl⟩
  · exact (plain_spec head plain).2.1
  · have digits : ((toString len).toList).all Char.isDigit = true := by
      rw [List.all_eq_true]
      intro ch member
      rw [Nat.toString_eq_ofList_toDigits, String.toList_ofList] at member
      exact Nat.isDigit_of_mem_toDigits (by decide) (by decide) member
    simp only [reserved, Head.word, String.toList_append, Bool.or_eq_true, Bool.and_eq_true]
    exact .inr ⟨rfl, digits⟩

theorem builtin_inj {head' : Head} (h : head.builtin = true) (h' : head'.builtin = true)
    (same : head.word = head'.word) : head = head' := by
  have start (len : Nat) : (Head.array len).word.toList.take 3 = "arr".toList := by
    simp [Head.word]
  rcases builtin_cases h with plain | ⟨len, rfl⟩ <;>
    rcases builtin_cases h' with plain' | ⟨len', rfl⟩
  · exact plain_inj _ plain _ plain' same
  · exact absurd (same ▸ start len') (plain_spec _ plain).2.2.1
  · exact absurd (same ▸ start len) (plain_spec _ plain').2.2.1
  · have digits : toString len = toString len' := by
      simpa [Head.word] using same
    have value := congrArg (fun s : String => Nat.ofDigitChars 10 s.toList 0) digits
    simp only [Nat.toString_eq_ofList_toDigits, String.toList_ofList,
      Nat.ofDigitChars_ten_toDigits] at value
    rw [value]

theorem builtin_ne_keyword (h : head.builtin = true) :
    head.word.toList ∉ keywords := by
  rcases builtin_cases h with plain | ⟨len, rfl⟩
  · exact (plain_spec head plain).2.2.2
  · simp [Head.word, keywords]

end Head

section Program

variable {resolved : ResolvedProgram} {ty ty' : Ty} {head head' : Head} {args args' : List Ty}
variable {arity arity' : Nat}

theorem isAggregate_unique {defId : DefId} {name name' : String}
    (h : resolved.isAggregate (some defId) name arity = true)
    (h' : resolved.isAggregate (some defId) name' arity' = true) :
    name = name' ∧ arity = arity' := by
  cases found : resolved.defs[defId]? with
  | none => simp [ResolvedProgram.isAggregate, found] at h
  | some definition =>
    simp only [ResolvedProgram.isAggregate, found, Bool.and_eq_true, beq_iff_eq] at h h'
    exact ⟨h.1.2.symm.trans h'.1.2, h.2.symm.trans h'.2⟩

theorem isDynamic_unique {defId : DefId} {name name' : String}
    (h : resolved.isDynamic defId name arity = true)
    (h' : resolved.isDynamic defId name' arity' = true) : name = name' ∧ arity = arity' := by
  cases found : resolved.defs[defId]? with
  | none => simp [ResolvedProgram.isDynamic, found] at h
  | some definition =>
    simp only [ResolvedProgram.isDynamic, found, Bool.and_eq_true, beq_iff_eq] at h h'
    exact ⟨h.1.symm.trans h'.1, Option.some.inj (h.2.symm.trans h'.2)⟩

/-- The head of a type that the program forms, with its number of arguments. -/
def Head.Known (resolved : ResolvedProgram) (arity : Nat) : Head → Prop
  | .named defId name => resolved.isAggregate (some defId) name arity = true
  | .dynamic defId name => resolved.isDynamic defId name arity = true
  | .pointer .. | .array _ | .slice _ => arity = 1
  | .never | .void | .primitive _ => arity = 0

theorem formsAll_iff : resolved.formsAll args = true ↔ ∀ arg ∈ args, resolved.forms arg = true := by
  induction args with
  | nil => simp [ResolvedProgram.formsAll]
  | cons arg args ih => simp [ResolvedProgram.formsAll, ih]

theorem closedAll_iff : closedAll args = true ↔ ∀ arg ∈ args, closed arg = true := by
  induction args with
  | nil => simp [closedAll]
  | cons arg args ih => simp [closedAll, ih]

theorem Shape.known (shape : Shape ty head args) (formed : resolved.forms ty = true) :
    head.Known resolved args.length ∧ ∀ arg ∈ args, resolved.forms arg = true := by
  cases shape with
  | never | void | primitive => exact ⟨rfl, by simp⟩
  | pointer | array | slice =>
    refine ⟨rfl, fun arg member => ?_⟩
    rw [List.mem_singleton.mp member]
    exact formed
  | named | dynamic =>
    simp only [ResolvedProgram.forms, Bool.and_eq_true] at formed
    exact ⟨formed.1, formsAll_iff.mp formed.2⟩

/-- A head fixes the number of arguments. -/
theorem Head.Known.arity_eq (known : head.Known resolved arity)
    (known' : head.Known resolved arity') : arity = arity' := by
  cases head with
  | named => exact (isAggregate_unique known known').2
  | dynamic => exact (isDynamic_unique known known').2
  | _ => exact known.trans known'.symm

/-- The first word of a head. -/
def Head.first (head : Head) : List Char := (words '_' head.word).headD []

theorem Head.word_cons (head : Head) : ∃ rest, words '_' head.word = head.first :: rest := by
  have some := words_ne_nil '_' head.word
  unfold Head.first
  revert some
  cases words '_' head.word <;> simp

section

variable (separated : resolved.Decodable)

include separated

section

variable (known : head.Known resolved arity)

include known

/-- Only names start with a word that is not reserved. -/
theorem Head.first_cases :
    (head.builtin = true ∧ head.first = head.word.toList ∧ reserved head.first = true ∧
      head.first ∉ keywords) ∨
    (∃ defId name, head = .dynamic defId name ∧ head.first = "dyn".toList) ∨
    (∃ defId name, head = .named defId name ∧ reserved head.first = false) := by
  cases head with
  | dynamic defId name =>
    refine .inr (.inl ⟨defId, name, rfl, ?_⟩)
    rw [Head.first, Head.words_dynamic]
    rfl
  | named defId name => exact .inr (.inr ⟨defId, name, rfl, separated.unreserved known⟩)
  | _ =>
    refine .inl ⟨rfl, ?_⟩
    rw [Head.first, Head.words_builtin rfl]
    exact ⟨rfl, reserved_builtin rfl, builtin_ne_keyword rfl⟩

theorem Head.begins_first : resolved.Begins head.first := by
  rcases first_cases separated known with ⟨-, -, taken, -⟩ | ⟨_, _, -, word⟩ | ⟨defId, name, rfl, -⟩
  · exact .inl taken
  · rw [word]
    exact .inl (by decide)
  · exact .inr ⟨defId, name, arity, known, rfl⟩

/-- Heads with a common beginning are equal, if the longer one goes on with a word that
begins a type. -/
theorem Head.eq_of_start (known' : head'.Known resolved arity') {more : List (List Char)}
    (split : words '_' head'.word = words '_' head.word ++ more)
    (follows : Follows resolved.Begins more) : head = head' := by
  have start : words '_' head.word <+: words '_' head'.word := ⟨more, split.symm⟩
  have first : head.first = head'.first := by
    obtain ⟨rest, hrest⟩ := head.word_cons
    obtain ⟨rest', hrest'⟩ := head'.word_cons
    rw [hrest, hrest'] at start
    exact (List.cons_prefix_cons.mp start).1
  have dyn : reserved "dyn".toList = true ∧ "dyn".toList ∈ keywords := by decide
  -- The first word tells the three kinds of heads apart.
  rcases first_cases separated known with ⟨builtin, word, taken, other⟩ |
    ⟨defId, name, rfl, word⟩ | ⟨defId, name, rfl, free⟩ <;>
  rcases first_cases separated known' with ⟨builtin', word', taken', other'⟩ |
    ⟨defId', name', rfl, word'⟩ | ⟨defId', name', rfl, free'⟩ <;>
  try (exfalso; simp_all; done)
  · exact builtin_inj builtin builtin' (String.toList_inj.mp (by rw [← word, ← word', first]))
  · rw [words_dynamic, words_dynamic, List.cons_append, List.cons.injEq] at split
    obtain rfl | ⟨next, isNext, no⟩ := separated.dynamicApart known known' ⟨more, split.2.symm⟩
    · rw [(isDynamic_unique known known').1]
    · rw [split.2, List.drop_left] at isNext
      exact absurd (follows next isNext) no
  · obtain rfl | ⟨next, isNext, no⟩ := separated.apart known known' start
    · rw [(isAggregate_unique known known').1]
    · have split : words '_' name' = words '_' name ++ more := split
      rw [split, List.drop_left] at isNext
      exact absurd (follows next isNext) no

theorem Head.read (known' : head'.Known resolved arity') {rest rest' : List (List Char)}
    (follows : Follows resolved.Begins rest) (follows' : Follows resolved.Begins rest')
    (h : words '_' head.word ++ rest = words '_' head'.word ++ rest') :
    head = head' ∧ rest = rest' := by
  -- what the longer head has more begins what follows the shorter one
  have ahead {more rest rest' : List (List Char)} (follows : Follows resolved.Begins rest)
      (split : rest = more ++ rest') : Follows resolved.Begins more := by
    intro word isFirst
    refine follows word ?_
    rw [split, List.head?_append]
    exact Option.mem_def.mpr (by rw [Option.mem_def.mp isFirst]; rfl)
  have same : head = head' := by
    obtain ⟨more, split, after⟩ | ⟨more, split, after⟩ := List.append_eq_append_iff.mp h
    · exact eq_of_start separated known known' split (ahead follows after)
    · exact (eq_of_start separated known' known split (ahead follows' after)).symm
  subst same
  exact ⟨rfl, List.append_cancel_left h⟩

/-- No head starts with a word that ends a list or starts a callable type. -/
theorem Head.first_ne :
    head.first ∉ ["fn".toList, "closure".toList, "args".toList, "caps".toList] := by
  have taken : ∀ word ∈ ["fn".toList, "closure".toList, "args".toList, "caps".toList],
      reserved word = true ∧ word ∈ keywords ∧ word ≠ "dyn".toList := by decide
  intro member
  have := taken _ member
  rcases first_cases separated known with ⟨-, -, -, other⟩ | ⟨_, _, -, word⟩ | ⟨_, _, -, free⟩ <;>
    simp_all

end

end

/-! ## Reading delimited types -/

/-- Parameters as they are written: none of them as one `void`. -/
def written (params : List Ty) : List Ty := if params = [] then [.void] else params

theorem words_params (params : List Ty) :
    words '_' (joinOr "void" (mangleTys params)) = (written params).flatMap code := by
  rw [mangleTys_eq_map, joinOr, written]
  by_cases none : params = []
  · subst none
    rfl
  · rw [if_neg (by simpa using none), if_neg none, words_intercalate (by simpa using none),
      List.flatMap_map]
    rfl

theorem written_inj {params params' : List Ty} (h : onlyVoid params = false)
    (h' : onlyVoid params' = false) (same : written params = written params') :
    params = params' := by
  unfold written at same
  split at same <;> split at same
  · simp_all
  · subst same
    cases h'
  · subst same
    cases h
  · exact same

theorem written_closed {params : List Ty} (formed : ∀ p ∈ params, resolved.forms p = true)
    (delimits : ∀ p ∈ params, closed p = true) :
    ∀ p ∈ written params, resolved.forms p = true ∧ closed p = true := by
  intro p member
  unfold written at member
  split at member
  · rw [List.mem_singleton.mp member]
    exact ⟨rfl, rfl⟩
  · exact ⟨formed p member, delimits p member⟩

theorem closure_code (ret : Ty) (params : List Ty) :
    code (.closure ret params (.mk [] [])) =
      "closure".toList :: "ret".toList :: (code ret ++
        "args".toList :: ((written params).flatMap code ++ ["caps".toList, "none".toList])) := by
  have split : mangleTyFragment (.closure ret params (.mk [] [])) =
      "closure" ++ "_" ++ ("ret" ++ "_" ++ (mangleTyFragment ret ++ "_" ++ ("args" ++ "_" ++
        (joinOr "void" (mangleTys params) ++ "_" ++ ("caps" ++ "_" ++ "none"))))) := by
    show closureName (mangleTyFragment ret) (mangleTys params) "none" = _
    apply String.toList_inj.mp
    simp [closureName]
  rw [code, split, words_join, words_join, words_join, words_join, words_join, words_params]
  rfl

theorem function_code (isUnsafe : Bool) {abi : Option String} (ret : Ty) (params : List Ty)
    (known : abi = none ∨ abi = some "C") :
    code (.function isUnsafe abi ret params) =
      "fn".toList :: (if isUnsafe then "unsafe" else "safe").toList ::
        (if abi = none then "ciel" else "c").toList :: "ret".toList :: (code ret ++
          "args".toList :: (written params).flatMap code) := by
  have split : mangleTyFragment (.function isUnsafe abi ret params) =
      "fn" ++ "_" ++ ((if isUnsafe then "unsafe" else "safe") ++ "_" ++ (mangleAbiFragment abi ++
        "_" ++ ("ret" ++ "_" ++ (mangleTyFragment ret ++ "_" ++ ("args" ++ "_" ++
          joinOr "void" (mangleTys params)))))) := by
    show functionName isUnsafe abi (mangleTyFragment ret) (mangleTys params) = _
    apply String.toList_inj.mp
    simp [functionName]
  rw [code, split, words_join, words_join, words_join, words_join, words_join, words_join,
    words_params]
  rcases known with rfl | rfl <;> cases isUnsafe <;> rfl

/-- A closure without constraints, all of whose parts are delimited. -/
structure ClosedClosure (resolved : ResolvedProgram) (ty ret : Ty) (params : List Ty) : Prop where
  eq : ty = .closure ret params (.mk [] [])
  readsRet : resolved.forms ret = true ∧ closed ret = true
  readsParams : ∀ p ∈ written params, resolved.forms p = true ∧ closed p = true
  plain : onlyVoid params = false

/-- A function type whose parameters end the name. -/
structure OpenFunction (resolved : ResolvedProgram) (ty : Ty) (isUnsafe : Bool)
    (abi : Option String) (ret : Ty) (params : List Ty) : Prop where
  eq : ty = .function isUnsafe abi ret params
  known : abi = none ∨ abi = some "C"
  readsRet : resolved.forms ret = true ∧ closed ret = true
  readsParams : ∀ p ∈ written params, resolved.forms p = true ∧ closed p = true
  plain : onlyVoid params = false

/-- The three ways to be delimited: by the head, by the end of a closure type, or by
the end of the name. -/
theorem delimited_cases (formed : resolved.forms ty = true)
    (delimits : closed ty = true ∨ delimited ty = true) :
    (∃ head args, Shape ty head args ∧ closed ty = closedAll args ∧
      delimited ty = delimitedArgs args) ∨
    (closed ty = true ∧ ∃ ret params, ClosedClosure resolved ty ret params) ∨
    (closed ty = false ∧
      ∃ isUnsafe abi ret params, OpenFunction resolved ty isUnsafe abi ret params) := by
  cases ty with
  | never => exact .inl ⟨_, _, .never, rfl, rfl⟩
  | void => exact .inl ⟨_, _, .void, rfl, rfl⟩
  | primitive => exact .inl ⟨_, _, .primitive, rfl, rfl⟩
  | pointer => exact .inl ⟨_, _, .pointer, by simp [closed, closedAll], rfl⟩
  | array => exact .inl ⟨_, _, .array, by simp [closed, closedAll], rfl⟩
  | slice => exact .inl ⟨_, _, .slice, by simp [closed, closedAll], rfl⟩
  | named defId name args =>
    obtain _ | defId := defId
    · cases formed
    · exact .inl ⟨_, _, .named, rfl, rfl⟩
  | dynamicInterface => exact .inl ⟨_, _, .dynamic, rfl, rfl⟩
  | closure ret params constraints =>
    replace delimits := delimits.elim id id
    obtain ⟨_ | _, _ | _⟩ := constraints
    · refine .inr (.inl ⟨delimits, ret, params, ?_⟩)
      simp only [closed, ResolvedProgram.forms, Bool.and_eq_true,
        Bool.not_eq_true'] at delimits formed
      obtain ⟨⟨closedRet, closedParams⟩, plain⟩ := delimits
      exact ⟨rfl, ⟨formed.1.1, closedRet⟩,
        written_closed (formsAll_iff.mp formed.1.2) (closedAll_iff.mp closedParams), plain⟩
    all_goals cases delimits
  | function isUnsafe abi ret params =>
    replace delimits := delimits.resolve_left nofun
    simp only [delimited, ResolvedProgram.forms, Bool.and_eq_true, Bool.not_eq_true',
      Bool.or_eq_true, beq_iff_eq] at delimits formed
    obtain ⟨⟨⟨known, closedRet⟩, closedParams⟩, plain⟩ := delimits
    exact .inr (.inr ⟨rfl, isUnsafe, abi, ret, params, rfl, known, ⟨formed.1, closedRet⟩,
      written_closed (formsAll_iff.mp formed.2) (closedAll_iff.mp closedParams), plain⟩)
  | _ => cases delimits.elim id id

theorem closed_cases (formed : resolved.forms ty = true) (delimits : closed ty = true) :
    (∃ head args, Shape ty head args ∧ head.Known resolved args.length ∧
      ∀ arg ∈ args, resolved.forms arg = true ∧ closed arg = true) ∨
    ∃ ret params, ClosedClosure resolved ty ret params := by
  rcases delimited_cases formed (.inl delimits) with ⟨head, args, shape, same, -⟩ |
    ⟨-, closure⟩ | ⟨opened, -⟩
  · obtain ⟨known, forms⟩ := shape.known formed
    have all := closedAll_iff.mp (same.symm.trans delimits)
    exact .inl ⟨head, args, shape, known, fun arg member => ⟨forms arg member, all arg member⟩⟩
  · exact .inr closure
  · rw [delimits] at opened
    cases opened

/-- The first word of a delimited type ends no list. -/
theorem closed_starts (separated : resolved.Decodable) (formed : resolved.forms ty = true)
    (delimits : closed ty = true) :
    ∃ w ws, code ty = w :: ws ∧ resolved.Begins w ∧ w ≠ "caps".toList := by
  rcases closed_cases formed delimits with ⟨head, args, shape, known, -⟩ | ⟨ret, params, closure⟩
  · obtain ⟨rest, hrest⟩ := head.word_cons
    refine ⟨head.first, rest ++ args.flatMap code, by rw [shape.code_eq, hrest]; rfl,
      head.begins_first separated known, fun same => ?_⟩
    exact head.first_ne separated known (by simp [same])
  · exact ⟨_, _, by rw [closure.eq, closure_code], .inl (by decide), by decide⟩

/-- What is delimited begins as types do. -/
theorem starts_of_delimited (separated : resolved.Decodable) (formed : resolved.forms ty = true)
    (delimits : closed ty = true ∨ delimited ty = true) : Starts resolved.Begins (code ty) := by
  rcases delimited_cases formed delimits with ⟨head, args, shape, -, -⟩ |
    ⟨closes, -⟩ | ⟨-, isUnsafe, abi, ret, params, function⟩
  · obtain ⟨rest, hrest⟩ := head.word_cons
    exact ⟨head.first, rest ++ args.flatMap code, by rw [shape.code_eq, hrest]; rfl,
      head.begins_first separated (shape.known formed).1⟩
  · obtain ⟨w, ws, split, begins, -⟩ := closed_starts separated formed closes
    exact ⟨w, ws, split, begins⟩
  · exact ⟨_, _, by rw [function.eq, function_code _ _ _ function.known], .inl (by decide)⟩

theorem starts_of_closed (separated : resolved.Decodable)
    (reads : resolved.forms ty = true ∧ closed ty = true) : Starts resolved.Begins (code ty) :=
  starts_of_delimited separated reads.1 (.inl reads.2)

theorem Shape.code_ne_keyword (shape : Shape ty head args) (separated : resolved.Decodable)
    (known : head.Known resolved arity) {word : List Char} {rest rest' : List (List Char)}
    (keyword : word ∈ ["fn".toList, "closure".toList, "args".toList, "caps".toList]) :
    code ty ++ rest ≠ word :: rest' := by
  intro h
  obtain ⟨more, hmore⟩ := head.word_cons
  rw [shape.code_eq, hmore] at h
  simp only [List.cons_append, List.cons.injEq] at h
  exact head.first_ne separated known (h.1 ▸ keyword)

theorem written_size (ret : Ty) (params : List Ty) :
    ∀ p ∈ written params, sizeOf p < sizeOf (Ty.closure ret params (.mk [] [])) := by
  intro p member
  unfold written at member
  split at member
  · rw [List.mem_singleton.mp member]
    simp
  · have := List.sizeOf_lt_of_mem member
    simp
    omega

/-- Delimited types are read back, whatever types follow. -/
theorem closed_reads (separated : resolved.Decodable) {n : Nat} :
    ∀ {ty ty' : Ty}, sizeOf ty < n → resolved.forms ty = true ∧ closed ty = true →
      resolved.forms ty' = true ∧ closed ty' = true → Reads resolved.Begins code id ty ty' := by
  induction n with
  | zero => intro ty ty' small; omega
  | succ n ih =>
    intro ty ty' small ⟨formed, delimits⟩ ⟨formed', delimits'⟩ rest rest' follows follows' h
    rcases closed_cases formed delimits with ⟨head, args, shape, known, all⟩ |
        ⟨ret, params, closure⟩ <;>
      rcases closed_cases formed' delimits' with ⟨head', args', shape', known', all'⟩ |
        ⟨ret', params', closure'⟩
    · rw [shape.code_eq, shape'.code_eq, List.append_assoc, List.append_assoc] at h
      have starts : ∀ arg ∈ args, Starts resolved.Begins (code arg) :=
        fun arg member => starts_of_closed separated (all arg member)
      have starts' : ∀ arg ∈ args', Starts resolved.Begins (code arg) :=
        fun arg member => starts_of_closed separated (all' arg member)
      obtain ⟨rfl, tail⟩ :=
        Head.read separated known known' (follows.flatMap starts) (follows'.flatMap starts') h
      have read : ∀ arg ∈ args, ∀ arg' ∈ args', Reads resolved.Begins code id arg arg' := by
        intro arg member arg' member'
        have := shape.size_lt arg member
        exact ih (by omega) (all arg member) (all' arg' member')
      obtain ⟨same, ends⟩ :=
        Reads.list read (known.arity_eq known') starts starts' follows follows' tail
      simp only [List.map_id] at same
      subst same
      exact ⟨shape.unique shape', ends⟩
    · rw [closure'.eq, closure_code] at h
      exact absurd h (shape.code_ne_keyword separated known (by decide))
    · rw [closure.eq, closure_code] at h
      exact absurd h.symm (shape'.code_ne_keyword separated known' (by decide))
    · obtain ⟨rfl, readsRet, readsParams, plain⟩ := closure
      obtain ⟨rfl, readsRet', readsParams', plain'⟩ := closure'
      simp only [closure_code, List.cons_append, List.append_assoc, List.cons.injEq, true_and] at h
      have smaller : sizeOf ret < n := by
        simp at small
        omega
      have listed (words : List (List Char)) :
          Follows resolved.Begins ("args".toList :: words) := by
        rintro word ⟨⟩
        exact .inl (by decide)
      obtain ⟨sameRet, tail⟩ := ih smaller readsRet readsRet' _ _ (listed _) (listed _) h
      simp only [List.cons.injEq, true_and] at tail
      have read : ∀ p ∈ written params, ∀ p' ∈ written params',
          Reads resolved.Begins code id p p' := by
        intro p member p' member'
        have := written_size ret params p member
        exact ih (by omega) (readsParams p member) (readsParams' p' member')
      have starts : ∀ p ∈ written params ++ written params',
          ∃ w ws, code p = w :: ws ∧ resolved.Begins w ∧ w ≠ "caps".toList := by
        intro p member
        have ⟨forms, closes⟩ : resolved.forms p = true ∧ closed p = true := by
          rcases List.mem_append.mp member with member | member
          · exact readsParams p member
          · exact readsParams' p member
        exact closed_starts separated forms closes
      obtain ⟨sameParams, ends⟩ := Reads.terminated (.inl (by decide)) read starts tail
      simp only [List.map_id] at sameParams
      obtain rfl := written_inj plain plain' sameParams
      obtain rfl : ret = ret' := sameRet
      exact ⟨rfl, by simpa using ends⟩

theorem delimited_of_mem (delimits : delimitedArgs args = true) (member : ty ∈ args) :
    closed ty = true ∨ delimited ty = true := by
  induction args with
  | nil => cases member
  | cons arg args ih =>
    rw [delimitedArgs] at delimits
    split at delimits
    next last =>
      rw [List.isEmpty_iff.mp last] at member
      exact .inr (List.mem_singleton.mp member ▸ delimits)
    next =>
      obtain ⟨here, later⟩ := Bool.and_eq_true_iff.mp delimits
      obtain rfl | member := List.mem_cons.mp member
      · exact .inl here
      · exact ih later member

theorem follows_delimitedArgs (separated : resolved.Decodable)
    (formed : ∀ arg ∈ args, resolved.forms arg = true) (delimits : delimitedArgs args = true) :
    Follows resolved.Begins (args.flatMap code) := by
  have ends : Follows resolved.Begins [] := by simp [Follows]
  rw [← List.append_nil (args.flatMap code)]
  refine ends.flatMap fun arg member => ?_
  exact starts_of_delimited separated (formed arg member) (delimited_of_mem delimits member)

/-- Arguments of which only the last one may be open. -/
theorem delimitedArgs_inj (separated : resolved.Decodable)
    (same : args.length = args'.length)
    (formed : ∀ arg ∈ args, resolved.forms arg = true)
    (formed' : ∀ arg ∈ args', resolved.forms arg = true)
    (delimits : delimitedArgs args = true) (delimits' : delimitedArgs args' = true)
    (last : ∀ arg ∈ args, ∀ arg' ∈ args', delimited arg = true → delimited arg' = true →
      code arg = code arg' → arg = arg')
    (h : args.flatMap code = args'.flatMap code) : args = args' := by
  induction args generalizing args' with
  | nil => exact (List.length_eq_zero_iff.mp same.symm).symm
  | cons arg args ih =>
    obtain _ | ⟨arg', args'⟩ := args'
    · cases same
    · simp only [List.length_cons, Nat.add_right_cancel_iff] at same
      simp only [delimitedArgs] at delimits delimits'
      by_cases done : args = []
      · subst done
        obtain rfl := List.length_eq_zero_iff.mp same.symm
        simp only [List.isEmpty_nil, if_true] at delimits delimits'
        simp only [List.flatMap_cons, List.flatMap_nil, List.append_nil] at h
        rw [last arg (by simp) arg' (by simp) delimits delimits' h]
      · have more : args' ≠ [] := by
          rintro rfl
          exact done (List.length_eq_zero_iff.mp same)
        simp only [List.isEmpty_iff, done, more, if_false, Bool.and_eq_true] at delimits delimits'
        simp only [List.flatMap_cons] at h
        obtain ⟨first, tail⟩ := closed_reads separated (Nat.lt_succ_self _)
          ⟨formed arg (by simp), delimits.1⟩ ⟨formed' arg' (by simp), delimits'.1⟩ _ _
          (follows_delimitedArgs separated (List.forall_mem_cons.mp formed).2 delimits.2)
          (follows_delimitedArgs separated (List.forall_mem_cons.mp formed').2 delimits'.2) h
        obtain rfl : arg = arg' := first
        rw [ih same (fun a m => formed a (List.mem_cons_of_mem _ m))
          (fun a m => formed' a (List.mem_cons_of_mem _ m)) delimits.2 delimits'.2
          (fun a m a' m' => last a (List.mem_cons_of_mem _ m) a' (List.mem_cons_of_mem _ m')) tail]

/-- Function types with equal words are equal, when nothing follows. -/
theorem OpenFunction.inj {isUnsafe isUnsafe' : Bool} {abi abi' : Option String} {ret ret' : Ty}
    {params params' : List Ty} (separated : resolved.Decodable)
    (function : OpenFunction resolved ty isUnsafe abi ret params)
    (function' : OpenFunction resolved ty' isUnsafe' abi' ret' params')
    (h : code ty = code ty') : ty = ty' := by
  obtain ⟨rfl, known, readsRet, readsParams, plain⟩ := function
  obtain ⟨rfl, known', readsRet', readsParams', plain'⟩ := function'
  rw [function_code _ _ _ known, function_code _ _ _ known'] at h
  simp only [List.cons.injEq, true_and] at h
  obtain ⟨safety, convention, tail⟩ := h
  have listed (words : List (List Char)) : Follows resolved.Begins ("args".toList :: words) := by
    rintro word ⟨⟩
    exact .inl (by decide)
  obtain ⟨sameRet, lists⟩ := closed_reads separated (Nat.lt_succ_self _) readsRet readsRet' _ _
    (listed _) (listed _) tail
  obtain rfl : ret = ret' := sameRet
  have sameUnsafe : isUnsafe = isUnsafe' := by
    revert safety
    cases isUnsafe <;> cases isUnsafe' <;> decide
  have sameAbi : abi = abi' := by
    revert convention
    rcases known with rfl | rfl <;> rcases known' with rfl | rfl <;> decide
  have sameParams := Reads.toEnd
    (fun p member p' member' => closed_reads separated (Nat.lt_succ_self _)
      (readsParams p member) (readsParams' p' member'))
    (fun p member => starts_of_closed separated (readsParams p member))
    (fun p member => starts_of_closed separated (readsParams' p member)) (List.cons.inj lists).2
  simp only [List.map_id] at sameParams
  obtain rfl := written_inj plain plain' sameParams
  rw [sameUnsafe, sameAbi]

theorem delimited_inj (separated : resolved.Decodable) {n : Nat} :
    ∀ {ty ty' : Ty}, sizeOf ty < n → resolved.forms ty = true → resolved.forms ty' = true →
      delimited ty = true → delimited ty' = true → code ty = code ty' → ty = ty' := by
  induction n with
  | zero => intro ty ty' small; omega
  | succ n ih =>
    intro ty ty' small formed formed' delimits delimits' h
    rcases delimited_cases formed (.inr delimits) with ⟨head, args, shape, -, ends⟩ |
        ⟨closes, ret, params, closure⟩ | ⟨-, isUnsafe, abi, ret, params, function⟩ <;>
      rcases delimited_cases formed' (.inr delimits') with ⟨head', args', shape', -, ends'⟩ |
        ⟨closes', ret', params', closure'⟩ | ⟨-, isUnsafe', abi', ret', params', function'⟩
    · obtain ⟨known, all⟩ := shape.known formed
      obtain ⟨known', all'⟩ := shape'.known formed'
      rw [shape.code_eq, shape'.code_eq] at h
      obtain ⟨rfl, tail⟩ := Head.read separated known known'
        (follows_delimitedArgs separated all (ends.symm.trans delimits))
        (follows_delimitedArgs separated all' (ends'.symm.trans delimits')) h
      have last : ∀ arg ∈ args, ∀ arg' ∈ args', delimited arg = true → delimited arg' = true →
          code arg = code arg' → arg = arg' := by
        intro arg member arg' member'
        have := shape.size_lt arg member
        exact ih (by omega) (all arg member) (all' arg' member')
      obtain rfl := delimitedArgs_inj separated (known.arity_eq known') all all'
        (ends.symm.trans delimits) (ends'.symm.trans delimits') last tail
      exact shape.unique shape'
    · rw [closure'.eq, closure_code, ← List.append_nil (code ty)] at h
      exact absurd h (shape.code_ne_keyword separated (shape.known formed).1 (by decide))
    · rw [function'.eq, function_code _ _ _ function'.known, ← List.append_nil (code ty)] at h
      exact absurd h (shape.code_ne_keyword separated (shape.known formed).1 (by decide))
    · rw [closure.eq, closure_code, ← List.append_nil (code ty')] at h
      exact absurd h.symm (shape'.code_ne_keyword separated (shape'.known formed').1 (by decide))
    · have nothing : Follows resolved.Begins [] := by simp [Follows]
      obtain ⟨same, -⟩ := closed_reads separated (Nat.lt_succ_self _) ⟨formed, closes⟩
        ⟨formed', closes'⟩ [] [] nothing nothing (by rw [h])
      exact same
    · rw [closure.eq, closure_code, function'.eq, function_code _ _ _ function'.known] at h
      exact absurd (List.cons.inj h).1 (by decide)
    · rw [function.eq, function_code _ _ _ function.known, ← List.append_nil (code ty')] at h
      exact absurd h.symm (shape'.code_ne_keyword separated (shape'.known formed').1 (by decide))
    · rw [closure'.eq, closure_code, function.eq, function_code _ _ _ function.known] at h
      exact absurd (List.cons.inj h).1 (by decide)
    · exact function.inj separated function' h

/-! ## Annotations do not show -/

/-- The name of a type and whether the program forms it are the same without the
annotations. -/
structure Unseen (resolved : ResolvedProgram) (ty : Ty) : Prop where
  name : mangleTyFragment (canonicalTypeIdentityTy ty) = mangleTyFragment ty
  formed : resolved.forms (canonicalTypeIdentityTy ty) = resolved.forms ty

theorem unseen_tys {tys : List Ty} (all : ∀ ty ∈ tys, Unseen resolved ty) :
    mangleTys (canonicalTys tys) = mangleTys tys ∧
      resolved.formsAll (canonicalTys tys) = resolved.formsAll tys := by
  induction tys with
  | nil => exact ⟨rfl, rfl⟩
  | cons ty tys ih =>
    obtain ⟨first, rest⟩ := List.forall_mem_cons.mp all
    simp [canonicalTys, mangleTys, ResolvedProgram.formsAll, first.name, first.formed, ih rest]

theorem unseen_refs {refs : List ConstraintRef} (sign : String)
    (all : ∀ ty ∈ refs.flatMap ConstraintRef.args, Unseen resolved ty) :
    mangleConstraintRefs sign (canonicalRefs refs) = mangleConstraintRefs sign refs ∧
      resolved.formsRefs (canonicalRefs refs) = resolved.formsRefs refs := by
  induction refs with
  | nil => exact ⟨rfl, rfl⟩
  | cons ref refs ih =>
    obtain ⟨defId, name, args⟩ := ref
    rw [List.flatMap_cons, List.forall_mem_append] at all
    have args := @unseen_tys _ args all.1
    simp [canonicalRefs, canonicalRef, mangleConstraintRefs, mangleConstraintRef,
      ResolvedProgram.formsRefs, ResolvedProgram.formsRef, args, ih all.2]

theorem unseen_bounds {bounds : ConstraintBounds} (all : ∀ ty ∈ bounds.tys, Unseen resolved ty) :
    mangleConstraintBounds (canonicalBounds bounds) = mangleConstraintBounds bounds ∧
      resolved.formsBounds (canonicalBounds bounds) = resolved.formsBounds bounds := by
  obtain ⟨positive, negative⟩ := bounds
  rw [ConstraintBounds.tys, List.flatMap_append, List.forall_mem_append] at all
  have positive := @unseen_refs _ positive "pos_" all.1
  have negative := @unseen_refs _ negative "neg_" all.2
  simp [canonicalBounds, mangleConstraintBounds, ResolvedProgram.formsBounds, positive, negative]

/-- Neither mangling nor the formation of types sees opaque-state annotations. -/
theorem unseen (resolved : ResolvedProgram) (ty : Ty) : Unseen resolved ty := by
  induction ty with
  | step ty ih =>
    have name {part : Ty} (inside : part ∈ ty.children) := (ih part inside).name
    have formed {part : Ty} (inside : part ∈ ty.children) := (ih part inside).formed
    have many {tys : List Ty} (inside : tys ⊆ ty.children) :=
      unseen_tys fun part member => ih part (inside member)
    have bounded {bounds : ConstraintBounds} (inside : bounds.tys ⊆ ty.children) :=
      unseen_bounds fun part member => ih part (inside member)
    have arity (tys : List Ty) : (canonicalTys tys).length = tys.length := by
      simp [canonicalTys_eq_map]
    constructor <;>
      cases ty with
      | _ =>
        simp only [Ty.children, List.cons_append] at name formed many bounded
        simp [canonicalTypeIdentityTy, mangleTyFragment, ResolvedProgram.forms, name, formed, many,
          bounded, arity]

end Program

/-! ## Instance names -/

/-- Without joined arguments there are none. -/
theorem arity_eq_zero {resolved : ResolvedProgram} {defId : DefId} {name : String} {arity : Nat}
    (joined : ¬resolved.joins = true)
    (isAggregate : resolved.isAggregate (some defId) name arity = true) : arity = 0 := by
  cases found : resolved.defs[defId]? with
  | none => simp [ResolvedProgram.isAggregate, found] at isAggregate
  | some definition =>
    simp only [ResolvedProgram.isAggregate, found, Bool.and_eq_true, beq_iff_eq] at isAggregate
    by_contra some
    refine joined (List.any_eq_true.mpr ⟨definition, List.mem_of_getElem? found, ?_⟩)
    rw [Bool.and_eq_true, bne_iff_ne, isAggregate.2]
    exact ⟨some, isAggregate.1.1⟩

/-- A program in which the words of names can be read back, although one name begins
another one: no type begins with the word `Two`. -/
def plainProgram : ResolvedProgram :=
  ⟨[⟨"Box", .struct, 0, 1⟩, ⟨"Pair", .struct, 0, 2⟩, ⟨"Unit", .enum, 0, 0⟩,
    ⟨"Unit_Two", .struct, 0, 0⟩, ⟨"File", .opaqueStruct, 0, 0⟩, ⟨"show", .interface, 0, 1⟩], [none]⟩

def plainNames : List (DefId × String) :=
  [(0, "Box"), (1, "Pair"), (2, "Unit"), (3, "Unit_Two"), (4, "File")]

theorem plainProgram_separated : plainProgram.Separated := by
  have aggregate {defId : DefId} {name : String} {arity : Nat}
      (h : plainProgram.isAggregate (some defId) name arity = true) :
      (defId, name) ∈ plainNames := by
    match defId with
    | 0 | 1 | 2 | 3 | 4 | 5 =>
      simp [plainProgram, ResolvedProgram.isAggregate, ResolvedProgram.nominalName,
        ResolvedProgram.hasSameNamedNominal, DefKind.isNominal] at h
      try simp [plainNames, h]
    | n + 6 => simp [plainProgram, ResolvedProgram.isAggregate] at h
  have dynamic {defId : DefId} {name : String} {arity : Nat}
      (h : plainProgram.isDynamic defId name arity = true) : defId = 5 := by
    match defId with
    | 5 => rfl
    | 0 | 1 | 2 | 3 | 4 => simp [plainProgram, ResolvedProgram.isDynamic, Def.dynamicArity?] at h
    | n + 6 => simp [plainProgram, ResolvedProgram.isDynamic] at h
  have noType : ¬plainProgram.Begins "Two".toList := by
    rintro (taken | ⟨defId, name, arity, isAggregate, first⟩)
    · exact absurd taken (by decide)
    · have free : ∀ entry ∈ plainNames, (words '_' entry.2).headD [] ≠ "Two".toList := by decide
      exact free (defId, name) (aggregate isAggregate) first
  refine ⟨@fun defId defId' name _ _ h h' => ?_, fun _ => ⟨@fun defId name _ h => ?_,
    @fun defId defId' name name' _ _ h h' start => ?_, fun h h' _ => ?_⟩⟩
  · have one : ∀ entry ∈ plainNames, ∀ other ∈ plainNames, entry.2 = other.2 →
        entry.1 = other.1 := by decide
    exact one (defId, name) (aggregate h) (defId', name) (aggregate h') rfl
  · have free : ∀ entry ∈ plainNames, reserved ((words '_' entry.2).headD []) = false := by decide
    exact free (defId, name) (aggregate h)
  · have apart : ∀ entry ∈ plainNames, ∀ other ∈ plainNames,
        words '_' entry.2 <+: words '_' other.2 → entry.1 = other.1 ∨
          ((words '_' other.2).drop (words '_' entry.2).length).head? = some "Two".toList := by
      decide
    exact (apart (defId, name) (aggregate h) (defId', name') (aggregate h') start).imp_right
      fun next => ⟨_, next, noType⟩
  · exact .inl ((dynamic h).trans (dynamic h').symm)

/-- `Unit`, with and without an annotation. -/
def unitTy : Ty := .named (some 2) "Unit" []

def annotatedUnitTy : Ty := .opaqueState unitTy [("handle", .void)]

/-- `*const show`. -/
def showTy : Ty := .pointer false .readOnly (.dynamicInterface 5 "show" [])

/-- A generic struct, its argument, and a struct whose name is the instance name. -/
def boxProgram : ResolvedProgram :=
  ⟨[⟨"Box", .struct, 0, 1⟩, ⟨"A", .struct, 0, 0⟩, ⟨"Box_A", .struct, 0, 0⟩], [none]⟩

/-- Separated names do not help where two parameter lists are open: one instance is
`Triple<fn(i8) -> void, fn(i8, i16) -> void, i32>`, the other one
`Triple<fn(i8, fn(i8) -> void) -> void, i16, i32>`. -/
example :
    aggregateInstanceName "Triple"
      [.function false none .void [.primitive .i8],
        .function false none .void [.primitive .i8, .primitive .i16], .primitive .i32] =
    aggregateInstanceName "Triple"
      [.function false none .void
        [.primitive .i8, .function false none .void [.primitive .i8]], .primitive .i16,
        .primitive .i32] := by
  rfl

end Ciel.Types
