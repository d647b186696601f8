import Ciel.Std.Json.ExactValues
import Mathlib.Tactic.SplitIfs

/-!
# The JSON writer

`write_value_to_buf` and its helpers append to a buffer; storage that is asked for is granted.
What is written for a tree whose numbers are spelled as numbers and whose objects alternate
keys and values is a JSON text of this tree, so that the reader gives the tree back.
-/

namespace Ciel.Json

open Library

/-! ## The functions -/

def hexDigit (value : UInt8) : UInt8 :=
  if value < 10 then value + byte '0' else value - 10 + byte 'a'

/-- Two lowercase hexadecimal digits without a prefix. -/
def u8ToHex (value : UInt8) : Bytes := [hexDigit (value >>> 4 &&& 15), hexDigit (value &&& 15)]

/-- What the loop of `write_string_text` appends for a byte. -/
def escapeByte (b : UInt8) : Bytes :=
  if b = byte '"' then [byte '\\', byte '"']
  else if b = byte '\\' then [byte '\\', byte '\\']
  else if b = 8 then [byte '\\', byte 'b']
  else if b = 12 then [byte '\\', byte 'f']
  else if b = byte '\n' then [byte '\\', byte 'n']
  else if b = byte '\r' then [byte '\\', byte 'r']
  else if b = byte '\t' then [byte '\\', byte 't']
  else if b < 0x20 then ['\\', 'u', '0', '0'].map byte ++ u8ToHex b
  else [b]

def writeStringText (out text : Bytes) : Bytes :=
  out ++ byte '"' :: (text.flatMap escapeByte ++ [byte '"'])

mutual

def writeValueToBuf : Value → Bytes → Except WireError Bytes
  | .null, out => .ok (out ++ ['n', 'u', 'l', 'l'].map byte)
  | .bool true, out => .ok (out ++ ['t', 'r', 'u', 'e'].map byte)
  | .bool false, out => .ok (out ++ ['f', 'a', 'l', 's', 'e'].map byte)
  | .number number, out => .ok (out ++ number.raw)
  | .string text, out => .ok (writeStringText out text)
  | .array items, out => do
      let out ← writeItems true items (out ++ [byte '['])
      .ok (out ++ [byte ']'])
  | .object members, out => do
      let out ← writeMembers true members (out ++ [byte '{'])
      .ok (out ++ [byte '}'])

/-- The loop over the elements of an array; the flag is set before the first one. -/
def writeItems : Bool → List Value → Bytes → Except WireError Bytes
  | _, [], out => .ok out
  | first, item :: items, out => do
      let out ← writeValueToBuf item (if first then out else out ++ [byte ','])
      writeItems false items out

/-- The loop over the members of an object. -/
def writeMembers : Bool → List Value → Bytes → Except WireError Bytes
  | _, [], out => .ok out
  | _, [_], _ => .error (errorAt .invalidValue 0 "invalid json object value")
  | first, .string name :: value :: members, out => do
      let out := writeStringText (if first then out else out ++ [byte ',']) name
      let out ← writeValueToBuf value (out ++ [byte ':'])
      writeMembers false members out
  | _, _, _ => .error (errorAt .invalidValue 0 "invalid json object key")

end

/-- Serializes a JSON value tree. -/
def stringify (value : Value) : Except WireError Bytes := writeValueToBuf value []

/-! ## Strings -/

theorem hexDigit_value {d : UInt8} (small : d.toNat < 16) : HexDigit (hexDigit d) d.toNat := by
  have zero : (byte '0').toNat = 0x30 := rfl
  have a : (byte 'a').toNat = 0x61 := rfl
  have ten : (10 : UInt8).toNat = 10 := rfl
  rw [hexDigit, HexDigit]
  split
  case isTrue digit =>
    rw [UInt8.lt_iff_toNat_lt, ten] at digit
    rw [UInt8.toNat_add, zero]
    omega
  case isFalse digit =>
    rw [UInt8.lt_iff_toNat_lt, ten] at digit
    rw [UInt8.toNat_add, UInt8.toNat_sub, a, ten]
    omega

theorem u8ToHex_value {b : UInt8} :
    ∃ c d, u8ToHex b = [c, d] ∧ HexDigit c (b.toNat / 16) ∧ HexDigit d (b.toNat % 16) := by
  have bound := b.toNat_lt
  have masked : ∀ x : Nat, x &&& 15 = x % 16 := fun x => Nat.and_two_pow_sub_one_eq_mod x 4
  have high : (b >>> 4 &&& 15).toNat = b.toNat / 16 := by
    rw [UInt8.toNat_and, UInt8.toNat_shiftRight]
    show b.toNat >>> 4 &&& 15 = _
    rw [masked, Nat.shiftRight_eq_div_pow]
    omega
  have low : (b &&& 15).toNat = b.toNat % 16 := by
    rw [UInt8.toNat_and]
    exact masked _
  refine ⟨_, _, rfl, ?_, ?_⟩
  · rw [← high]
    exact hexDigit_value (by rw [high]; omega)
  · rw [← low]
    exact hexDigit_value (by rw [low]; omega)

/-- A control character is written as the escape of its code. -/
theorem control_escape {b : UInt8} (control : b < 0x20) :
    EscapeText (['u', '0', '0'].map byte ++ u8ToHex b) [b] := by
  have small : b.toNat < 0x20 := UInt8.lt_iff_toNat_lt.1 control
  have zero : HexDigit (byte '0') 0 := .inl ⟨by decide, rfl⟩
  obtain ⟨c, d, spelled, first, second⟩ := u8ToHex_value (b := b)
  have hex : Hex4 [byte '0', byte '0', c, d] b.toNat := by
    have four := Hex4.mk zero zero first second
    have code : ((0 * 16 + 0) * 16 + b.toNat / 16) * 16 + b.toNat % 16 = b.toNat := by omega
    rwa [code] at four
  have bytes : utf8 b.toNat = [b] := by
    rw [utf8_eq (.inl (by omega)), if_pos (by omega), UInt8.ofNat_toNat]
  have escape := EscapeText.unicode hex (by simp only [HighSurrogate]; omega)
    (by simp only [LowSurrogate]; omega)
  rw [bytes] at escape
  rw [spelled]
  exact escape

theorem escapeByte_text (b : UInt8) {s t : Bytes} (chars : CharsText s t) :
    CharsText (escapeByte b ++ s) (b :: t) := by
  have short : ∀ {e b}, escapes.lookup e = some b →
      CharsText (byte '\\' :: e :: s) (b :: t) := fun found => .escape (.short found) chars
  rw [escapeByte]
  split_ifs with quote backslash back feed line carriage tab control
  · rw [quote]
    exact short rfl
  · rw [backslash]
    exact short rfl
  · rw [back]
    exact short rfl
  · rw [feed]
    exact short rfl
  · rw [line]
    exact short rfl
  · rw [carriage]
    exact short rfl
  · rw [tab]
    exact short rfl
  · exact .escape (control_escape control) chars
  · exact .plain (UInt8.not_lt.1 control) quote backslash chars

theorem escaped_text (text : Bytes) : CharsText (text.flatMap escapeByte) text := by
  induction text with
  | nil => exact .nil
  | cons b text ih => exact escapeByte_text b ih

theorem writeStringText_text (out text : Bytes) :
    ∃ s, writeStringText out text = out ++ s ∧ StringText s text :=
  ⟨_, rfl, .mk (escaped_text text)⟩

/-! ## Values -/

mutual

/-- Numbers carry a valid number spelling, and objects alternate string key and value. -/
def Printable : Value → Prop
  | .number number => NumberText number.raw
  | .array items => PrintableItems items
  | .object members => PrintableMembers members
  | _ => True

def PrintableItems : List Value → Prop
  | [] => True
  | item :: items => Printable item ∧ PrintableItems items

def PrintableMembers : List Value → Prop
  | [] => True
  | .string _ :: value :: members => Printable value ∧ PrintableMembers members
  | _ => False

end

/-- The comma before all elements but the first. -/
def separator (first : Bool) : Bytes := if first then [] else [byte ',']

theorem separated (first : Bool) (out : Bytes) :
    (if first then out else out ++ [byte ',']) = out ++ separator first := by
  cases first
  · rfl
  · exact (List.append_nil out).symm

mutual

/-- What is written for a printable tree is a text of the tree. -/
theorem writeValueToBuf_text (value : Value) (out : Bytes) (printable : Printable value) :
    ∃ s, writeValueToBuf value out = .ok (out ++ s) ∧ ValueText s value := by
  cases value with
  | null => exact ⟨_, rfl, .null⟩
  | bool b =>
    cases b with
    | true => exact ⟨_, rfl, .true⟩
    | false => exact ⟨_, rfl, .false⟩
  | number number => exact ⟨_, rfl, .number printable⟩
  | string text => exact ⟨_, rfl, .string (.mk (escaped_text text))⟩
  | array items =>
    obtain ⟨s, written, text⟩ := writeItems_text true items (out ++ [byte '[']) printable
    refine ⟨byte '[' :: (s ++ [byte ']']), ?_, ?_⟩
    · rw [writeValueToBuf, written, ok_bind]
      simp
    · rcases text with ⟨rfl, rfl⟩ | ⟨s, rfl, text⟩
      · exact .emptyArray spaces_nil
      · exact .array text
  | object members =>
    obtain ⟨s, written, text⟩ := writeMembers_text true members (out ++ [byte '{']) printable
    refine ⟨byte '{' :: (s ++ [byte '}']), ?_, ?_⟩
    · rw [writeValueToBuf, written, ok_bind]
      simp
    · rcases text with ⟨rfl, rfl⟩ | ⟨s, rfl, text⟩
      · exact .emptyObject spaces_nil
      · exact .object text

theorem writeItems_text (first : Bool) (items : List Value) (out : Bytes)
    (printable : PrintableItems items) :
    ∃ s, writeItems first items out = .ok (out ++ s) ∧
      ((items = [] ∧ s = []) ∨ ∃ text, s = separator first ++ text ∧ ItemsText text items) := by
  cases items with
  | nil => exact ⟨[], by rw [writeItems, List.append_nil], .inl ⟨rfl, rfl⟩⟩
  | cons item items =>
    obtain ⟨s, written, text⟩ := writeValueToBuf_text item (out ++ separator first) printable.1
    obtain ⟨more, written', texts⟩ := writeItems_text false items _ printable.2
    refine ⟨separator first ++ (s ++ more), ?_, .inr ⟨s ++ more, rfl, ?_⟩⟩
    · rw [writeItems, separated, written, ok_bind, written']
      simp
    · rcases texts with ⟨rfl, rfl⟩ | ⟨rest, rfl, texts⟩
      · exact .one spaces_nil text spaces_nil
      · exact .more spaces_nil text spaces_nil texts

theorem writeMembers_text (first : Bool) (members : List Value) (out : Bytes)
    (printable : PrintableMembers members) :
    ∃ s, writeMembers first members out = .ok (out ++ s) ∧
      ((members = [] ∧ s = []) ∨
        ∃ text, s = separator first ++ text ∧ MembersText text members) := by
  match members, printable with
  | [], _ => exact ⟨[], by rw [writeMembers, List.append_nil], .inl ⟨rfl, rfl⟩⟩
  | .string name :: value :: members, printable =>
    obtain ⟨k, key, named⟩ := writeStringText_text (out ++ separator first) name
    obtain ⟨s, written, text⟩ :=
      writeValueToBuf_text value (out ++ separator first ++ k ++ [byte ':']) printable.1
    obtain ⟨more, written', texts⟩ := writeMembers_text false members _ printable.2
    refine ⟨separator first ++ (k ++ (byte ':' :: (s ++ more))), ?_,
      .inr ⟨k ++ (byte ':' :: (s ++ more)), rfl, ?_⟩⟩
    · rw [writeMembers, separated, key, written, ok_bind, written']
      simp
    · rcases texts with ⟨rfl, rfl⟩ | ⟨rest, rfl, texts⟩
      · exact .one spaces_nil named spaces_nil spaces_nil text spaces_nil
      · exact .more spaces_nil named spaces_nil spaces_nil text spaces_nil texts

end

theorem stringify_text {value : Value} (printable : Printable value) :
    ∃ s, stringify value = .ok s ∧ ValueText s value := by
  obtain ⟨s, written, text⟩ := writeValueToBuf_text value [] printable
  exact ⟨s, written, text⟩

theorem ValueText.jsonText {s : Bytes} {value : Value} (text : ValueText s value) :
    JsonText s value := by
  have whole := JsonText.mk spaces_nil text spaces_nil
  rwa [List.nil_append, List.append_nil] at whole

/-- Parsing is exact and inverts printing: the parser always has a result, it succeeds exactly
on the JSON texts with the tree of the text, and it gives back every printable tree from its
printed form. -/
theorem parse_exact_and_inverts_stringify :
    (∀ input, parse input ≠ none) ∧
    (∀ input value, parse input = some (.ok value) ↔ JsonText input value) ∧
    (∀ value, Printable value →
      ∃ text, stringify value = .ok text ∧ parse text = some (.ok value)) := by
  refine ⟨parse_ends, parse_ok_iff, ?_⟩
  intro value printable
  obtain ⟨text, written, tree⟩ := stringify_text printable
  exact ⟨text, written, (parse_ok_iff text value).2 tree.jsonText⟩

/-- An object with a key that needs escapes and an array in it. -/
theorem parse_stringify_nested :
    ∃ text, stringify (.object [.string [0x22, 0x01, 0xff], .array [.number ⟨[byte '1']⟩, .null]]) =
        .ok text ∧
      parse text =
        some
          (.ok (.object [.string [0x22, 0x01, 0xff], .array [.number ⟨[byte '1']⟩, .null]])) := by
  refine parse_exact_and_inverts_stringify.2.2 _ ?_
  have digit : Digit (byte '1') := ⟨by decide, by decide⟩
  have integer : IntegerText [byte '1'] := .digits digit (by decide) (by simp)
  have one : NumberText [byte '1'] := .mk (.inl rfl) integer .absent .absent
  exact ⟨⟨one, trivial, trivial⟩, trivial⟩

mutual

/-- The tree of a text is printable. -/
theorem ValueText.printable {s value} : ValueText s value → Printable value
  | .number text => text
  | .array items => items.printable
  | .object members => members.printable
  | .null | .true | .false | .string _ | .emptyArray _ | .emptyObject _ => trivial

theorem ItemsText.printable {s items} : ItemsText s items → PrintableItems items
  | .one _ text _ => ⟨text.printable, trivial⟩
  | .more _ text _ texts => ⟨text.printable, texts.printable⟩

theorem MembersText.printable {s items} : MembersText s items → PrintableMembers items
  | .one _ _ _ _ text _ => ⟨text.printable, trivial⟩
  | .more _ _ _ _ text _ texts => ⟨text.printable, texts.printable⟩

end

/-- Printing loses nothing that can be parsed: a tree comes from some text exactly if it is
printed to a text that is parsed to it again. -/
theorem parsed_iff_reprinted (value : Value) :
    (∃ input, parse input = some (.ok value)) ↔
      ∃ text, stringify value = .ok text ∧ parse text = some (.ok value) := by
  simp only [parse_ok_iff]
  constructor
  · rintro ⟨_, _, text, _⟩
    exact (stringify_text text.printable).imp fun _ => And.imp_right ValueText.jsonText
  · exact Exists.imp fun _ => And.right

end Ciel.Json
