import Mathlib.Algebra.Group.Int.Defs
import Mathlib.Algebra.Group.Nat.Defs

/-!
# JSON texts

The grammar of RFC 8259 over bytes, with the tree that a text stands for: numbers keep their
spelling, strings are the bytes that their escapes denote, and an object is the list in which
keys and values alternate, as `std/json` stores it.

White space is placed once: around the elements of an array, around the keys and values of an
object and around the whole text.
-/

namespace Ciel.Json

abbrev Bytes := List UInt8

/-- The byte of an ASCII character. -/
abbrev byte (c : Char) : UInt8 := c.toUInt8

/-- Raw JSON number spelling. -/
structure JsonNumber where
  raw : Bytes
  deriving DecidableEq, Repr

/-- JSON value tree. Object entries are alternating `string name`, value items. -/
inductive Value
  | null
  | bool (b : Bool)
  | number (n : JsonNumber)
  | string (text : Bytes)
  | array (items : List Value)
  | object (members : List Value)
  deriving Repr

/-! ## White space and numbers -/

def Space (c : UInt8) : Prop :=
  c = byte ' ' ∨ c = byte '\t' ∨ c = byte '\n' ∨ c = byte '\r'

def Spaces (w : Bytes) : Prop := ∀ c ∈ w, Space c

def Digit (c : UInt8) : Prop := byte '0' ≤ c ∧ c ≤ byte '9'

def Digits (ds : Bytes) : Prop := ds ≠ [] ∧ ∀ d ∈ ds, Digit d

/-- No leading zeros. -/
inductive IntegerText : Bytes → Prop
  | zero : IntegerText [byte '0']
  | digits {d : UInt8} {ds : Bytes} : Digit d → d ≠ byte '0' → (∀ x ∈ ds, Digit x) →
      IntegerText (d :: ds)

inductive FractionText : Bytes → Prop
  | absent : FractionText []
  | digits {ds : Bytes} : Digits ds → FractionText (byte '.' :: ds)

inductive ExponentText : Bytes → Prop
  | absent : ExponentText []
  | digits {e : UInt8} {sign ds : Bytes} : e = byte 'e' ∨ e = byte 'E' →
      sign = [] ∨ sign = [byte '-'] ∨ sign = [byte '+'] → Digits ds →
      ExponentText (e :: (sign ++ ds))

/-- A number: a sign, an integer, a fraction and an exponent. -/
inductive NumberText : Bytes → Prop
  | mk {sign int frac exp : Bytes} : sign = [] ∨ sign = [byte '-'] → IntegerText int →
      FractionText frac → ExponentText exp → NumberText (sign ++ (int ++ (frac ++ exp)))

theorem Digit.ne {c x : UInt8} (digit : Digit c) (other : x < byte '0' ∨ byte '9' < x) :
    c ≠ x := by
  rintro rfl
  rcases other with low | high
  · exact absurd digit.1 (UInt8.not_le.2 low)
  · exact absurd digit.2 (UInt8.not_le.2 high)

theorem IntegerText.head {s : Bytes} (integer : IntegerText s) : ∃ c s', s = c :: s' ∧ Digit c := by
  cases integer with
  | zero => exact ⟨_, [], rfl, by decide, by decide⟩
  | digits first _ _ => exact ⟨_, _, rfl, first⟩

/-! ## Strings -/

/-- The characters after a backslash that stand for one byte. -/
def escapes : List (UInt8 × UInt8) :=
  [(byte '"', 0x22), (byte '\\', 0x5c), (byte '/', 0x2f), (byte 'b', 0x08),
    (byte 'f', 0x0c), (byte 'n', 0x0a), (byte 'r', 0x0d), (byte 't', 0x09)]

/-- A hexadecimal digit, in either case, and its value. -/
def HexDigit (c : UInt8) (v : Nat) : Prop :=
  (v < 10 ∧ c.toNat = 0x30 + v) ∨
    (10 ≤ v ∧ v < 16 ∧ (c.toNat = 0x41 + (v - 10) ∨ c.toNat = 0x61 + (v - 10)))

/-- Four hexadecimal digits and the number they spell. -/
inductive Hex4 : Bytes → Nat → Prop
  | mk {a b c d : UInt8} {v₁ v₂ v₃ v₄ : Nat} : HexDigit a v₁ → HexDigit b v₂ →
      HexDigit c v₃ → HexDigit d v₄ →
      Hex4 [a, b, c, d] (((v₁ * 16 + v₂) * 16 + v₃) * 16 + v₄)

def HighSurrogate (n : Nat) : Prop := 0xd800 ≤ n ∧ n ≤ 0xdbff

def LowSurrogate (n : Nat) : Prop := 0xdc00 ≤ n ∧ n ≤ 0xdfff

/-- The code point of a pair of surrogates. -/
def pairCode (high low : Nat) : Nat :=
  0x10000 + ((high - 0xd800) * 0x400 + (low - 0xdc00))

theorem pairCode_def (high low : Nat) :
    pairCode high low = 0x10000 + ((high - 0xd800) * 0x400 + (low - 0xdc00)) := rfl

-- Unfolding would count to 0x10000 in successors.
attribute [irreducible] pairCode

/-- The bytes of a code point. -/
def utf8 (n : Nat) : Bytes := String.utf8EncodeChar (Char.ofNat n)

/-- What follows a backslash, and the bytes it denotes. -/
inductive EscapeText : Bytes → Bytes → Prop
  | short {e b : UInt8} : escapes.lookup e = some b → EscapeText [e] [b]
  | unicode {h : Bytes} {n : Nat} : Hex4 h n → ¬ HighSurrogate n → ¬ LowSurrogate n →
      EscapeText (byte 'u' :: h) (utf8 n)
  | pair {h l : Bytes} {high low : Nat} : Hex4 h high → Hex4 l low → HighSurrogate high →
      LowSurrogate low →
      EscapeText (byte 'u' :: (h ++ (byte '\\' :: byte 'u' :: l)))
        (utf8 (pairCode high low))

/-- The inside of a string, and the bytes it denotes. -/
inductive CharsText : Bytes → Bytes → Prop
  | nil : CharsText [] []
  | plain {c : UInt8} {s t : Bytes} : 0x20 ≤ c → c ≠ byte '"' → c ≠ byte '\\' →
      CharsText s t → CharsText (c :: s) (c :: t)
  | escape {e b s t : Bytes} : EscapeText e b → CharsText s t →
      CharsText (byte '\\' :: (e ++ s)) (b ++ t)

inductive StringText : Bytes → Bytes → Prop
  | mk {s t : Bytes} : CharsText s t → StringText (byte '"' :: (s ++ [byte '"'])) t

/-! ## Values -/

mutual

/-- A value without white space around it, and its tree. -/
inductive ValueText : Bytes → Value → Prop
  | null : ValueText (['n', 'u', 'l', 'l'].map byte) .null
  | true : ValueText (['t', 'r', 'u', 'e'].map byte) (.bool true)
  | false : ValueText (['f', 'a', 'l', 's', 'e'].map byte) (.bool false)
  | number {s : Bytes} : NumberText s → ValueText s (.number ⟨s⟩)
  | string {s t : Bytes} : StringText s t → ValueText s (.string t)
  | emptyArray {w : Bytes} : Spaces w → ValueText (byte '[' :: (w ++ [byte ']'])) (.array [])
  | array {s : Bytes} {items : List Value} : ItemsText s items →
      ValueText (byte '[' :: (s ++ [byte ']'])) (.array items)
  | emptyObject {w : Bytes} : Spaces w → ValueText (byte '{' :: (w ++ [byte '}'])) (.object [])
  | object {s : Bytes} {members : List Value} : MembersText s members →
      ValueText (byte '{' :: (s ++ [byte '}'])) (.object members)

/-- The elements of an array, at least one. -/
inductive ItemsText : Bytes → List Value → Prop
  | one {w s w' : Bytes} {v : Value} : Spaces w → ValueText s v → Spaces w' →
      ItemsText (w ++ (s ++ w')) [v]
  | more {w s w' rest : Bytes} {v : Value} {items : List Value} : Spaces w → ValueText s v →
      Spaces w' → ItemsText rest items →
      ItemsText (w ++ (s ++ (w' ++ byte ',' :: rest))) (v :: items)

/-- The members of an object, at least one. -/
inductive MembersText : Bytes → List Value → Prop
  | one {w k w₁ w₂ s w₃ name : Bytes} {v : Value} : Spaces w → StringText k name →
      Spaces w₁ → Spaces w₂ → ValueText s v → Spaces w₃ →
      MembersText (w ++ (k ++ (w₁ ++ byte ':' :: (w₂ ++ (s ++ w₃))))) [.string name, v]
  | more {w k w₁ w₂ s w₃ rest name : Bytes} {v : Value} {members : List Value} : Spaces w →
      StringText k name → Spaces w₁ → Spaces w₂ → ValueText s v → Spaces w₃ →
      MembersText rest members →
      MembersText (w ++ (k ++ (w₁ ++ byte ':' :: (w₂ ++ (s ++ (w₃ ++ byte ',' :: rest))))))
        (.string name :: v :: members)

end

/-- A JSON text: one value with nothing but white space around it. -/
inductive JsonText : Bytes → Value → Prop
  | mk {w s w' : Bytes} {v : Value} : Spaces w → ValueText s v → Spaces w' →
      JsonText (w ++ (s ++ w')) v

end Ciel.Json
