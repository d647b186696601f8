import Ciel.Library.Scanning
import Ciel.Std.Json.Text

/-!
# Decimal numbers of the standard library

`std/format` writes integers from the last digit backwards into a buffer of fixed size, and
`std/parse` reads them with a check against the bounds of the target type. Reading what was
written gives the number back, for every integer type.
-/

namespace Ciel.Numbers

open Library Ciel.Json

variable {text : Bytes}

/-! ## The integer types -/

inductive IntKind
  | i8
  | i16
  | i32
  | i64
  | u8
  | u16
  | u32
  | u64
  | usize
  deriving DecidableEq, Repr

def minValue : IntKind → Int
  | .i8 => -2 ^ 7
  | .i16 => -2 ^ 15
  | .i32 => -2 ^ 31
  | .i64 => -2 ^ 63
  | _ => 0

def maxValue : IntKind → Int
  | .i8 => 2 ^ 7 - 1
  | .i16 => 2 ^ 15 - 1
  | .i32 => 2 ^ 31 - 1
  | .i64 => 2 ^ 63 - 1
  | .u8 => 2 ^ 8 - 1
  | .u16 => 2 ^ 16 - 1
  | .u32 => 2 ^ 32 - 1
  | .u64 => 2 ^ 64 - 1
  | .usize => 2 ^ 64 - 1

/-- The values of a type. -/
def InRange (kind : IntKind) (i : Int) : Prop := minValue kind ≤ i ∧ i ≤ maxValue kind

/-! ## Formatting -/

/-- The character of a digit. -/
def digitChar (d : Nat) : UInt8 := (d + (byte '0').toNat).toUInt8

/-- The loop that fills a buffer from the right. The first argument counts the free cells. -/
def decimalLoop : Nat → Nat → Bytes → Bytes
  | 0, _, out => out
  | i + 1, n, out => if n > 0 then decimalLoop i (n / 10) (digitChar (n % 10) :: out) else out

def u64ToString (value : Nat) : Bytes :=
  if value = 0 then [byte '0'] else decimalLoop 20 value []

def usizeToString (value : Nat) : Bytes :=
  if value = 0 then [byte '0'] else decimalLoop 32 value []

def i64ToString (value : Int) : Bytes :=
  if value < 0 then
    let n := if value = minValue .i64 then (maxValue .i64).toNat + 1 else (-value).toNat
    byte '-' :: decimalLoop 20 n []
  else u64ToString value.toNat

/-- The text of an integer, by the function that its type uses. -/
def toText : IntKind → Int → Bytes
  | .u8, i => u64ToString i.toNat
  | .u16, i => u64ToString i.toNat
  | .u32, i => u64ToString i.toNat
  | .u64, i => u64ToString i.toNat
  | .usize, i => usizeToString i.toNat
  | _, i => i64ToString i

/-! ## Parsing -/

inductive ParseError
  | empty
  | invalidChar (i : Nat)
  | overflow
  | underflow
  deriving DecidableEq, Repr

def charIsWhitespace (c : UInt8) : Bool :=
  c == byte ' ' || c == byte '\t' || c == byte '\n' || c == byte '\r' || c == 11 || c == 12

def charToDecimalDigitValue (c : UInt8) : Option UInt8 :=
  if c ≥ byte '0' && c ≤ byte '9' then some (c - byte '0') else none

def requireTrailingWs : Nat → Bytes → Except ParseError Unit
  | _, [] => .ok ()
  | i, c :: rest =>
    if !charIsWhitespace c then .error (.invalidChar i) else requireTrailingWs (i + 1) rest

/-- The loop over the digits: the value so far, whether a digit was seen, the position and the
text from there on. -/
def decimalDigits (limit : Nat) (tooLarge : ParseError) :
    Nat → Bool → Nat → Bytes → Except ParseError Nat
  | value, sawDigit, i, [] => if !sawDigit then .error (.invalidChar i) else .ok value
  | value, sawDigit, i, c :: rest =>
    match charToDecimalDigitValue c with
    | some digit =>
      if value > (limit - digit.toNat) / 10 then .error tooLarge
      else decimalDigits limit tooLarge (value * 10 + digit.toNat) true (i + 1) rest
    | none =>
      if !sawDigit then .error (.invalidChar i)
      else (requireTrailingWs i (c :: rest)).map fun _ => value

def parseUnsignedDecimal (text : Bytes) (limit : Nat) (allowPlus : Bool) :
    Except ParseError Nat :=
  let start := Cursor.skipWhile charIsWhitespace ⟨0, text⟩
  match start.rest with
  | [] => .error .empty
  | c :: rest =>
    if c = byte '-' then .error (.invalidChar start.offset)
    else if c = byte '+' then
      if !allowPlus then .error (.invalidChar start.offset)
      else if rest = [] then .error (.invalidChar (start.offset + 1))
      else decimalDigits limit .overflow 0 false (start.offset + 1) rest
    else decimalDigits limit .overflow 0 false start.offset (c :: rest)

/-- The digits after the sign of a signed number. -/
def parseMagnitude (negative : Bool) (i : Nat) (digits : Bytes) : Except ParseError Int :=
  if digits = [] then .error (.invalidChar i)
  else
    let limit := if negative then (maxValue .i64).toNat + 1 else (maxValue .i64).toNat
    (decimalDigits limit (if negative then .underflow else .overflow) 0 false i digits).map
      fun (value : Nat) => if negative then -(value : Int) else (value : Int)

def parseI64Text (text : Bytes) : Except ParseError Int :=
  let start := Cursor.skipWhile charIsWhitespace ⟨0, text⟩
  match start.rest with
  | [] => .error .empty
  | c :: rest =>
    if c = byte '-' ∨ c = byte '+' then
      parseMagnitude (c == byte '-') (start.offset + 1) rest
    else parseMagnitude false start.offset (c :: rest)

def parseU64Text (text : Bytes) : Except ParseError Nat :=
  parseUnsignedDecimal text (2 ^ 64 - 1) true

/-- A signed type narrower than `i64`. -/
def parseSigned (kind : IntKind) (text : Bytes) : Except ParseError Int :=
  (parseI64Text text).bind fun value =>
    if value < minValue kind then .error .underflow
    else if value > maxValue kind then .error .overflow
    else .ok value

/-- An unsigned type narrower than `u64`. -/
def parseUnsigned (kind : IntKind) (text : Bytes) : Except ParseError Int :=
  (parseU64Text text).bind fun value =>
    if (value : Int) > maxValue kind then .error .overflow else .ok value

def parseNumber : IntKind → Bytes → Except ParseError Int
  | .i64, text => parseI64Text text
  | .u64, text => (parseU64Text text).map Int.ofNat
  | .usize, text => (parseU64Text text).map Int.ofNat
  | .i8, text => parseSigned .i8 text
  | .i16, text => parseSigned .i16 text
  | .i32, text => parseSigned .i32 text
  | .u8, text => parseUnsigned .u8 text
  | .u16, text => parseUnsigned .u16 text
  | .u32, text => parseUnsigned .u32 text

/-! ## Digits and their value -/

/-- Decimal digits and the number they spell after `start`. -/
inductive Spells : Nat → Bytes → Nat → Prop
  | nil {n : Nat} : Spells n [] n
  | cons {start d n : Nat} {rest : Bytes} : d < 10 → Spells (start * 10 + d) rest n →
      Spells start (digitChar d :: rest) n

theorem Spells.le {start n : Nat} {digits : Bytes} (spells : Spells start digits n) :
    start ≤ n := by
  induction spells with
  | nil => exact Nat.le_refl _
  | cons _ _ ih => omega

theorem Spells.append {start m n : Nat} {first second : Bytes} (one : Spells start first m)
    (two : Spells m second n) : Spells start (first ++ second) n := by
  induction one with
  | nil => exact two
  | cons small _ ih => exact .cons small (ih two)

theorem digitChar_toNat {d : Nat} (small : d < 10) : (digitChar d).toNat = 0x30 + d := by
  have zero : (byte '0').toNat = 0x30 := rfl
  rw [digitChar, zero]
  show (UInt8.ofNat (d + 0x30)).toNat = _
  rw [UInt8.toNat_ofNat']
  omega

theorem digitChar_digit {d : Nat} (small : d < 10) : Digit (digitChar d) := by
  refine ⟨?_, ?_⟩
  · rw [UInt8.le_iff_toNat_le, digitChar_toNat small]
    show 0x30 ≤ _
    omega
  · rw [UInt8.le_iff_toNat_le, digitChar_toNat small]
    show _ ≤ 0x39
    omega

theorem digitChar_value {d : Nat} (small : d < 10) :
    ∃ v, charToDecimalDigitValue (digitChar d) = some v ∧ v.toNat = d := by
  have digit := digitChar_digit small
  refine ⟨digitChar d - byte '0', ?_, ?_⟩
  · rw [charToDecimalDigitValue, if_pos]
    simpa [Digit] using digit
  · rw [UInt8.toNat_sub_of_le _ _ digit.1, digitChar_toNat small]
    show 0x30 + d - 0x30 = d
    omega

theorem Spells.digits {start n : Nat} (spells : Spells start text n) :
    ∀ d ∈ text, Digit d := by
  induction spells with
  | nil => simp
  | cons small _ ih => exact List.forall_mem_cons.2 ⟨digitChar_digit small, ih⟩

/-- The formatting loop puts the digits of a number before what is in the buffer. The first
digit is not zero. -/
theorem decimalLoop_spells {cells n : Nat} (out : Bytes) (fits : n < 10 ^ cells)
    (positive : 0 < n) :
    ∃ d digits, decimalLoop cells n out = digitChar d :: digits ++ out ∧
      0 < d ∧ d < 10 ∧ Spells d digits n := by
  induction cells generalizing n out with
  | zero => omega
  | succ cells ih =>
    rw [decimalLoop, if_pos positive]
    have small : n % 10 < 10 := Nat.mod_lt _ (by decide)
    have whole : n / 10 * 10 + n % 10 = n := by omega
    by_cases last : n / 10 = 0
    · refine ⟨n % 10, [], ?_, by omega, small, ?_⟩
      · rw [last]
        cases cells with
        | zero => rfl
        | succ cells => simp [decimalLoop]
      · have same : n % 10 = n := by omega
        rw [same]
        exact .nil
    · have fewer : n / 10 < 10 ^ cells := by
        rw [Nat.pow_succ] at fits
        omega
      obtain ⟨d, digits, written, nonzero, digit, spells⟩ :=
        ih (digitChar (n % 10) :: out) fewer (by omega)
      refine ⟨d, digits ++ [digitChar (n % 10)], ?_, nonzero, digit, ?_⟩
      · rw [written]
        simp
      · refine spells.append (.cons small ?_)
        rw [whole]
        exact .nil

/-- The text of a natural number: at least one digit, and no leading zero. -/
structure DecimalText (n : Nat) (text : Bytes) : Prop where
  spells : Spells 0 text n
  integer : IntegerText text

theorem decimalText {cells n : Nat} (fits : n < 10 ^ cells) :
    DecimalText n (if n = 0 then [byte '0'] else decimalLoop cells n []) := by
  split
  case isTrue zero =>
    rw [zero]
    exact ⟨.cons (d := 0) (by decide) .nil, .zero⟩
  case isFalse positive =>
    obtain ⟨d, digits, written, nonzero, small, spells⟩ :=
      decimalLoop_spells [] fits (Nat.pos_of_ne_zero positive)
    rw [written, List.append_nil]
    refine ⟨.cons small ?_, .digits (digitChar_digit small) ?_ spells.digits⟩
    · rw [Nat.zero_mul, Nat.zero_add]
      exact spells
    · intro zero
      have value := digitChar_toNat small
      rw [zero] at value
      have code : (byte '0').toNat = 0x30 := rfl
      omega

/-- The parsing loop computes the value of the digits if it is within the limit. -/
theorem decimalDigits_spells {limit start n i : Nat} {tooLarge : ParseError} {saw : Bool}
    (spells : Spells start text n) (bounded : n ≤ limit) (some : saw = true ∨ text ≠ []) :
    decimalDigits limit tooLarge start saw i text = .ok n := by
  induction spells generalizing saw i with
  | nil =>
    have seen : saw = true := some.resolve_right (by simp)
    rw [decimalDigits, seen]
    rfl
  | @cons start d n rest small spells ih =>
    obtain ⟨v, value, same⟩ := digitChar_value small
    have room := spells.le
    rw [decimalDigits, value]
    simp only [same]
    rw [if_neg (by omega)]
    exact ih bounded (.inl rfl)

theorem digit_not_whitespace {c : UInt8} (digit : Digit c) : charIsWhitespace c = false := by
  have other : ∀ {x : UInt8}, x < byte '0' ∨ byte '9' < x → (c == x) = false := by
    intro x outside
    exact beq_false_of_ne (digit.ne outside)
  simp only [charIsWhitespace]
  rw [other (by decide), other (by decide), other (by decide), other (by decide),
    other (by decide), other (by decide)]
  rfl

/-- Nothing is skipped before a character that is not white space. -/
theorem skipWhile_first {c : UInt8} {rest : Bytes} (other : charIsWhitespace c = false) :
    Cursor.skipWhile charIsWhitespace ⟨0, c :: rest⟩ = ⟨0, c :: rest⟩ := by
  simp [Cursor.skipWhile, Cursor.skipFrom, other]

theorem parseUnsignedDecimal_spells {limit n : Nat} (decimal : DecimalText n text)
    (bounded : n ≤ limit) (allowPlus : Bool) :
    parseUnsignedDecimal text limit allowPlus = .ok n := by
  obtain ⟨c, rest, rfl, digit⟩ := decimal.integer.head
  simp only [parseUnsignedDecimal, skipWhile_first (digit_not_whitespace digit)]
  rw [if_neg (digit.ne (by decide)), if_neg (digit.ne (by decide))]
  exact decimalDigits_spells decimal.spells bounded (.inr (by simp))

theorem parseMagnitude_spells {n i : Nat} (negative : Bool) (decimal : DecimalText n text)
    (bounded : n ≤ if negative then (maxValue .i64).toNat + 1 else (maxValue .i64).toNat) :
    parseMagnitude negative i text = .ok (if negative then -(n : Int) else n) := by
  obtain ⟨c, rest, rfl, -⟩ := decimal.integer.head
  simp only [parseMagnitude]
  rw [if_neg (by simp), decimalDigits_spells decimal.spells bounded (.inr (by simp))]
  rfl

/-! ## Round trip -/

theorem u64_roundTrip {n : Nat} (fits : n ≤ 2 ^ 64 - 1) :
    DecimalText n (u64ToString n) ∧ parseU64Text (u64ToString n) = .ok n := by
  have text : DecimalText n (u64ToString n) := decimalText (by omega)
  exact ⟨text, parseUnsignedDecimal_spells text fits true⟩

theorem usize_roundTrip {n : Nat} (fits : n ≤ 2 ^ 64 - 1) :
    DecimalText n (usizeToString n) ∧ parseU64Text (usizeToString n) = .ok n := by
  have text : DecimalText n (usizeToString n) := decimalText (by omega)
  exact ⟨text, parseUnsignedDecimal_spells text fits true⟩

/-- The text of a signed number is that of its magnitude, with a sign if it is negative. -/
theorem i64ToString_text {i : Int} (range : InRange .i64 i) :
    ∃ text, DecimalText i.natAbs text ∧
      i64ToString i = if i < 0 then byte '-' :: text else text := by
  obtain ⟨low, high⟩ := range
  simp only [minValue, maxValue] at low high
  rw [i64ToString]
  split
  case isTrue negative =>
    have magnitude : (if i = minValue .i64 then (maxValue .i64).toNat + 1 else (-i).toNat) =
        i.natAbs := by
      split
      case isTrue least =>
        rw [least]
        rfl
      case isFalse => omega
    have nonzero : i.natAbs ≠ 0 := by omega
    have text : DecimalText i.natAbs _ := @decimalText 20 _ (by omega)
    rw [if_neg nonzero] at text
    refine ⟨_, text, ?_⟩
    simp only [magnitude]
  case isFalse positive =>
    refine ⟨u64ToString i.natAbs, decimalText (by omega), ?_⟩
    have same : i.toNat = i.natAbs := by omega
    rw [same]

theorem i64_roundTrip {i : Int} (range : InRange .i64 i) :
    parseI64Text (i64ToString i) = .ok i := by
  obtain ⟨text, decimal, written⟩ := i64ToString_text range
  obtain ⟨low, high⟩ := range
  simp only [minValue, maxValue] at low high
  rw [written]
  split
  case isTrue negative =>
    have skipped : Cursor.skipWhile charIsWhitespace ⟨0, byte '-' :: text⟩ =
        ⟨0, byte '-' :: text⟩ := skipWhile_first (by decide)
    simp only [parseI64Text, skipped]
    rw [if_pos (by simp)]
    have bounded : i.natAbs ≤ (maxValue .i64).toNat + 1 := by
      simp only [maxValue]
      omega
    refine (parseMagnitude_spells true decimal bounded).trans ?_
    rw [if_pos rfl]
    congr 1
    omega
  case isFalse positive =>
    have bounded : i.natAbs ≤ (maxValue .i64).toNat := by
      simp only [maxValue]
      omega
    have parsed := parseMagnitude_spells (i := 0) false decimal bounded
    obtain ⟨c, rest, rfl, digit⟩ := decimal.integer.head
    simp only [parseI64Text, skipWhile_first (digit_not_whitespace digit)]
    rw [if_neg (by simp [digit.ne (x := byte '-') (by decide),
      digit.ne (x := byte '+') (by decide)]), parsed]
    rw [if_neg (by decide)]
    congr 1
    omega

/-- Parsing the text of a value of any integer type gives the value back. -/
theorem parseNumber_toText {kind : IntKind} {i : Int} (range : InRange kind i) :
    parseNumber kind (toText kind i) = .ok i := by
  have signed : ∀ {kind'}, minValue .i64 ≤ minValue kind' → maxValue kind' ≤ maxValue .i64 →
      InRange kind' i → parseSigned kind' (i64ToString i) = .ok i := by
    intro kind' low high range
    have wide : InRange .i64 i := ⟨Int.le_trans low range.1, Int.le_trans range.2 high⟩
    rw [parseSigned, i64_roundTrip wide]
    show (if _ then _ else _) = _
    rw [if_neg (Int.not_lt.2 range.1), if_neg (Int.not_lt.2 range.2)]
  have natural : ∀ {kind'}, minValue kind' = 0 → maxValue kind' ≤ maxValue .u64 →
      InRange kind' i → i.toNat ≤ 2 ^ 64 - 1 ∧ (i.toNat : Int) = i := by
    intro kind' zero high range
    have bounds := range
    simp only [InRange, zero] at bounds
    have top := Int.le_trans bounds.2 high
    simp only [maxValue] at top
    omega
  have unsigned : ∀ {kind'}, minValue kind' = 0 → maxValue kind' ≤ maxValue .u64 →
      InRange kind' i → parseUnsigned kind' (u64ToString i.toNat) = .ok i := by
    intro kind' zero high range
    obtain ⟨fits, same⟩ := natural zero high range
    rw [parseUnsigned, (u64_roundTrip fits).2]
    show (if _ then _ else _) = _
    rw [same, if_neg (Int.not_lt.2 range.2)]
  cases kind with
  | i8 | i16 | i32 => exact signed (by decide) (by decide) range
  | i64 => exact i64_roundTrip range
  | u8 | u16 | u32 => exact unsigned rfl (by decide) range
  | u64 =>
    obtain ⟨fits, same⟩ := natural rfl (by decide) range
    rw [parseNumber, toText, (u64_roundTrip fits).2]
    exact congrArg Except.ok same
  | usize =>
    obtain ⟨fits, same⟩ := natural rfl (by decide) range
    rw [parseNumber, toText, (usize_roundTrip fits).2]
    exact congrArg Except.ok same

/-- The text of an integer is a number of the grammar. -/
theorem toText_number {kind : IntKind} {i : Int} (range : InRange kind i) :
    NumberText (toText kind i) := by
  have unsigned : ∀ {n text}, DecimalText n text → NumberText text := by
    intro n text decimal
    have number := NumberText.mk (.inl rfl) decimal.integer .absent .absent
    simpa using number
  have signed : ∀ {kind'}, minValue .i64 ≤ minValue kind' → maxValue kind' ≤ maxValue .i64 →
      InRange kind' i → NumberText (i64ToString i) := by
    intro kind' low high range
    have wide : InRange .i64 i := ⟨Int.le_trans low range.1, Int.le_trans range.2 high⟩
    obtain ⟨text, decimal, written⟩ := i64ToString_text wide
    rw [written]
    split
    case isTrue =>
      have number := NumberText.mk (.inr rfl) decimal.integer .absent .absent
      simpa using number
    case isFalse => exact unsigned decimal
  have natural : ∀ {kind'}, minValue kind' = 0 → maxValue kind' ≤ maxValue .u64 →
      InRange kind' i → i.toNat ≤ 2 ^ 64 - 1 := by
    intro kind' zero high range
    have top := Int.le_trans range.2 high
    simp only [maxValue] at top
    omega
  cases kind with
  | i8 | i16 | i32 => exact signed (by decide) (by decide) range
  | i64 => exact signed (Int.le_refl _) (Int.le_refl _) range
  | u8 | u16 | u32 | u64 => exact unsigned (u64_roundTrip (natural rfl (by decide) range)).1
  | usize => exact unsigned (usize_roundTrip (natural rfl (by decide) range)).1

end Ciel.Numbers
