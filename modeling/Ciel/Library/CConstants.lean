import Mathlib.Data.List.Basic
import Mathlib.Data.String.Basic

/-!
# Constants and string literals of C

How a C compiler with 8-bit bytes and UTF-8 source files reads an integer constant
without suffix, a character constant and a string literal. An integer constant has the
first type of its list that holds it, and no value if there is none; the list of a
decimal constant has signed types only. An octal escape takes up to three digits, a
hexadecimal escape all digits that follow, and either must fit into one byte.

The value of a character constant of more than one byte is left to the compiler, so it
is read as nothing. Trigraphs, continued lines and universal character names are not
read.
-/

namespace Library.CConstants

variable {pending : List Nat} {c : Char}

/-! ### Numbers -/

def digitValue (c : Char) : Option Nat :=
  if '0' ≤ c ∧ c ≤ '9' then some (c.toNat - 48)
  else if 'a' ≤ c ∧ c ≤ 'f' then some (c.toNat - 87)
  else if 'A' ≤ c ∧ c ≤ 'F' then some (c.toNat - 55)
  else none

/-- The value of a digit in a base. -/
def digitIn (base : Nat) (c : Char) : Option Nat :=
  (digitValue c).filter fun d => d < base

theorem digitIn_lt {base : Nat} {d : Nat} (digit : digitIn base c = some d) :
    d < base := by
  have := (Option.filter_eq_some_iff.mp digit).2
  simpa using this

/-- The number that starts with `start` and goes on with digits. -/
def numberFrom (base : Nat) : Nat → List Nat → Nat
  | start, [] => start
  | start, d :: digits => numberFrom base (base * start + d) digits

theorem le_numberFrom {base : Nat} (pos : 0 < base) (start : Nat) (digits : List Nat) :
    start ≤ numberFrom base start digits := by
  induction digits generalizing start with
  | nil => exact le_rfl
  | cons d digits ih =>
    have := Nat.le_mul_of_pos_left start pos
    exact le_trans (by omega) (ih (base * start + d))

theorem digit_le_numberFrom {base : Nat} (pos : 0 < base) (start : Nat) {digits : List Nat}
    {d : Nat} (mem : d ∈ digits) : d ≤ numberFrom base start digits := by
  induction digits generalizing start with
  | nil => cases mem
  | cons e digits ih =>
    rcases List.mem_cons.mp mem with rfl | mem
    · exact le_trans (Nat.le_add_left _ _) (le_numberFrom pos _ digits)
    · exact ih _ mem

theorem numberFrom_lt {small large : Nat} (lt : small < large) {start start' : Nat}
    (starts : start < start') (digits : List Nat) :
    numberFrom small start digits < numberFrom large start' digits := by
  induction digits generalizing start start' with
  | nil => exact starts
  | cons d digits ih =>
    apply ih
    have := Nat.mul_lt_mul_of_le_of_lt lt.le starts (by omega)
    omega

/-- The same digits give the same number in two bases only if the number is a single
digit of the smaller one. -/
theorem numberFrom_eq_iff {small large : Nat} (lt : small < large) (pos : 0 < small)
    {digits : List Nat} (isDigit : ∀ d ∈ digits, d < small) :
    numberFrom small 0 digits = numberFrom large 0 digits ↔
      numberFrom large 0 digits < small := by
  induction digits with
  | nil => simpa [numberFrom] using pos
  | cons d digits ih =>
    obtain ⟨digit, rest⟩ := List.forall_mem_cons.mp isDigit
    simp only [numberFrom, Nat.mul_zero, Nat.zero_add]
    cases digits with
    | nil => simpa [numberFrom] using digit
    | cons e digits =>
      by_cases zero : d = 0
      · subst zero
        exact ih rest
      · -- a leading digit counts more in the larger base, and at least `small`
        have more : small * d + e < large * d + e := by
          have := Nat.mul_lt_mul_of_pos_right lt (Nat.pos_of_ne_zero zero)
          omega
        have strict := numberFrom_lt lt more digits
        have least := le_numberFrom pos (small * d + e) digits
        have := Nat.le_mul_of_pos_right small (Nat.pos_of_ne_zero zero)
        simp only [numberFrom]
        omega

/-- The value of a text of digits, if it has only digits of the base and at least one. -/
def readDigits (base : Nat) (text : List Char) : Option Nat :=
  if text = [] then none else (text.mapM (digitIn base)).map (numberFrom base 0)

/-! ### Integer constants -/

/-- An integer constant without suffix, in the types `int` to `unsigned long long`. -/
def readInteger : List Char → Option Nat
  | '0' :: 'x' :: digits => (readDigits 16 digits).filter fun n => n < 2 ^ 64
  | '0' :: 'X' :: digits => (readDigits 16 digits).filter fun n => n < 2 ^ 64
  | '0' :: digits => (readDigits 8 ('0' :: digits)).filter fun n => n < 2 ^ 64
  | digits => (readDigits 10 digits).filter fun n => n < 2 ^ 63

/-! ### Character constants and string literals -/

/-- The bytes of a character in a UTF-8 file. -/
def utf8 (c : Char) : List Nat := (String.utf8EncodeChar c).map UInt8.toNat

theorem utf8_length (c : Char) : (utf8 c).length = c.utf8Size := by
  simp [utf8]

/-- The escapes of a single letter. -/
def simpleEscape : Char → Option Nat
  | '\'' => some 39
  | '"' => some 34
  | '?' => some 63
  | '\\' => some 92
  | 'a' => some 7
  | 'b' => some 8
  | 'f' => some 12
  | 'n' => some 10
  | 'r' => some 13
  | 't' => some 9
  | 'v' => some 11
  | _ => none

/-- Where the reader stands: between characters, after a backslash, in an octal escape of
so many digits, in a hexadecimal escape, or after an escape that is complete. -/
inductive Mode
  | plain
  | backslash
  | octal (value count : Nat)
  | hex (value : Option Nat)
  | done (value : Nat)
  deriving DecidableEq, Repr

/-- How a character continues the escape that is being read, if it does. -/
def Mode.absorb : Mode → Char → Option Mode
  | .plain, _ => none
  | .backslash, c =>
    match digitIn 8 c with
    | some d => some (.octal d 1)
    | none => if c = 'x' then some (.hex none) else (simpleEscape c).map .done
  | .octal value count, c =>
    if count < 3 then (digitIn 8 c).map fun d => .octal (8 * value + d) (count + 1) else none
  | .hex value, c => (digitIn 16 c).map fun d => .hex (some (16 * value.getD 0 + d))
  | .done _, _ => none

/-- The byte of the escape that ends here; `none` where the text is no C. -/
def Mode.flush : Mode → Option (List Nat)
  | .plain => some []
  | .backslash => none
  | .octal value _ => if value < 256 then some [value] else none
  | .hex none => none
  | .hex (some value) => if value < 256 then some [value] else none
  | .done value => some [value]

/-- The bytes between here and the closing quote, which must end the text. -/
def readBytes (quote : Char) : Mode → List Char → Option (List Nat)
  | _, [] => none
  | mode, c :: rest =>
    match mode.absorb c with
    | some mode => readBytes quote mode rest
    | none =>
      mode.flush.bind fun pending =>
        if c = quote then if rest = [] then some pending else none
        else if c = '\n' then none
        else if c = '\\' then (readBytes quote .backslash rest).map (pending ++ ·)
        else (readBytes quote .plain rest).map (pending ++ utf8 c ++ ·)

/-- The array that a string literal initialises. -/
def readString : List Char → Option (List Nat)
  | '"' :: rest => (readBytes '"' .plain rest).map (· ++ [0])
  | _ => none

/-- The byte of a character constant. -/
def readChar : List Char → Option Nat
  | '\'' :: rest =>
    match readBytes '\'' .plain rest with
    | some [byte] => some byte
    | _ => none
  | _ => none

theorem readChar_eq_some_iff {text : List Char} {byte : Nat} :
    readChar ('\'' :: text) = some byte ↔ readBytes '\'' .plain text = some [byte] := by
  rw [readChar]
  split <;> simp_all

section ReadBytes

variable {quote : Char} {mode : Mode} {rest : List Char}

theorem readBytes_absorb {next : Mode} (absorbed : mode.absorb c = some next) :
    readBytes quote mode (c :: rest) = readBytes quote next rest := by
  simp only [readBytes, absorbed]

theorem readBytes_quote (flushed : mode.flush = some pending) (apart : mode.absorb quote = none) :
    readBytes quote mode [quote] = some pending := by
  simp [readBytes, flushed, apart]

theorem readBytes_plain (flushed : mode.flush = some pending) (apart : mode.absorb c = none)
    (noQuote : c ≠ quote) (noLine : c ≠ '\n') (noEscape : c ≠ '\\') :
    readBytes quote mode (c :: rest) =
      (readBytes quote .plain rest).map (pending ++ utf8 c ++ ·) := by
  simp [readBytes, flushed, apart, noQuote, noLine, noEscape]

theorem readBytes_escape (flushed : mode.flush = some pending) (apart : mode.absorb '\\' = none)
    (noQuote : '\\' ≠ quote) :
    readBytes quote mode ('\\' :: rest) =
      (readBytes quote .backslash rest).map (pending ++ ·) := by
  simp [readBytes, flushed, apart, noQuote]

/-- What is read ends the escape before it, unless it goes on with it. -/
theorem flush_of_readBytes {bytes : List Nat} (read : readBytes quote mode (c :: rest) = some bytes)
    (apart : mode.absorb c = none) :
    ∃ pending, mode.flush = some pending := by
  simp only [readBytes, apart, Option.bind_eq_some_iff] at read
  obtain ⟨pending, flushed, -⟩ := read
  exact ⟨pending, flushed⟩

end ReadBytes

end Library.CConstants
