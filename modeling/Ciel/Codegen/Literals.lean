import Mathlib.Tactic.FinCases
import Ciel.Library.CConstants

/-!
# Literals in the generated C

The lexer keeps the text of a literal, the checker decodes integers and characters, and
code generation copies the text into the C program: an integer without its underscores, a
character as it stands, a string as the initialiser of a static array next to a slice that
carries its length (`gen_literal`, `emit_string_literal_table`, `string_literal_len`).
The text is then read once more, by C's rules. Where the two languages read one text
differently the value changes: C takes a leading zero for octal, it lets an escape take
all the digits that follow, and it counts bytes where `string_literal_len` counts
characters.

Literals of a type spelled in C are not range checked and have no decoded value; they are
left out, as are the floating-point literals.
-/

namespace Ciel.Codegen

open Library.CConstants

variable {pieces : List Piece} {quote c : Char} {raw : List Char} {mode : Mode} {p : Piece}
  {pending : List Nat}

/-! ### What the lexer accepts -/

def isHexDigit (c : Char) : Bool := (digitIn 16 c).isSome

def isDecimalDigit (c : Char) : Bool := (digitIn 10 c).isSome

/-- The token expressions of integers: `0x` with a hexadecimal digit, or a decimal digit,
and then digits and underscores. -/
def lexInteger : List Char → Bool
  | '0' :: 'x' :: first :: rest =>
    isHexDigit first && rest.all fun c => isHexDigit c || c == '_'
  | first :: rest => isDecimalDigit first && rest.all fun c => isDecimalDigit c || c == '_'
  | [] => false

/-- A character or an escape between the quotes of a literal. -/
inductive Piece
  | plain (c : Char)
  | simple (letter : Char)
  | hex (high low : Char)
  deriving DecidableEq, Repr

def Piece.text : Piece → List Char
  | .plain c => [c]
  | .simple letter => ['\\', letter]
  | .hex high low => ['\\', 'x', high, low]

/-- The letters that a backslash may stand before. -/
def escapeLetters : List Char := ['"', '\'', '\\', '0', 'n', 'r', 't']

/-- The pieces up to the closing quote, which ends the token. -/
def lexPieces (quote : Char) : List Char → Option (List Piece)
  | '\\' :: 'x' :: high :: low :: rest =>
    if isHexDigit high && isHexDigit low then
      (lexPieces quote rest).map (.hex high low :: ·)
    else none
  | '\\' :: letter :: rest =>
    if letter ∈ escapeLetters then (lexPieces quote rest).map (.simple letter :: ·) else none
  | c :: rest =>
    if c = quote then if rest = [] then some [] else none
    else if c = '\\' ∨ c = '\n' then none
    else (lexPieces quote rest).map (.plain c :: ·)
  | [] => none

/-- The pieces of a token in quotes. -/
def lexQuoted (quote : Char) : List Char → Option (List Piece)
  | c :: rest => if c = quote then lexPieces quote rest else none
  | [] => none

/-- The pieces that the lexer lets through between quotes. -/
def Piece.Lexed (quote : Char) : Piece → Prop
  | .plain c => c ≠ quote ∧ c ≠ '\\' ∧ c ≠ '\n'
  | .simple letter => letter ∈ escapeLetters
  | .hex high low => isHexDigit high ∧ isHexDigit low

/-- The text of a list of pieces. -/
def piecesText (pieces : List Piece) : List Char := pieces.flatMap Piece.text

theorem lexPieces_eq_some {text : List Char} (lexed : lexPieces quote text = some pieces) :
    text = piecesText pieces ++ [quote] ∧ ∀ p ∈ pieces, p.Lexed quote := by
  fun_induction lexPieces quote text generalizing pieces with
  | case1 high low rest digits ih =>
    obtain ⟨pieces, found, rfl⟩ := Option.map_eq_some_iff.mp lexed
    obtain ⟨rfl, all⟩ := ih found
    exact ⟨rfl, List.forall_mem_cons.mpr ⟨by simpa [Piece.Lexed] using digits, all⟩⟩
  | case2 => cases lexed
  | case3 letter rest _ known ih =>
    obtain ⟨pieces, found, rfl⟩ := Option.map_eq_some_iff.mp lexed
    obtain ⟨rfl, all⟩ := ih found
    exact ⟨rfl, List.forall_mem_cons.mpr ⟨known, all⟩⟩
  | case4 => cases lexed
  | case5 => cases lexed; simp [piecesText]
  | case6 => cases lexed
  | case7 => cases lexed
  | case8 c rest _ _ noQuote other ih =>
    obtain ⟨pieces, found, rfl⟩ := Option.map_eq_some_iff.mp lexed
    obtain ⟨rfl, all⟩ := ih found
    refine ⟨rfl, List.forall_mem_cons.mpr ⟨⟨noQuote, ?_⟩, all⟩⟩
    simpa using other
  | case9 => cases lexed

theorem lexQuoted_eq_some (lexed : lexQuoted quote raw = some pieces) :
    raw = quote :: (piecesText pieces ++ [quote]) ∧ ∀ p ∈ pieces, p.Lexed quote := by
  cases raw with
  | nil => cases lexed
  | cons c rest =>
    simp only [lexQuoted] at lexed
    split at lexed
    next isQuote =>
      subst isQuote
      obtain ⟨rfl, all⟩ := lexPieces_eq_some lexed
      exact ⟨rfl, all⟩
    · cases lexed

/-! ### What the checker decodes -/

/-- `from_str_radix` for `u128`. A sign, which it would take, is in no token. -/
def fromStrRadix (base : Nat) (text : List Char) : Option Nat :=
  (readDigits base text).filter fun n => n < 2 ^ 128

def withoutUnderscores (raw : List Char) : List Char := raw.filter fun c => c ≠ '_'

def parseIntegerLiteral (raw : List Char) : Option Nat :=
  match withoutUnderscores raw with
  | '0' :: 'x' :: hex => fromStrRadix 16 hex
  | '0' :: 'X' :: hex => fromStrRadix 16 hex
  | normalized => fromStrRadix 10 normalized

/-- The types an integer literal is checked against. -/
inductive IntegerTy
  | i8 | i16 | i32 | i64 | char | u8 | u16 | u32 | u64 | usize
  deriving DecidableEq, Repr

/-- The largest magnitude of a negated literal, and the largest of one that is not. -/
def integerAbsLimits : IntegerTy → Nat × Nat
  | .i8 => (128, 127)
  | .i16 => (32768, 32767)
  | .i32 => (2147483648, 2147483647)
  | .i64 => (9223372036854775808, 9223372036854775807)
  | .char => (0, 2 ^ 8 - 1)
  | .u8 => (0, 2 ^ 8 - 1)
  | .u16 => (0, 2 ^ 16 - 1)
  | .u32 => (0, 2 ^ 32 - 1)
  | .u64 => (0, 2 ^ 64 - 1)
  | .usize => (0, 2 ^ 64 - 1)

def checkIntegerLiteralRange (raw : List Char) (ty : IntegerTy) (negated : Bool) : Bool :=
  match parseIntegerLiteral raw with
  | none => false
  | some value =>
    let (minAbs, max) := integerAbsLimits ty
    value ≤ if negated then minAbs else max

/-- The byte of an escape, from the text after its backslash. -/
def decodeEscape : List Char → Option Nat
  | ['\''] => some 39
  | ['"'] => some 34
  | ['\\'] => some 92
  | ['0'] => some 0
  | ['n'] => some 10
  | ['r'] => some 13
  | ['t'] => some 9
  | ['x', high, low] => (readDigits 16 [high, low]).filter fun n => n < 2 ^ 8
  | _ => none

/-- The text between two quotes. -/
def stripQuotes (quote : Char) : List Char → Option (List Char)
  | c :: rest => if c = quote ∧ rest.getLast? = some quote then some rest.dropLast else none
  | [] => none

def decodeCharLiteralByte (raw : List Char) : Option Nat :=
  match stripQuotes '\'' raw with
  | none => none
  | some ('\\' :: escaped) => decodeEscape escaped
  | some [c] => if c.toNat ≤ 2 ^ 8 - 1 then some c.toNat else none
  | some _ => none

/-- The bytes of a piece of a string: an escape decoded, any other character in UTF-8. -/
def Piece.bytes : Piece → List Nat
  | .plain c => utf8 c
  | .simple letter => (decodeEscape [letter]).toList
  | .hex high low => (decodeEscape ['x', high, low]).toList

/-! ### What is emitted -/

/-- The text of an integer literal in the C program. -/
def genInteger (raw : List Char) : List Char := withoutUnderscores raw

/-- The loop of `string_literal_len`. -/
def countChars : List Char → Nat
  | '\\' :: 'x' :: _ :: _ :: rest => countChars rest + 1
  | '\\' :: 'x' :: _ => 1
  | '\\' :: _ :: rest => countChars rest + 1
  | ['\\'] => 0
  | _ :: rest => countChars rest + 1
  | [] => 0

def stringLiteralLen (raw : List Char) : Nat :=
  countChars ((stripQuotes '"' raw).getD raw)

/-! ### Literals -/

/-- A literal with the type it is checked at, where that matters. -/
inductive Literal
  | integer (raw : List Char) (ty : IntegerTy) (negated : Bool)
  | char (raw : List Char)
  | string (raw : List Char)
  deriving DecidableEq, Repr

/-- The literals that lexer and checker let through. -/
def Literal.Accepted : Literal → Prop
  | .integer raw ty negated => lexInteger raw ∧ checkIntegerLiteralRange raw ty negated
  | .char raw =>
    (∃ piece, lexQuoted '\'' raw = some [piece]) ∧ (decodeCharLiteralByte raw).isSome
  | .string raw => (lexQuoted '"' raw).isSome

/-- The value of a string in the language. -/
def stringValue (raw : List Char) : Option (List Nat) :=
  (lexQuoted '"' raw).map (·.flatMap Piece.bytes)

/-- The emitted text has, by the rules of C, the value that the language gives to the
literal; a string ends with a NUL that its length leaves out. -/
def Literal.KeepsValue : Literal → Prop
  | .integer raw _ _ => readInteger (genInteger raw) = parseIntegerLiteral raw
  | .char raw => readChar raw = decodeCharLiteralByte raw
  | .string raw =>
    readString raw = (stringValue raw).map (· ++ [0]) ∧
      some (stringLiteralLen raw) = (stringValue raw).map List.length

/-- The pieces that C reads as one escape. -/
def Piece.joins : Piece → Piece → Bool
  | .hex _ _, .plain c => isHexDigit c
  | .simple letter, .plain c => letter == '0' && (digitIn 8 c).isSome
  | _, _ => false

/-- An escape, or a character of ASCII. -/
def Piece.isAscii : Piece → Bool
  | .plain c => c.toNat < 128
  | _ => true

/-- The literals that both languages read in one way. -/
def Literal.Portable : Literal → Prop
  | .integer raw _ _ =>
    match raw with
    | '0' :: 'x' :: _ => True
    | '0' :: _ => ∃ value, parseIntegerLiteral raw = some value ∧ value < 8
    | _ => ∃ value, parseIntegerLiteral raw = some value ∧ value < 2 ^ 63
  | .char raw => ∀ pieces, lexQuoted '\'' raw = some pieces → ∀ p ∈ pieces, p.isAscii
  | .string raw =>
    ∀ pieces, lexQuoted '"' raw = some pieces →
      (∀ p ∈ pieces, p.isAscii) ∧ pieces.IsChain fun p q => p.joins q = false

/-! ### Integers -/

theorem checkIntegerLiteralRange_value {ty : IntegerTy} {negated : Bool}
    (checked : checkIntegerLiteralRange raw ty negated) :
    ∃ value, parseIntegerLiteral raw = some value ∧ value < 2 ^ 64 := by
  unfold checkIntegerLiteralRange at checked
  cases parsed : parseIntegerLiteral raw with
  | none => simp [parsed] at checked
  | some value =>
    refine ⟨value, rfl, ?_⟩
    simp only [parsed, decide_eq_true_eq] at checked
    refine lt_of_le_of_lt checked ?_
    cases ty <;> cases negated <;> decide

/-- A bound that the number meets can be checked or not. -/
theorem filter_eq_filter_iff {read : Option Nat} {value small large : Nat}
    (bounded : read.filter (fun n => n < large) = some value) :
    read.filter (fun n => n < small) = read.filter (fun n => n < large) ↔ value < small := by
  obtain ⟨rfl, below⟩ := Option.filter_eq_some_iff.mp bounded
  rw [bounded, Option.filter_eq_some_iff]
  simp

/-- Digits of a larger base are digits of a smaller one as far as they are below it. -/
theorem digitIn_of_digitIn {small large : Nat} {d : Nat} (digit : digitIn large c = some d) :
    digitIn small c = if d < small then some d else none := by
  obtain ⟨value, below⟩ := Option.filter_eq_some_iff.mp digit
  simp [digitIn, value, Option.filter_some]

theorem mapM_digitIn {small large : Nat} {text : List Char}
    {digits : List Nat} (read : text.mapM (digitIn large) = some digits) :
    text.mapM (digitIn small) = if ∀ d ∈ digits, d < small then some digits else none := by
  induction text generalizing digits with
  | nil =>
    cases read
    simp
  | cons c text ih =>
    simp only [List.mapM_cons, Option.bind_eq_bind, Option.bind_eq_some_iff] at read ⊢
    obtain ⟨d, digit, rest, others, result⟩ := read
    cases result
    rw [digitIn_of_digitIn digit, ih others]
    simp only [List.forall_mem_cons]
    split_ifs <;> simp_all

/-- Read as octal, decimal digits keep their value if it is a single octal digit, and only
then. -/
theorem readDigits_octal_iff {text : List Char} {value : Nat}
    (decimal : fromStrRadix 10 text = some value) :
    (readDigits 8 text).filter (fun n => n < 2 ^ 64) = some value ↔ value < 8 := by
  obtain ⟨read, -⟩ := Option.filter_eq_some_iff.mp decimal
  unfold readDigits at read ⊢
  split at read
  · cases read
  rename_i nonempty
  obtain ⟨digits, each, rfl⟩ := Option.map_eq_some_iff.mp read
  simp only [if_neg nonempty, mapM_digitIn each]
  by_cases octal : ∀ d ∈ digits, d < 8
  · rw [if_pos octal]
    have same := numberFrom_eq_iff (by decide : 8 < 10) (by decide) octal
    simp only [Option.map_some, Option.filter_eq_some_iff, Option.some.injEq]
    constructor
    · intro kept
      exact same.mp kept.1
    · intro small
      refine ⟨same.mpr small, ?_⟩
      have : numberFrom 10 0 digits < 2 ^ 64 := lt_trans small (by decide)
      simpa using this
  · -- a digit eight or nine is no C, and the number is at least that digit
    rw [if_neg octal]
    simp only [not_forall, not_lt] at octal
    obtain ⟨d, mem, large⟩ := octal
    have := digit_le_numberFrom (by decide : 0 < 10) 0 mem
    simp only [Option.map_none, Option.filter_none, reduceCtorEq, false_iff]
    omega

/-- What is left of decimal digits without their underscores. -/
theorem withoutUnderscores_all {digit : Char → Bool} {rest : List Char}
    (lexed : rest.all fun c => digit c || c == '_') :
    ∀ c ∈ withoutUnderscores rest, digit c := by
  intro c mem
  obtain ⟨mem, other⟩ := List.mem_filter.mp mem
  have := List.all_eq_true.mp lexed c mem
  simpa [show c ≠ '_' by simpa using other] using this

/-- Without underscores a lexed integer is a text of hexadecimal digits after `0x`, of
decimal digits after a zero, or of decimal digits. -/
theorem lexInteger_cases (lexed : lexInteger raw) :
    (∃ digits rest, raw = '0' :: 'x' :: rest ∧ withoutUnderscores raw = '0' :: 'x' :: digits) ∨
    (∃ digits rest, raw = '0' :: rest ∧ (∀ tail, rest ≠ 'x' :: tail) ∧
      withoutUnderscores raw = '0' :: digits ∧ ∀ c ∈ digits, isDecimalDigit c) ∨
    (∃ first digits rest, raw = first :: rest ∧ first ≠ '0' ∧
      withoutUnderscores raw = first :: digits ∧ isDecimalDigit first) := by
  unfold lexInteger at lexed
  split at lexed
  next first rest =>
    exact .inl ⟨withoutUnderscores (first :: rest), _, rfl, rfl⟩
  next first rest other =>
    obtain ⟨digit, all⟩ := Bool.and_eq_true_iff.mp lexed
    have kept : first ≠ '_' := by
      rintro rfl
      revert digit
      decide
    have text : withoutUnderscores (first :: rest) = first :: withoutUnderscores rest := by
      simp [withoutUnderscores, kept]
    by_cases zero : first = '0'
    · subst zero
      refine .inr (.inl ⟨_, rest, rfl, ?_, text, withoutUnderscores_all all⟩)
      rintro tail rfl
      have := List.all_eq_true.mp all 'x' (by simp)
      revert this
      decide
    · exact .inr (.inr ⟨first, _, rest, rfl, zero, text, digit⟩)
  · cases lexed

/-- Decimal digits after a zero are not taken for a hexadecimal number. -/
theorem decimal_noHex {digits tail : List Char} (decimal : ∀ c ∈ digits, isDecimalDigit c) :
    digits ≠ 'x' :: tail ∧ digits ≠ 'X' :: tail := by
  constructor <;>
  · rintro rfl
    have := decimal _ (List.mem_cons_self)
    revert this
    decide

theorem integer_keepsValue_iff {ty : IntegerTy} {negated : Bool} (lexed : lexInteger raw)
    (checked : checkIntegerLiteralRange raw ty negated) :
    (Literal.integer raw ty negated).KeepsValue ↔ (Literal.integer raw ty negated).Portable := by
  obtain ⟨value, parsed, bound⟩ := checkIntegerLiteralRange_value checked
  show readInteger (withoutUnderscores raw) = parseIntegerLiteral raw ↔ _
  rcases lexInteger_cases lexed with
    ⟨digits, rest, start, text⟩ | ⟨digits, rest, start, noHex, text, decimal⟩ |
      ⟨first, digits, rest, start, nonzero, text, -⟩
  · have hex : parseIntegerLiteral raw = fromStrRadix 16 digits := by
      simp only [parseIntegerLiteral, text]
    rw [hex] at parsed
    have same := (filter_eq_filter_iff parsed).mpr bound
    have portable : (Literal.integer raw ty negated).Portable := by
      rw [start]
      trivial
    rw [hex, text]
    exact iff_of_true same portable
  · have octal : readInteger (withoutUnderscores raw) =
        (readDigits 8 ('0' :: digits)).filter fun n => n < 2 ^ 64 := by
      rw [text]
      unfold readInteger
      split
      · next tail same => exact absurd (List.cons.inj same).2 (decimal_noHex decimal).1
      · next tail same => exact absurd (List.cons.inj same).2 (decimal_noHex decimal).2
      · next tail _ _ same => rw [(List.cons.inj same).2]
      · next _ _ other => exact absurd rfl (other digits)
    have plain : parseIntegerLiteral raw = fromStrRadix 10 ('0' :: digits) := by
      unfold parseIntegerLiteral
      split
      next tail same =>
        exact absurd (List.cons.inj (text.symm.trans same)).2 (decimal_noHex decimal).1
      next tail same =>
        exact absurd (List.cons.inj (text.symm.trans same)).2 (decimal_noHex decimal).2
      · rw [text]
    have portable : (Literal.integer raw ty negated).Portable ↔ value < 8 := by
      simp only [Literal.Portable, start]
      rw [← start, parsed]
      simp
    rw [octal, parsed, portable]
    rw [plain] at parsed
    exact readDigits_octal_iff parsed
  · have read : readInteger (withoutUnderscores raw) =
        (readDigits 10 (first :: digits)).filter fun n => n < 2 ^ 63 := by
      rw [text]
      unfold readInteger
      split <;> simp_all
    have plain : parseIntegerLiteral raw = fromStrRadix 10 (first :: digits) := by
      unfold parseIntegerLiteral
      split <;> simp_all
    have portable : (Literal.integer raw ty negated).Portable ↔ value < 2 ^ 63 := by
      simp only [Literal.Portable, start]
      split
      · simp_all
      · simp_all
      · rw [← start, parsed]
        simp
    rw [read, portable, plain]
    rw [plain] at parsed
    exact filter_eq_filter_iff parsed

/-! ### Characters and strings -/

/-- Where C stands after a piece of its own: an escape may still go on. -/
def Piece.after : Piece → Mode
  | .plain _ => .plain
  | .simple letter =>
    if letter = '0' then .octal 0 1 else .done ((decodeEscape [letter]).getD 0)
  | .hex high low => .hex ((digitIn 16 high).bind fun h => (digitIn 16 low).map (16 * h + ·))

/-- The bytes that a piece adds before the place after it. -/
def Piece.direct : Piece → List Nat
  | .plain c => utf8 c
  | _ => []

theorem Piece.flush_after (lexed : p.Lexed quote) :
    ∃ pending, p.after.flush = some pending ∧ p.direct ++ pending = p.bytes := by
  cases p with
  | plain c => exact ⟨[], rfl, by simp [Piece.direct, Piece.bytes]⟩
  | simple letter =>
    have : letter ∈ escapeLetters := lexed
    fin_cases this <;> exact ⟨_, rfl, rfl⟩
  | hex high low =>
    obtain ⟨h, high'⟩ := Option.isSome_iff_exists.mp lexed.1
    obtain ⟨l, low'⟩ := Option.isSome_iff_exists.mp lexed.2
    have := digitIn_lt high'
    have := digitIn_lt low'
    have byte : 16 * h + l < 256 := by omega
    refine ⟨[16 * h + l], by simp [Piece.after, Mode.flush, high', low', byte], ?_⟩
    simp [Piece.direct, Piece.bytes, decodeEscape, readDigits, numberFrom, high', low',
      Option.filter_some, byte]

/-- After a backslash C reads the rest of a piece as the language does. -/
theorem Piece.read_escape (lexed : p.Lexed quote) {body : List Char} (text : p.text = '\\' :: body)
    (rest : List Char) :
    readBytes quote .backslash (body ++ rest) = readBytes quote p.after rest := by
  cases p with
  | plain c =>
    have : c = '\\' := (List.cons.inj text).1
    exact absurd this lexed.2.1
  | simple letter =>
    have known : letter ∈ escapeLetters := lexed
    cases text
    fin_cases known <;> exact readBytes_absorb (by decide)
  | hex high low =>
    obtain ⟨h, high'⟩ := Option.isSome_iff_exists.mp lexed.1
    obtain ⟨l, low'⟩ := Option.isSome_iff_exists.mp lexed.2
    cases text
    rw [List.cons_append, readBytes_absorb (show _ = some (.hex none) by decide)]
    rw [List.cons_append, readBytes_absorb (by simp only [Mode.absorb, high']; rfl)]
    rw [List.cons_append, readBytes_absorb (by simp only [Mode.absorb, low']; rfl)]
    simp [Piece.after, high', low']

/-- Neither a backslash nor a quote goes on with an escape. -/
theorem absorb_special (boundary : mode ≠ .backslash) (special : c ∈ ['\\', '"', '\'']) :
    mode.absorb c = none := by
  cases mode with
  | backslash => exact absurd rfl boundary
  | plain | done => rfl
  | octal value count =>
    have : digitIn 8 c = none := by fin_cases special <;> decide
    simp [Mode.absorb, this]
  | hex value =>
    have : digitIn 16 c = none := by fin_cases special <;> decide
    simp [Mode.absorb, this]

theorem Mode.flush_boundary (flushed : mode.flush = some pending) : mode ≠ .backslash := by
  rintro rfl
  cases flushed

/-- A piece is a character, or an escape that adds its byte only when it ends. -/
theorem Piece.plain_or_escape (p : Piece) :
    (∃ c, p = .plain c) ∨ (∃ body, p.text = '\\' :: body) ∧ p.direct = [] ∧ ∀ c, p ≠ .plain c := by
  cases p with
  | plain c => exact .inl ⟨c, rfl⟩
  | simple letter | hex high low => exact .inr ⟨⟨_, rfl⟩, rfl, by simp⟩

/-- No character of the text continues an escape before it. -/
def Apart : Mode → List Piece → Prop
  | _, [] => True
  | mode, p :: pieces => (∀ c, p = .plain c → mode.absorb c = none) ∧ Apart p.after pieces

/-- Pieces are apart where no two neighbours are read as one escape. -/
theorem apart_after_iff (lexed : ∀ q ∈ p :: pieces, q.Lexed quote) :
    Apart p.after pieces ↔ (p :: pieces).IsChain fun p q => p.joins q = false := by
  induction pieces generalizing p with
  | nil => simp [Apart]
  | cons q pieces ih =>
    obtain ⟨first, rest⟩ := List.forall_mem_cons.mp lexed
    rw [Apart, ih rest, List.isChain_cons_cons]
    refine and_congr_left' ?_
    cases p with
    | plain c => simp [Piece.after, Mode.absorb, Piece.joins]
    | simple letter =>
      cases q <;> by_cases zero : letter = '0' <;>
        simp [Piece.after, Mode.absorb, Piece.joins, zero]
    | hex high low => cases q <;> simp [Piece.after, Mode.absorb, Piece.joins, isHexDigit]

theorem apart_plain_iff (lexed : ∀ q ∈ pieces, q.Lexed quote) :
    Apart .plain pieces ↔ pieces.IsChain fun p q => p.joins q = false := by
  cases pieces with
  | nil => simp [Apart]
  | cons p pieces => simpa [Apart, Mode.absorb] using apart_after_iff lexed

/-- The bytes that are still due to the escape being read. -/
def Mode.due : Mode → Nat
  | .plain => 0
  | _ => 1

theorem Mode.flush_due (flushed : mode.flush = some pending) :
    pending.length = Mode.due mode := by
  fun_cases Mode.flush mode <;> grind [Mode.flush, Mode.due]

/-- A character that goes on with an escape adds no byte to it. -/
theorem Mode.absorb_due {next : Mode} (boundary : mode ≠ .backslash)
    (absorbed : mode.absorb c = some next) :
    Mode.due mode = 1 ∧ Mode.due next = 1 ∧ next ≠ .backslash := by
  cases mode with
  | plain => cases absorbed
  | backslash => exact absurd rfl boundary
  | done value => cases absorbed
  | octal value count =>
    simp only [Mode.absorb] at absorbed
    split at absorbed
    · obtain ⟨d, -, rfl⟩ := Option.map_eq_some_iff.mp absorbed
      exact ⟨rfl, rfl, by simp⟩
    · cases absorbed
  | hex value =>
    obtain ⟨d, -, rfl⟩ := Option.map_eq_some_iff.mp absorbed
    exact ⟨rfl, rfl, by simp⟩

theorem utf8_ascii_length : (utf8 c).length = 1 ↔ c.toNat < 128 := by
  rw [utf8_length, Char.utf8Size_eq_one_iff]
  show c.val ≤ 127 ↔ c.val.toNat < 128
  rw [UInt32.le_iff_toNat_le]
  show _ ≤ 127 ↔ _
  omega

/-- In ASCII each piece comes to one byte. -/
theorem Piece.direct_due (ascii : p.isAscii) :
    p.direct.length + Mode.due p.after = 1 := by
  cases p with
  | plain c =>
    have : c.toNat < 128 := by simpa [Piece.isAscii] using ascii
    simpa [Piece.direct, Piece.after, Mode.due] using utf8_ascii_length.mpr this
  | simple letter =>
    by_cases zero : letter = '0' <;> simp [Piece.direct, Piece.after, Mode.due, zero]
  | hex high low => rfl

theorem Piece.after_boundary (p : Piece) : p.after ≠ .backslash := by
  cases p with
  | plain c => simp [Piece.after]
  | simple letter => by_cases zero : letter = '0' <;> simp [Piece.after, zero]
  | hex high low => simp [Piece.after]

section Quoted

variable {quote : Char} (isQuote : quote ∈ ['"', '\''])
include isQuote

omit isQuote in
theorem mem_special (isQuote : quote ∈ ['"', '\'']) : quote ∈ ['\\', '"', '\''] :=
  List.mem_cons_of_mem _ isQuote

theorem backslash_ne_quote : '\\' ≠ quote := by
  rintro rfl
  revert isQuote
  decide

/-- One piece that is apart from what stands before it. -/
theorem readBytes_piece (flushed : mode.flush = some pending) (lexed : p.Lexed quote)
    (apart : ∀ c, p = .plain c → mode.absorb c = none) (rest : List Char) :
    readBytes quote mode (p.text ++ rest) =
      (readBytes quote p.after rest).map (pending ++ p.direct ++ ·) := by
  rcases p.plain_or_escape with ⟨c, rfl⟩ | ⟨⟨body, text⟩, direct, -⟩
  · obtain ⟨noQuote, noBackslash, noLine⟩ := lexed
    exact readBytes_plain flushed (apart c rfl) noQuote noLine noBackslash
  · have boundary := Mode.flush_boundary flushed
    rw [text, direct, List.append_nil, List.cons_append,
      readBytes_escape flushed (absorb_special boundary (by simp)) (backslash_ne_quote isQuote),
      p.read_escape lexed text]

/-- Where escapes and characters are apart, C reads the bytes that the language gives. -/
theorem readBytes_pieces (lexed : ∀ p ∈ pieces, p.Lexed quote) (flushed : mode.flush = some pending)
    (apart : Apart mode pieces) :
    readBytes quote mode (piecesText pieces ++ [quote]) =
      some (pending ++ pieces.flatMap Piece.bytes) := by
  induction pieces generalizing mode pending with
  | nil =>
    have boundary := Mode.flush_boundary flushed
    simpa [piecesText] using
      readBytes_quote flushed (absorb_special boundary (mem_special isQuote))
  | cons p pieces ih =>
    obtain ⟨first, rest⟩ := List.forall_mem_cons.mp lexed
    obtain ⟨pending', flushed', bytes⟩ := p.flush_after first
    have text : piecesText (p :: pieces) ++ [quote] =
        p.text ++ (piecesText pieces ++ [quote]) := by
      simp [piecesText]
    rw [text, readBytes_piece isQuote flushed first apart.1, ih rest flushed' apart.2]
    simp [← bytes]

/-- What C makes of one more piece: it goes on with the escape before it, or it is read
for itself. -/
theorem readBytes_piece_cases (boundary : mode ≠ .backslash) (lexed : p.Lexed quote)
    {rest : List Char} {bytes : List Nat}
    (read : readBytes quote mode (p.text ++ rest) = some bytes) :
    (∃ c next, p = .plain c ∧ mode.absorb c = some next ∧
      readBytes quote next rest = some bytes) ∨
    ((∀ c, p = .plain c → mode.absorb c = none) ∧ ∃ pending bytes', mode.flush = some pending ∧
      readBytes quote p.after rest = some bytes' ∧ bytes = pending ++ p.direct ++ bytes') := by
  have alone (apart : ∀ c, p = .plain c → mode.absorb c = none) {pending : List Nat}
      (flushed : mode.flush = some pending) :
      ∃ pending bytes', mode.flush = some pending ∧
        readBytes quote p.after rest = some bytes' ∧ bytes = pending ++ p.direct ++ bytes' := by
    rw [readBytes_piece isQuote flushed lexed apart] at read
    obtain ⟨bytes', read', rfl⟩ := Option.map_eq_some_iff.mp read
    exact ⟨pending, bytes', flushed, read', rfl⟩
  rcases p.plain_or_escape with ⟨c, rfl⟩ | ⟨⟨body, text⟩, -, escape⟩
  · cases absorbed : mode.absorb c with
    | some next =>
      exact .inl ⟨c, next, rfl, absorbed, by rwa [Piece.text, List.singleton_append,
        readBytes_absorb absorbed] at read⟩
    | none =>
      have apart : ∀ c', Piece.plain c = .plain c' → mode.absorb c' = none := by
        rintro _ ⟨⟩
        exact absorbed
      obtain ⟨pending, flushed⟩ := flush_of_readBytes read absorbed
      exact .inr ⟨apart, alone apart flushed⟩
  · have apart : ∀ c, p = .plain c → mode.absorb c = none := fun c same => absurd same (escape c)
    rw [text] at read
    obtain ⟨pending, flushed⟩ := flush_of_readBytes read (absorb_special boundary (by simp))
    rw [← text] at read
    exact .inr ⟨apart, alone apart flushed⟩

/-- C never finds more bytes in a text of ASCII than the language, and fewer where an
escape takes a character that follows it. -/
theorem readBytes_length (lexed : ∀ p ∈ pieces, p.Lexed quote) (ascii : ∀ p ∈ pieces, p.isAscii)
    (boundary : mode ≠ .backslash) {bytes : List Nat}
    (read : readBytes quote mode (piecesText pieces ++ [quote]) = some bytes) :
    bytes.length ≤ Mode.due mode + pieces.length ∧
      (¬Apart mode pieces → bytes.length < Mode.due mode + pieces.length) := by
  induction pieces generalizing mode bytes with
  | nil =>
    refine ⟨?_, absurd trivial⟩
    have apart := absorb_special boundary (mem_special isQuote)
    obtain ⟨pending, flushed⟩ := flush_of_readBytes read apart
    have closed := readBytes_quote flushed apart
    have : bytes = pending := Option.some.inj (read.symm.trans closed)
    rw [this, Mode.flush_due flushed]
    exact Nat.le_add_right _ _
  | cons p pieces ih =>
    obtain ⟨first, rest⟩ := List.forall_mem_cons.mp lexed
    obtain ⟨ascii', asciis⟩ := List.forall_mem_cons.mp ascii
    rw [piecesText, List.flatMap_cons, List.append_assoc] at read
    rw [List.length_cons]
    rcases readBytes_piece_cases isQuote boundary first read with
      ⟨c, next, rfl, absorbed, read'⟩ | ⟨apart, pending, bytes', flushed, read', rfl⟩
    · obtain ⟨due, due', boundary'⟩ := Mode.absorb_due boundary absorbed
      have := (ih rest asciis boundary' read').1
      omega
    · obtain ⟨most, fewer⟩ := ih rest asciis p.after_boundary read'
      have := p.direct_due ascii'
      have := Mode.flush_due flushed
      simp only [List.length_append]
      refine ⟨by omega, fun joined => ?_⟩
      have := fewer fun ok => joined ⟨apart, ok⟩
      omega

end Quoted

theorem stripQuotes_quoted (quote : Char) (text : List Char) :
    stripQuotes quote (quote :: (text ++ [quote])) = some text := by
  simp [stripQuotes]

/-- `string_literal_len` counts the pieces. -/
theorem countChars_pieces (lexed : ∀ p ∈ pieces, p.Lexed quote) :
    countChars (piecesText pieces) = pieces.length := by
  induction pieces with
  | nil => rfl
  | cons p pieces ih =>
    obtain ⟨first, rest⟩ := List.forall_mem_cons.mp lexed
    have count := ih rest
    cases p with
    | plain c =>
      show countChars (c :: piecesText pieces) = _
      simp [countChars, first.2.1, count]
    | simple letter =>
      show countChars ('\\' :: letter :: piecesText pieces) = _
      have : letter ≠ 'x' := by
        rintro rfl
        revert first
        simp [Piece.Lexed, escapeLetters]
      simp [countChars, this, count]
    | hex high low =>
      show countChars ('\\' :: 'x' :: high :: low :: piecesText pieces) = _
      rw [List.length_cons, ← count]
      rfl

theorem Piece.bytes_length (lexed : p.Lexed quote) :
    1 ≤ p.bytes.length ∧ (p.bytes.length = 1 ↔ p.isAscii) := by
  cases p with
  | plain c =>
    refine ⟨?_, ?_⟩
    · rw [Piece.bytes, utf8_length]
      exact c.utf8Size_pos
    · simpa [Piece.bytes, Piece.isAscii] using utf8_ascii_length
  | simple letter =>
    have : letter ∈ escapeLetters := lexed
    fin_cases this <;> exact ⟨by decide, by decide⟩
  | hex high low =>
    obtain ⟨pending, flushed, bytes⟩ := Piece.flush_after lexed
    have one : (Piece.hex high low).bytes.length = 1 := by
      rw [← bytes]
      exact Mode.flush_due flushed
    exact ⟨one.ge, iff_of_true one rfl⟩

/-- The number of bytes is the number of pieces in ASCII only. -/
theorem bytes_length_eq_iff (lexed : ∀ p ∈ pieces, p.Lexed quote) :
    pieces.length ≤ (pieces.flatMap Piece.bytes).length ∧
      ((pieces.flatMap Piece.bytes).length = pieces.length ↔ ∀ p ∈ pieces, p.isAscii) := by
  induction pieces with
  | nil => simp
  | cons p pieces ih =>
    obtain ⟨first, rest⟩ := List.forall_mem_cons.mp lexed
    obtain ⟨least, same⟩ := ih rest
    obtain ⟨least', same'⟩ := Piece.bytes_length first
    rw [List.forall_mem_cons, ← same, ← same', List.flatMap_cons, List.length_append,
      List.length_cons]
    omega

theorem string_keepsValue_iff (lexed : (lexQuoted '"' raw).isSome) :
    (Literal.string raw).KeepsValue ↔ (Literal.string raw).Portable := by
  obtain ⟨pieces, found⟩ := Option.isSome_iff_exists.mp lexed
  obtain ⟨text, each⟩ := lexQuoted_eq_some found
  have isQuote : '"' ∈ ['"', '\''] := by simp
  have value : stringValue raw = some (pieces.flatMap Piece.bytes) := by
    rw [stringValue, found]
    rfl
  have length : stringLiteralLen raw = pieces.length := by
    rw [stringLiteralLen, text, stripQuotes_quoted]
    exact countChars_pieces each
  have portable : (Literal.string raw).Portable ↔
      (∀ p ∈ pieces, p.isAscii) ∧ Apart .plain pieces := by
    rw [apart_plain_iff each]
    simp only [Literal.Portable, found, Option.some.injEq, forall_eq']
  have read : readString raw =
      (readBytes '"' .plain (piecesText pieces ++ ['"'])).map (· ++ [0]) := by
    rw [text]
    rfl
  rw [portable, Literal.KeepsValue, value, length, read]
  simp only [Option.map_some, Option.some.injEq]
  constructor
  · rintro ⟨same, count⟩
    have ascii := (bytes_length_eq_iff each).2.mp count.symm
    refine ⟨ascii, ?_⟩
    obtain ⟨bytes, readBytes, whole⟩ := Option.map_eq_some_iff.mp same
    by_contra joined
    have fewer := (readBytes_length isQuote each ascii (by simp) readBytes).2 joined
    have := congrArg List.length (List.append_cancel_right whole)
    simp only [Mode.due] at fewer
    omega
  · rintro ⟨ascii, apart⟩
    refine ⟨?_, ((bytes_length_eq_iff each).2.mpr ascii).symm⟩
    rw [readBytes_pieces isQuote each (rfl : Mode.plain.flush = some []) apart]
    rfl

theorem utf8_ascii (ascii : c.toNat < 128) : utf8 c = [c.toNat] := by
  have size : c.utf8Size = 1 := by
    rw [← utf8_length]
    exact utf8_ascii_length.mpr ascii
  have byte : c.toUInt8.toNat = c.toNat := by
    show c.val.toUInt8.toNat = _
    rw [UInt32.toNat_toUInt8]
    exact Nat.mod_eq_of_lt (lt_trans ascii (by decide))
  simp [utf8, String.utf8EncodeChar_eq_singleton size, byte]

/-- The byte that the checker decodes is the one byte of the piece, if it has one. -/
theorem decodeCharLiteralByte_piece {piece : Piece} (lexed : lexQuoted '\'' raw = some [piece])
    {byte : Nat} (decoded : decodeCharLiteralByte raw = some byte) (ascii : piece.isAscii) :
    piece.bytes = [byte] := by
  obtain ⟨text, each⟩ := lexQuoted_eq_some lexed
  have inner : stripQuotes '\'' raw = some piece.text := by
    rw [text, stripQuotes_quoted]
    simp [piecesText]
  unfold decodeCharLiteralByte at decoded
  rw [inner] at decoded
  cases piece with
  | plain c =>
    have small : c.toNat < 128 := by simpa [Piece.isAscii] using ascii
    have other : c ≠ '\\' := (each _ List.mem_cons_self).2.1
    have : c.toNat = byte := by
      simp only [Piece.text] at decoded
      split at decoded <;> simp_all
    rw [Piece.bytes, utf8_ascii small, this]
  | simple letter =>
    have : decodeEscape [letter] = some byte := decoded
    simp [Piece.bytes, this]
  | hex high low =>
    have : decodeEscape ['x', high, low] = some byte := decoded
    simp [Piece.bytes, this]

theorem char_keepsValue_iff {piece : Piece} (lexed : lexQuoted '\'' raw = some [piece]) {byte : Nat}
    (decoded : decodeCharLiteralByte raw = some byte) :
    (Literal.char raw).KeepsValue ↔ (Literal.char raw).Portable := by
  obtain ⟨text, each⟩ := lexQuoted_eq_some lexed
  have apart : Apart .plain [piece] := ⟨fun _ _ => rfl, trivial⟩
  have bytes : readBytes '\'' .plain (piecesText [piece] ++ ['\'']) = some piece.bytes := by
    simpa using readBytes_pieces (by simp) each (rfl : Mode.plain.flush = some []) apart
  have portable : (Literal.char raw).Portable ↔ piece.isAscii := by
    simp only [Literal.Portable, lexed, Option.some.injEq, forall_eq', List.mem_singleton,
      forall_eq]
  rw [portable, Literal.KeepsValue, decoded, text, readChar_eq_some_iff, bytes, Option.some.injEq]
  constructor
  · intro kept
    rw [← (Piece.bytes_length (each piece List.mem_cons_self)).2, kept]
    rfl
  · exact decodeCharLiteralByte_piece lexed decoded

/-- Exactly the literals without a difference between the two languages keep their value
in the C program. -/
theorem literal_keepsValue_iff (literal : Literal) (accepted : literal.Accepted) :
    literal.KeepsValue ↔ literal.Portable := by
  cases literal with
  | integer raw ty negated => exact integer_keepsValue_iff accepted.1 accepted.2
  | char raw =>
    obtain ⟨⟨piece, lexed⟩, decoded⟩ := accepted
    obtain ⟨byte, decoded⟩ := Option.isSome_iff_exists.mp decoded
    exact char_keepsValue_iff lexed decoded
  | string raw => exact string_keepsValue_iff accepted

/-- `"\0A"`: an escape before a character that it does not take. -/
theorem literal_keepsValue_iff_nul :
    let literal := Literal.string ['"', '\\', '0', 'A', '"']
    literal.Accepted ∧ literal.KeepsValue := by
  have accepted : (Literal.string ['"', '\\', '0', 'A', '"']).Accepted := rfl
  refine ⟨accepted, (literal_keepsValue_iff _ accepted).mpr ?_⟩
  intro pieces lexed
  have : pieces = [.simple '0', .plain 'A'] := Option.some.inj (lexed.symm.trans (by decide))
  subst this
  exact ⟨by decide, by decide⟩

/-- `010` is ten in the language and eight in C, `"\x41B"` is two bytes and one byte too
large for C, `"\01"` two bytes and one, and the slice of `"é"` ends after one byte of its
two. -/
theorem literals_change_value :
    ((Literal.integer ['0', '1', '0'] .i32 false).Accepted ∧
      ¬ (Literal.integer ['0', '1', '0'] .i32 false).KeepsValue) ∧
    ((Literal.string ['"', '\\', 'x', '4', '1', 'B', '"']).Accepted ∧
      ¬ (Literal.string ['"', '\\', 'x', '4', '1', 'B', '"']).KeepsValue) ∧
    ((Literal.string ['"', '\\', '0', '1', '"']).Accepted ∧
      ¬ (Literal.string ['"', '\\', '0', '1', '"']).KeepsValue) ∧
    ((Literal.string ['"', 'é', '"']).Accepted ∧
      ¬ (Literal.string ['"', 'é', '"']).KeepsValue) := by
  refine ⟨⟨⟨rfl, rfl⟩, ?_⟩, ⟨rfl, ?_⟩, ⟨rfl, ?_⟩, rfl, ?_⟩
  · intro kept
    have : readInteger ['0', '1', '0'] = parseIntegerLiteral ['0', '1', '0'] := kept
    revert this
    decide
  · intro kept
    have := kept.1
    revert this
    decide
  · intro kept
    have := kept.1
    revert this
    decide
  · intro kept
    have := kept.2
    revert this
    decide

end Ciel.Codegen
