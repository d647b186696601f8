import Ciel.Library.Scanning
import Ciel.Std.Json.Text

/-!
# The JSON reader

The parser of `std/json`, function by function: a reader over a slice of characters with an
offset, errors with their kind, offset and message, and the recursive descent of `read_value`.

The reader is the offset with the input from there on. A test that the reader is not at its
end and that the next character is a certain one, with the `advance` that follows it, is one
`onNext`. Storage that is asked for is granted. The loops have fuel: a value is read with twice
the length of the input, which is enough.
-/

namespace Ciel.Json

open Library Reading Cursor

/-! ## Errors -/

inductive WireErrorKind
  | eof
  | syntax_
  | typeMismatch
  | missingField
  | duplicateField
  | unknownField
  | unknownVariant
  | invalidValue
  | unsupportedType
  | storage
  deriving DecidableEq, Repr

structure WireError where
  kind : WireErrorKind
  path : Bytes
  message : String
  byteOffset : Nat
  hasByteOffset : Bool
  deriving DecidableEq, Repr

def errorAt (kind : WireErrorKind) (offset : Nat) (message : String) : WireError where
  kind := kind
  path := [byte '$']
  message := message
  byteOffset := offset
  hasByteOffset := true

abbrev Reader := Cursor UInt8

abbrev Reads (α : Type) := Reading Reader WireError α

variable {α : Type}

/-- An error at the offset of the reader. -/
def failHere (kind : WireErrorKind) (message : String) : Reads α :=
  fail fun r => errorAt kind r.offset message

/-- An error at the character that was read last. -/
def failBefore (kind : WireErrorKind) (message : String) : Reads α :=
  fail fun r => errorAt kind (r.offset - 1) message

def reader (input : Bytes) : Reader := ⟨0, input⟩

/-! ## Characters -/

def isJsonWs (c : UInt8) : Bool :=
  c == byte ' ' || c == byte '\t' || c == byte '\n' || c == byte '\r'

def charIsDigit (c : UInt8) : Bool := c ≥ byte '0' && c ≤ byte '9'

def charToHexDigitValue (c : UInt8) : Option UInt8 :=
  if charIsDigit c then some (c - byte '0')
  else if c ≥ byte 'a' && c ≤ byte 'f' then some (c - byte 'a' + 10)
  else if c ≥ byte 'A' && c ≤ byte 'F' then some (c - byte 'A' + 10)
  else none

def isNumberTail (c : UInt8) : Bool :=
  charIsDigit c || c == byte '-' || c == byte '+' || c == byte '.' || c == byte 'e' ||
    c == byte 'E'

/-- The character `c`, if it is the one that is looked for. -/
abbrev is (c : UInt8) : UInt8 → Option UInt8 := Option.guard (· == c)

def skipWs : Reads Unit := update (skipWhile isJsonWs)

def expectChar (expected : UInt8) (message : String) : Reads Unit :=
  branch atEnd (failHere .eof message) <|
  onNext (is expected) (fun _ => pure ()) <|
  failHere .syntax_ message

def consumeLiteral : Bytes → Reads Unit
  | [] => pure ()
  | c :: literal =>
    branch atEnd (failHere .eof "unexpected end of input") <|
    onNext (is c) (fun _ => consumeLiteral literal) <|
    failHere .syntax_ "invalid literal"

/-! ## Numbers -/

def consumeDigits (message : String) : Reads Unit :=
  branch (nextIs charIsDigit) (update (skipWhile charIsDigit)) (failHere .syntax_ message)

def parseSign : Reads Unit := onNext (is (byte '-')) (fun _ => pure ()) (pure ())

def parseInteger : Reads Unit :=
  branch atEnd (failHere .eof "incomplete number") <|
  onNext (is (byte '0'))
    (fun _ => branch (nextIs charIsDigit) (failHere .syntax_ "leading zero in number") (pure ())) <|
  consumeDigits "expected number digit"

def parseFraction : Reads Unit :=
  onNext (is (byte '.')) (fun _ => consumeDigits "expected fraction digit") (pure ())

def parseExponentSign : Reads Unit :=
  onNext (Option.guard fun c => c == byte '-' || c == byte '+') (fun _ => pure ()) (pure ())

def parseExponent : Reads Unit :=
  onNext (Option.guard fun c => c == byte 'e' || c == byte 'E')
    (fun _ => do parseExponentSign; consumeDigits "expected exponent digit") (pure ())

def parseNumberTail : Reads Unit :=
  branch (nextIs isNumberTail) (failHere .syntax_ "invalid number") (pure ())

/-- The number's spelling is the part of the input that was read. -/
def parseNumber : Reads JsonNumber := do
  let raw ← spelled do
    parseSign
    parseInteger
    parseFraction
    parseExponent
    parseNumberTail
  pure ⟨raw⟩

/-! ## Strings -/

/-- The loop of `parse_hex4`, with the digits that are still to come. -/
def parseHexDigits : Nat → Nat → Reads Nat
  | 0, value => pure value
  | n + 1, value =>
    branch atEnd (failHere .eof "incomplete unicode escape") <|
    onNext charToHexDigitValue (fun digit => parseHexDigits n (value <<< 4 ||| digit.toNat)) <|
    failHere .syntax_ "invalid unicode escape"

def parseHex4 : Reads Nat := parseHexDigits 4 0

def appendUtf8 (out : Bytes) (codepoint offset : Nat) : Except WireError Bytes :=
  if codepoint ≤ 0x7f then
    .ok (out ++ [codepoint.toUInt8])
  else if codepoint ≤ 0x7ff then
    .ok (out ++ [(0xc0 : UInt8) ||| (codepoint >>> 6).toUInt8,
      (0x80 : UInt8) ||| (codepoint &&& 0x3f).toUInt8])
  else if codepoint ≤ 0xffff then
    .ok (out ++ [(0xe0 : UInt8) ||| (codepoint >>> 12).toUInt8,
      (0x80 : UInt8) ||| (codepoint >>> 6 &&& 0x3f).toUInt8,
      (0x80 : UInt8) ||| (codepoint &&& 0x3f).toUInt8])
  else if codepoint ≤ 0x10ffff then
    .ok (out ++ [(0xf0 : UInt8) ||| (codepoint >>> 18).toUInt8,
      (0x80 : UInt8) ||| (codepoint >>> 12 &&& 0x3f).toUInt8,
      (0x80 : UInt8) ||| (codepoint >>> 6 &&& 0x3f).toUInt8,
      (0x80 : UInt8) ||| (codepoint &&& 0x3f).toUInt8])
  else .error (errorAt .invalidValue offset "unicode codepoint out of range")

/-- The second escape of a pair, after its `\u`. -/
def parseLowSurrogate (codepoint : Nat) : Reads Nat := do
  let low ← parseHex4
  if low < 0xdc00 || low > 0xdfff then failHere .invalidValue "invalid low surrogate"
  else pure (0x10000 + ((codepoint - 0xd800) <<< 10 ||| (low - 0xdc00)))

/-- The code point of an escape whose first four digits have been read. -/
def parseCodepoint (escapeOffset first : Nat) : Reads Nat :=
  if first ≥ 0xd800 && first ≤ 0xdbff then
    branch (fun r => r.rest.length ≤ 1) (failHere .eof "missing low surrogate") <|
    onWord [byte '\\', byte 'u'] (parseLowSurrogate first) <|
    failHere .invalidValue "missing low surrogate"
  else if first ≥ 0xdc00 && first ≤ 0xdfff then
    fail fun _ => errorAt .invalidValue escapeOffset "unexpected low surrogate"
  else pure first

def parseUnicodeEscape (out : Bytes) : Reads Bytes :=
  fromOffset fun escapeOffset => do
    let first ← parseHex4
    let codepoint ← parseCodepoint escapeOffset first
    lift (appendUtf8 out codepoint escapeOffset)

/-- What follows a backslash, of which the first character has been read. -/
def parseEscape (out : Bytes) (esc : UInt8) : Reads Bytes :=
  if esc = byte '"' then pure (out ++ [byte '"'])
  else if esc = byte '\\' then pure (out ++ [byte '\\'])
  else if esc = byte '/' then pure (out ++ [byte '/'])
  else if esc = byte 'b' then pure (out ++ [8])
  else if esc = byte 'f' then pure (out ++ [12])
  else if esc = byte 'n' then pure (out ++ [byte '\n'])
  else if esc = byte 'r' then pure (out ++ [byte '\r'])
  else if esc = byte 't' then pure (out ++ [byte '\t'])
  else if esc = byte 'u' then parseUnicodeEscape out
  else failBefore .syntax_ "invalid string escape"

/-- The loop of `parse_string_text`, with the bytes it has put into its buffer. -/
def parseChars : Nat → Bytes → Reads Bytes
  | 0, _ => starve
  | fuel + 1, out =>
    onNext some (fun c =>
      if c = byte '"' then pure out
      else if c < 0x20 then failBefore .syntax_ "control character in string"
      else if c ≠ byte '\\' then parseChars fuel (out ++ [c])
      else
        onNext some (fun esc => do
          let out ← parseEscape out esc
          parseChars fuel out) <|
        failHere .eof "unterminated escape") <|
    failHere .eof "unterminated string"

def parseStringText : Reads Bytes := do
  expectChar (byte '"') "expected string"
  fueled (· + 1) fun fuel => parseChars fuel []

/-! ## Values -/

mutual

/-- `read_value` with fuel for its calls. -/
def readValueWith : Nat → Reads Value
  | 0 => starve
  | fuel + 1 => do
      skipWs
      branch atEnd (failHere .eof "expected value") <|
        branch (nextIs (· == byte 'n'))
          (do consumeLiteral (['n', 'u', 'l', 'l'].map byte); pure .null) <|
        branch (nextIs (· == byte 't'))
          (do consumeLiteral (['t', 'r', 'u', 'e'].map byte); pure (.bool true)) <|
        branch (nextIs (· == byte 'f'))
          (do consumeLiteral (['f', 'a', 'l', 's', 'e'].map byte); pure (.bool false)) <|
        branch (nextIs (· == byte '"')) (do let text ← parseStringText; pure (.string text)) <|
        onNext (is (byte '[')) (fun _ => do
          skipWs
          onNext (is (byte ']')) (fun _ => pure (.array []))
            (do let items ← readItems fuel []; pure (.array items))) <|
        onNext (is (byte '{')) (fun _ => do
          skipWs
          onNext (is (byte '}')) (fun _ => pure (.object []))
            (do let members ← readMembers fuel []; pure (.object members))) <|
        branch (nextIs fun c => c == byte '-' || charIsDigit c)
          (do let number ← parseNumber; pure (.number number)) <|
        failHere .syntax_ "expected value"

/-- The loop over the elements of an array, with those read so far. -/
def readItems : Nat → List Value → Reads (List Value)
  | 0, _ => starve
  | fuel + 1, items => do
      let value ← readValueWith fuel
      skipWs
      branch atEnd (failHere .eof "unterminated array") <|
        onNext (is (byte ',')) (fun _ => do skipWs; readItems fuel (items ++ [value])) <|
        onNext (is (byte ']')) (fun _ => pure (items ++ [value])) <|
        failHere .syntax_ "expected array separator"

/-- The loop over the members of an object, with those read so far. -/
def readMembers : Nat → List Value → Reads (List Value)
  | 0, _ => starve
  | fuel + 1, members => do
      skipWs
      let name ← parseStringText
      skipWs
      expectChar (byte ':') "expected object colon"
      let value ← readValueWith fuel
      skipWs
      branch atEnd (failHere .eof "unterminated object") <|
        onNext (is (byte ','))
          (fun _ => do skipWs; readMembers fuel (members ++ [.string name, value])) <|
        onNext (is (byte '}')) (fun _ => pure (members ++ [.string name, value])) <|
        failHere .syntax_ "expected object separator"

end

def readValue : Reads Value := fueled (fun length => 2 * length + 1) readValueWith

/-- What `parse` runs on its reader. -/
def parseWhole : Reads Value := do
  let value ← readValue
  skipWs
  branch atEnd (pure value) (failHere .syntax_ "trailing input")

/-- Parses one complete JSON value and rejects trailing non-whitespace input. -/
def parse (input : Bytes) : Option (Except WireError Value) :=
  (parseWhole (reader input)).map fun result => result.map Prod.fst

end Ciel.Json
