import Ciel.Std.Json.Typed

/-!
# Decoding of typed JSON

The `decode_value` implementations. Each former of types is a function of the readers of its
components, so that the recursion over types is in `decodeValue` alone.
-/

namespace Ciel.Json

open Library Reading Cursor Numbers

variable {α : Type}

/-! ## Error paths -/

def replaceErrorPath (error : WireError) (path : Bytes) : WireError := { error with path := path }

/-- Puts `parent` in the place of the root of the path of an error. -/
def prependPath (parent : Bytes) (error : WireError) : WireError :=
  if error.path.length > 1 && error.path.head? == some (byte '$') then
    replaceErrorPath error (parent ++ error.path.tail)
  else replaceErrorPath error parent

def prependFieldPath (field : Bytes) : WireError → WireError :=
  prependPath ([byte '$', byte '.'] ++ field)

def prependIndexPath (index : Nat) : WireError → WireError :=
  prependPath ([byte '$', byte '['] ++ usizeToString index ++ [byte ']'])

/-! ## Slots -/

/-- What `decode` runs on its reader. -/
def decodeWhole (decoder : Reads α) : Reads α := do
  let value ← decoder
  skipWs
  branch atEnd (pure value) (failHere .syntax_ "trailing input")

/-- Runs a decoder on a text of its own. -/
def decodeText (decoder : Reads α) (input : Bytes) : Option (Except WireError α) :=
  (decodeWhole decoder (reader input)).map fun result => result.map Prod.fst

/-- Decodes a tree by way of its printed form. -/
def decodeJsonSlot (decoder : Reads α) (value : Value) : Reads α := do
  let encoded ← lift (stringify value)
  embed (decodeText decoder encoded)

/-! ## Leaves

A leaf reads a tree and takes the value from it. Errors name the offset before the tree. -/

def boolFrom (start : Nat) : Value → Reads Val
  | .bool inner => pure (.bool inner)
  | _ => fail fun _ => errorAt .typeMismatch start "expected JSON boolean"

def decodeBool : Reads Val :=
  fromOffset fun start => readValue >>= boolFrom start

def numberFrom (kind : IntKind) (start : Nat) : Value → Reads Val
  | .number number =>
    match Numbers.parseNumber kind number.raw with
    | .ok out => pure (.int out)
    | .error _ => fail fun _ => errorAt .invalidValue start "invalid JSON number for target type"
  | _ => fail fun _ => errorAt .typeMismatch start "expected JSON number"

def decodeNumber (kind : IntKind) : Reads Val :=
  fromOffset fun start => readValue >>= numberFrom kind start

def charFrom (start : Nat) : Value → Reads Val
  | .string [c] => pure (.char c)
  | .string _ => fail fun _ => errorAt .invalidValue start "expected one-character JSON string"
  | _ => fail fun _ => errorAt .typeMismatch start "expected one-character JSON string"

def decodeChar : Reads Val :=
  fromOffset fun start => readValue >>= charFrom start

def textFrom (start : Nat) : Value → Reads Val
  | .string inner => pure (.text inner)
  | _ => fail fun _ => errorAt .typeMismatch start "expected JSON string"

def decodeTextValue : Reads Val :=
  fromOffset fun start => readValue >>= textFrom start

def base64Error (start : Nat) : Base64.Base64Error → WireError
  | .storage => errorAt .storage start "json storage error"
  | .invalidLength => errorAt .invalidValue start "invalid base64 length"
  | .invalidPadding => errorAt .invalidValue start "invalid base64 padding"
  | .invalidChar => errorAt .invalidValue start "invalid base64 character"

def bytesFrom (start : Nat) : Value → Reads Val
  | .string inner =>
    match Base64.decode inner with
    | .ok decoded => pure (.bytes decoded)
    | .error error => fail fun _ => base64Error start error
  | _ => fail fun _ => errorAt .typeMismatch start "expected JSON base64 string"

def decodeBytes : Reads Val :=
  fromOffset fun start => readValue >>= bytesFrom start

/-! ## Options, arrays and vectors -/

def decodeOption (inner : Reads Val) : Reads Val := do
  skipWs
  branch (nextIs (· == byte 'n'))
    (do consumeLiteral (['n', 'u', 'l', 'l'].map byte); pure .none)
    (do let value ← inner; pure (.some value))

def arrayValuesExact (value : Value) (expected : Nat) : Except WireError (List Value) :=
  match value with
  | .array items =>
    if items.length ≠ expected then .error (errorAt .invalidValue 0 "wrong JSON array length")
    else .ok items
  | _ => .error (errorAt .typeMismatch 0 "expected JSON array")

/-- The items of a fixed array, each by `decode_array_item`. -/
def decodeArrayItems (item : Reads Val) : Nat → List Value → Reads (List Val)
  | _, [] => pure []
  | index, value :: values => do
      let decoded ← mapError (prependIndexPath index) (decodeJsonSlot item value)
      let items ← decodeArrayItems item (index + 1) values
      pure (decoded :: items)

def arrayFrom (length : Nat) (item : Reads Val) (value : Value) : Reads Val := do
  let values ← lift (arrayValuesExact value length)
  let items ← decodeArrayItems item 0 values
  pure (.array items)

def decodeArray (length : Nat) (item : Reads Val) : Reads Val :=
  readValue >>= arrayFrom length item

/-- The loop over the elements of a vector, with those decoded so far. -/
def decodeVecItems (item : Reads Val) : Nat → List Val → Reads (List Val)
  | 0, _ => starve
  | fuel + 1, out => do
      let decoded ← mapError (prependIndexPath out.length) item
      skipWs
      branch atEnd (failHere .eof "unterminated array") <|
        onNext (is (byte ',')) (fun _ => do skipWs; decodeVecItems item fuel (out ++ [decoded])) <|
        onNext (is (byte ']')) (fun _ => pure (out ++ [decoded])) <|
        failHere .syntax_ "expected array separator"

def decodeVec (item : Reads Val) : Reads Val := do
  skipWs
  branch atEnd (failHere .eof "expected JSON array") <|
    onNext (is (byte '[')) (fun _ => do
      skipWs
      onNext (is (byte ']')) (fun _ => pure (.vec [])) <| do
        let items ← fueled (· + 1) fun fuel => decodeVecItems item fuel []
        pure (.vec items)) <|
    failHere .typeMismatch "expected JSON array"

/-! ## Objects -/

def objectMembers (value : Value) : Except WireError (List Value) :=
  match value with
  | .object entries =>
    if entries.length % 2 ≠ 0 then .error (errorAt .invalidValue 0 "invalid JSON object")
    else .ok entries
  | _ => .error (errorAt .typeMismatch 0 "expected JSON object")

/-- The loop of `object_lookup`, with what was found so far. -/
def lookupMembers (name : Bytes) : Option Value → List Value → Except WireError (Option Value)
  | found, [] => .ok found
  | _, [_] => .error (errorAt .invalidValue 0 "invalid JSON object")
  | found, .string key :: value :: members =>
    if key = name then
      if found.isSome then .error (errorAt .duplicateField 0 "duplicate JSON object field")
      else lookupMembers name (some value) members
    else lookupMembers name found members
  | _, _ => .error (errorAt .invalidValue 0 "invalid JSON object key")

def objectLookup (object : Value) (name : Bytes) : Except WireError (Option Value) :=
  match object with
  | .object entries => lookupMembers name none entries
  | _ => .error (errorAt .typeMismatch 0 "expected JSON object")

def schemaHasField (schema : List (Bytes × Ty)) (name : Bytes) : Bool :=
  schema.any fun field => name == field.1

/-- The loop of `check_unknown_fields` under the policy that denies them. -/
def checkMembers (schema : List (Bytes × Ty)) : List Value → Except WireError Unit
  | [] => .ok ()
  | [_] => .error (errorAt .invalidValue 0 "invalid JSON object")
  | .string key :: _ :: members =>
    if !schemaHasField schema key then
      .error (errorAt .unknownField 0 "unknown JSON object field")
    else checkMembers schema members
  | _ => .error (errorAt .invalidValue 0 "invalid JSON object key")

def checkUnknownFields (schema : List (Bytes × Ty)) (object : Value) : Except WireError Unit :=
  match object with
  | .object entries => checkMembers schema entries
  | _ => .error (errorAt .typeMismatch 0 "expected JSON object")

/-- A field of a struct, from what was found for it. -/
def decodeField (name : Bytes) (decoder : Reads Val) : Option Value → Reads Val
  | some json => mapError (prependFieldPath name) (decodeJsonSlot decoder json)
  | none => fail fun _ =>
    prependFieldPath name (errorAt .missingField 0 "missing JSON object field")

def decodeStructFields (decoder : Ty → Reads Val) (object : Value) :
    List (Bytes × Ty) → Reads (List Val)
  | [] => pure []
  | (name, ty) :: schema => do
      let found ← lift (objectLookup object name)
      let field ← decodeField name (decoder ty) found
      let fields ← decodeStructFields decoder object schema
      pure (field :: fields)

variable (decoder : Ty → Reads Val)

def structFrom (schema : StructSchema) (value : Value) : Reads Val := do
  lift (checkUnknownFields schema.fields value)
  let fields ← decodeStructFields decoder value schema.fields
  pure (.struct fields)

def decodeStruct (schema : StructSchema) : Reads Val :=
  readValue >>= structFrom decoder schema

/-- The payloads of a variant, with the values that are left. -/
def decodeEnumPayloads (decoder : Ty → Reads Val) :
    Nat → List Ty → List Value → Reads (List Val × List Value)
  | _, [], values => pure ([], values)
  | _, _ :: _, [] => fail fun _ => errorAt .missingField 0 "missing JSON enum payload"
  | index, ty :: tys, value :: values => do
      let decoded ← mapError (prependIndexPath index) (decodeJsonSlot (decoder ty) value)
      let (payload, left) ← decodeEnumPayloads decoder (index + 1) tys values
      pure (decoded :: payload, left)

def decodeEnumPayloadValue : List Ty → Value → Reads (List Val)
  | [], .null => pure []
  | [], .array [] => pure []
  | [], .array _ => fail fun _ =>
    errorAt .invalidValue 0 "unit enum payload must be null or empty array"
  | [], _ => fail fun _ => errorAt .typeMismatch 0 "expected unit enum payload"
  | tys, .array values => do
      let (payload, left) ← decodeEnumPayloads decoder 0 tys values
      if left ≠ [] then fail fun _ => errorAt .invalidValue 0 "too many JSON enum payload values"
      else pure payload
  | _, _ => fail fun _ => errorAt .typeMismatch 0 "expected JSON enum payload array"

def decodeEnumVariant (decoder : Ty → Reads Val) (name : Bytes) (payload : Value) :
    Nat → List (Bytes × List Ty) → Reads Val
  | _, [] => fail fun _ => errorAt .unknownVariant 0 "unknown JSON enum variant"
  | index, (variant, tys) :: variants =>
    if name = variant then do
      let decoded ← mapError (prependFieldPath variant) (decodeEnumPayloadValue decoder tys payload)
      pure (.enum index decoded)
    else decodeEnumVariant decoder name payload (index + 1) variants

def enumFromMembers (schema : EnumSchema) : List Value → Reads Val
  | [.string name, payload] => decodeEnumVariant decoder name payload 0 schema.variants
  | [_, _] => fail fun _ => errorAt .invalidValue 0 "invalid JSON enum variant key"
  | _ => fail fun _ => errorAt .invalidValue 0 "externally tagged enum must contain one field"

def enumFrom (schema : EnumSchema) (value : Value) : Reads Val :=
  lift (objectMembers value) >>= enumFromMembers decoder schema

def decodeEnum (schema : EnumSchema) : Reads Val :=
  readValue >>= enumFrom decoder schema

/-! ## Maps -/

def decodeObjectKey : KeyTy → Bytes → Except WireError Key
  | .text, key => .ok (.text key)
  | .char, [c] => .ok (.char c)
  | .char, _ => .error (errorAt .invalidValue 0 "invalid JSON object key")
  | .bool, key =>
    if key = ['t', 'r', 'u', 'e'].map byte then .ok (.bool true)
    else if key = ['f', 'a', 'l', 's', 'e'].map byte then .ok (.bool false)
    else .error (errorAt .invalidValue 0 "invalid JSON object key")
  | .int kind, key =>
    match Numbers.parseNumber kind key with
    | .ok value => .ok (.int value)
    | .error _ => .error (errorAt .invalidValue 0 "invalid JSON object key")

/-- Inserts a key that is not in the map; `Replaced` is an error here. -/
def insertEntry (entries : List (Key × Val)) (key : Key) (value : Val) :
    Except WireError (List (Key × Val)) :=
  if entries.any fun entry => entry.1 == key then
    .error (errorAt .duplicateField 0 "duplicate JSON object field")
  else .ok (entries ++ [(key, value)])

/-- The loop over the members of an object, with the map so far. -/
def decodeEntries (keyTy : KeyTy) (item : Reads Val) :
    List (Key × Val) → List Value → Reads (List (Key × Val))
  | out, .string name :: value :: members => do
      let key ← lift (decodeObjectKey keyTy name)
      let decoded ← mapError (prependFieldPath name) (decodeJsonSlot item value)
      let out ← lift (insertEntry out key decoded)
      decodeEntries keyTy item out members
  | out, [] => pure out
  | _, _ => fail fun _ => errorAt .invalidValue 0 "invalid JSON object key"

def hashMapFrom (keyTy : KeyTy) (item : Reads Val) (value : Value) : Reads Val := do
  let members ← lift (objectMembers value)
  let entries ← decodeEntries keyTy item [] members
  pure (.hashMap entries)

def decodeHashMap (keyTy : KeyTy) (item : Reads Val) : Reads Val :=
  readValue >>= hashMapFrom keyTy item

/-! ## The recursion over types -/

def decodeValue (schemas : Schemas) : Nat → Ty → Reads Val
  | 0, _ => starve
  | _ + 1, .bool => decodeBool
  | _ + 1, .int kind => decodeNumber kind
  | _ + 1, .char => decodeChar
  | _ + 1, .text => decodeTextValue
  | _ + 1, .bytes => decodeBytes
  | fuel + 1, .option ty => decodeOption (decodeValue schemas fuel ty)
  | fuel + 1, .array length ty => decodeArray length (decodeValue schemas fuel ty)
  | fuel + 1, .vec ty => decodeVec (decodeValue schemas fuel ty)
  | fuel + 1, .hashMap keyTy ty => decodeHashMap keyTy (decodeValue schemas fuel ty)
  | fuel + 1, .named id =>
    match schemas id with
    | .struct schema => decodeStruct (fun ty => decodeValue schemas fuel ty) schema
    | .enum schema => decodeEnum (fun ty => decodeValue schemas fuel ty) schema

/-- Decodes one complete JSON text, with fuel for the nesting of the types. -/
def decode (schemas : Schemas) (fuel : Nat) (ty : Ty) (input : Bytes) :
    Option (Except WireError Val) :=
  decodeText (decodeValue schemas fuel ty) input

end Ciel.Json
