import Ciel.Std.Base64
import Ciel.Std.Json.Writer
import Ciel.Std.Numbers

/-!
# Typed JSON

The `encode_value` and `decode_value` implementations of `std/json`. A type is a code: the
built-in types, `Option`, fixed arrays, `Vec`, `HashMap` and named types, whose schemas are
given by a table, so that derived types may be recursive. A value is untyped and `HasType` says
which values a type has.

A map is the list of its entries; `Stores` says which hash map the list stands for. The order
is that in which `hash_map_for_each_index` visits them when the map is written, and that in
which they were inserted when it is read; equal lists are equal maps in any case.

Encoding appends to a buffer. Decoding works on a reader, and is nested by fuel; members and
elements are decoded from the printed form of their tree, as `decode_json_slot` does.
-/

namespace Ciel.Json

open Library Reading Cursor Numbers

/-! ## Types and values -/

/-- The types with an implementation of `json_object_key`. -/
inductive KeyTy
  | text
  | char
  | bool
  | int (kind : IntKind)
  deriving DecidableEq, Repr

inductive Ty
  | bool
  | int (kind : IntKind)
  | char
  | text
  | bytes
  | option (inner : Ty)
  | array (length : Nat) (item : Ty)
  | vec (item : Ty)
  | hashMap (key : KeyTy) (value : Ty)
  | named (id : Nat)
  deriving DecidableEq, Repr

/-- The fields of a derived struct. -/
structure StructSchema where
  fields : List (Bytes × Ty)
  distinct : (fields.map Prod.fst).Nodup

/-- The variants of a derived enum with the types of their payloads. -/
structure EnumSchema where
  variants : List (Bytes × List Ty)
  distinct : (variants.map Prod.fst).Nodup

inductive Schema
  | struct (schema : StructSchema)
  | enum (schema : EnumSchema)

abbrev Schemas := Nat → Schema

inductive Key
  | text (text : Bytes)
  | char (c : UInt8)
  | bool (b : Bool)
  | int (i : Int)
  deriving DecidableEq, Repr

inductive Val
  | bool (b : Bool)
  | int (i : Int)
  | char (c : UInt8)
  | text (text : Bytes)
  | bytes (data : Bytes)
  | none
  | some (inner : Val)
  | array (items : List Val)
  | vec (items : List Val)
  | hashMap (entries : List (Key × Val))
  | struct (fields : List Val)
  | enum (variant : Nat) (payload : List Val)
  deriving Repr

inductive KeyHasType : Key → KeyTy → Prop
  | text {t : Bytes} : KeyHasType (.text t) .text
  | char {c : UInt8} : KeyHasType (.char c) .char
  | bool {b : Bool} : KeyHasType (.bool b) .bool
  | int {i : Int} {kind : IntKind} : InRange kind i → KeyHasType (.int i) (.int kind)

mutual

/-- The values of a type. Arrays have at most sixteen elements, since longer ones have no
implementation. -/
inductive HasType (schemas : Schemas) : Val → Ty → Prop
  | bool {b : Bool} : HasType schemas (.bool b) .bool
  | int {i : Int} {kind : IntKind} : InRange kind i → HasType schemas (.int i) (.int kind)
  | char {c : UInt8} : HasType schemas (.char c) .char
  | text {t : Bytes} : HasType schemas (.text t) .text
  | bytes {data : Bytes} : HasType schemas (.bytes data) .bytes
  | none {ty : Ty} : HasType schemas .none (.option ty)
  | some {v : Val} {ty : Ty} : HasType schemas v ty → HasType schemas (.some v) (.option ty)
  | array {items : List Val} {n : Nat} {ty : Ty} : n ≤ 16 →
      ListHasType schemas items (List.replicate n ty) → HasType schemas (.array items) (.array n ty)
  | vec {items : List Val} {n : Nat} {ty : Ty} :
      ListHasType schemas items (List.replicate n ty) → HasType schemas (.vec items) (.vec ty)
  | hashMap {entries : List (Key × Val)} {key : KeyTy} {n : Nat} {ty : Ty} :
      (∀ entry ∈ entries, KeyHasType entry.1 key) → (entries.map Prod.fst).Nodup →
      ListHasType schemas (entries.map Prod.snd) (List.replicate n ty) →
      HasType schemas (.hashMap entries) (.hashMap key ty)
  | struct {fields : List Val} {id : Nat} {schema : StructSchema} :
      schemas id = .struct schema → ListHasType schemas fields (schema.fields.map Prod.snd) →
      HasType schemas (.struct fields) (.named id)
  | enum {variant id : Nat} {payload : List Val} {schema : EnumSchema} {name : Bytes}
      {tys : List Ty} : schemas id = .enum schema → schema.variants[variant]? = .some (name, tys) →
      ListHasType schemas payload tys → HasType schemas (.enum variant payload) (.named id)

inductive ListHasType (schemas : Schemas) : List Val → List Ty → Prop
  | nil : ListHasType schemas [] []
  | cons {v : Val} {ty : Ty} {vs : List Val} {tys : List Ty} : HasType schemas v ty →
      ListHasType schemas vs tys → ListHasType schemas (v :: vs) (ty :: tys)

end

/-! ## Encoding -/

def encodeObjectKey : KeyTy → Key → Bytes
  | _, .text text => text
  | _, .char c => [c]
  | _, .bool true => ['t', 'r', 'u', 'e'].map byte
  | _, .bool false => ['f', 'a', 'l', 's', 'e'].map byte
  | .int kind, .int i => toText kind i
  | _, .int i => i64ToString i

/-- The comma before all but the first. -/
def pushComma (first : Bool) (out : Bytes) : Bytes := if first then out else out ++ [byte ',']

mutual

/-- `encode_value` by type. A value of another type is not a value of the type; nothing is
written for it. -/
def encodeValue (schemas : Schemas) : Val → Ty → Bytes → Except WireError Bytes
  | .bool true, .bool, out => .ok (out ++ ['t', 'r', 'u', 'e'].map byte)
  | .bool false, .bool, out => .ok (out ++ ['f', 'a', 'l', 's', 'e'].map byte)
  | .int i, .int kind, out => .ok (out ++ toText kind i)
  | .char c, .char, out => .ok (writeStringText out [c])
  | .text text, .text, out => .ok (writeStringText out text)
  | .bytes data, .bytes, out => .ok (writeStringText out (Base64.encode data))
  | .none, .option _, out => .ok (out ++ ['n', 'u', 'l', 'l'].map byte)
  | .some inner, .option ty, out => encodeValue schemas inner ty out
  | .array _, .array 0 _, out => .ok (out ++ [byte '[', byte ']'])
  | .array items, .array _ ty, out => do
      let out ← encodeItems schemas true items ty (out ++ [byte '['])
      .ok (out ++ [byte ']'])
  | .vec items, .vec ty, out => do
      let out ← encodeItems schemas true items ty (out ++ [byte '['])
      .ok (out ++ [byte ']'])
  | .hashMap entries, .hashMap key ty, out => do
      let out ← encodeEntries schemas true entries key ty (out ++ [byte '{'])
      .ok (out ++ [byte '}'])
  | .struct fields, .named id, out =>
    match schemas id with
    | .struct schema => do
        let out ← encodeStructFields schemas true fields schema.fields (out ++ [byte '{'])
        .ok (out ++ [byte '}'])
    | .enum _ => .ok out
  | .enum variant payload, .named id, out =>
    match schemas id with
    | .struct _ => .ok out
    | .enum schema =>
      match schema.variants[variant]? with
      | .none => .ok out
      | .some (name, []) =>
        .ok (writeStringText (out ++ [byte '{']) name ++ [byte ':'] ++
          ['n', 'u', 'l', 'l'].map byte ++ [byte '}'])
      | .some (name, tys) => do
          let out := writeStringText (out ++ [byte '{']) name ++ [byte ':']
          let out ← encodeEnumPayloads schemas true payload tys (out ++ [byte '['])
          .ok (out ++ [byte ']'] ++ [byte '}'])
  | _, _, out => .ok out

/-- The loop of `write_slice_as_array` and of `Vec`. -/
def encodeItems (schemas : Schemas) : Bool → List Val → Ty → Bytes → Except WireError Bytes
  | _, [], _, out => .ok out
  | first, item :: items, ty, out => do
      let out ← encodeValue schemas item ty (pushComma first out)
      encodeItems schemas false items ty out

def encodeEntries (schemas : Schemas) :
    Bool → List (Key × Val) → KeyTy → Ty → Bytes → Except WireError Bytes
  | _, [], _, _, out => .ok out
  | first, (key, item) :: entries, keyTy, ty, out => do
      let out := writeStringText (pushComma first out) (encodeObjectKey keyTy key) ++ [byte ':']
      let out ← encodeValue schemas item ty out
      encodeEntries schemas false entries keyTy ty out

def encodeStructFields (schemas : Schemas) :
    Bool → List Val → List (Bytes × Ty) → Bytes → Except WireError Bytes
  | first, field :: fields, (name, ty) :: schema, out => do
      let out := writeStringText (pushComma first out) name ++ [byte ':']
      let out ← encodeValue schemas field ty out
      encodeStructFields schemas false fields schema out
  | _, _, _, out => .ok out

def encodeEnumPayloads (schemas : Schemas) :
    Bool → List Val → List Ty → Bytes → Except WireError Bytes
  | first, item :: payload, ty :: tys, out => do
      let out ← encodeValue schemas item ty (pushComma first out)
      encodeEnumPayloads schemas false payload tys out
  | _, _, _, out => .ok out

end

/-- Encodes one value to JSON text. -/
def encode (schemas : Schemas) (ty : Ty) (v : Val) : Except WireError Bytes :=
  encodeValue schemas v ty []

end Ciel.Json
