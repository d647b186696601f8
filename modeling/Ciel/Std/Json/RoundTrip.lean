import Ciel.Std.Json.Encoded

/-!
# Round trip of typed JSON

Maps, structs and enums are objects, whose members are found by their names. With them every
former of types keeps the round trip, and induction over the typing of a value gives it for all
types.

`None` and `Some(None)` have the same text, so the round trip is for values in which no `Some`
holds a `None`.
-/

namespace Ciel.Json

open Library Reading Cursor Numbers

variable {schemas : Schemas} {n fuel : Nat} {ty : Ty} {v : Val} {value : Value} {s : Bytes}
variable {entries : List (Key × Val)} {keyTy : KeyTy} {name : Bytes}

/-! ## Members of objects -/

/-- A string as it is written. -/
def quoted (name : Bytes) : Bytes := byte '"' :: (name.flatMap escapeByte ++ [byte '"'])

/-- Keys and values in turn. -/
def members : List Bytes → List Value → List Value
  | name :: names, value :: values => .string name :: value :: members names values
  | _, _ => []

def memberTexts : List Bytes → List Bytes → List Bytes
  | name :: names, s :: texts => (quoted name ++ byte ':' :: s) :: memberTexts names texts
  | _, _ => []

namespace EncodedList

variable {tys : List Ty} {vs : List Val} {values : List Value} {texts names : List Bytes}

theorem printable_members (known : EncodedList schemas n tys vs values texts)
    (named : names.length = tys.length) : PrintableMembers (members names values) := by
  induction known generalizing names with
  | nil =>
    cases names with
    | nil => trivial
    | cons name names => cases named
  | cons item _ ih =>
    cases names with
    | nil => cases named
    | cons name names => exact ⟨item.printable, ih (Nat.succ.inj named)⟩

theorem written_members (known : EncodedList schemas n tys vs values texts)
    (named : names.length = tys.length) (first : Bool) (out : Bytes) :
    writeMembers first (members names values) out =
      .ok (out ++ joined first (memberTexts names texts)) := by
  induction known generalizing names first out with
  | nil =>
    cases names with
    | nil => simp [members, writeMembers, memberTexts, joined]
    | cons name names => cases named
  | cons item _ ih =>
    cases names with
    | nil => cases named
    | cons name names =>
      rw [members, writeMembers, separated, item.written, ok_bind, ih (Nat.succ.inj named),
        memberTexts, joined]
      simp [writeStringText, quoted]

theorem encoded_fields {fields : List (Bytes × Ty)}
    (known : EncodedList schemas n (fields.map Prod.snd) vs values texts) (first : Bool)
    (out : Bytes) :
    encodeStructFields schemas first vs fields out =
      .ok (out ++ joined first (memberTexts (fields.map Prod.fst) texts)) := by
  induction fields generalizing vs values texts first out with
  | nil =>
    cases known
    simp [encodeStructFields, memberTexts, joined]
  | cons field fields ih =>
    obtain ⟨name, ty⟩ := field
    cases known with
    | cons item rest =>
      rw [encodeStructFields, item.encoded, ok_bind, ih rest, List.map_cons, memberTexts, joined,
        pushComma, separated]
      simp [writeStringText, quoted]

theorem encoded_entries (known : EncodedList schemas n tys (entries.map Prod.snd) values texts)
    (same : ∀ t ∈ tys, t = ty) (first : Bool) (out : Bytes) :
    encodeEntries schemas first entries keyTy ty out =
      .ok (out ++ joined first
        (memberTexts (entries.map fun entry => encodeObjectKey keyTy entry.1) texts)) := by
  induction entries generalizing tys values texts first out with
  | nil =>
    cases known
    simp [encodeEntries, memberTexts, joined]
  | cons entry entries ih =>
    obtain ⟨key, v⟩ := entry
    cases known with
    | cons item rest =>
      obtain ⟨rfl, same⟩ := List.forall_mem_cons.1 same
      rw [encodeEntries, item.encoded, ok_bind, ih rest same, List.map_cons, memberTexts,
        joined, pushComma, separated]
      simp [writeStringText, quoted]

/-! Looking up the members -/

theorem lookup_absent (found : Option Value) (other : name ∉ names)
    (even : names.length = values.length) :
    lookupMembers name found (members names values) = .ok found := by
  induction names generalizing values with
  | nil =>
    cases values with
    | nil => simp [members, lookupMembers]
    | cons value values => cases even
  | cons name' names ih =>
    cases values with
    | nil => cases even
    | cons value values =>
      obtain ⟨differs, absent⟩ := not_or.1 fun mem => other (List.mem_cons.2 mem)
      rw [members, lookupMembers, if_neg (Ne.symm differs)]
      exact ih absent (Nat.succ.inj even)

/-- A member is found under its name if the names are distinct. -/
theorem lookup_member {value : Value} (distinct : names.Nodup) (even : names.length = values.length)
    (member : (name, value) ∈ names.zip values) :
    lookupMembers name none (members names values) = .ok (some value) := by
  induction names generalizing values with
  | nil => cases member
  | cons name' names ih =>
    cases values with
    | nil => cases member
    | cons value' values =>
      obtain ⟨fresh, distinct⟩ := List.nodup_cons.1 distinct
      rw [List.zip_cons_cons, List.mem_cons] at member
      rw [members, lookupMembers]
      rcases member with here | later
      · obtain ⟨rfl, rfl⟩ := Prod.mk.inj here
        rw [if_pos rfl]
        exact lookup_absent (some value) fresh (Nat.succ.inj even)
      · have differs : name' ≠ name := by
          rintro rfl
          exact fresh (List.of_mem_zip later).1
        rw [if_neg differs]
        exact ih distinct (Nat.succ.inj even) later

theorem check_members {schema : List (Bytes × Ty)}
    (known : ∀ name ∈ names, schemaHasField schema name)
    (even : names.length = values.length) :
    checkMembers schema (members names values) = .ok () := by
  induction names generalizing values with
  | nil =>
    cases values with
    | nil => simp [members, checkMembers]
    | cons value values => cases even
  | cons name names ih =>
    cases values with
    | nil => cases even
    | cons value values =>
      obtain ⟨first, known⟩ := List.forall_mem_cons.1 known
      rw [members, checkMembers, first]
      exact ih known (Nat.succ.inj even)

theorem members_length (even : names.length = values.length) :
    (members names values).length = 2 * names.length := by
  induction names generalizing values with
  | nil => simp [members]
  | cons name names ih =>
    cases values with
    | nil => cases even
    | cons value values =>
      simp only [members, List.length_cons, ih (Nat.succ.inj even)]
      omega

/-- The fields of a struct are decoded one by one from an object that has them. -/
theorem decoded_fields {fields : List (Bytes × Ty)} {object : Value}
    (known : EncodedList schemas n (fields.map Prod.snd) vs values texts)
    (found : ∀ pair ∈ (fields.map Prod.fst).zip values,
      objectLookup object pair.1 = .ok (some pair.2))
    (enough : n ≤ fuel) (r : Reader) :
    (decodeStructFields (fun ty => decodeValue schemas fuel ty) object fields).Returns r vs r := by
  induction fields generalizing vs values texts with
  | nil =>
    cases known
    exact returns_pure.2 ⟨rfl, rfl⟩
  | cons field fields ih =>
    obtain ⟨name, ty⟩ := field
    cases known with
    | cons item rest =>
      rw [List.map_cons, List.zip_cons_cons, List.forall_mem_cons] at found
      refine returns_bind.2 ⟨_, r, returns_lift.2 ⟨found.1, rfl⟩, ?_⟩
      refine returns_bind.2 ⟨_, r, returns_mapError.2 (item.slot enough r), ?_⟩
      exact returns_bind.2 ⟨_, r, ih rest found.2, returns_pure.2 ⟨rfl, rfl⟩⟩

end EncodedList

theorem decodeObjectKey_encode {key : Key} (typed : KeyHasType key keyTy) :
    decodeObjectKey keyTy (encodeObjectKey keyTy key) = .ok key := by
  cases typed with
  | text => rfl
  | char => rfl
  | @bool b => cases b <;> rfl
  | int range => simp [decodeObjectKey, encodeObjectKey, parseNumber_toText range]

theorem insertEntry_fresh {key : Key} (fresh : key ∉ entries.map Prod.fst) (v : Val) :
    insertEntry entries key v = .ok (entries ++ [(key, v)]) := by
  rw [insertEntry, if_neg]
  intro found
  obtain ⟨entry, mem, same⟩ := List.any_eq_true.1 found
  exact fresh (List.mem_map.2 ⟨entry, mem, eq_of_beq same⟩)

theorem decodeEntries_returns {tys : List Ty} {values : List Value} {texts : List Bytes}
    (known : EncodedList schemas n tys (entries.map Prod.snd) values texts)
    (same : ∀ t ∈ tys, t = ty) (keys : ∀ entry ∈ entries, KeyHasType entry.1 keyTy)
    (out : List (Key × Val)) (distinct : ((out ++ entries).map Prod.fst).Nodup) (enough : n ≤ fuel)
    (r : Reader) :
    (decodeEntries keyTy (decodeValue schemas fuel ty) out
      (members (entries.map fun entry => encodeObjectKey keyTy entry.1) values)).Returns r
        (out ++ entries) r := by
  induction entries generalizing tys values texts out with
  | nil =>
    cases known
    rw [List.append_nil]
    exact returns_pure.2 ⟨rfl, rfl⟩
  | cons entry entries ih =>
    obtain ⟨key, v⟩ := entry
    cases known with
    | cons item rest =>
      obtain ⟨rfl, same⟩ := List.forall_mem_cons.1 same
      obtain ⟨typed, keys⟩ := List.forall_mem_cons.1 keys
      have fresh : key ∉ out.map Prod.fst := by
        rw [List.map_append, List.nodup_append] at distinct
        intro mem
        exact distinct.2.2 key mem key (by simp) rfl
      have shape : out ++ (key, v) :: entries = out ++ [(key, v)] ++ entries := by simp
      rw [shape] at distinct ⊢
      refine returns_bind.2 ⟨key, r, returns_lift.2 ⟨decodeObjectKey_encode typed, rfl⟩, ?_⟩
      refine returns_bind.2 ⟨v, r, returns_mapError.2 (item.slot enough r), ?_⟩
      refine returns_bind.2 ⟨_, r, returns_lift.2 ⟨insertEntry_fresh fresh v, rfl⟩, ?_⟩
      exact ih rest same keys _ distinct

namespace Encoded

variable {tys : List Ty} {vs : List Val} {values : List Value} {texts names : List Bytes}

/-- The text of an object. -/
def braced (texts : List Bytes) : Bytes := byte '{' :: (joined true texts ++ [byte '}'])

theorem object_written (items : EncodedList schemas n tys vs values texts)
    (named : names.length = tys.length) (out : Bytes) :
    writeValueToBuf (.object (members names values)) out =
      .ok (out ++ braced (memberTexts names texts)) := by
  rw [writeValueToBuf, items.written_members named, ok_bind, braced]
  simp

theorem hashMap (items : EncodedList schemas n tys (entries.map Prod.snd) values texts)
    (same : ∀ t ∈ tys, t = ty) (keys : ∀ entry ∈ entries, KeyHasType entry.1 keyTy)
    (distinct : (entries.map Prod.fst).Nodup) :
    Encoded schemas (n + 1) (.hashMap keyTy ty) (.hashMap entries)
      (.object (members (entries.map fun entry => encodeObjectKey keyTy entry.1) values))
      (braced (memberTexts (entries.map fun entry => encodeObjectKey keyTy entry.1) texts)) := by
  obtain ⟨valueCount, -, count⟩ := items.lengths
  rw [List.length_map] at count
  have named : (entries.map fun entry => encodeObjectKey keyTy entry.1).length = tys.length := by
    rw [List.length_map, count]
  refine of_tree (items.printable_members named) (object_written items named) ?_ ?_ (by simp)
  · intro out
    rw [encodeValue, items.encoded_entries same, ok_bind, braced]
    simp
  · intro fuel enough start
    refine ⟨hashMapFrom keyTy (decodeValue schemas fuel ty), fun _ => rfl, ?_⟩
    intro r
    refine returns_bind.2 ⟨_, r, returns_lift.2 ⟨?_, rfl⟩, returns_bind.2 ⟨entries, r,
      decodeEntries_returns items same keys [] distinct enough r, returns_pure.2 ⟨rfl, rfl⟩⟩⟩
    rw [objectMembers, EncodedList.members_length (named.trans valueCount.symm), if_neg]
    omega

theorem struct {id : Nat} {schema : StructSchema} (declared : schemas id = .struct schema)
    (items : EncodedList schemas n (schema.fields.map Prod.snd) vs values texts) :
    Encoded schemas (n + 1) (.named id) (.struct vs)
      (.object (members (schema.fields.map Prod.fst) values))
      (braced (memberTexts (schema.fields.map Prod.fst) texts)) := by
  have named : (schema.fields.map Prod.fst).length = (schema.fields.map Prod.snd).length := by
    rw [List.length_map, List.length_map]
  have even := named.trans items.lengths.1.symm
  refine of_tree (items.printable_members named) (object_written items named) ?_ ?_ (by simp)
  · intro out
    rw [encodeValue, declared]
    simp only [items.encoded_fields, ok_bind, braced]
    simp
  · intro fuel enough start
    refine ⟨structFrom (fun ty => decodeValue schemas fuel ty) schema, ?_, ?_⟩
    · intro rest
      rw [decodeValue, declared]
      rfl
    · intro r
      refine returns_bind.2 ⟨(), r, returns_lift.2 ⟨?_, rfl⟩, returns_bind.2 ⟨vs, r,
        items.decoded_fields ?_ enough r, returns_pure.2 ⟨rfl, rfl⟩⟩⟩
      · refine EncodedList.check_members ?_ even
        intro name mem
        obtain ⟨field, here, rfl⟩ := List.mem_map.1 mem
        exact List.any_eq_true.2 ⟨field, here, beq_self_eq_true _⟩
      · intro pair mem
        exact EncodedList.lookup_member schema.distinct even mem

/-- The tree of the payload of a variant. -/
def payloadTree : List Value → Value
  | [] => .null
  | values => .array values

def payloadText : List Bytes → Bytes
  | [] => ['n', 'u', 'l', 'l'].map byte
  | texts => bracketed texts

theorem enum_declared {decoder : Ty → Reads Val} {variant : Nat} (index : Nat)
    {variants : List (Bytes × List Ty)} {payload : Value} {r : Reader}
    (distinct : (variants.map Prod.fst).Nodup) (declared : variants[variant]? = .some (name, tys))
    (decoded : (decodeEnumPayloadValue decoder tys payload).Returns r vs r) :
    (decodeEnumVariant decoder name payload index variants).Returns r
      (.enum (index + variant) vs) r := by
  induction variants generalizing variant index with
  | nil => simp at declared
  | cons first variants ih =>
    obtain ⟨name', tys'⟩ := first
    obtain ⟨fresh, distinct⟩ := List.nodup_cons.1 distinct
    rw [decodeEnumVariant]
    cases variant with
    | zero =>
      obtain ⟨rfl, rfl⟩ := Prod.mk.inj (Option.some.inj declared)
      rw [if_pos rfl]
      exact returns_bind.2 ⟨vs, r, returns_mapError.2 decoded, returns_pure.2 ⟨rfl, rfl⟩⟩
    | succ variant =>
      have later : variants[variant]? = .some (name, tys) := by simpa using declared
      have differs : name ≠ name' := by
        rintro rfl
        exact fresh (List.mem_map.2 ⟨_, List.mem_of_getElem? later, rfl⟩)
      rw [if_neg differs]
      have place : index + (variant + 1) = index + 1 + variant := by omega
      rw [place]
      exact ih (index + 1) distinct later

theorem enum {id variant : Nat} {schema : EnumSchema} (known : schemas id = .enum schema)
    (declared : schema.variants[variant]? = .some (name, tys))
    (items : EncodedList schemas n tys vs values texts) :
    Encoded schemas (n + 1) (.named id) (.enum variant vs)
      (.object [.string name, payloadTree values])
      (braced [quoted name ++ byte ':' :: payloadText texts]) := by
  have decoded : ∀ fuel, n ≤ fuel → ∀ r,
      (decodeEnumPayloadValue (fun ty => decodeValue schemas fuel ty) tys
        (payloadTree values)).Returns r vs r := by
    intro fuel enough r
    cases items with
    | nil => exact returns_pure.2 ⟨rfl, rfl⟩
    | cons item rest =>
      have all := (EncodedList.cons item rest).decoded_payloads enough 0 r
      exact returns_bind.2 ⟨_, r, all, returns_pure.2 ⟨rfl, rfl⟩⟩
  refine of_tree ?_ ?_ ?_ ?_ (by simp)
  · cases items with
    | nil => exact ⟨trivial, trivial⟩
    | cons item rest => exact ⟨(EncodedList.cons item rest).printable, trivial⟩
  · intro out
    have payload : ∀ out, writeValueToBuf (payloadTree values) out =
        .ok (out ++ payloadText texts) := by
      cases items with
      | nil => exact fun _ => rfl
      | cons item rest => exact array_written (.cons item rest)
    rw [writeValueToBuf, writeMembers, payload, ok_bind, writeMembers, ok_bind, braced]
    simp [writeStringText, quoted, joined, separator]
  · intro out
    rw [encodeValue, known]
    simp only [declared]
    cases items with
    | nil => simp [braced, writeStringText, quoted, joined, separator, payloadText]
    | cons item rest =>
      simp only [(EncodedList.cons item rest).encoded_payloads, ok_bind, braced]
      simp [writeStringText, quoted, joined, separator, payloadText, bracketed]
  · intro fuel enough start
    refine ⟨enumFrom (fun ty => decodeValue schemas fuel ty) schema, ?_, ?_⟩
    · intro rest
      rw [decodeValue, known]
      rfl
    · intro r
      have pair : objectMembers (.object [.string name, payloadTree values]) =
          .ok [.string name, payloadTree values] := by
        simp [objectMembers]
      refine returns_bind.2 ⟨_, r, returns_lift.2 ⟨pair, rfl⟩, ?_⟩
      have found := enum_declared 0 schema.distinct declared (decoded fuel enough r)
      rw [Nat.zero_add] at found
      exact found

end Encoded

/-! ## All values -/

mutual

/-- No `Some` in the value holds a `None`. -/
def Plain : Val → Prop
  | .some .none => False
  | .some inner => Plain inner
  | .array items => PlainList items
  | .vec items => PlainList items
  | .hashMap entries => PlainEntries entries
  | .struct fields => PlainList fields
  | .enum _ payload => PlainList payload
  | _ => True

def PlainList : List Val → Prop
  | [] => True
  | v :: vs => Plain v ∧ PlainList vs

def PlainEntries : List (Key × Val) → Prop
  | [] => True
  | (_, v) :: entries => Plain v ∧ PlainEntries entries

end

theorem PlainEntries.values (plain : PlainEntries entries) :
    PlainList (entries.map Prod.snd) := by
  induction entries with
  | nil => trivial
  | cons entry entries ih => exact ⟨plain.1, ih plain.2⟩

theorem Plain.some_inner (plain : Plain (.some v)) : v ≠ .none ∧ Plain v := by
  cases v with
  | none => exact plain.elim
  | _ => exact ⟨by simp, plain⟩

/-- Induction over the typing of a value; a list of values has a common bound on the fuel. -/
theorem encoded_of_hasType (typed : HasType schemas v ty) :
    Plain v → ∃ n value s, Encoded schemas n ty v value s := by
  refine @HasType.rec schemas
    (fun v ty _ => Plain v → ∃ n value s, Encoded schemas n ty v value s)
    (fun vs tys _ => PlainList vs → ∃ n values texts, EncodedList schemas n tys vs values texts)
    ?bool ?int ?char ?text ?bytes ?none ?some ?array ?vec ?hashMap ?struct ?enum ?nil ?cons
    v ty typed
  case bool =>
    intro b _
    obtain ⟨s, known⟩ := Encoded.bool b
    exact ⟨1, _, s, known⟩
  case int =>
    intro i kind range _
    obtain ⟨s, known⟩ := Encoded.int range
    exact ⟨1, _, s, known⟩
  case char =>
    intro c _
    obtain ⟨s, known⟩ := Encoded.char c
    exact ⟨1, _, s, known⟩
  case text =>
    intro t _
    obtain ⟨s, known⟩ := Encoded.textValue t
    exact ⟨1, _, s, known⟩
  case bytes =>
    intro data _
    obtain ⟨s, known⟩ := Encoded.bytes data
    exact ⟨1, _, s, known⟩
  case none =>
    intro ty _
    obtain ⟨s, known⟩ := Encoded.none
    exact ⟨1, _, s, known⟩
  case some =>
    intro v ty _ ih plain
    obtain ⟨other, plain⟩ := plain.some_inner
    obtain ⟨n, value, s, known⟩ := ih plain
    exact ⟨n + 1, value, s, known.some other⟩
  case array =>
    intro items length ty _ _ ih plain
    obtain ⟨n, values, texts, known⟩ := ih plain
    exact ⟨n + 1, _, _, .array known⟩
  case vec =>
    intro items length ty _ ih plain
    obtain ⟨n, values, texts, known⟩ := ih plain
    exact ⟨n + 1, _, _, .vec known fun t mem => (List.mem_replicate.1 mem).2⟩
  case hashMap =>
    intro entries key length ty keys distinct _ ih plain
    obtain ⟨n, values, texts, known⟩ := ih (PlainEntries.values plain)
    exact ⟨n + 1, _, _, .hashMap known (fun t mem => (List.mem_replicate.1 mem).2) keys distinct⟩
  case struct =>
    intro fields id schema declared _ ih plain
    obtain ⟨n, values, texts, known⟩ := ih plain
    exact ⟨n + 1, _, _, .struct declared known⟩
  case enum =>
    intro variant id payload schema name tys known declared _ ih plain
    obtain ⟨n, values, texts, items⟩ := ih plain
    exact ⟨n + 1, _, _, .enum known declared items⟩
  case nil =>
    intro _
    exact ⟨0, [], [], .nil⟩
  case cons =>
    intro v ty vs tys _ _ first rest plain
    obtain ⟨n, value, s, known⟩ := first plain.1
    obtain ⟨m, values, texts, more⟩ := rest plain.2
    exact ⟨max n m, _, _, .cons (known.mono (Nat.le_max_left n m))
      (more.mono (Nat.le_max_right n m))⟩

/-- Encoding a value of any type and decoding the text, with enough fuel for the nesting of
the types, gives the value back. -/
def RoundTrips (schemas : Schemas) (ty : Ty) (v : Val) : Prop :=
  ∃ text, encode schemas ty v = .ok text ∧
    ∃ n, ∀ fuel, n ≤ fuel → decode schemas fuel ty text = some (.ok v)

/-- Every value of every type in which no `Some` holds a `None` comes back. -/
theorem roundTrips_of_plain (schemas : Schemas) (ty : Ty) (v : Val) (typed : HasType schemas v ty)
    (plain : Plain v) : RoundTrips schemas ty v := by
  obtain ⟨n, value, s, known⟩ := encoded_of_hasType typed plain
  exact ⟨s, known.encoded [], n, fun fuel enough => known.decoded_text enough⟩

/-- A table of schemas for types that have no named ones in them. -/
def noFields : Schemas := fun _ => .struct ⟨[], List.nodup_nil⟩

/-- An option of a vector of maps. -/
theorem roundTrips_option_vec :
    RoundTrips noFields (.option (.vec (.hashMap (.int .i8) .bool)))
      (.some (.vec [.hashMap [(.int (-1), .bool true), (.int 2, .bool false)]])) := by
  refine roundTrips_of_plain _ _ _ ?_ ⟨⟨trivial, trivial, trivial⟩, trivial⟩
  have keys : ∀ entry ∈ [(Key.int (-1), Val.bool true), (Key.int 2, Val.bool false)],
      KeyHasType entry.1 (.int .i8) := by
    refine List.forall_mem_cons.2 ⟨.int ⟨by decide, by decide⟩, ?_⟩
    exact List.forall_mem_singleton.2 (.int ⟨by decide, by decide⟩)
  exact .some (.vec (n := 1)
    (.cons (.hashMap (n := 2) keys (by decide) (.cons .bool (.cons .bool .nil))) .nil))

/-- `Some(None)` is written as `null` and comes back as `None`. -/
theorem someNone_lost :
    ¬ ∀ (schemas : Schemas) (ty : Ty) (v : Val), HasType schemas v ty →
      RoundTrips schemas ty v := by
  intro all
  obtain ⟨text, encoded, n, decoded⟩ :=
    all noFields (.option (.option .bool)) (.some .none) (.some .none)
  obtain ⟨s, null⟩ : ∃ s, Encoded noFields 1 (.option (.option .bool)) .none .null s :=
    Encoded.none
  have same : s = text := by
    have written : encode noFields (.option (.option .bool)) (.some .none) = .ok ([] ++ s) :=
      null.encoded []
    rw [encoded, Except.ok.injEq] at written
    exact written.symm
  have read : decode noFields (n + 1) (.option (.option .bool)) text = some (.ok .none) := by
    rw [← same]
    exact null.decoded_text (by omega)
  rw [decoded (n + 1) (Nat.le_succ n)] at read
  cases read

end Ciel.Json
