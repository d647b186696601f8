import Ciel.Std.Json.TypedDecode

/-!
# Values that come back from their text

For a value of a type, `Encoded` collects what the round trip needs: the tree that stands for
the value, the text that is written both for the value and for the tree, and that decoding the
text gives the value back in every context. There is one lemma for each former of types; this
module has the leaves, options, arrays and vectors.
-/

namespace Ciel.Json

open Library Reading Cursor Numbers

variable {schemas : Schemas} {n fuel offset : Nat} {ty : Ty} {v : Val} {value : Value}
variable {s tail : Bytes}
variable {r : Reader}

/-! ## Running readers -/

theorem readValue_returns (text : ValueText s value) (follows : Follows value tail) :
    readValue.Returns ⟨offset, s ++ tail⟩ value ⟨offset + s.length, tail⟩ :=
  (readValue_scans.returns_iff _ (Nat.le_refl _) value _).2
    ⟨s, ⟨rfl, rfl⟩, [], s, rfl, spaces_nil, text, follows⟩

variable {α : Type}

theorem readValue_bind {k : Value → Reads α} {a : α} (text : ValueText s value)
    (follows : Follows value tail) (next : (k value).Returns ⟨offset + s.length, tail⟩ a r) :
    (readValue >>= k).Returns ⟨offset, s ++ tail⟩ a r :=
  returns_bind.2 ⟨value, _, readValue_returns text follows, next⟩

theorem skipWs_returns (stops : ¬ starts isJsonWs r.rest) :
    skipWs.Returns r () r :=
  returns_update.2 (skipWhile_eq_iff.2 ⟨[], reads_nil.2 rfl, by simp, stops⟩)

theorem skipWs_bind {p : Reads α} {a : α} {r' : Reader}
    (stops : ¬ starts isJsonWs r.rest) (next : p.Returns r a r') :
    (skipWs >>= fun _ => p).Returns r a r' :=
  returns_bind.2 ⟨(), r, skipWs_returns stops, next⟩

theorem onNext_taken {c : UInt8} {yes : UInt8 → Reads α} {no : Reads α} {a : α}
    {rest : Bytes} (next : (yes c).Returns ⟨offset + 1, rest⟩ a r) :
    (onNext (is c) yes no).Returns ⟨offset, c :: rest⟩ a r := by
  have same : onNext (is c) yes no ⟨offset, c :: rest⟩ = yes c ⟨offset + 1, rest⟩ := by
    simp [onNext, advance]
  rw [Returns, same]
  exact next

theorem onNext_passed {c : UInt8} {yes : UInt8 → Reads α} {no : Reads α} {a : α}
    {r' : Reader} (other : ¬ starts (· == c) r.rest) (next : no.Returns r a r') :
    (onNext (is c) yes no).Returns r a r' := by
  have same : onNext (is c) yes no r = no r := by
    obtain ⟨offset, rest⟩ := r
    cases rest with
    | nil => rfl
    | cons x rest =>
      have differs : (x == c) = false := by simpa using other
      simp [onNext, Option.guard, differs]
  rw [Returns, same]
  exact next

theorem branch_no {test : Reader → Bool} {yes no : Reads α} {a : α} {r' : Reader}
    (fails : test r = false) (next : no.Returns r a r') :
    (branch test yes no).Returns r a r' := by
  have same : branch test yes no r = no r := by
    simp [branch, fails]
  rw [Returns, same]
  exact next

theorem branch_yes {test : Reader → Bool} {yes no : Reads α} {a : α} {r' : Reader}
    (passes : test r = true) (next : yes.Returns r a r') :
    (branch test yes no).Returns r a r' := by
  have same : branch test yes no r = yes r := by
    simp [branch, passes]
  rw [Returns, same]
  exact next

/-! ## What the round trip needs -/

/-- The value is written as the text `s` of the tree `value`, and comes back from it with
fuel `n`, whatever may follow the text. -/
structure Encoded (schemas : Schemas) (n : Nat) (ty : Ty) (v : Val) (value : Value)
    (s : Bytes) : Prop where
  printable : Printable value
  written : ∀ out, writeValueToBuf value out = .ok (out ++ s)
  encoded : ∀ out, encodeValue schemas v ty out = .ok (out ++ s)
  decoded : ∀ fuel, n ≤ fuel → ∀ offset tail, Follows value tail →
    (decodeValue schemas fuel ty).Returns ⟨offset, s ++ tail⟩ v ⟨offset + s.length, tail⟩
  null : value = .null → v = .none

theorem text_of_written (printable : Printable value)
    (written : ∀ out, writeValueToBuf value out = .ok (out ++ s)) : ValueText s value := by
  obtain ⟨s', same, text⟩ := writeValueToBuf_text value [] printable
  rw [written, Except.ok.injEq] at same
  rw [show s = s' from same]
  exact text

namespace Encoded

theorem text (known : Encoded schemas n ty v value s) : ValueText s value :=
  text_of_written known.printable known.written

theorem mono {m : Nat} (known : Encoded schemas n ty v value s) (less : n ≤ m) :
    Encoded schemas m ty v value s :=
  { known with decoded := fun fuel enough => known.decoded fuel (Nat.le_trans less enough) }

/-- A decoder that reads a tree and then works on the tree alone. -/
theorem of_tree (printable : Printable value)
    (written : ∀ out, writeValueToBuf value out = .ok (out ++ s))
    (encoded : ∀ out, encodeValue schemas v ty out = .ok (out ++ s))
    (decoded : ∀ fuel, n ≤ fuel → ∀ start, ∃ k : Value → Reads Val,
      (∀ rest, decodeValue schemas (fuel + 1) ty ⟨start, rest⟩ = (readValue >>= k) ⟨start, rest⟩) ∧
        ∀ r, (k value).Returns r v r)
    (null : value ≠ .null) : Encoded schemas (n + 1) ty v value s where
  printable := printable
  written := written
  encoded := encoded
  null := fun same => absurd same null
  decoded := by
    intro fuel enough offset tail follows
    obtain ⟨fuel, rfl⟩ : ∃ fuel', fuel = fuel' + 1 := ⟨fuel - 1, by omega⟩
    obtain ⟨k, same, works⟩ := decoded fuel (by omega) offset
    rw [Returns, same]
    exact readValue_bind (text_of_written printable written) follows (works _)

/-! ## Leaves -/

theorem bool (b : Bool) : ∃ s, Encoded schemas 1 .bool (.bool b) (.bool b) s := by
  refine ⟨(if b then ['t', 'r', 'u', 'e'] else ['f', 'a', 'l', 's', 'e']).map byte, ?_⟩
  refine of_tree trivial ?_ ?_ ?_ (by simp)
  · cases b <;> exact fun _ => rfl
  · cases b <;> exact fun _ => rfl
  · intro fuel _ start
    exact ⟨boolFrom start, fun _ => rfl, fun r => returns_pure.2 ⟨rfl, rfl⟩⟩

theorem int {kind : IntKind} {i : Int} (range : InRange kind i) :
    ∃ s, Encoded schemas 1 (.int kind) (.int i) (.number ⟨toText kind i⟩) s := by
  refine ⟨toText kind i, ?_⟩
  refine of_tree (toText_number range) (fun _ => rfl) (fun _ => rfl) ?_ (by simp)
  intro fuel _ start
  refine ⟨numberFrom kind start, fun _ => rfl, ?_⟩
  intro r
  simp only [numberFrom, parseNumber_toText range]
  exact returns_pure.2 ⟨rfl, rfl⟩

theorem char (c : UInt8) : ∃ s, Encoded schemas 1 .char (.char c) (.string [c]) s := by
  refine ⟨_, of_tree trivial (fun _ => rfl) (fun _ => rfl) ?_ (by simp)⟩
  intro fuel _ start
  exact ⟨charFrom start, fun _ => rfl, fun r => returns_pure.2 ⟨rfl, rfl⟩⟩

theorem textValue (t : Bytes) : ∃ s, Encoded schemas 1 .text (.text t) (.string t) s := by
  refine ⟨_, of_tree trivial (fun _ => rfl) (fun _ => rfl) ?_ (by simp)⟩
  intro fuel _ start
  exact ⟨textFrom start, fun _ => rfl, fun r => returns_pure.2 ⟨rfl, rfl⟩⟩

theorem bytes (data : Bytes) :
    ∃ s, Encoded schemas 1 .bytes (.bytes data) (.string (Base64.encode data)) s := by
  refine ⟨_, of_tree trivial (fun _ => rfl) (fun _ => rfl) ?_ (by simp)⟩
  intro fuel _ start
  refine ⟨bytesFrom start, fun _ => rfl, ?_⟩
  intro r
  simp only [bytesFrom, Base64.decode_encode]
  exact returns_pure.2 ⟨rfl, rfl⟩

/-! ## Options -/

theorem none : ∃ s, Encoded schemas 1 (.option ty) .none .null s := by
  refine ⟨['n', 'u', 'l', 'l'].map byte, trivial, fun _ => rfl, fun _ => rfl, ?_, fun _ => rfl⟩
  intro fuel enough offset tail _
  obtain ⟨fuel, rfl⟩ : ∃ fuel', fuel = fuel' + 1 := ⟨fuel - 1, by omega⟩
  refine skipWs_bind (by simp +decide) (branch_yes rfl ?_)
  refine returns_bind.2 ⟨(), ⟨offset + 4, tail⟩, ?_, returns_pure.2 ⟨rfl, rfl⟩⟩
  exact ((consumeLiteral_scans _).returns_iff _ (Nat.le_refl _) () _).2 ⟨_, ⟨rfl, rfl⟩, rfl⟩

/-- The text of a value other than `None` does not start as `null` does. -/
theorem not_starts_null (known : Encoded schemas n ty v value s) (other : v ≠ .none) :
    ¬ starts (· == byte 'n') (s ++ tail) := by
  have text := known.text
  cases text with
  | null => exact absurd (known.null rfl) other
  | number number => exact number.not_starts_char rfl (by decide)
  | string string => cases string; simp +decide
  | _ => simp +decide

theorem some (known : Encoded schemas n ty v value s) (other : v ≠ .none) :
    Encoded schemas (n + 1) (.option ty) (.some v) value s where
  printable := known.printable
  written := known.written
  encoded := fun out => known.encoded out
  null := fun same => absurd (known.null same) other
  decoded := by
    intro fuel enough offset tail follows
    obtain ⟨fuel, rfl⟩ : ∃ fuel', fuel = fuel' + 1 := ⟨fuel - 1, by omega⟩
    have tight := not_starts_of_break (known.text.not_starts_break (t := tail)) ws_breaks
    refine skipWs_bind tight (branch_no ?_ ?_)
    · exact Bool.eq_false_iff.2 (known.not_starts_null other)
    · exact returns_bind.2 ⟨v, _, known.decoded fuel (by omega) offset tail follows,
        returns_pure.2 ⟨rfl, rfl⟩⟩

/-- The text alone gives the value back. -/
theorem decoded_text (known : Encoded schemas n ty v value s) (enough : n ≤ fuel) :
    decodeText (decodeValue schemas fuel ty) s = .some (.ok v) := by
  have inner := known.decoded fuel enough 0 [] (follows_end spaces_nil)
  rw [List.append_nil] at inner
  have whole :
      (decodeWhole (decodeValue schemas fuel ty)).Returns (reader s) v ⟨0 + s.length, []⟩ :=
    returns_bind.2 ⟨v, _, inner, skipWs_bind (by simp) (branch_yes rfl (returns_pure.2 ⟨rfl, rfl⟩))⟩
  rw [decodeText, whole]
  rfl

/-- The printed form of the tree gives the value back. -/
theorem slot (known : Encoded schemas n ty v value s) (enough : n ≤ fuel) (r : Reader) :
    (decodeJsonSlot (decodeValue schemas fuel ty) value).Returns r v r := by
  have printed : stringify value = .ok s := known.written []
  exact returns_bind.2 ⟨s, r, returns_lift.2 ⟨printed, rfl⟩,
    returns_embed.2 ⟨known.decoded_text enough, rfl⟩⟩

end Encoded

/-! ## Lists of values -/

/-- Texts with commas between them. The flag is set before the first one. -/
def joined : Bool → List Bytes → Bytes
  | _, [] => []
  | first, s :: texts => separator first ++ (s ++ joined false texts)

theorem joined_false_cons (s : Bytes) (texts : List Bytes) :
    joined false (s :: texts) = byte ',' :: joined true (s :: texts) := rfl

theorem length_le_joined (texts : List Bytes) : texts.length ≤ (joined false texts).length := by
  induction texts with
  | nil => exact Nat.zero_le _
  | cons s texts ih =>
    rw [joined_false_cons]
    simp [joined, separator]
    omega

/-- What follows an element: a comma or the closing bracket. -/
theorem follows_joined {texts : List Bytes} {c : UInt8} (closing : ¬ isNumberTail c) :
    Follows value (joined false texts ++ c :: tail) := by
  cases texts with
  | nil => exact follows_separator spaces_nil closing
  | cons s texts => exact follows_separator (w := []) (c := byte ',') spaces_nil (by decide)

/-- Values that are encoded one by one. -/
inductive EncodedList (schemas : Schemas) (n : Nat) :
    List Ty → List Val → List Value → List Bytes → Prop
  | nil : EncodedList schemas n [] [] [] []
  | cons {ty : Ty} {v : Val} {value : Value} {s : Bytes} {tys : List Ty} {vs : List Val}
      {values : List Value} {texts : List Bytes} : Encoded schemas n ty v value s →
      EncodedList schemas n tys vs values texts →
      EncodedList schemas n (ty :: tys) (v :: vs) (value :: values) (s :: texts)

namespace EncodedList

variable {tys : List Ty} {vs : List Val} {values : List Value} {texts : List Bytes}

theorem mono {m : Nat} (known : EncodedList schemas n tys vs values texts) (less : n ≤ m) :
    EncodedList schemas m tys vs values texts := by
  induction known with
  | nil => exact .nil
  | cons first _ ih => exact .cons (first.mono less) ih

theorem printable (known : EncodedList schemas n tys vs values texts) :
    PrintableItems values := by
  induction known with
  | nil => trivial
  | cons first _ ih => exact ⟨first.printable, ih⟩

theorem lengths (known : EncodedList schemas n tys vs values texts) :
    values.length = tys.length ∧ texts.length = tys.length ∧ vs.length = tys.length := by
  induction known with
  | nil => exact ⟨rfl, rfl, rfl⟩
  | cons _ _ ih =>
    simp only [List.length_cons]
    omega

theorem written (known : EncodedList schemas n tys vs values texts) (first : Bool)
    (out : Bytes) : writeItems first values out = .ok (out ++ joined first texts) := by
  induction known generalizing first out with
  | nil => rw [writeItems, joined, List.append_nil]
  | cons item _ ih =>
    rw [writeItems, separated, item.written, ok_bind, ih, joined]
    simp

section

variable (known : EncodedList schemas n tys vs values texts)

include known

theorem encoded_payloads (first : Bool) (out : Bytes) :
    encodeEnumPayloads schemas first vs tys out = .ok (out ++ joined first texts) := by
  induction known generalizing first out with
  | nil => rw [encodeEnumPayloads, joined, List.append_nil]; simp
  | cons item _ ih =>
    rw [encodeEnumPayloads, pushComma, separated, item.encoded, ok_bind, ih, joined]
    simp

theorem encoded_items (same : ∀ t ∈ tys, t = ty) (first : Bool) (out : Bytes) :
    encodeItems schemas first vs ty out = .ok (out ++ joined first texts) := by
  induction known generalizing first out with
  | nil => rw [encodeItems, joined, List.append_nil]
  | cons item _ ih =>
    obtain ⟨rfl, same⟩ := List.forall_mem_cons.1 same
    rw [encodeItems, pushComma, separated, item.encoded, ok_bind, ih same, joined]
    simp

theorem decoded_items (same : ∀ t ∈ tys, t = ty) (enough : n ≤ fuel) (index : Nat) (r : Reader) :
    (decodeArrayItems (decodeValue schemas fuel ty) index values).Returns r vs r := by
  induction known generalizing index with
  | nil => exact returns_pure.2 ⟨rfl, rfl⟩
  | cons item _ ih =>
    obtain ⟨rfl, same⟩ := List.forall_mem_cons.1 same
    exact returns_bind.2 ⟨_, r, returns_mapError.2 (item.slot enough r),
      returns_bind.2 ⟨_, r, ih same (index + 1), returns_pure.2 ⟨rfl, rfl⟩⟩⟩

theorem decoded_payloads (enough : n ≤ fuel) (index : Nat) (r : Reader) :
    (decodeEnumPayloads (fun ty => decodeValue schemas fuel ty) index tys values).Returns
      r (vs, []) r := by
  induction known generalizing index with
  | nil => exact returns_pure.2 ⟨rfl, rfl⟩
  | cons item _ ih =>
    exact returns_bind.2 ⟨_, r, returns_mapError.2 (item.slot enough r),
      returns_bind.2 ⟨_, r, ih (index + 1), returns_pure.2 ⟨rfl, rfl⟩⟩⟩

/-- The elements of a vector are decoded from the reader itself. -/
theorem decoded_vec
    (same : ∀ t ∈ tys, t = ty) (enough : n ≤ fuel) (some : texts ≠ []) (rounds : Nat)
    (many : texts.length ≤ rounds) (out : List Val) (offset : Nat) :
    (decodeVecItems (decodeValue schemas fuel ty) rounds out).Returns
      ⟨offset, joined true texts ++ byte ']' :: tail⟩ (out ++ vs)
      ⟨offset + ((joined true texts).length + 1), tail⟩ := by
  induction known generalizing rounds out offset with
  | nil => exact absurd rfl some
  | @cons t v value s tys vs values texts item rest ih =>
    obtain ⟨rfl, same⟩ := List.forall_mem_cons.1 same
    obtain ⟨rounds, rfl⟩ : ∃ rounds', rounds = rounds' + 1 := ⟨rounds - 1, by simp at many; omega⟩
    have first := item.decoded fuel enough offset (joined false texts ++ byte ']' :: tail)
      (follows_joined (by decide))
    have split : joined true (s :: texts) ++ byte ']' :: tail =
        s ++ (joined false texts ++ byte ']' :: tail) := by
      simp [joined, separator]
    rw [split]
    refine returns_bind.2 ⟨v, _, returns_mapError.2 first, ?_⟩
    cases rest with
    | nil =>
      refine skipWs_bind (by simp +decide [joined]) (branch_no rfl ?_)
      refine onNext_passed (by simp +decide [joined]) (onNext_taken ?_)
      refine returns_pure.2 ⟨rfl, ?_⟩
      simp [joined, separator]
      omega
    | @cons t' v' value' s' tys' vs' values' texts' item' rest' =>
      have tight : ¬ starts isJsonWs (joined true (s' :: texts') ++ byte ']' :: tail) := by
        have stops := not_starts_of_break
          (item'.text.not_starts_break (t := joined false texts' ++ byte ']' :: tail)) ws_breaks
        simpa [joined, separator] using stops
      have again := ih same (by simp) rounds (by simp at many ⊢; omega) (out ++ [v])
        (offset + s.length + 1)
      rw [List.append_assoc, List.singleton_append] at again
      have place : offset + s.length + 1 + ((joined true (s' :: texts')).length + 1) =
          offset + ((joined true (s :: s' :: texts')).length + 1) := by
        simp [joined, separator]
        omega
      rw [place] at again
      refine skipWs_bind (by simp +decide [joined_false_cons]) (branch_no rfl ?_)
      rw [joined_false_cons, List.cons_append]
      exact onNext_taken (skipWs_bind tight again)

end

end EncodedList

namespace Encoded

variable {tys : List Ty} {vs : List Val} {values : List Value} {texts : List Bytes}

/-- The text of an array. -/
def bracketed (texts : List Bytes) : Bytes := byte '[' :: (joined true texts ++ [byte ']'])

theorem array_written (items : EncodedList schemas n tys vs values texts) (out : Bytes) :
    writeValueToBuf (.array values) out = .ok (out ++ bracketed texts) := by
  rw [writeValueToBuf, items.written, ok_bind, bracketed]
  simp

theorem array {length : Nat}
    (items : EncodedList schemas n (List.replicate length ty) vs values texts) :
    Encoded schemas (n + 1) (.array length ty) (.array vs) (.array values) (bracketed texts) := by
  have same : ∀ t ∈ List.replicate length ty, t = ty := fun t mem => (List.mem_replicate.1 mem).2
  refine of_tree items.printable (array_written items) ?_ ?_ (by simp)
  · intro out
    cases length with
    | zero =>
      cases items
      rfl
    | succ length =>
      rw [encodeValue, items.encoded_items same, ok_bind, bracketed]
      · simp
      · simp
  · intro fuel enough start
    refine ⟨arrayFrom length (decodeValue schemas fuel ty), fun _ => rfl, ?_⟩
    intro r
    have count : values.length = length := by
      rw [items.lengths.1, List.length_replicate]
    refine returns_bind.2 ⟨values, r, returns_lift.2 ⟨?_, rfl⟩, returns_bind.2 ⟨vs, r,
      items.decoded_items same enough 0 r, returns_pure.2 ⟨rfl, rfl⟩⟩⟩
    simp [arrayValuesExact, count]

theorem vec (items : EncodedList schemas n tys vs values texts) (same : ∀ t ∈ tys, t = ty) :
    Encoded schemas (n + 1) (.vec ty) (.vec vs) (.array values) (bracketed texts) where
  printable := items.printable
  written := array_written items
  null := by simp
  encoded := by
    intro out
    rw [encodeValue, items.encoded_items same, ok_bind, bracketed]
    simp
  decoded := by
    intro fuel enough offset tail _
    obtain ⟨fuel, rfl⟩ : ∃ fuel', fuel = fuel' + 1 := ⟨fuel - 1, by omega⟩
    have shape : bracketed texts ++ tail = byte '[' :: (joined true texts ++ byte ']' :: tail) := by
      simp [bracketed]
    rw [shape]
    refine skipWs_bind (by simp +decide) (branch_no rfl (onNext_taken ?_))
    cases items with
    | nil =>
      refine skipWs_bind (by simp +decide [joined]) (onNext_taken ?_)
      refine returns_pure.2 ⟨rfl, ?_⟩
      simp [bracketed, joined]
    | @cons t v value s tys vs values texts item rest =>
      have stops : ¬ starts isBreak (joined true (s :: texts) ++ byte ']' :: tail) := by
        have first := item.text.not_starts_break (t := joined false texts ++ byte ']' :: tail)
        simpa [joined, separator] using first
      have rounds : (s :: texts).length ≤ (joined true (s :: texts) ++ byte ']' :: tail).length +
          1 := by
        have := length_le_joined texts
        simp [joined, separator]
        omega
      have all : EncodedList schemas n (t :: tys) (v :: vs) (value :: values) (s :: texts) :=
        .cons item rest
      have enough : n ≤ fuel := by omega
      have loop : (decodeVecItems (decodeValue schemas fuel ty) _ []).Returns
          ⟨offset + 1, joined true (s :: texts) ++ byte ']' :: tail⟩ (v :: vs) _ :=
        all.decoded_vec same enough (by simp) _ rounds [] (offset + 1)
      have place : offset + 1 + ((joined true (s :: texts)).length + 1) =
          offset + (bracketed (s :: texts)).length := by
        simp [bracketed]
        omega
      rw [place] at loop
      refine skipWs_bind (not_starts_of_break stops ws_breaks)
        (onNext_passed (not_starts_of_break stops fun _ same => by simp [isBreak, same]) ?_)
      exact returns_bind.2 ⟨_, _, loop, returns_pure.2 ⟨rfl, rfl⟩⟩

end Encoded

end Ciel.Json
