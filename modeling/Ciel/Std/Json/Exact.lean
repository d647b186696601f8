import Ciel.Std.Json.Reader

/-!
# The reader accepts the JSON texts

One lemma for each function of the reader, from the leaves upwards: the function ends, and
it returns a value after reading some bytes exactly if the grammar relates them.
-/

namespace Ciel.Json

open Library Reading Cursor

variable {n : Nat}
variable {test : UInt8 → Bool} {c : UInt8}

/-! ## Characters -/

theorem isJsonWs_iff : isJsonWs c = true ↔ Space c := by
  simp [isJsonWs, Space, or_assoc]

theorem charIsDigit_iff : charIsDigit c = true ↔ Digit c := by
  simp [charIsDigit, Digit]

theorem failHere_scans {α : Type} (kind : WireErrorKind) (message : String) :
    Scans n (failHere kind message : Reads α) fun _ _ _ => False :=
  Scans.fail _

theorem failBefore_scans {α : Type} (kind : WireErrorKind) (message : String) :
    Scans n (failBefore kind message : Reads α) fun _ _ _ => False :=
  Scans.fail _

theorem skipWs_scans : Scans n skipWs fun s _ t => Spaces s ∧ ¬ starts isJsonWs t := by
  refine (Scans.skipWhile isJsonWs).congr ?_
  intro s _ t
  simp only [isJsonWs_iff, Spaces]

theorem expectChar_scans (expected : UInt8) (message : String) :
    Scans n (expectChar expected message) fun s _ _ => s = [expected] := by
  refine (Scans.ifEnd (failHere_scans _ _)
    (Scans.ifTake (fun _ _ _ => Scans.pure ()) (failHere_scans _ _))).congr ?_
  intro s u t
  simp only [and_false, or_false, false_or, beq_iff_eq, and_true]
  constructor
  · rintro ⟨-, x, s', rfl, rfl, rfl⟩
    rfl
  · rintro rfl
    exact ⟨by simp, expected, [], rfl, rfl, rfl⟩

theorem consumeLiteral_scans (literal : Bytes) :
    Scans n (consumeLiteral literal) fun s _ _ => s = literal := by
  induction literal generalizing n with
  | nil =>
    refine (Scans.pure ()).congr ?_
    intro s u t
    simp
  | cons c literal ih =>
    refine (Scans.ifEnd (failHere_scans _ _)
      (Scans.ifTake (fun _ _ _ => ih) (failHere_scans _ _))).congr ?_
    intro s u t
    simp only [and_false, or_false, false_or, beq_iff_eq]
    constructor
    · rintro ⟨-, x, s', rfl, rfl, rfl⟩
      rfl
    · rintro rfl
      exact ⟨by simp, c, literal, rfl, rfl, rfl⟩

/-! ## Numbers -/

theorem consumeDigits_scans (message : String) :
    Scans n (consumeDigits message) fun s _ t => Digits s ∧ ¬ starts charIsDigit t := by
  refine (Scans.ifNext (Scans.skipWhile charIsDigit) (failHere_scans _ _)).congr ?_
  intro s u t
  simp only [and_false, or_false, charIsDigit_iff, Digits]
  constructor
  · rintro ⟨first, all, stops⟩
    refine ⟨⟨?_, all⟩, stops⟩
    rintro rfl
    exact stops first
  · rintro ⟨⟨some, all⟩, stops⟩
    refine ⟨?_, all, stops⟩
    cases s with
    | nil => exact absurd rfl some
    | cons d ds => exact charIsDigit_iff.2 (all d List.mem_cons_self)

theorem parseSign_scans : Scans n parseSign fun s _ t =>
    s = [byte '-'] ∨ (s = [] ∧ ¬ starts (· == byte '-') t) := by
  refine (Scans.ifTake (fun _ _ _ => Scans.pure ()) (Scans.pure ())).congr ?_
  intro s u t
  simp only [beq_iff_eq, and_true]
  constructor
  · rintro (⟨x, _, rfl, rfl, rfl⟩ | ⟨stops, rfl⟩)
    · exact .inl rfl
    · exact .inr ⟨rfl, stops⟩
  · rintro (rfl | ⟨rfl, stops⟩)
    · exact .inl ⟨_, [], rfl, rfl, rfl⟩
    · exact .inr ⟨stops, rfl⟩

theorem parseInteger_scans : Scans n parseInteger fun s _ t =>
    IntegerText s ∧ ¬ starts charIsDigit t := by
  refine (Scans.ifEnd (failHere_scans _ _) (Scans.ifTake
    (fun _ _ _ => Scans.ifNext (failHere_scans _ _) (Scans.pure ()))
    (consumeDigits_scans _))).congr ?_
  intro s u t
  simp only [and_false, false_or, beq_iff_eq, and_true]
  constructor
  · rintro ⟨-, ⟨x, _, rfl, rfl, stops, rfl⟩ | ⟨other, ⟨some, all⟩, stops⟩⟩
    · exact ⟨.zero, stops⟩
    · cases s with
      | nil => exact absurd rfl some
      | cons d ds =>
        refine ⟨.digits (all d List.mem_cons_self) ?_ ?_, stops⟩
        · rintro rfl
          exact other rfl
        · intro x mem
          exact all x (List.mem_cons_of_mem _ mem)
  · rintro ⟨integer, stops⟩
    cases integer with
    | zero => exact ⟨by simp, .inl ⟨_, [], rfl, rfl, stops, rfl⟩⟩
    | digits first other all =>
      refine ⟨by simp, .inr ⟨by simpa using other, ⟨by simp, ?_⟩, stops⟩⟩
      exact List.forall_mem_cons.2 ⟨first, all⟩

theorem parseFraction_scans : Scans n parseFraction fun s _ t =>
    (s = [] ∧ ¬ starts (· == byte '.') t) ∨
      (∃ ds, s = byte '.' :: ds ∧ Digits ds ∧ ¬ starts charIsDigit t) := by
  refine (Scans.ifTake (fun _ _ _ => consumeDigits_scans _) (Scans.pure ())).congr ?_
  intro s u t
  simp only [beq_iff_eq, and_true]
  constructor
  · rintro (⟨x, ds, rfl, rfl, digits⟩ | ⟨stops, rfl⟩)
    · exact .inr ⟨ds, rfl, digits⟩
    · exact .inl ⟨rfl, stops⟩
  · rintro (⟨rfl, stops⟩ | ⟨ds, rfl, digits⟩)
    · exact .inr ⟨stops, rfl⟩
    · exact .inl ⟨_, ds, rfl, rfl, digits⟩

/-- The signs of an exponent. -/
def isSign (c : UInt8) : Bool := c == byte '-' || c == byte '+'

def isExponentMark (c : UInt8) : Bool := c == byte 'e' || c == byte 'E'

theorem parseExponentSign_scans : Scans n parseExponentSign fun s _ t =>
    (∃ c, isSign c ∧ s = [c]) ∨ (s = [] ∧ ¬ starts isSign t) := by
  refine (Scans.ifTake (fun _ _ _ => Scans.pure ()) (Scans.pure ())).congr ?_
  intro s u t
  simp only [and_true]
  constructor
  · rintro (⟨x, _, rfl, sign, rfl⟩ | ⟨stops, rfl⟩)
    · exact .inl ⟨x, sign, rfl⟩
    · exact .inr ⟨rfl, stops⟩
  · rintro (⟨x, sign, rfl⟩ | ⟨rfl, stops⟩)
    · exact .inl ⟨x, [], rfl, sign, rfl⟩
    · exact .inr ⟨stops, rfl⟩

theorem parseExponent_scans : Scans n parseExponent fun s _ t =>
    (s = [] ∧ ¬ starts isExponentMark t) ∨
      (s ≠ [] ∧ ExponentText s ∧ ¬ starts charIsDigit t) := by
  refine (Scans.ifTake
    (fun _ _ _ => parseExponentSign_scans.bind fun _ => consumeDigits_scans _)
    (Scans.pure ())).congr ?_
  intro s u t
  simp only [and_true]
  constructor
  · rintro (⟨e, _, rfl, mark, sign, _, ds, rfl, signs, digits, stops⟩ | ⟨stops, rfl⟩)
    · refine .inr ⟨by simp, .digits (by simpa using mark) ?_ digits, stops⟩
      rcases signs with ⟨c, good, rfl⟩ | ⟨rfl, -⟩
      · simpa [isSign] using good
      · exact .inl rfl
    · exact .inl ⟨rfl, stops⟩
  · rintro (⟨rfl, stops⟩ | ⟨some, exponent, stops⟩)
    · exact .inr ⟨stops, rfl⟩
    · cases exponent with
      | absent => exact absurd rfl some
      | @digits e sign ds mark signs digits =>
        refine .inl ⟨e, sign ++ ds, rfl, by simpa using mark, sign, (), ds, rfl, ?_, digits,
          stops⟩
        rcases signs with rfl | rfl | rfl
        · refine .inr ⟨rfl, ?_⟩
          obtain ⟨nonempty, all⟩ := digits
          cases ds with
          | nil => exact absurd rfl nonempty
          | cons d ds =>
            have digit := all d List.mem_cons_self
            rw [List.cons_append, starts_cons]
            intro sign
            simp only [isSign, Bool.or_eq_true, beq_iff_eq] at sign
            rcases sign with rfl | rfl
            · exact absurd digit.1 (by decide)
            · exact absurd digit.1 (by decide)
        · exact .inl ⟨_, by simp [isSign], rfl⟩
        · exact .inl ⟨_, by simp [isSign], rfl⟩

/-- A byte that may follow a number is none of those that continue one. -/
theorem not_starts_of_tail {t : Bytes} (continues : ∀ c, test c → isNumberTail c)
    (stops : ¬ starts isNumberTail t) :
    ¬ starts test t := by
  cases t with
  | nil => simp
  | cons c t => exact fun passes => stops (continues c passes)

theorem not_starts_exponent {s t : Bytes} (exponent : ExponentText s)
    (continues : ∀ c, test c → isNumberTail c) (small : test (byte 'e') = false)
    (large : test (byte 'E') = false) (stops : ¬ starts isNumberTail t) :
    ¬ starts test (s ++ t) := by
  cases exponent with
  | absent => exact not_starts_of_tail continues stops
  | digits mark _ _ =>
    rw [List.cons_append, starts_cons]
    rcases mark with rfl | rfl
    · simp [small]
    · simp [large]

theorem not_starts_fraction {s e t : Bytes} (fraction : FractionText s) (exponent : ExponentText e)
    (continues : ∀ c, test c → isNumberTail c) (point : test (byte '.') = false)
    (small : test (byte 'e') = false) (large : test (byte 'E') = false)
    (stops : ¬ starts isNumberTail t) :
    ¬ starts test (s ++ (e ++ t)) := by
  cases fraction with
  | absent =>
    rw [List.nil_append]
    exact not_starts_exponent exponent continues small large stops
  | digits _ =>
    rw [List.cons_append, starts_cons]
    simp [point]

theorem parseNumberTail_scans : Scans n parseNumberTail fun s _ t =>
    s = [] ∧ ¬ starts isNumberTail t := by
  refine (Scans.ifNext (failHere_scans _ _) (Scans.pure ())).congr ?_
  intro s u t
  simp only [and_false, false_or, and_true]
  constructor
  · rintro ⟨stops, rfl⟩
    exact ⟨rfl, stops⟩
  · rintro ⟨rfl, stops⟩
    exact ⟨stops, rfl⟩

theorem integer_starts_digit {s t : Bytes} (integer : IntegerText s) :
    ¬ starts (· == byte '-') (s ++ t) := by
  cases integer with
  | zero => simp +decide
  | digits first _ _ =>
    rw [List.cons_append, starts_cons]
    intro minus
    rw [beq_iff_eq] at minus
    rw [minus] at first
    exact absurd first.1 (by decide)

theorem digit_continues (c : UInt8) (digit : charIsDigit c) : isNumberTail c := by
  simp [isNumberTail, digit]

theorem parseNumber_scans : Scans n parseNumber fun s a t =>
    a = ⟨s⟩ ∧ NumberText s ∧ ¬ starts isNumberTail t := by
  have parts := (parseSign_scans (n := n)).bind fun _ => parseInteger_scans.bind fun _ =>
    parseFraction_scans.bind fun _ => parseExponent_scans.bind fun _ => parseNumberTail_scans
  refine (parts.spelled.bind fun raw => Scans.pure (JsonNumber.mk raw)).congr ?_
  intro s a t
  constructor
  · rintro ⟨_, _, _, rfl, ⟨rfl, sign, _, _, rfl, signs, int, _, _, rfl, ⟨integer, -⟩, frac, _, _,
      rfl, fractions, exp, _, _, rfl, exponents, rfl, stops⟩, rfl, rfl⟩
    rw [List.append_nil, List.append_nil]
    refine ⟨rfl, .mk ?_ integer ?_ ?_, stops⟩
    · rcases signs with rfl | ⟨rfl, -⟩
      · exact .inr rfl
      · exact .inl rfl
    · rcases fractions with ⟨rfl, -⟩ | ⟨ds, rfl, digits, -⟩
      · exact .absent
      · exact .digits digits
    · rcases exponents with ⟨rfl, -⟩ | ⟨-, exponent, -⟩
      · exact .absent
      · exact exponent
  · rintro ⟨rfl, number, stops⟩
    obtain @⟨sign, int, frac, exp, signs, integer, fraction, exponent⟩ := number
    refine ⟨_, _, [], (List.append_nil _).symm, ⟨rfl, sign, (), _, rfl, ?_, int, (), _, rfl,
      ⟨integer, ?_⟩, frac, (), _, rfl, ?_, exp, (), [], (List.append_nil _).symm, ?_, rfl, stops⟩,
      rfl, rfl⟩
    · rcases signs with rfl | rfl
      · exact .inr ⟨rfl, by simpa using integer_starts_digit integer⟩
      · exact .inl rfl
    · simpa using not_starts_fraction fraction exponent digit_continues rfl rfl rfl stops
    · cases fraction with
      | absent =>
        refine .inl ⟨rfl, ?_⟩
        have point : ∀ c, (c == byte '.') = true → isNumberTail c = true := by
          intro c same
          rw [eq_of_beq same]
          decide
        simpa using not_starts_exponent exponent point rfl rfl stops
      | digits digits =>
        refine .inr ⟨_, rfl, digits, ?_⟩
        simpa using not_starts_exponent exponent digit_continues rfl rfl stops
    · cases exponent with
      | absent =>
        refine .inl ⟨rfl, not_starts_of_tail ?_ stops⟩
        intro c mark
        simp only [isExponentMark, Bool.or_eq_true, beq_iff_eq] at mark
        rcases mark with rfl | rfl
        · decide
        · decide
      | digits mark signs digits =>
        refine .inr ⟨by simp, .digits mark signs digits, ?_⟩
        exact not_starts_of_tail digit_continues stops

/-! ## Strings -/

theorem charToHexDigitValue_iff {d : UInt8} :
    charToHexDigitValue c = some d ↔ HexDigit c d.toNat := by
  have bound := c.toNat_lt
  have zero : (byte '0').toNat = 0x30 := rfl
  have nine : (byte '9').toNat = 0x39 := rfl
  have a : (byte 'a').toNat = 0x61 := rfl
  have f : (byte 'f').toNat = 0x66 := rfl
  have A : (byte 'A').toNat = 0x41 := rfl
  have F : (byte 'F').toNat = 0x46 := rfl
  have ten : (10 : UInt8).toNat = 10 := rfl
  simp only [charToHexDigitValue, charIsDigit, Bool.and_eq_true, decide_eq_true_eq, ge_iff_le,
    UInt8.le_iff_toNat_le, zero, nine, a, f, A, F, HexDigit]
  split
  case isTrue =>
    rw [Option.some.injEq, ← UInt8.toNat_inj, UInt8.toNat_sub, zero]
    omega
  case isFalse =>
  split
  case isTrue =>
    rw [Option.some.injEq, ← UInt8.toNat_inj, UInt8.toNat_add, UInt8.toNat_sub, a, ten]
    omega
  case isFalse =>
  split
  case isTrue =>
    rw [Option.some.injEq, ← UInt8.toNat_inj, UInt8.toNat_add, UInt8.toNat_sub, A, ten]
    omega
  case isFalse =>
    simp only [reduceCtorEq, false_iff]
    omega

/-- A run of hexadecimal digits that continues a number. -/
inductive HexRun : Nat → Nat → Bytes → Nat → Prop
  | nil {value : Nat} : HexRun 0 value [] value
  | cons {k value v out : Nat} {c : UInt8} {s : Bytes} : HexDigit c v →
      HexRun k (value * 16 + v) s out → HexRun (k + 1) value (c :: s) out

theorem HexDigit.lt {v : Nat} (digit : HexDigit c v) : v < 16 := by
  rw [HexDigit] at digit
  omega

theorem parseHexDigits_scans (k value : Nat) :
    Scans n (parseHexDigits k value) fun s a _ => HexRun k value s a := by
  induction k generalizing n value with
  | zero =>
    refine (Scans.pure value).congr ?_
    intro s a t
    constructor
    · rintro ⟨rfl, rfl⟩
      exact .nil
    · rintro ⟨⟩
      exact ⟨rfl, rfl⟩
  | succ k ih =>
    refine (Scans.ifEnd (failHere_scans _ _)
      (Scans.onNext (fun _ _ _ => ih _) (failHere_scans _ _))).congr ?_
    intro s a t
    simp only [and_false, or_false, false_or]
    have next : ∀ {c digit}, charToHexDigitValue c = some digit →
        value <<< 4 ||| digit.toNat = value * 16 + digit.toNat := by
      intro c digit chosen
      have small := (charToHexDigitValue_iff.1 chosen).lt
      rw [← Nat.shiftLeft_add_eq_or_of_lt small, Nat.shiftLeft_eq]
    constructor
    · rintro ⟨-, c, s', digit, rfl, chosen, run⟩
      rw [next chosen] at run
      exact .cons (charToHexDigitValue_iff.1 chosen) run
    · rintro (_ | @⟨_, _, v, _, c, s', digit, run⟩)
      have small : v % 2 ^ 8 = v := Nat.mod_eq_of_lt (Nat.lt_trans digit.lt (by decide))
      have chosen : charToHexDigitValue c = some (UInt8.ofNat v) := by
        rw [charToHexDigitValue_iff, UInt8.toNat_ofNat', small]
        exact digit
      refine ⟨by simp, c, s', UInt8.ofNat v, rfl, chosen, ?_⟩
      rw [next chosen, UInt8.toNat_ofNat', small]
      exact run

theorem parseHex4_scans : Scans n parseHex4 fun s a _ => Hex4 s a := by
  refine (parseHexDigits_scans 4 0).congr ?_
  intro s a t
  constructor
  · rintro (_ | ⟨one, _ | ⟨two, _ | ⟨three, _ | ⟨four, ⟨⟩⟩⟩⟩⟩)
    simpa using Hex4.mk one two three four
  · rintro ⟨one, two, three, four⟩
    have run : HexRun 4 0 _ _ := .cons one (.cons two (.cons three (.cons four .nil)))
    simpa using run

theorem or_toUInt8 (k m : Nat) {x : Nat} (small : x < 2 ^ k) :
    UInt8.ofNat (2 ^ k * m) ||| x.toUInt8 = UInt8.ofNat (x + 2 ^ k * m) := by
  rw [Nat.add_comm, Nat.two_pow_add_eq_or_of_lt small, UInt8.ofNat_or]

theorem utf8_eq {v : Nat} (valid : v.isValidChar) :
    utf8 v =
      if v ≤ 0x7f then [UInt8.ofNat v]
      else if v ≤ 0x7ff then [UInt8.ofNat (v / 64 % 32 + 192), UInt8.ofNat (v % 64 + 128)]
      else if v ≤ 0xffff then
        [UInt8.ofNat (v / 4096 % 16 + 224), UInt8.ofNat (v / 64 % 64 + 128),
          UInt8.ofNat (v % 64 + 128)]
      else
        [UInt8.ofNat (v / 262144 % 8 + 240), UInt8.ofNat (v / 4096 % 64 + 128),
          UInt8.ofNat (v / 64 % 64 + 128), UInt8.ofNat (v % 64 + 128)] := by
  have code : (Char.ofNat v).val.toNat = v := by
    rw [Char.ofNat, dif_pos valid]
    rfl
  rw [utf8, String.utf8EncodeChar, code]

theorem appendUtf8_ok (out : Bytes) (offset : Nat) {v : Nat} (valid : v.isValidChar) :
    appendUtf8 out v offset = .ok (out ++ utf8 v) := by
  have range : v ≤ 0x10ffff := by
    simp only [Nat.isValidChar] at valid
    omega
  rw [appendUtf8, utf8_eq valid, if_pos range]
  have low : ∀ x : Nat, (0x80 : UInt8) ||| (x &&& 0x3f).toUInt8 = UInt8.ofNat (x % 64 + 128) := by
    intro x
    have masked : x &&& 0x3f = x % 64 := Nat.and_two_pow_sub_one_eq_mod x 6
    rw [masked]
    exact or_toUInt8 6 2 (Nat.mod_lt x (by decide))
  have lead : ∀ (k m : Nat) {x : Nat}, x < 2 ^ k →
      UInt8.ofNat (2 ^ k * m) ||| x.toUInt8 = UInt8.ofNat (x % 2 ^ k + 2 ^ k * m) := by
    intro k m x small
    rw [or_toUInt8 k m small, Nat.mod_eq_of_lt small]
  split
  case isTrue => rfl
  case isFalse =>
  split
  case isTrue =>
    have first := @lead 5 6 (v >>> 6) (by rw [Nat.shiftRight_eq_div_pow]; omega)
    rw [Nat.shiftRight_eq_div_pow] at first
    rw [low, Nat.shiftRight_eq_div_pow]
    exact congrArg (fun b => Except.ok (out ++ [b, _])) first
  case isFalse =>
  split
  case isTrue =>
    have first := @lead 4 14 (v >>> 12) (by rw [Nat.shiftRight_eq_div_pow]; omega)
    rw [Nat.shiftRight_eq_div_pow] at first
    rw [low, low, Nat.shiftRight_eq_div_pow, Nat.shiftRight_eq_div_pow]
    exact congrArg (fun b => Except.ok (out ++ [b, _, _])) first
  case isFalse =>
    have first := @lead 3 30 (v >>> 18) (by rw [Nat.shiftRight_eq_div_pow]; omega)
    rw [Nat.shiftRight_eq_div_pow] at first
    rw [low, low, low, Nat.shiftRight_eq_div_pow, Nat.shiftRight_eq_div_pow,
      Nat.shiftRight_eq_div_pow]
    exact congrArg (fun b => Except.ok (out ++ [b, _, _, _])) first

theorem parseLowSurrogate_scans (high : Nat) : Scans n (parseLowSurrogate high) fun s a _ =>
    ∃ low, Hex4 s low ∧ LowSurrogate low ∧ a = pairCode high low := by
  refine (parseHex4_scans.bind fun low =>
    Scans.ite (fun _ => failHere_scans _ _) (fun _ => Scans.pure _)).congr ?_
  intro s a t
  simp only [and_false, false_or, Bool.or_eq_true, decide_eq_true_eq, gt_iff_lt, not_or, Nat.not_lt]
  have code : ∀ {low}, LowSurrogate low →
      0x10000 + ((high - 0xd800) <<< 10 ||| (low - 0xdc00)) = pairCode high low := by
    intro low range
    have small : low - 0xdc00 < 2 ^ 10 := by
      have := range.2
      omega
    have power : 2 ^ 10 = 0x400 := rfl
    rw [← Nat.shiftLeft_add_eq_or_of_lt small, Nat.shiftLeft_eq, power, pairCode_def]
  constructor
  · rintro ⟨h, low, _, rfl, hex, range, rfl, rfl⟩
    rw [List.append_nil]
    exact ⟨low, hex, range, code range⟩
  · rintro ⟨low, hex, range, rfl⟩
    exact ⟨s, low, [], (List.append_nil s).symm, hex, range, rfl, (code range).symm⟩

theorem parseCodepoint_scans (offset first : Nat) :
    Scans n (parseCodepoint offset first) fun s a _ =>
      (¬ HighSurrogate first ∧ ¬ LowSurrogate first ∧ s = [] ∧ a = first) ∨
        (HighSurrogate first ∧ ∃ l low, s = byte '\\' :: byte 'u' :: l ∧ Hex4 l low ∧
          LowSurrogate low ∧ a = pairCode first low) := by
  refine (Scans.ite
    (fun _ => Scans.branch (fun l => l.length ≤ 1) (fun c => by simp) (failHere_scans _ _)
      (Scans.onWord (parseLowSurrogate_scans first) (failHere_scans _ _)))
    (fun _ => Scans.ite (fun _ => Scans.fail _) (fun _ => Scans.pure first))).congr ?_
  intro s a t
  simp only [and_false, false_or, or_false, Bool.and_eq_true, decide_eq_true_eq, ge_iff_le]
  constructor
  · rintro (⟨high, -, l, rfl, low, hex, range, rfl⟩ | ⟨high, low, rfl, rfl⟩)
    · exact .inr ⟨high, l, low, rfl, hex, range, rfl⟩
    · exact .inl ⟨high, low, rfl, rfl⟩
  · rintro (⟨high, low, rfl, rfl⟩ | ⟨high, l, low, rfl, hex, range, rfl⟩)
    · exact .inr ⟨high, low, rfl, rfl⟩
    · refine .inl ⟨high, ?_, l, rfl, low, hex, range, rfl⟩
      simp

theorem isValidChar_of_hex {s : Bytes} {v : Nat} (hex : Hex4 s v) (high : ¬ HighSurrogate v)
    (low : ¬ LowSurrogate v) : v.isValidChar := by
  obtain ⟨one, two, three, four⟩ := hex
  have := one.lt
  have := two.lt
  have := three.lt
  have := four.lt
  simp only [HighSurrogate, LowSurrogate, Nat.isValidChar] at *
  omega

theorem isValidChar_of_pair {high low : Nat} (first : HighSurrogate high)
    (second : LowSurrogate low) : (pairCode high low).isValidChar := by
  rw [pairCode_def]
  simp only [HighSurrogate, LowSurrogate, Nat.isValidChar] at *
  omega

theorem parseUnicodeEscape_scans (out : Bytes) :
    Scans n (parseUnicodeEscape out) fun s a _ =>
      ∃ t, EscapeText (byte 'u' :: s) t ∧ a = out ++ t := by
  refine Scans.fromOffset fun offset => ?_
  refine (parseHex4_scans.bind fun first => (parseCodepoint_scans offset first).bind
    fun codepoint => Scans.lift (appendUtf8 out codepoint offset)).congr ?_
  intro s a t
  constructor
  · rintro ⟨h, first, _, rfl, hex, s', codepoint, _, rfl, cases, rfl, appended⟩
    rw [List.append_nil]
    rcases cases with ⟨high, low, rfl, rfl⟩ | ⟨high, l, low, rfl, hex', range, rfl⟩
    · rw [appendUtf8_ok out offset (isValidChar_of_hex hex high low), Except.ok.injEq] at appended
      rw [List.append_nil]
      exact ⟨_, .unicode hex high low, appended.symm⟩
    · rw [appendUtf8_ok out offset (isValidChar_of_pair high range), Except.ok.injEq] at appended
      exact ⟨_, .pair hex hex' high range, appended.symm⟩
  · rintro ⟨b, escape, rfl⟩
    cases escape with
    | short found => cases found
    | @unicode h v hex high low =>
      refine ⟨s, v, [], (List.append_nil s).symm, hex, [], v, [], rfl,
        .inl ⟨high, low, rfl, rfl⟩, rfl, ?_⟩
      exact appendUtf8_ok out offset (isValidChar_of_hex hex high low)
    | @pair h l high low hex hex' first second =>
      refine ⟨h, high, _, rfl, hex, _, pairCode high low, [], (List.append_nil _).symm,
        .inr ⟨first, l, low, rfl, hex', second, rfl⟩, rfl, ?_⟩
      exact appendUtf8_ok out offset (isValidChar_of_pair first second)

theorem lookup_cons_elim {β : Type} (esc key b : UInt8) (table : List (UInt8 × UInt8))
    (missing : β) (found : UInt8 → β) :
    (((key, b) :: table).lookup esc).elim missing found =
      if esc = key then found b else (table.lookup esc).elim missing found := by
  rw [List.lookup_cons]
  split
  case h_1 same =>
    rw [if_pos (eq_of_beq same)]
    rfl
  case h_2 other => rw [if_neg (ne_of_beq_false other)]

/-- The tests of the characters after a backslash are a search in the table. -/
theorem parseEscape_eq (out : Bytes) (esc : UInt8) :
    parseEscape out esc =
      (escapes.lookup esc).elim
        (if esc = byte 'u' then parseUnicodeEscape out
          else failBefore .syntax_ "invalid string escape")
        fun b => pure (out ++ [b]) := by
  simp only [escapes, lookup_cons_elim]
  rfl

theorem parseEscape_scans (out : Bytes) (esc : UInt8) :
    Scans n (parseEscape out esc) fun s a _ =>
      ∃ t, EscapeText (esc :: s) t ∧ a = out ++ t := by
  rw [parseEscape_eq]
  cases found : escapes.lookup esc with
  | some b =>
    refine (Scans.pure (out ++ [b])).congr ?_
    intro s a t
    constructor
    · rintro ⟨rfl, rfl⟩
      exact ⟨[b], .short found, rfl⟩
    · rintro ⟨t, escape, rfl⟩
      cases escape with
      | short found' =>
        rw [found, Option.some.injEq] at found'
        exact ⟨rfl, by rw [found']⟩
      | unicode => cases found
      | pair => cases found
  | none =>
    refine (Scans.ite (fun _ => parseUnicodeEscape_scans out)
      (fun _ => failBefore_scans _ _)).congr ?_
    intro s a t
    simp only [and_false, or_false]
    constructor
    · rintro ⟨rfl, result⟩
      exact result
    · rintro ⟨t, escape, rfl⟩
      cases escape with
      | short found' => rw [found] at found'; cases found'
      | unicode hex high low => exact ⟨rfl, _, .unicode hex high low, rfl⟩
      | pair hex hex' high low => exact ⟨rfl, _, .pair hex hex' high low, rfl⟩

/-- The loop appends what the rest of the string denotes. -/
theorem parseChars_scans (fuel : Nat) (out : Bytes) (enough : n < fuel) :
    Scans n (parseChars fuel out) fun s a _ =>
      ∃ body t, s = body ++ [byte '"'] ∧ CharsText body t ∧ a = out ++ t := by
  induction fuel generalizing n out with
  | zero => omega
  | succ fuel ih =>
    refine (Scans.ifAny (fun m c less => Scans.ite (fun _ => Scans.pure out) fun _ =>
      Scans.ite (fun _ => failBefore_scans _ _) fun _ =>
      Scans.ite (fun _ => ih (out ++ [c]) (by omega)) fun _ =>
      Scans.ifAny (fun k esc less' => (parseEscape_scans out esc).bind
        fun out' => ih out' (by omega)) (failHere_scans _ _)) (failHere_scans _ _)).congr ?_
    intro s a t
    simp only [and_false, or_false, false_or]
    constructor
    · rintro ⟨c, s', rfl, ⟨rfl, rfl, rfl⟩ | ⟨quote, control, rest⟩⟩
      · exact ⟨[], [], rfl, .nil, (List.append_nil _).symm⟩
      · rcases rest with ⟨other, body, u, rfl, chars, rfl⟩ |
          ⟨backslash, esc, _, rfl, e, _, _, rfl, ⟨b, escape, rfl⟩, body, u, rfl, chars, rfl⟩
        · refine ⟨c :: body, c :: u, rfl, .plain ?_ quote other chars, ?_⟩
          · exact UInt8.not_lt.1 control
          · rw [List.append_assoc]
            rfl
        · have same : c = byte '\\' := Decidable.not_not.1 backslash
          rw [same]
          refine ⟨byte '\\' :: ((esc :: e) ++ body), b ++ u, ?_, .escape escape chars, ?_⟩
          · simp
          · rw [List.append_assoc]
    · rintro ⟨_, _, rfl, chars, rfl⟩
      cases chars with
      | nil => exact ⟨byte '"', [], rfl, .inl ⟨rfl, rfl, List.append_nil _⟩⟩
      | @plain c body u printable quote other chars =>
        refine ⟨c, body ++ [byte '"'], rfl, .inr ⟨quote, UInt8.not_lt.2 printable,
          .inl ⟨other, body, u, rfl, chars, ?_⟩⟩⟩
        rw [List.append_assoc]
        rfl
      | @escape e b body u escape chars =>
        obtain ⟨esc, e, rfl⟩ : ∃ esc e', e = esc :: e' := by
          cases escape <;> exact ⟨_, _, rfl⟩
        refine ⟨byte '\\', _, rfl, .inr ⟨by decide, by decide, .inr ⟨by simp, esc,
          e ++ (body ++ [byte '"']), by simp, e, out ++ b, _, rfl, ⟨b, escape, rfl⟩,
          body, u, rfl, chars, ?_⟩⟩⟩
        rw [List.append_assoc]

theorem parseStringText_scans : Scans n parseStringText fun s a _ => StringText s a := by
  refine ((expectChar_scans _ _).bind fun _ => Scans.fueled fun m =>
    parseChars_scans (m + 1) [] (Nat.lt_succ_self m)).congr ?_
  intro s a t
  constructor
  · rintro ⟨_, _, _, rfl, rfl, body, u, rfl, chars, rfl⟩
    exact .mk chars
  · rintro ⟨chars⟩
    exact ⟨[byte '"'], (), _, rfl, rfl, _, a, rfl, chars, rfl⟩

end Ciel.Json
