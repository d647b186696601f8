import Ciel.Library.Scanning
import Ciel.Std.Json.Text

/-!
# The Base64 codec of the standard library

`std/base64` turns three bytes into four characters. The last group may have fewer bytes and
is filled up with `=`. Decoding what was encoded gives the bytes back.
-/

namespace Ciel.Base64

open Library Ciel.Json

inductive Base64Error
  | invalidLength
  | invalidPadding
  | invalidChar
  | storage
  deriving DecidableEq, Repr

def digit (value : UInt8) : UInt8 :=
  if value < 26 then value + byte 'A'
  else if value < 52 then value - 26 + byte 'a'
  else if value < 62 then value - 52 + byte '0'
  else if value = 62 then byte '+'
  else byte '/'

def value (c : UInt8) : Except Base64Error UInt8 :=
  if c ≥ byte 'A' && c ≤ byte 'Z' then .ok (c - byte 'A')
  else if c ≥ byte 'a' && c ≤ byte 'z' then .ok (c - byte 'a' + 26)
  else if c ≥ byte '0' && c ≤ byte '9' then .ok (c - byte '0' + 52)
  else if c = byte '+' then .ok 62
  else if c = byte '/' then .ok 63
  else .error .invalidChar

/-! The six bits of each of the four characters of a group. -/

def sextet0 (b0 : UInt8) : UInt8 := b0 >>> 2

def sextet1 (b0 b1 : UInt8) : UInt8 := (b0 &&& 0x03) <<< 4 ||| b1 >>> 4

def sextet2 (b1 b2 : UInt8) : UInt8 := (b1 &&& 0x0f) <<< 2 ||| b2 >>> 6

def sextet3 (b2 : UInt8) : UInt8 := b2 &&& 0x3f

/-- The loop of `encode`. Bytes that are missing from the last group are zero. -/
def encode : Bytes → Bytes
  | [] => []
  | [b0] => [digit (sextet0 b0), digit (sextet1 b0 0), byte '=', byte '=']
  | [b0, b1] => [digit (sextet0 b0), digit (sextet1 b0 b1), digit (sextet2 b1 0), byte '=']
  | b0 :: b1 :: b2 :: rest =>
    digit (sextet0 b0) :: digit (sextet1 b0 b1) :: digit (sextet2 b1 b2) ::
      digit (sextet3 b2) :: encode rest

/-- The loop of `decode` over groups of four characters, with the bytes pushed so far. -/
def decodeGroups (out : Bytes) : Bytes → Except Base64Error Bytes
  | c0 :: c1 :: c2 :: c3 :: rest =>
    if c0 = byte '=' ∨ c1 = byte '=' then .error .invalidPadding
    else do
      let v0 ← value c0
      let v1 ← value c1
      let out := out ++ [v0 <<< 2 ||| v1 >>> 4]
      if c2 = byte '=' then
        if c3 ≠ byte '=' ∨ rest ≠ [] then .error .invalidPadding
        else decodeGroups out rest
      else do
        let v2 ← value c2
        let out := out ++ [(v1 &&& 0x0f) <<< 4 ||| v2 >>> 2]
        if c3 = byte '=' then
          if rest ≠ [] then .error .invalidPadding else decodeGroups out rest
        else do
          let v3 ← value c3
          decodeGroups (out ++ [(v2 &&& 0x03) <<< 6 ||| v3]) rest
  | _ => .ok out

def decode (chars : Bytes) : Except Base64Error Bytes :=
  if chars.length % 4 ≠ 0 then .error .invalidLength else decodeGroups [] chars

/-! ## Digits -/

theorem digit_facts : ∀ n < 64, (value (digit (UInt8.ofNat n))).toOption = some (UInt8.ofNat n) ∧
    digit (UInt8.ofNat n) ≠ byte '=' := by
  decide

theorem value_digit {v : UInt8} (small : v.toNat < 64) : value (digit v) = .ok v := by
  have facts := (digit_facts v.toNat small).1
  rw [UInt8.ofNat_toNat] at facts
  cases result : value (digit v) with
  | error e =>
    rw [result] at facts
    cases facts
  | ok w =>
    rw [result] at facts
    exact congrArg Except.ok (Option.some.inj facts)

theorem digit_ne_padding {v : UInt8} (small : v.toNat < 64) : digit v ≠ byte '=' := by
  have facts := (digit_facts v.toNat small).2
  rwa [UInt8.ofNat_toNat] at facts

/-! ## Bits -/

theorem toNat_shiftLeft_or {a b : UInt8} {k : UInt8} (less : k.toNat < 8)
    (fits : a.toNat * 2 ^ k.toNat < 256) (low : b.toNat < 2 ^ k.toNat) :
    (a <<< k ||| b).toNat = a.toNat * 2 ^ k.toNat + b.toNat := by
  rw [UInt8.toNat_or, UInt8.toNat_shiftLeft, Nat.mod_eq_of_lt less, Nat.shiftLeft_eq,
    Nat.mod_eq_of_lt fits, ← Nat.shiftLeft_eq, Nat.shiftLeft_add_eq_or_of_lt low]

theorem toNat_shiftRight {a : UInt8} {k : UInt8} (less : k.toNat < 8) :
    (a >>> k).toNat = a.toNat / 2 ^ k.toNat := by
  rw [UInt8.toNat_shiftRight, Nat.mod_eq_of_lt less, Nat.shiftRight_eq_div_pow]

theorem toNat_mask (a : UInt8) (k : Nat) (small : k ≤ 7) :
    (a &&& UInt8.ofNat (2 ^ k - 1)).toNat = a.toNat % 2 ^ k := by
  have power : 2 ^ k ≤ 2 ^ 7 := Nat.pow_le_pow_right (by decide) small
  have bound : 2 ^ k - 1 < 2 ^ 8 := by omega
  rw [UInt8.toNat_and, UInt8.toNat_ofNat', Nat.mod_eq_of_lt bound, Nat.and_two_pow_sub_one_eq_mod]

/-- The four digits of a group, as numbers. -/
structure Sextets (b0 b1 b2 v0 v1 v2 v3 : UInt8) : Prop where
  first : v0.toNat = b0.toNat / 4
  second : v1.toNat = b0.toNat % 4 * 16 + b1.toNat / 16
  third : v2.toNat = b1.toNat % 16 * 4 + b2.toNat / 64
  fourth : v3.toNat = b2.toNat % 64

theorem sextets (b0 b1 b2 : UInt8) :
    Sextets b0 b1 b2 (sextet0 b0) (sextet1 b0 b1) (sextet2 b1 b2) (sextet3 b2) := by
  have h0 := b0.toNat_lt
  have h1 := b1.toNat_lt
  have h2 := b2.toNat_lt
  have mask2 : (b0 &&& 0x03).toNat = b0.toNat % 4 := toNat_mask b0 2 (by decide)
  have mask4 : (b1 &&& 0x0f).toNat = b1.toNat % 16 := toNat_mask b1 4 (by decide)
  have high4 : (b1 >>> 4).toNat = b1.toNat / 16 := toNat_shiftRight (by decide)
  have high6 : (b2 >>> 6).toNat = b2.toNat / 64 := toNat_shiftRight (by decide)
  refine ⟨toNat_shiftRight (by decide), ?_, ?_, toNat_mask b2 6 (by decide)⟩
  · rw [sextet1, toNat_shiftLeft_or (by decide), mask2, high4]
    · rfl
    · rw [mask2]
      show _ * 16 < 256
      omega
    · rw [high4]
      show _ < 16
      omega
  · rw [sextet2, toNat_shiftLeft_or (by decide), mask4, high6]
    · rfl
    · rw [mask4]
      show _ * 4 < 256
      omega
    · rw [high6]
      show _ < 4
      omega

/-- The bytes come back from the digits of their group. -/
theorem Sextets.bytes {b0 b1 b2 v0 v1 v2 v3 : UInt8} (group : Sextets b0 b1 b2 v0 v1 v2 v3) :
    v0 <<< 2 ||| v1 >>> 4 = b0 ∧ (v1 &&& 0x0f) <<< 4 ||| v2 >>> 2 = b1 ∧
      (v2 &&& 0x03) <<< 6 ||| v3 = b2 := by
  obtain ⟨first, second, third, fourth⟩ := group
  have h0 := b0.toNat_lt
  have h1 := b1.toNat_lt
  have h2 := b2.toNat_lt
  have mask4 : (v1 &&& 0x0f).toNat = v1.toNat % 16 := toNat_mask v1 4 (by decide)
  have mask2 : (v2 &&& 0x03).toNat = v2.toNat % 4 := toNat_mask v2 2 (by decide)
  have high4 : (v1 >>> 4).toNat = v1.toNat / 16 := toNat_shiftRight (by decide)
  have high2 : (v2 >>> 2).toNat = v2.toNat / 4 := toNat_shiftRight (by decide)
  refine ⟨?_, ?_, ?_⟩
  · rw [← UInt8.toNat_inj, toNat_shiftLeft_or (by decide), high4]
    · show v0.toNat * 4 + _ = _
      omega
    · show v0.toNat * 4 < 256
      omega
    · rw [high4]
      show _ < 4
      omega
  · rw [← UInt8.toNat_inj, toNat_shiftLeft_or (by decide), mask4, high2]
    · show _ * 16 + _ = _
      omega
    · rw [mask4]
      show _ * 16 < 256
      omega
    · rw [high2]
      show _ < 16
      omega
  · rw [← UInt8.toNat_inj, toNat_shiftLeft_or (by decide), mask2]
    · show _ * 64 + _ = _
      omega
    · rw [mask2]
      show _ * 64 < 256
      omega
    · show _ < 64
      omega

theorem Sextets.small {b0 b1 b2 v0 v1 v2 v3 : UInt8} (group : Sextets b0 b1 b2 v0 v1 v2 v3) :
    v0.toNat < 64 ∧ v1.toNat < 64 ∧ v2.toNat < 64 ∧ v3.toNat < 64 := by
  obtain ⟨first, second, third, fourth⟩ := group
  have h0 := b0.toNat_lt
  have h1 := b1.toNat_lt
  have h2 := b2.toNat_lt
  omega

/-! ## Round trip -/

theorem encode_length (data : Bytes) : (encode data).length % 4 = 0 := by
  fun_induction encode data with
  | case1 => rfl
  | case2 => simp
  | case3 => simp
  | case4 b0 b1 b2 rest ih =>
    simp only [List.length_cons]
    omega

theorem decodeGroups_encode (data out : Bytes) :
    decodeGroups out (encode data) = .ok (out ++ data) := by
  fun_induction encode data generalizing out with
  | case1 => simp [decodeGroups]
  | case2 b0 =>
    obtain ⟨small0, small1, -, -⟩ := (sextets b0 0 0).small
    obtain ⟨byte0, -, -⟩ := (sextets b0 0 0).bytes
    have padding : ¬ (digit (sextet0 b0) = byte '=' ∨ digit (sextet1 b0 0) = byte '=') :=
      not_or.2 ⟨digit_ne_padding small0, digit_ne_padding small1⟩
    rw [decodeGroups, if_neg padding, value_digit small0, ok_bind, value_digit small1, ok_bind,
      byte0]
    simp [decodeGroups]
  | case3 b0 b1 =>
    obtain ⟨small0, small1, small2, -⟩ := (sextets b0 b1 0).small
    obtain ⟨byte0, byte1, -⟩ := (sextets b0 b1 0).bytes
    have padding : ¬ (digit (sextet0 b0) = byte '=' ∨ digit (sextet1 b0 b1) = byte '=') :=
      not_or.2 ⟨digit_ne_padding small0, digit_ne_padding small1⟩
    rw [decodeGroups, if_neg padding, value_digit small0, ok_bind, value_digit small1, ok_bind,
      byte0, if_neg (digit_ne_padding small2), value_digit small2, ok_bind, byte1]
    simp [decodeGroups]
  | case4 b0 b1 b2 rest ih =>
    obtain ⟨small0, small1, small2, small3⟩ := (sextets b0 b1 b2).small
    obtain ⟨byte0, byte1, byte2⟩ := (sextets b0 b1 b2).bytes
    have padding : ¬ (digit (sextet0 b0) = byte '=' ∨ digit (sextet1 b0 b1) = byte '=') :=
      not_or.2 ⟨digit_ne_padding small0, digit_ne_padding small1⟩
    rw [decodeGroups, if_neg padding, value_digit small0, ok_bind, value_digit small1, ok_bind,
      byte0, if_neg (digit_ne_padding small2), value_digit small2, ok_bind, byte1,
      if_neg (digit_ne_padding small3), value_digit small3, ok_bind, byte2, ih]
    simp

/-- Decoding what was encoded gives the bytes back. -/
theorem decode_encode (data : Bytes) : decode (encode data) = .ok data := by
  rw [decode, if_neg (by rw [encode_length]; simp)]
  exact decodeGroups_encode data []

end Ciel.Base64
