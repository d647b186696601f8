import Ciel.Std.Map

/-!
# Structural map keys

`std/map` hashes and compares a key through its structural representation. The
two functions are given node by node, so a key type is described by a tree, and
each function is a recursion over that tree.

The names of fields and variants take no part in either function. Equality of
keys is therefore coarser than equality of the represented values; that it is
an equivalence which the hash respects is what the map relies on.
-/

namespace Ciel.Map

/-- The types with `map_key`. An integer has a sign and a width: `usize` has 64
bits, and `char` has 8 with the sign that the C compiler gives it. A borrowed
node (`FieldRef`, `PayloadRef`, `VariantRef`) points to the value that the owned
one holds and has the same two functions. -/
inductive KeyTy
  | bool
  | int (signed : Bool) (bits : Nat)
  | text
  | hnil
  | hcons (head tail : KeyTy)
  | field (ty : KeyTy)
  | payload (ty : KeyTy)
  | variant (ty : KeyTy)
  | conil
  | coproduct (head tail : KeyTy)

namespace KeyTy

/-- The values of a key type; a field and a variant come with their name, and a
payload with its index. -/
abbrev Value : KeyTy → Type
  | bool => Bool
  | int _ bits => BitVec bits
  | text => List (BitVec 8)
  | hnil => Unit
  | hcons head tail => head.Value × tail.Value
  | field ty => List (BitVec 8) × ty.Value
  | payload ty => BitVec 64 × ty.Value
  | variant ty => List (BitVec 8) × ty.Value
  | conil => Empty
  | coproduct head tail => head.Value ⊕ tail.Value

end KeyTy

def mixU64 (value seed : BitVec 64) : BitVec 64 :=
  let x := value ^^^ seed ^^^ 0x517cc1b727220a95
  let x := x ^^^ (x >>> 30)
  let x := x ^^^ (x >>> 16)
  x ^^^ (x >>> 7)

/-- The loop of `text_equal` over two texts of one length. -/
def textEqualLoop : List (BitVec 8) → List (BitVec 8) → Bool
  | left :: lefts, right :: rights => if left ≠ right then false else textEqualLoop lefts rights
  | _, _ => true

def textEqual (left right : List (BitVec 8)) : Bool :=
  if left.length ≠ right.length then false else textEqualLoop left right

def hashKey : (ty : KeyTy) → ty.Value → BitVec 64 → BitVec 64
  | .bool, value, seed => if value then mixU64 1 seed else mixU64 0 seed
  | .int signed _, value, seed =>
    mixU64 (if signed then value.signExtend 64 else value.setWidth 64) seed
  | .text, data, seed =>
    data.foldl (fun hash byte => mixU64 (byte.setWidth 64) hash)
      (mixU64 (BitVec.ofNat 64 data.length) seed)
  | .hnil, _, seed => mixU64 0 seed
  | .hcons head tail, value, seed =>
    let headHash := hashKey head value.1 (mixU64 1 seed)
    hashKey tail value.2 headHash
  | .field ty, value, seed => hashKey ty value.2 seed
  | .payload ty, value, seed =>
    let indexHash := mixU64 value.1 seed
    hashKey ty value.2 indexHash
  | .variant ty, value, seed => hashKey ty value.2 (mixU64 2 seed)
  | .coproduct head _, .inl value, seed => hashKey head value (mixU64 3 seed)
  | .coproduct _ tail, .inr value, seed => hashKey tail value (mixU64 4 seed)

def keyEq : (ty : KeyTy) → ty.Value → ty.Value → Bool
  | .bool, left, right => left == right
  | .int _ _, left, right => left == right
  | .text, left, right => textEqual left right
  | .hnil, _, _ => true
  | .hcons head tail, left, right => keyEq head left.1 right.1 && keyEq tail left.2 right.2
  | .field ty, left, right => keyEq ty left.2 right.2
  | .payload ty, left, right => left.1 == right.1 && keyEq ty left.2 right.2
  | .variant ty, left, right => keyEq ty left.2 right.2
  | .coproduct head _, .inl left, .inl right => keyEq head left right
  | .coproduct _ tail, .inr left, .inr right => keyEq tail left right
  | .coproduct _ _, _, _ => false

theorem textEqualLoop_iff {left right : List (BitVec 8)} (length : left.length = right.length) :
    textEqualLoop left right = true ↔ left = right := by
  induction left generalizing right with
  | nil =>
    obtain rfl := List.length_eq_zero_iff.mp length.symm
    simp [textEqualLoop]
  | cons first lefts ih =>
    cases right with
    | nil => cases length
    | cons second rights =>
      have rest := @ih rights (Nat.succ.inj length)
      by_cases same : first = second <;> simp [textEqualLoop, same, rest]

theorem textEqual_iff {left right : List (BitVec 8)} :
    textEqual left right = true ↔ left = right := by
  by_cases length : left.length = right.length
  · simp [textEqual, length, textEqualLoop_iff]
  · have : left ≠ right := fun same => length (congrArg List.length same)
    simp [textEqual, length, this]

theorem keyEq_refl {ty : KeyTy} (key : ty.Value) : keyEq ty key key = true := by
  induction ty with
  | text => exact textEqual_iff.mpr rfl
  | conil => exact key.elim
  | coproduct head tail ofHead ofTail =>
    cases key with
    | inl key => exact ofHead key
    | inr key => exact ofTail key
  | _ => simp [keyEq, *]

variable {ty : KeyTy} {left middle right : ty.Value}

theorem keyEq_symm (same : keyEq ty left right = true) : keyEq ty right left = true := by
  induction ty with
  | text => exact textEqual_iff.mpr (textEqual_iff.mp same).symm
  | conil => exact left.elim
  | coproduct => cases left <;> cases right <;> simp_all [keyEq]
  | _ => simp_all [keyEq]

theorem keyEq_trans (first : keyEq ty left middle = true) (second : keyEq ty middle right = true) :
    keyEq ty left right = true := by
  induction ty with
  | text => exact textEqual_iff.mpr ((textEqual_iff.mp first).trans (textEqual_iff.mp second))
  | conil => exact left.elim
  | hcons head tail ofHead ofTail =>
    simp only [keyEq, Bool.and_eq_true] at first second ⊢
    exact ⟨ofHead first.1 second.1, ofTail first.2 second.2⟩
  | coproduct head tail ofHead ofTail =>
    cases left <;> cases middle <;> cases right <;>
      simp only [keyEq, Bool.false_eq_true] at first second
    · exact ofHead first second
    · exact ofTail first second
  | field ty ih | variant ty ih => exact ih first second
  | payload ty ih =>
    simp only [keyEq, Bool.and_eq_true, beq_iff_eq] at first second ⊢
    exact ⟨first.1.trans second.1, ih first.2 second.2⟩
  | _ => simp_all [keyEq]

/-- Each node hands its parts a seed that does not depend on what equality ignores. -/
theorem hashKey_congr (same : keyEq ty left right = true) (seed : BitVec 64) :
    hashKey ty left seed = hashKey ty right seed := by
  induction ty generalizing seed with
  | text => rw [textEqual_iff.mp same]
  | hcons head tail ofHead ofTail =>
    simp only [keyEq, Bool.and_eq_true] at same
    rw [hashKey, hashKey, ofHead same.1, ofTail same.2]
  | field ty ih | variant ty ih => exact ih same _
  | payload ty ih =>
    simp only [keyEq, Bool.and_eq_true, beq_iff_eq] at same
    rw [hashKey, hashKey, same.1, ih same.2]
  | conil => exact left.elim
  | coproduct head tail ofHead ofTail =>
    cases left <;> cases right <;> simp only [keyEq, Bool.false_eq_true] at same
    · exact ofHead same _
    · exact ofTail same _
  | _ => simp_all [keyEq, hashKey]

/-- Structural equality of keys is an equivalence relation, and equal keys have
equal hashes under every seed. -/
theorem structural_keys (ty : KeyTy) :
    Equivalence (fun left right => keyEq ty left right = true) ∧
      ∀ left right, keyEq ty left right = true →
        ∀ seed, hashKey ty left seed = hashKey ty right seed :=
  ⟨⟨keyEq_refl, keyEq_symm, keyEq_trans⟩, fun _ _ => hashKey_congr⟩

/-- The policy of `hash_map_new`: what the map assumes of its keys holds of every
structural key. -/
def KeyTy.policy (ty : KeyTy) : KeyPolicy ty.Value where
  hash key seed := (hashKey ty key (BitVec.ofNat 64 seed)).toNat
  eq := keyEq ty
  refl := keyEq_refl
  symm := keyEq_symm
  trans := keyEq_trans
  hash_congr same _ := congrArg BitVec.toNat (hashKey_congr same _)

end Ciel.Map
