import Mathlib.Data.Set.Card
import Mathlib.Logic.Function.Basic

/-!
# Finite maps over classes of keys

A finite map whose keys are taken up to an equivalence. An entry keeps the key that it was
last stored with. This is what a mutable map with its own notion of equal keys stands for:
storing under an equal key replaces the entry, and two entries never have equal keys.
-/

namespace Library

/-- A finite map from the classes of keys to a key of the class with its value. -/
structure ClassMap (K V : Type*) (same : Setoid K) where
  entry : Quotient same → Option (K × V)
  own : ∀ {c k v}, entry c = some (k, v) → Quotient.mk same k = c
  finite : {c | entry c ≠ none}.Finite

namespace ClassMap

variable {K V : Type*} {same : Setoid K} (m : ClassMap K V same)

/-- The number of keys. -/
noncomputable def size : Nat := {c | m.entry c ≠ none}.ncard

/-- The entry for a key. -/
def find (k : K) : Option (K × V) := m.entry (Quotient.mk same k)

def empty : ClassMap K V same where
  entry _ := none
  own h := by cases h
  finite := by simp

open Classical in
/-- Store a value under a key. -/
noncomputable def insert (k : K) (v : V) : ClassMap K V same where
  entry := Function.update m.entry (Quotient.mk same k) (some (k, v))
  own {c k' v'} h := by
    by_cases here : c = Quotient.mk same k
    · subst here
      rw [Function.update_self] at h
      cases h
      rfl
    · rw [Function.update_of_ne here] at h
      exact m.own h
  finite := by
    refine (m.finite.insert (Quotient.mk same k)).subset fun c stored => ?_
    by_cases here : c = Quotient.mk same k
    · exact .inl here
    · refine .inr ?_
      simpa [Function.update_of_ne here] using stored

open Classical in
/-- Forget a key. -/
noncomputable def erase (k : K) : ClassMap K V same where
  entry := Function.update m.entry (Quotient.mk same k) none
  own {c k' v'} h := by
    by_cases here : c = Quotient.mk same k
    · subst here
      rw [Function.update_self] at h
      cases h
    · rw [Function.update_of_ne here] at h
      exact m.own h
  finite := by
    refine m.finite.subset fun c stored => ?_
    by_cases here : c = Quotient.mk same k
    · simp [here] at stored
    · simpa [Function.update_of_ne here] using stored

/-- A list of entries with each key of the map once. -/
def Lists (entries : List (K × V)) : Prop :=
  (entries.map fun e => Quotient.mk same e.1).Nodup ∧
    ∀ k v, (k, v) ∈ entries ↔ m.find k = some (k, v)

variable {m}

@[ext] theorem ext {m m' : ClassMap K V same} (h : ∀ k e, m.find k = some e ↔ m'.find k = some e) :
    m = m' := by
  have entries : m.entry = m'.entry := by
    funext c
    induction c using Quotient.inductionOn with
    | h k => exact Option.ext fun e => h k e
  cases m
  cases m'
  cases entries
  rfl

theorem find_insert (k : K) (v : V) (k' : K) [Decidable (same k k')] :
    (m.insert k v).find k' = if same k k' then some (k, v) else m.find k' := by
  classical
  split
  next equal =>
    rw [find, ← Quotient.sound equal]
    exact Function.update_self ..
  next other =>
    exact Function.update_of_ne (fun equal => other (Quotient.exact equal.symm)) ..

theorem find_erase (k k' : K) [Decidable (same k k')] :
    (m.erase k).find k' = if same k k' then none else m.find k' := by
  classical
  split
  next equal =>
    rw [find, ← Quotient.sound equal]
    exact Function.update_self ..
  next other =>
    exact Function.update_of_ne (fun equal => other (Quotient.exact equal.symm)) ..

/-- Two lists of the entries are rearrangements of each other. -/
theorem Lists.perm {entries entries' : List (K × V)} (lists : m.Lists entries)
    (lists' : m.Lists entries') : entries.Perm entries' := by
  refine (List.perm_ext_iff_of_nodup lists.1.of_map lists'.1.of_map).mpr fun e => ?_
  rw [lists.2 e.1 e.2, lists'.2 e.1 e.2]

/-- A new key is listed last. -/
theorem Lists.insert {entries : List (K × V)} (lists : m.Lists entries) {k : K} {v : V}
    (absent : m.find k = none) : (m.insert k v).Lists (entries ++ [(k, v)]) := by
  classical
  have other {k' : K} {v' : V} (inside : (k', v') ∈ entries) : ¬same k k' := by
    intro equal
    have found := (lists.2 k' v').mp inside
    rw [find, ← Quotient.sound equal] at found
    cases absent.symm.trans found
  constructor
  · rw [List.map_append, List.nodup_append]
    refine ⟨lists.1, List.nodup_singleton _, fun c inside d last => ?_⟩
    obtain ⟨⟨k', v'⟩, member, rfl⟩ := List.mem_map.mp inside
    obtain rfl := List.mem_singleton.mp last
    exact fun equal => other member (Quotient.exact equal.symm)
  · intro k' v'
    rw [List.mem_append, List.mem_singleton, find_insert]
    split
    next equal =>
      have notOld : (k', v') ∉ entries := fun inside => other inside equal
      simp [notOld, eq_comm]
    next different =>
      have notNew : (k', v') ≠ (k, v) := by
        rintro ⟨⟩
        exact different (same.refl k)
      simp [notNew, lists.2 k' v']

/-- The entries of the map are carried, each by one carrier. -/
structure Carries {A : Type*} (m : ClassMap K V same) (At : A → K × V → Prop) : Prop where
  once : ∀ {a b e e'}, At a e → At b e' → same e.1 e'.1 → a = b
  find : ∀ {k e}, m.find k = some e ↔ ∃ a, At a e ∧ same e.1 k

section Carriers

variable {A : Type*} {At At' : A → K × V → Prop} {a : A} {k : K}

/-- A value is stored by the carrier of its key, or by a new one. -/
theorem Carries.insert (carries : m.Carries At) {v : V}
    (carried : ∀ b e, At' b e ↔ At b e ∧ b ≠ a ∨ e = (k, v) ∧ b = a)
    (apart : ∀ b e, At b e → (same e.1 k ↔ b = a)) : (m.insert k v).Carries At' := by
  classical
  have symm {x y : K} : same x y → same y x := same.symm
  have trans {x y z : K} : same x y → same y z → same x z := same.trans
  have find := @carries.find
  have stored := carried a (k, v)
  constructor
  · intro b c e e' first second equal
    have once := @carries.once
    grind
  · intro k' e
    rw [find_insert]
    grind

/-- The carrier of a key is given up. -/
theorem Carries.erase (carries : m.Carries At) (carried : ∀ b e, At' b e ↔ At b e ∧ b ≠ a)
    (apart : ∀ b e, At b e → (same e.1 k ↔ b = a)) : (m.erase k).Carries At' := by
  classical
  constructor
  · intro b c e e' first second
    exact carries.once ((carried b e).mp first).1 ((carried c e').mp second).1
  · intro k' e
    have symm {x y : K} : same x y → same y x := same.symm
    have trans {x y z : K} : same x y → same y z → same x z := same.trans
    have find := @carries.find
    rw [find_erase]
    grind

end Carriers

/-- The entries are counted by whatever carries each of them once. -/
theorem size_eq_ncard {A : Type*} {carriers : Set A} (key : A → Option K)
    (carried : ∀ a ∈ carriers, ∃ k, key a = some k ∧ m.find k ≠ none)
    (each : ∀ k, m.find k ≠ none → ∃ a ∈ carriers, ∃ k', key a = some k' ∧ same k' k)
    (once : ∀ a ∈ carriers, ∀ b ∈ carriers, ∀ k k', key a = some k → key b = some k' →
      same k k' → a = b) : m.size = carriers.ncard := by
  let toClass : A → Option (Quotient same) := fun a => (key a).map (Quotient.mk same)
  have image : some '' {c | m.entry c ≠ none} = toClass '' carriers := by
    ext c
    constructor
    · rintro ⟨c, stored, rfl⟩
      induction c using Quotient.inductionOn with
      | h k =>
        obtain ⟨a, inside, k', isKey, equal⟩ := each k stored
        exact ⟨a, inside, by simp [toClass, isKey, Quotient.sound equal]⟩
    · rintro ⟨a, inside, rfl⟩
      obtain ⟨k, isKey, stored⟩ := carried a inside
      exact ⟨Quotient.mk same k, stored, by simp [toClass, isKey]⟩
  have injective : Set.InjOn toClass carriers := by
    intro a inside b inside' equal
    obtain ⟨k, isKey, -⟩ := carried a inside
    obtain ⟨k', isKey', -⟩ := carried b inside'
    simp only [toClass, isKey, isKey', Option.map_some, Option.some.injEq] at equal
    exact once a inside b inside' k k' isKey isKey' (Quotient.exact equal)
  rw [size, ← Set.ncard_image_of_injective _ (Option.some_injective _), image,
    injective.ncard_image]

end ClassMap

end Library
