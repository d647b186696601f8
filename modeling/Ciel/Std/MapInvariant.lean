import Ciel.Std.Map
import Mathlib.Data.Finset.Card
import Mathlib.Data.Set.Finite.Lattice

/-!
# Well-formed hash maps

What holds of a map at all times: every bucket is a chain that ends, every node is in the
bucket of its hash, no two nodes have equal keys, and `len` counts the nodes. Such a map
stands for a finite map over the classes of keys. The search for a key finds its entry, and
rehashing, which relinks every node, keeps the entries.
-/

namespace Ciel.Map

open Library

variable {K V R E : Type} {policy : KeyPolicy K}
variable {cells : Nat → Option (Node K V)} {chains : Nat → List Nat}
  {m : ClassMap K V policy.setoid} {buckets : List (Option Nat)} {s : State K V}

/-! ### Well-formed maps -/

/-- The nodes that the buckets hold. -/
def Member (map : HashMap) (chains : Nat → List Nat) (a : Nat) : Prop :=
  ∃ i < map.capacity, a ∈ chains i

/-- A well-formed map, with the chain of each bucket. -/
structure Rep (policy : KeyPolicy K) (s : State K V) (chains : Nat → List Nat) : Prop where
  length : s.map.buckets.length = s.map.capacity
  linked : ∀ i head, s.map.buckets[i]? = some head → Chain Node.next s.cells head (chains i)
  node : ∀ i < s.map.capacity, ∀ a ∈ chains i, ∃ n, s.cells a = some n ∧
    n.hash = policy.hash n.key s.map.seed ∧ startIndex n.hash s.map.capacity = i ∧ a < s.top
  unique : ∀ a b, Member s.map chains a → Member s.map chains b → ∀ n n', s.cells a = some n →
    s.cells b = some n' → policy.eq n.key n'.key → a = b
  len : s.map.len = {a | Member s.map chains a}.ncard

/-- The entries of the map are those of a finite map. -/
def Holds (s : State K V) (chains : Nat → List Nat) (m : ClassMap K V policy.setoid) : Prop :=
  ∀ k e, m.find k = some e ↔ ∃ a n, Member s.map chains a ∧ s.cells a = some n ∧
    policy.eq n.key k ∧ e = (n.key, n.value)

/-- The map stands for a finite map. -/
def Represents (s : State K V) (m : ClassMap K V policy.setoid) : Prop :=
  ∃ chains, Rep policy s chains ∧ Holds s chains m

/-- Buckets that are chains of nodes. -/
structure Linked (cells : Nat → Option (Node K V)) (buckets : List (Option Nat)) (capacity : Nat)
    (chains : Nat → List Nat) : Prop where
  length : buckets.length = capacity
  chain : ∀ i head, buckets[i]? = some head → Chain Node.next cells head (chains i)

section Members

variable {s : State K V} {chains : Nat → List Nat}

theorem finite_members (map : HashMap) (chains : Nat → List Nat) :
    {a | Member map chains a}.Finite := by
  refine (((List.range map.capacity).flatMap chains).finite_toSet).subset ?_
  rintro a ⟨i, less, inside⟩
  exact List.mem_flatMap.mpr ⟨i, List.mem_range.mpr less, inside⟩

section

variable (rep : Rep policy s chains)

include rep

theorem Rep.member_node {a : Nat} (member : Member s.map chains a) :
    ∃ n, s.cells a = some n ∧ n.hash = policy.hash n.key s.map.seed ∧
      a ∈ chains (startIndex n.hash s.map.capacity) ∧ a < s.top := by
  obtain ⟨i, less, inside⟩ := member
  obtain ⟨n, found, hash, place, below⟩ := rep.node i less a inside
  exact ⟨n, found, hash, place ▸ inside, below⟩

/-- The head of a bucket that exists. -/
theorem Rep.bucket {i : Nat} (less : i < s.map.capacity) :
    ∃ head, bucketHead s.map i = some head ∧ Chain Node.next s.cells head (chains i) := by
  have less' : i < s.map.buckets.length := rep.length ▸ less
  have found := List.getElem?_eq_getElem less'
  exact ⟨_, found, rep.linked i _ found⟩

/-- A node is in one bucket, that of its hash. -/
theorem Rep.bucket_unique {i j a : Nat} (less : i < s.map.capacity)
    (less' : j < s.map.capacity) (inside : a ∈ chains i) (inside' : a ∈ chains j) : i = j := by
  obtain ⟨n, found, -, place, -⟩ := rep.node i less a inside
  obtain ⟨n', found', -, place', -⟩ := rep.node j less' a inside'
  cases found.symm.trans found'
  exact place.symm.trans place'

/-- A chain has fewer nodes than were ever allocated. -/
theorem Rep.chain_length {i : Nat} (less : i < s.map.capacity) : (chains i).length < s.top + 1 := by
  obtain ⟨head, -, chain⟩ := rep.bucket less
  have below : ∀ a ∈ chains i, a < s.top := fun a mem => by
    obtain ⟨n, -, -, -, lt⟩ := rep.node i less a mem
    exact lt
  have sub : (chains i).toFinset ⊆ Finset.range s.top := fun a mem => by
    simpa using below a (List.mem_toFinset.mp mem)
  have card := Finset.card_le_card sub
  rw [List.toFinset_card_of_nodup chain.nodup, Finset.card_range] at card
  omega

/-- `len` is the number of keys. -/
theorem Rep.size_eq (holds : Holds s chains m) : s.map.len = m.size := by
  rw [rep.len]
  refine (ClassMap.size_eq_ncard (fun a => (s.cells a).map Node.key) ?_ ?_ ?_).symm
  · intro a member
    obtain ⟨n, found, -⟩ := rep.member_node member
    refine ⟨n.key, by simp [found], ?_⟩
    rw [(holds n.key _).mpr ⟨a, n, member, found, policy.refl _, rfl⟩]
    simp
  · intro k stored
    obtain ⟨e, isEntry⟩ := Option.ne_none_iff_exists'.mp stored
    obtain ⟨a, n, member, found, equal, -⟩ := (holds k e).mp isEntry
    exact ⟨a, member, n.key, by simp [found], equal⟩
  · intro a member b member' k k' isKey isKey' equal
    obtain ⟨n, found, rfl⟩ := Option.map_eq_some_iff.mp isKey
    obtain ⟨n', found', rfl⟩ := Option.map_eq_some_iff.mp isKey'
    exact rep.unique a b member member' n n' found found' equal

end

/-- The entry of a node that a bucket holds. -/
def Entry (s : State K V) (chains : Nat → List Nat) (a : Nat) (e : K × V) : Prop :=
  Member s.map chains a ∧ ∃ n, s.cells a = some n ∧ e = (n.key, n.value)

theorem Rep.carries (rep : Rep policy s chains) (holds : Holds s chains m) :
    m.Carries (Entry s chains) where
  once := by
    rintro a b - - ⟨member, n, found, rfl⟩ ⟨member', n', found', rfl⟩ equal
    exact rep.unique a b member member' n n' found found' equal
  find := by
    intro k e
    rw [holds k e]
    constructor
    · rintro ⟨a, n, member, found, equal, rfl⟩
      exact ⟨a, ⟨member, n, found, rfl⟩, equal⟩
    · rintro ⟨a, ⟨member, n, found, rfl⟩, equal⟩
      exact ⟨a, n, member, found, equal, rfl⟩

/-- The node of a key is the only one. -/
theorem Rep.entry_iff (rep : Rep policy s chains) {a : Nat} {n : Node K V} {key : K}
    (member : Member s.map chains a) (found : s.cells a = some n) (equal : policy.eq n.key key) :
    ∀ b e, Entry s chains b e → (policy.setoid e.1 key ↔ b = a) := by
  rintro b - ⟨member', n', found', rfl⟩
  constructor
  · intro equal'
    exact rep.unique b a member' member n' n found' found (policy.trans equal' (policy.symm equal))
  · rintro rfl
    cases found.symm.trans found'
    exact equal

/-- A map with sound chains stands for what its nodes carry. -/
theorem represents_of_carries
    (linked : Linked s.cells s.map.buckets s.map.capacity chains)
    (node : ∀ i < s.map.capacity, ∀ a ∈ chains i, ∃ n, s.cells a = some n ∧
      n.hash = policy.hash n.key s.map.seed ∧ startIndex n.hash s.map.capacity = i ∧ a < s.top)
    (len : s.map.len = {a | Member s.map chains a}.ncard) (carries : m.Carries (Entry s chains)) :
    Represents s m := by
  refine ⟨chains, ⟨linked.length, linked.chain, node, ?_, len⟩, fun k e => ?_⟩
  · intro a b member member' n n' found found' equal
    exact carries.once ⟨member, n, found, rfl⟩ ⟨member', n', found', rfl⟩ equal
  · rw [carries.find]
    constructor
    · rintro ⟨a, ⟨member, n, found, rfl⟩, equal⟩
      exact ⟨a, n, member, found, equal, rfl⟩
    · rintro ⟨a, n, member, found, equal, rfl⟩
      exact ⟨a, ⟨member, n, found, rfl⟩, equal⟩

end Members

/-! ### Looking for a key -/

section Search

variable {cells : Nat → Option (Node K V)}

/-- A walk along a chain finds the first node of the key, or there is none. -/
theorem findNode_spec (hash : Nat) (key : K) (previous : Option Nat) {addrs : List Nat}
    {head : Option Nat} {fuel : Nat} (chain : Chain Node.next cells head addrs)
    (enough : addrs.length < fuel) :
    (∃ front a rest n, addrs = front ++ a :: rest ∧ cells a = some n ∧ policy.eq n.key key ∧
      findNode policy cells hash key fuel previous head =
        some (some (front.getLast?.or previous, a, n))) ∨
    (findNode policy cells hash key fuel previous head = some none ∧
      ∀ a ∈ addrs, ∀ n, cells a = some n → n.hash = hash → policy.eq n.key key = false) := by
  induction addrs generalizing head previous fuel with
  | nil =>
    obtain ⟨fuel, rfl⟩ := Nat.exists_eq_add_of_lt enough
    cases chain
    exact .inr ⟨by simp [findNode], by simp⟩
  | cons a rest ih =>
    obtain ⟨rfl, n, found, tail⟩ := chain
    obtain ⟨fuel, rfl⟩ : ∃ more, fuel = more + 1 := ⟨fuel - 1, by omega⟩
    simp only [List.length_cons] at enough
    by_cases here : n.hash = hash ∧ policy.eq n.key key
    · refine .inl ⟨[], a, rest, n, rfl, found, here.2, ?_⟩
      simp [findNode, found, here]
    · have walks : findNode policy cells hash key (fuel + 1) previous (some a) =
          findNode policy cells hash key fuel (some a) n.next := by
        simp only [findNode, found]
        rw [if_neg]
        simpa using here
      rcases ih (some a) tail (Nat.lt_of_succ_lt_succ enough) with
        ⟨front, b, rest, n', rfl, found', equal, result⟩ | ⟨result, none⟩
      · refine .inl ⟨a :: front, b, rest, n', rfl, found', equal, ?_⟩
        rw [walks, result]
        cases front with
        | nil => rfl
        | cons c front => simp [List.getLast?_cons]
      · refine .inr ⟨walks.trans result, List.forall_mem_cons.mpr ⟨?_, none⟩⟩
        intro n' found' sameHash
        cases found.symm.trans found'
        simpa [sameHash] using here

/-- The search in a map ends, with the node of the key or without one. -/
theorem lookup_spec (rep : Rep policy s chains) (pos : s.map.capacity ≠ 0) (key : K) :
    let index := startIndex (policy.hash key s.map.seed) s.map.capacity
    (∃ front a rest n, chains index = front ++ a :: rest ∧ s.cells a = some n ∧
      policy.eq n.key key ∧ lookup policy s key = some (some (front.getLast?, a, n))) ∨
    (lookup policy s key = some none ∧ ∀ a n, Member s.map chains a → s.cells a = some n →
      policy.eq n.key key = false) := by
  intro index
  have less : index < s.map.capacity := Nat.mod_lt _ (Nat.pos_of_ne_zero pos)
  obtain ⟨head, bucket, chain⟩ := rep.bucket less
  have unfolded : lookup policy s key =
      findNode policy s.cells (policy.hash key s.map.seed) key (s.top + 1) none head := by
    simp only [lookup]
    change (bucketHead s.map index).bind _ = _
    rw [bucket]
    rfl
  rw [unfolded]
  rcases findNode_spec (policy.hash key s.map.seed) key none chain (rep.chain_length less) with
    ⟨front, a, rest, n, split, found, equal, result⟩ | ⟨result, none⟩
  · exact .inl ⟨front, a, rest, n, split, found, equal, by simpa using result⟩
  · refine .inr ⟨result, fun a n member found => ?_⟩
    by_contra equal
    have equal : policy.eq n.key key := by simpa using equal
    obtain ⟨n', found', sameHash, inside, -⟩ := rep.member_node member
    cases found.symm.trans found'
    rw [policy.hash_congr equal] at sameHash
    rw [sameHash] at inside
    exact absurd equal (by simp [none a inside n found sameHash])

end Search

/-! ### Rehashing -/

/-- Memory in which only pointers differ. -/
def SameData (cells cells' : Nat → Option (Node K V)) : Prop :=
  ∀ a n, cells a = some n → ∃ link, cells' a = some { n with next := link }

theorem SameData.trans {cells' cells'' : Nat → Option (Node K V)} (first : SameData cells cells')
    (second : SameData cells' cells'') : SameData cells cells'' := by
  intro a n found
  obtain ⟨link, found'⟩ := first a n found
  obtain ⟨link', found''⟩ := second a _ found'
  exact ⟨link', found''⟩

theorem SameData.update {a : Nat} {n : Node K V} (found : cells a = some n) (link : Option Nat) :
    SameData cells (Function.update cells a (some { n with next := link })) := by
  intro b n' found'
  by_cases here : b = a
  · subst here
    cases found.symm.trans found'
    exact ⟨link, Function.update_self ..⟩
  · exact ⟨n'.next, by rw [Function.update_of_ne here, found']⟩

/-- Pointers do not show in the entries. -/
theorem SameData.entry {s' : State K V} {chains' : Nat → List Nat}
    (same : SameData s.cells s'.cells)
    (rep : Rep policy s chains) {P : Prop} {a : Nat} {e : K × V}
    (members : Member s'.map chains' a ↔ Member s.map chains a ∧ P) :
    Entry s' chains' a e ↔ Entry s chains a e ∧ P := by
  constructor
  · rintro ⟨member, n', found', rfl⟩
    obtain ⟨old, kept⟩ := members.mp member
    obtain ⟨n, found, -⟩ := rep.member_node old
    obtain ⟨link, moved⟩ := same a n found
    cases found'.symm.trans moved
    exact ⟨⟨old, n, found, rfl⟩, kept⟩
  · rintro ⟨⟨old, n, found, rfl⟩, kept⟩
    obtain ⟨link, moved⟩ := same a n found
    exact ⟨members.mpr ⟨old, kept⟩, _, moved, rfl⟩

/-- What relinking nodes does: they join the chains of their buckets, and nothing else
changes but their pointers. -/
structure Relinked (capacity : Nat) (cells cells' : Nat → Option (Node K V))
    (buckets' : List (Option Nat)) (chains chains' : Nat → List Nat)
    (moved : Nat → Prop) : Prop where
  linked : Linked cells' buckets' capacity chains'
  joined : ∀ i < capacity, ∀ a, a ∈ chains' i ↔
    a ∈ chains i ∨ moved a ∧ ∃ n, cells a = some n ∧ startIndex n.hash capacity = i
  same : SameData cells cells'
  frame : ∀ a, ¬ moved a → cells' a = cells a

/-- A node in front of the chain of a bucket. -/
theorem Linked.push {capacity index a : Nat} (linked : Linked cells buckets capacity chains)
    {head : Option Nat} (bucket : buckets[index]? = some head) (out : ∀ i < capacity, a ∉ chains i)
    {n : Node K V} (link : n.next = head) :
    Linked (Function.update cells a (some n)) (buckets.set index (some a)) capacity
      (Function.update chains index (a :: chains index)) := by
  have less {i : Nat} {head : Option Nat} (bucket : buckets[i]? = some head) : i < capacity :=
    linked.length ▸ (List.getElem?_eq_some_iff.mp bucket).1
  refine ⟨by simp [linked.length], fun i head' bucket' => ?_⟩
  by_cases here : i = index
  · subst here
    have : head' = some a := by
      rw [List.getElem?_set_self (linked.length ▸ less bucket)] at bucket'
      exact (Option.some.inj bucket').symm
    rw [this, Function.update_self]
    exact (linked.chain i head bucket).push (out i (less bucket)) link
  · rw [List.getElem?_set_ne (Ne.symm here)] at bucket'
    rw [Function.update_of_ne here]
    exact (linked.chain i head' bucket').update_of_not_mem (out i (less bucket')) _

theorem relink_spec {capacity fuel : Nat} (pos : 0 < capacity) {rest : List Nat} {raw : Option Nat}
    (linked : Linked cells buckets capacity chains) (chain : Chain Node.next cells raw rest)
    (apart : ∀ a ∈ rest, ∀ i < capacity, a ∉ chains i) (enough : rest.length < fuel) :
    ∃ cells' buckets' chains', relink capacity fuel cells buckets raw = some (cells', buckets') ∧
      Relinked capacity cells cells' buckets' chains chains' (· ∈ rest) := by
  induction rest generalizing fuel cells buckets raw chains with
  | nil =>
    obtain ⟨fuel, rfl⟩ : ∃ more, fuel = more + 1 := ⟨fuel - 1, by omega⟩
    cases chain
    refine ⟨cells, buckets, chains, rfl, linked, by simp, fun a n found => ⟨n.next, found⟩, ?_⟩
    exact fun _ _ => rfl
  | cons a rest ih =>
    obtain ⟨rfl, n, found, tail⟩ := chain
    obtain ⟨fuel, rfl⟩ : ∃ more, fuel = more + 1 := ⟨fuel - 1, by omega⟩
    have whole : Chain Node.next cells (some a) (a :: rest) := ⟨rfl, n, found, tail⟩
    obtain ⟨fresh, -⟩ := List.nodup_cons.mp whole.nodup
    obtain ⟨out, apart'⟩ := List.forall_mem_cons.mp apart
    let index := startIndex n.hash capacity
    have less : index < capacity := Nat.mod_lt _ pos
    obtain ⟨head, bucket⟩ : ∃ head, buckets[index]? = some head :=
      ⟨_, List.getElem?_eq_getElem (linked.length ▸ less)⟩
    let cells₁ := Function.update cells a (some { n with next := head })
    let chains₁ := Function.update chains index (a :: chains index)
    have linked₁ : Linked cells₁ (buckets.set index (some a)) capacity chains₁ :=
      linked.push bucket out rfl
    have joined₁ (i b : Nat) : b ∈ chains₁ i ↔ b ∈ chains i ∨ b = a ∧ i = index := by
      by_cases here : i = index
      · subst here
        simp [chains₁, or_comm]
      · simp [chains₁, here]
    have apart₁ : ∀ b ∈ rest, ∀ i < capacity, b ∉ chains₁ i := by
      intro b mem i less inside
      rcases (joined₁ i b).mp inside with old | ⟨rfl, -⟩
      · exact apart' b mem i less old
      · exact fresh mem
    obtain ⟨cells', buckets', chains', result, relinked⟩ := ih linked₁
      (tail.update_of_not_mem fresh _) apart₁ (Nat.lt_of_succ_lt_succ enough)
    have kept {b : Nat} (other : b ≠ a) : cells₁ b = cells b := Function.update_of_ne other ..
    refine ⟨cells', buckets', chains', ?_, relinked.linked, ?_,
      (SameData.update found _).trans relinked.same, ?_⟩
    · simp only [relink, found]
      change (buckets[index]?).bind _ = _
      rw [bucket]
      exact result
    · intro i less b
      rw [relinked.joined i less b, joined₁ i b, List.mem_cons]
      constructor
      · rintro ((old | ⟨rfl, rfl⟩) | ⟨mem, n', found', place⟩)
        · exact .inl old
        · exact .inr ⟨.inl rfl, n, found, rfl⟩
        · have other : b ≠ a := fun same => fresh (same ▸ mem)
          exact .inr ⟨.inr mem, n', kept other ▸ found', place⟩
      · rintro (old | ⟨rfl | mem, n', found', place⟩)
        · exact .inl (.inl old)
        · cases found.symm.trans found'
          exact .inl (.inr ⟨rfl, place.symm⟩)
        · have other : b ≠ a := fun same => fresh (same ▸ mem)
          exact .inr ⟨mem, n', (kept other).trans found', place⟩
    · intro b out
      rw [relinked.frame b (fun mem => out (List.mem_cons_of_mem _ mem))]
      exact kept fun same => out (same ▸ List.mem_cons_self)

/-- The chains of the old buckets are relinked one after the other. -/
theorem relinkAll_spec {capacity fuel : Nat} (pos : 0 < capacity) {old : List (Option Nat)}
    {olds : Nat → List Nat} {indices : List Nat} (nodup : indices.Nodup)
    (linked : Linked cells buckets capacity chains)
    (heads : ∀ i ∈ indices, ∃ raw, old[i]? = some raw ∧ Chain Node.next cells raw (olds i))
    (separate : ∀ i ∈ indices, ∀ j ∈ indices, ∀ a, a ∈ olds i → a ∈ olds j → i = j)
    (apart : ∀ j ∈ indices, ∀ a ∈ olds j, ∀ i < capacity, a ∉ chains i)
    (enough : ∀ i ∈ indices, (olds i).length < fuel) :
    ∃ cells' buckets' chains',
      relinkAll capacity fuel old indices cells buckets = some (cells', buckets') ∧
      Relinked capacity cells cells' buckets' chains chains'
        (fun a => ∃ i ∈ indices, a ∈ olds i) := by
  induction indices generalizing cells buckets chains with
  | nil =>
    refine ⟨cells, buckets, chains, rfl, linked, by simp, fun a n found => ⟨n.next, found⟩, ?_⟩
    exact fun _ _ => rfl
  | cons i rest ih =>
    obtain ⟨first, nodup'⟩ := List.nodup_cons.mp nodup
    obtain ⟨⟨raw, bucket, chain⟩, heads'⟩ := List.forall_mem_cons.mp heads
    obtain ⟨apart₀, apart'⟩ := List.forall_mem_cons.mp apart
    obtain ⟨enough₀, enough'⟩ := List.forall_mem_cons.mp enough
    obtain ⟨cells₁, buckets₁, chains₁, result₁, relinked₁⟩ :=
      relink_spec pos linked chain apart₀ enough₀
    -- the chains that are left have no node in common with the one just moved
    have other {j a : Nat} (mem : j ∈ rest) (inside : a ∈ olds j) : a ∉ olds i := by
      intro again
      have := separate i List.mem_cons_self j (List.mem_cons_of_mem _ mem) a again inside
      exact first (this ▸ mem)
    have heads₁ : ∀ j ∈ rest, ∃ raw, old[j]? = some raw ∧ Chain Node.next cells₁ raw (olds j) := by
      intro j mem
      obtain ⟨raw, bucket, chain⟩ := heads' j mem
      refine ⟨raw, bucket, chain.congr fun a inside n found => ⟨n, ?_, rfl⟩⟩
      rw [relinked₁.frame a (other mem inside), found]
    have apart₁ : ∀ j ∈ rest, ∀ a ∈ olds j, ∀ k < capacity, a ∉ chains₁ k := by
      intro j mem a inside k less again
      rcases (relinked₁.joined k less a).mp again with before | ⟨moved, -⟩
      · exact apart' j mem a inside k less before
      · exact other mem inside moved
    have separate' : ∀ i ∈ rest, ∀ j ∈ rest, ∀ a, a ∈ olds i → a ∈ olds j → i = j :=
      fun i mem j mem' => separate i (List.mem_cons_of_mem _ mem) j (List.mem_cons_of_mem _ mem')
    obtain ⟨cells', buckets', chains', result, relinked⟩ :=
      ih nodup' relinked₁.linked heads₁ separate' apart₁ enough'
    refine ⟨cells', buckets', chains', ?_, relinked.linked, ?_,
      relinked₁.same.trans relinked.same, ?_⟩
    · simp [relinkAll, bucket, result₁, result]
    · intro k less a
      rw [relinked.joined k less a, relinked₁.joined k less a]
      constructor
      · rintro ((before | ⟨moved, placed⟩) | ⟨⟨j, mem, moved⟩, n, found, place⟩)
        · exact .inl before
        · exact .inr ⟨⟨i, List.mem_cons_self, moved⟩, placed⟩
        · rw [relinked₁.frame a (other mem moved)] at found
          exact .inr ⟨⟨j, List.mem_cons_of_mem _ mem, moved⟩, n, found, place⟩
      · rintro (before | ⟨⟨j, mem, moved⟩, n, found, place⟩)
        · exact .inl (.inl before)
        · rcases List.mem_cons.mp mem with rfl | mem
          · exact .inl (.inr ⟨moved, n, found, place⟩)
          · refine .inr ⟨⟨j, mem, moved⟩, n, ?_, place⟩
            rw [relinked₁.frame a (other mem moved), found]
    · intro a still
      rw [relinked.frame a fun ⟨j, mem, moved⟩ => still ⟨j, List.mem_cons_of_mem _ mem, moved⟩]
      exact relinked₁.frame a fun moved => still ⟨i, List.mem_cons_self, moved⟩

/-- A map with the same nodes in other chains stands for the same finite map. -/
theorem Rep.relinked {s' : State K V} {chains' : Nat → List Nat} (rep : Rep policy s chains)
    (holds : Holds s chains m) (linked : Linked s'.cells s'.map.buckets s'.map.capacity chains')
    (same : SameData s.cells s'.cells)
    (place : ∀ i < s'.map.capacity, ∀ a, a ∈ chains' i ↔ Member s.map chains a ∧
      ∃ n, s.cells a = some n ∧ startIndex n.hash s'.map.capacity = i) (pos : 0 < s'.map.capacity)
    (seed : s'.map.seed = s.map.seed) (len : s'.map.len = s.map.len) (top : s'.top = s.top) :
    Represents s' m := by
  have members (a : Nat) : Member s'.map chains' a ↔ Member s.map chains a ∧ True := by
    constructor
    · rintro ⟨i, less, inside⟩
      exact ⟨((place i less a).mp inside).1, trivial⟩
    · rintro ⟨member, -⟩
      obtain ⟨n, found, -⟩ := rep.member_node member
      have less : startIndex n.hash s'.map.capacity < s'.map.capacity := Nat.mod_lt _ pos
      exact ⟨_, less, (place _ less a).mpr ⟨member, n, found, rfl⟩⟩
  have entry : Entry s' chains' = Entry s chains := by
    funext a e
    simp [same.entry rep (members a)]
  refine represents_of_carries linked ?_ ?_ ?_
  · intro i less a inside
    obtain ⟨member, n, found, placed⟩ := (place i less a).mp inside
    obtain ⟨n', found', hash, -, below⟩ := rep.member_node member
    cases found.symm.trans found'
    obtain ⟨link, moved⟩ := same a n found
    exact ⟨_, moved, by rw [seed]; exact hash, placed, top ▸ below⟩
  · rw [len, rep.len]
    congr 1
    ext a
    simp [members]
  · rw [entry]
    exact rep.carries holds

theorem replicate_linked (cells : Nat → Option (Node K V)) (capacity : Nat) :
    Linked cells (List.replicate capacity none) capacity fun _ => [] := by
  refine ⟨List.length_replicate, fun i head bucket => ?_⟩
  rw [List.getElem?_replicate] at bucket
  split at bucket
  · exact (Option.some.inj bucket).symm
  · cases bucket

/-- The number of buckets after rehashing. -/
def rehashedCapacity (requested : Nat) : Nat :=
  if requested < initialCapacity then initialCapacity else requested

theorem rehashedCapacity_pos (requested : Nat) : 0 < rehashedCapacity requested := by
  unfold rehashedCapacity initialCapacity
  split <;> omega

/-- Rehashing keeps the entries, or fails for want of storage and changes nothing. -/
theorem rehash_spec (represents : Represents s m) (requested : Nat) (storage : Bool) :
    (storage = false ∧ hashMapRehash s requested storage =
      some ((.error mapRuntimeError : Except (MapError R) Unit), s)) ∨
    storage = true ∧ ∃ s', hashMapRehash s requested storage =
        some ((.ok () : Except (MapError R) Unit), s') ∧
      s'.map.capacity = rehashedCapacity requested ∧ Represents s' m := by
  obtain ⟨chains, rep, holds⟩ := represents
  cases storage with
  | false => exact .inl ⟨rfl, rfl⟩
  | true =>
    refine .inr ⟨rfl, ?_⟩
    let capacity := rehashedCapacity requested
    have pos : 0 < capacity := rehashedCapacity_pos requested
    have heads : ∀ i ∈ List.range s.map.capacity,
        ∃ raw, s.map.buckets[i]? = some raw ∧ Chain Node.next s.cells raw (chains i) :=
      fun i mem => rep.bucket (List.mem_range.mp mem)
    have separate : ∀ i ∈ List.range s.map.capacity, ∀ j ∈ List.range s.map.capacity, ∀ a,
        a ∈ chains i → a ∈ chains j → i = j := fun i mem j mem' a =>
      rep.bucket_unique (List.mem_range.mp mem) (List.mem_range.mp mem')
    obtain ⟨cells', buckets', chains', result, relinked⟩ := relinkAll_spec pos List.nodup_range
      (replicate_linked s.cells capacity) heads separate (by simp)
      fun i mem => rep.chain_length (List.mem_range.mp mem)
    let s' : State K V := { s with
      cells := cells', map := { s.map with buckets := buckets', capacity := capacity } }
    refine ⟨s', ?_, rfl, ?_⟩
    · simp only [hashMapRehash, if_true]
      change Option.map _ (relinkAll capacity _ _ _ _ (List.replicate capacity none)) = _
      rw [result]
      rfl
    · refine rep.relinked holds relinked.linked relinked.same (fun i less a => ?_) pos rfl rfl rfl
      rw [relinked.joined i less a]
      simp only [List.not_mem_nil, false_or, List.mem_range]
      rfl

/-- The number of buckets that a map of a capacity and size has to have for one more
entry, if there is one. -/
def insertCapacity (capacity size : Nat) : Option Nat :=
  if capacity = 0 then some (rehashedCapacity initialCapacity)
  else if size < capacity - capacity / 4 then some capacity
  else if capacity > usizeMax / 2 then none
  else some (rehashedCapacity (capacity * 2))

/-- The map gets the buckets that an insertion needs, unless there are too many of them or
no storage for others than it has. -/
theorem ensureInsertCapacity_spec (represents : Represents s m) (storage : Bool) :
    (insertCapacity s.map.capacity m.size = none ∧ ensureInsertCapacity s storage =
      some ((.error .capacityOverflow : Except (MapError R) Unit), s)) ∨
    ∃ capacity, insertCapacity s.map.capacity m.size = some capacity ∧
      ((storage = false ∧ capacity ≠ s.map.capacity ∧ ensureInsertCapacity s storage =
        some ((.error mapRuntimeError : Except (MapError R) Unit), s)) ∨
      ((storage = false → capacity = s.map.capacity) ∧ capacity ≠ 0 ∧ ∃ s',
        ensureInsertCapacity s storage = some ((.ok () : Except (MapError R) Unit), s') ∧
        s'.map.capacity = capacity ∧ Represents s' m)) := by
  have size : s.map.len = m.size := by
    obtain ⟨chains, rep, holds⟩ := represents
    exact rep.size_eq holds
  have rehash (requested : Nat) (other : rehashedCapacity requested ≠ s.map.capacity) :
      (storage = false ∧ rehashedCapacity requested ≠ s.map.capacity ∧
        hashMapRehash s requested storage =
          some ((.error mapRuntimeError : Except (MapError R) Unit), s)) ∨
      ((storage = false → rehashedCapacity requested = s.map.capacity) ∧
        rehashedCapacity requested ≠ 0 ∧ ∃ s', hashMapRehash s requested storage =
          some ((.ok () : Except (MapError R) Unit), s') ∧
          s'.map.capacity = rehashedCapacity requested ∧ Represents s' m) := by
    refine (rehash_spec represents requested storage).imp
      (fun ⟨full, result⟩ => ⟨full, other, result⟩)
      fun ⟨free, rest⟩ => ⟨fun full => ?_, Nat.ne_of_gt (rehashedCapacity_pos requested), rest⟩
    rw [free] at full
    cases full
  simp only [ensureInsertCapacity, insertCapacity, size]
  split
  next zero =>
    exact .inr ⟨_, rfl, rehash _ (by rw [zero]; exact Nat.ne_of_gt (rehashedCapacity_pos _))⟩
  next pos =>
    split
    · exact .inr ⟨_, rfl, .inr ⟨fun _ => rfl, pos, s, rfl, rfl, represents⟩⟩
    · split
      · exact .inl ⟨rfl, rfl⟩
      · refine .inr ⟨_, rfl, rehash _ ?_⟩
        unfold rehashedCapacity
        split <;> omega

end Ciel.Map
