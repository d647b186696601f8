import Ciel.Std.MapInvariant

/-!
# The hash map refines a finite map

Every operation of a well-formed map returns, and does to the finite map that it stands for
what its name says, or reports an error and leaves the finite map alone. So a run of any
operations on a new map gives the results of a finite map.
-/

namespace Ciel.Map

open Library

variable {K V R E : Type} {policy : KeyPolicy K}
variable {n : Node K V} {key : K} {head : Option Nat} {a : Nat}

/-! ### What the operations should do -/

/-- The calls of a body on entries in turn, up to the first error. -/
def callBody (body : List (K × V) → K → V → Option E) :
    List (K × V) → List (K × V) → List (K × V) × Option E
  | calls, [] => (calls, none)
  | calls, (k, v) :: rest =>
    match body calls k v with
    | some error => (calls ++ [(k, v)], some error)
    | none => callBody body (calls ++ [(k, v)]) rest

/-- An insertion fails only where the number of buckets overflows, or where there is no
storage for more buckets that it needs or for the node of a new key. -/
def InsertFails (m : ClassMap K V policy.setoid) (capacity : Nat) (key : K) (storage box : Bool)
    (error : MapError R) : Prop :=
  match insertCapacity capacity m.size with
  | none => error = .capacityOverflow
  | some needed => error = mapRuntimeError ∧
      (storage = false ∧ needed ≠ capacity ∨ box = false ∧ m.find key = none)

/-- What an operation may return on a finite map, kept in so many buckets, and what it makes
of the finite map. -/
def Agrees (clone : V → Except R V) (m : ClassMap K V policy.setoid) (capacity : Nat) :
    Op K V E → Output K V R E → ClassMap K V policy.setoid → Prop
  | .insert key value storage box, output, m' =>
    match output with
    | .inserted => m.find key = none ∧ m' = m.insert key value
    | .replaced old => (∃ k, m.find key = some (k, old)) ∧ m' = m.insert key value
    | .failed error => InsertFails m capacity key storage box error ∧ m' = m
    | _ => False
  | .get key, output, m' =>
    m' = m ∧ match output with
    | .missing => m.find key = none
    | .found value => ∃ k v, m.find key = some (k, v) ∧ clone v = .ok value
    | .failed error => ∃ k v report, m.find key = some (k, v) ∧ clone v = .error report ∧
        error = .messageClone report
    | _ => False
  | .containsKey key, output, m' => m' = m ∧ output = .contains (m.find key).isSome
  | .remove key, output, m' =>
    match output with
    | .missing => m.find key = none ∧ m' = m
    | .removed value => (∃ k, m.find key = some (k, value)) ∧ m' = m.erase key
    | _ => False
  | .removeIf key predicate, output, m' =>
    match output with
    | .missing => (∀ k v, m.find key = some (k, v) → predicate v = false) ∧ m' = m
    | .removed value =>
      (∃ k, m.find key = some (k, value)) ∧ predicate value ∧ m' = m.erase key
    | _ => False
  | .popAny, output, m' =>
    match output with
    | .empty => m = ClassMap.empty ∧ m' = m
    | .item key value => m.find key = some (key, value) ∧ m' = m.erase key
    | _ => False
  | .forEach body, output, m' =>
    m' = m ∧ ∃ entries, m.Lists entries ∧
      output = .visited (callBody body [] entries).1 (callBody body [] entries).2
  | .clear storage, output, m' =>
    match output with
    | .done => m' = ClassMap.empty
    | .panicked => storage = false ∧ m' = m
    | _ => False
  | .rehash _ storage, output, m' =>
    m' = m ∧ match output with
    | .done => True
    | .failed error => storage = false ∧ error = mapRuntimeError
    | _ => False

/-- The number of buckets after an operation. -/
noncomputable def capacityAfter (m : ClassMap K V policy.setoid) (capacity : Nat) : Op K V E → Nat
  | .insert _ _ storage _ =>
    match insertCapacity capacity m.size with
    | some needed => if storage then needed else capacity
    | none => capacity
  | .clear storage => if storage ∧ capacity = 0 then initialCapacity else capacity
  | .rehash requested storage => if storage then rehashedCapacity requested else capacity
  | _ => capacity

/-! ### The operations -/

section Operations

variable {s : State K V} {chains : Nat → List Nat} {m : ClassMap K V policy.setoid}

/-- The search finds the entry of the finite map. -/
theorem lookup_find (rep : Rep policy s chains) (holds : Holds s chains m)
    (pos : s.map.capacity ≠ 0) (key : K) :
    let index := startIndex (policy.hash key s.map.seed) s.map.capacity
    (∃ front a rest n, chains index = front ++ a :: rest ∧ s.cells a = some n ∧
      policy.eq n.key key ∧ m.find key = some (n.key, n.value) ∧
      lookup policy s key = some (some (front.getLast?, a, n))) ∨
    (lookup policy s key = some none ∧ m.find key = none) := by
  intro index
  have less : index < s.map.capacity := Nat.mod_lt _ (Nat.pos_of_ne_zero pos)
  rcases lookup_spec rep pos key with
    ⟨front, a, rest, n, split, found, equal, result⟩ | ⟨result, none⟩
  · have member : Member s.map chains a := ⟨index, less, by rw [split]; simp⟩
    exact .inl ⟨front, a, rest, n, split, found, equal,
      (holds key _).mpr ⟨a, n, member, found, equal, rfl⟩, result⟩
  · refine .inr ⟨result, ?_⟩
    by_contra stored
    obtain ⟨e, isEntry⟩ := Option.ne_none_iff_exists'.mp stored
    obtain ⟨a, n, member, found, equal, -⟩ := (holds key e).mp isEntry
    rw [none a n member found] at equal
    cases equal

/-- A map without buckets is empty. -/
theorem find_of_capacity_zero (holds : Holds s chains m) (zero : s.map.capacity = 0) (key : K) :
    m.find key = none := by
  by_contra stored
  obtain ⟨e, isEntry⟩ := Option.ne_none_iff_exists'.mp stored
  obtain ⟨a, n, ⟨i, less, -⟩, -⟩ := (holds key e).mp isEntry
  omega

variable (clone : V → Except R V)

theorem containsKey_agrees (represents : Represents s m) (key : K) :
    ∃ output, hashMapContainsKey policy s key = some (output, s) ∧
      Agrees clone m s.map.capacity (.containsKey key : Op K V E) output m := by
  obtain ⟨chains, rep, holds⟩ := represents
  simp only [hashMapContainsKey]
  split
  · next zero => exact ⟨_, rfl, rfl, by rw [find_of_capacity_zero holds zero]; rfl⟩
  next pos =>
    rcases lookup_find rep holds pos key with
      ⟨_, _, _, _, -, -, -, stored, result⟩ | ⟨result, none⟩
    · exact ⟨_, by rw [result]; rfl, rfl, by rw [stored]; rfl⟩
    · exact ⟨_, by rw [result]; rfl, rfl, by rw [none]; rfl⟩

theorem get_agrees (represents : Represents s m) (key : K) :
    ∃ output, hashMapGet policy clone s key = some (output, s) ∧
      Agrees clone m s.map.capacity (.get key : Op K V E) output m := by
  obtain ⟨chains, rep, holds⟩ := represents
  simp only [hashMapGet]
  split
  · next zero => exact ⟨_, rfl, rfl, find_of_capacity_zero holds zero key⟩
  next pos =>
    rcases lookup_find rep holds pos key with
      ⟨_, _, _, n, -, -, -, stored, result⟩ | ⟨result, none⟩
    · rw [result]
      cases copy : clone n.value with
      | ok value => exact ⟨.found value, by simp [copy], rfl, n.key, n.value, stored, copy⟩
      | error report =>
        exact ⟨.failed (.messageClone report), by simp [copy], rfl, n.key, n.value, report,
          stored, copy, rfl⟩
    · exact ⟨_, by rw [result]; rfl, rfl, none⟩

theorem Rep.toLinked (rep : Rep policy s chains) :
    Linked s.cells s.map.buckets s.map.capacity chains :=
  ⟨rep.length, rep.linked⟩

instance decidableSetoid (policy : KeyPolicy K) (a b : K) : Decidable (policy.setoid a b) :=
  inferInstanceAs (Decidable (policy.eq a b = true))

/-- The node of a key takes a new key and value. -/
theorem Rep.replace (rep : Rep policy s chains) (holds : Holds s chains m)
    (member : Member s.map chains a) (found : s.cells a = some n) (equal : policy.eq n.key key)
    (value : V) :
    Represents { s with cells := Function.update s.cells a (some { n with key, value }) }
      (m.insert key value) := by
  have kept {b : Nat} (other : b ≠ a) (cell : Option (Node K V)) :
      Function.update s.cells a cell b = s.cells b := Function.update_of_ne other ..
  refine @represents_of_carries _ _ _ _ _ chains ⟨rep.length, ?_⟩ ?_ rep.len
    ((rep.carries holds).insert ?_ (rep.entry_iff member found equal))
  · intro i head bucket
    refine (rep.linked i head bucket).congr fun b _ cell found' => ?_
    by_cases here : b = a
    · subst here
      cases found.symm.trans found'
      exact ⟨_, Function.update_self .., rfl⟩
    · exact ⟨cell, (kept here _).trans found', rfl⟩
  · intro i less b inside
    obtain ⟨n', found', hash, place, below⟩ := rep.node i less b inside
    by_cases here : b = a
    · subst here
      cases found.symm.trans found'
      refine ⟨_, Function.update_self .., ?_, place, below⟩
      exact hash.trans (policy.hash_congr equal _)
    · exact ⟨n', (kept here _).trans found', hash, place, below⟩
  · intro b e
    by_cases here : b = a
    · subst here
      simp [Entry, Function.update_self, member]
    · simp [Entry, here]

/-- A new node is put in front of a chain. -/
theorem Rep.push (rep : Rep policy s chains) (holds : Holds s chains m) (absent : m.find key = none)
    (value : V) (pos : s.map.capacity ≠ 0)
    (bucket : bucketHead s.map (startIndex (policy.hash key s.map.seed) s.map.capacity) =
      some head) :
    Represents
      { cells := Function.update s.cells s.top
          (some ⟨policy.hash key s.map.seed, key, value, head⟩)
        top := s.top + 1
        map := { setBucketHead s.map (startIndex (policy.hash key s.map.seed) s.map.capacity)
          (some s.top) with len := s.map.len + 1 } } (m.insert key value) := by
  let index := startIndex (policy.hash key s.map.seed) s.map.capacity
  have less : index < s.map.capacity := Nat.mod_lt _ (Nat.pos_of_ne_zero pos)
  let node : Node K V := ⟨policy.hash key s.map.seed, key, value, head⟩
  have out : ∀ i < s.map.capacity, s.top ∉ chains i := by
    intro i less inside
    obtain ⟨_, -, -, -, below⟩ := rep.node i less _ inside
    exact lt_irrefl _ below
  let chains' := Function.update chains index (s.top :: chains index)
  have joined (i a : Nat) : a ∈ chains' i ↔ a ∈ chains i ∨ a = s.top ∧ i = index := by
    by_cases here : i = index
    · subst here
      simp [chains', or_comm]
    · simp [chains', here]
  have members (a : Nat) : (∃ i < s.map.capacity, a ∈ chains' i) ↔
      a = s.top ∨ Member s.map chains a := by
    constructor
    · rintro ⟨i, less, inside⟩
      rcases (joined i a).mp inside with old | ⟨rfl, -⟩
      · exact .inr ⟨i, less, old⟩
      · exact .inl rfl
    · rintro (rfl | ⟨i, less, old⟩)
      · exact ⟨index, less, (joined _ _).mpr (.inr ⟨rfl, rfl⟩)⟩
      · exact ⟨i, less, (joined _ _).mpr (.inl old)⟩
  have top {a : Nat} (member : Member s.map chains a) : a ≠ s.top := by
    rintro rfl
    obtain ⟨i, less, inside⟩ := member
    exact out i less inside
  have kept {a : Nat} (member : Member s.map chains a) :
      Function.update s.cells s.top (some node) a = s.cells a :=
    Function.update_of_ne (top member) ..
  refine represents_of_carries (rep.toLinked.push bucket out rfl) ?_ ?_
    ((rep.carries holds).insert (a := s.top) ?_ ?_)
  · intro i less a inside
    rcases (joined i a).mp inside with old | ⟨rfl, rfl⟩
    · obtain ⟨n, found, hash, place, below⟩ := rep.node i less a old
      exact ⟨n, (kept ⟨i, less, old⟩).trans found, hash, place, Nat.lt_succ_of_lt below⟩
    · exact ⟨node, Function.update_self .., rfl, rfl, Nat.lt_succ_self _⟩
  · have set : {a | ∃ i < s.map.capacity, a ∈ chains' i} =
        insert s.top {a | Member s.map chains a} := by
      ext a
      exact members a
    change s.map.len + 1 = {a | ∃ i < s.map.capacity, a ∈ chains' i}.ncard
    have new : s.top ∉ {a | Member s.map chains a} := fun member => top member rfl
    rw [set, Set.ncard_insert_of_notMem new (finite_members s.map chains), rep.len]
  · intro b e
    change (∃ i < s.map.capacity, b ∈ chains' i) ∧ _ ↔ _
    rw [members]
    by_cases here : b = s.top
    · subst here
      simp [Function.update_self]
    · simp [Entry, here]
  · -- no node has had an equal key
    intro b e stored
    refine iff_of_false (fun equal => ?_) (top stored.1)
    rw [(rep.carries holds).find.mpr ⟨b, stored, equal⟩] at absent
    cases absent

/-- A node is taken out. -/
theorem Rep.without {s' : State K V} {chains' : Nat → List Nat} (rep : Rep policy s chains)
    (holds : Holds s chains m) (member : Member s.map chains a) (found : s.cells a = some n)
    (equal : policy.eq n.key key) (linked : Linked s'.cells s'.map.buckets s'.map.capacity chains')
    (same : SameData s.cells s'.cells) (capacity : s'.map.capacity = s.map.capacity)
    (seed : s'.map.seed = s.map.seed) (top : s'.top = s.top) (len : s'.map.len = s.map.len - 1)
    (rest : ∀ i < s.map.capacity, ∀ b, b ∈ chains' i ↔ b ∈ chains i ∧ b ≠ a) :
    Represents s' (m.erase key) := by
  have members (b : Nat) : Member s'.map chains' b ↔ Member s.map chains b ∧ b ≠ a := by
    simp only [Member, capacity]
    constructor
    · rintro ⟨i, less, inside⟩
      obtain ⟨old, other⟩ := (rest i less b).mp inside
      exact ⟨⟨i, less, old⟩, other⟩
    · rintro ⟨⟨i, less, inside⟩, other⟩
      exact ⟨i, less, (rest i less b).mpr ⟨inside, other⟩⟩
  refine represents_of_carries linked ?_ ?_ ((rep.carries holds).erase
    (fun b e => same.entry rep (members b)) (rep.entry_iff member found equal))
  · intro i less b inside
    have less : i < s.map.capacity := capacity ▸ less
    obtain ⟨old, -⟩ := (rest i less b).mp inside
    obtain ⟨n', found', hash, place, below⟩ := rep.node i less b old
    obtain ⟨link, moved⟩ := same b n' found'
    exact ⟨_, moved, by rw [seed]; exact hash, by rw [capacity]; exact place, top ▸ below⟩
  · have set : {b | Member s'.map chains' b} = {b | Member s.map chains b} \ {a} := by
      ext b
      exact members b
    have inside : a ∈ {b | Member s.map chains b} := member
    rw [len, rep.len, set, Set.ncard_sdiff_singleton_of_mem inside]

/-- The bucket of a chain is given the chain without a node. -/
theorem Linked.set (index : Nat) {capacity : Nat} {cells cells' : Nat → Option (Node K V)}
    {buckets : List (Option Nat)} {chains : Nat → List Nat}
    (linked : Linked cells buckets capacity chains) {addrs : List Nat}
    (chain : Chain Node.next cells' head addrs)
    (others : ∀ i head, i ≠ index → buckets[i]? = some head →
      Chain Node.next cells' head (chains i)) :
    Linked cells' (buckets.set index head) capacity (Function.update chains index addrs) := by
  refine ⟨by simp [linked.length], fun i head' bucket => ?_⟩
  by_cases here : i = index
  · subst here
    rw [Function.update_self]
    rw [List.getElem?_set] at bucket
    split at bucket
    · split at bucket
      · cases bucket
        exact chain
      · cases bucket
    · next absurd => exact (absurd rfl).elim
  · rw [Function.update_of_ne here]
    rw [List.getElem?_set_ne (Ne.symm here)] at bucket
    exact others i head' here bucket

/-- The members of the buckets without a node of one of them. -/
theorem Rep.mem_without (rep : Rep policy s chains) {index : Nat} (less : index < s.map.capacity)
    {front rest : List Nat} (split : chains index = front ++ a :: rest) :
    ∀ i < s.map.capacity, ∀ b,
      b ∈ Function.update chains index (front ++ rest) i ↔ b ∈ chains i ∧ b ≠ a := by
  obtain ⟨head, -, chain⟩ := rep.bucket less
  have nodup := chain.nodup
  intro i less' b
  by_cases here : i = index
  · subst here
    rw [split] at nodup
    obtain ⟨out, -⟩ := List.nodup_cons.mp (List.nodup_middle.mp nodup)
    rw [Function.update_self, split]
    simp only [List.mem_append, List.mem_cons] at out ⊢
    constructor
    · intro inside
      exact ⟨inside.imp_right .inr, fun same => out (same ▸ inside)⟩
    · rintro ⟨first | same | last, other⟩
      · exact .inl first
      · exact absurd same other
      · exact .inr last
  · rw [Function.update_of_ne here]
    refine ⟨fun inside => ⟨inside, ?_⟩, fun both => both.1⟩
    rintro rfl
    exact here (rep.bucket_unique less' less inside (by rw [split]; simp))

/-- The first node of a bucket is taken out. -/
theorem Rep.pop (rep : Rep policy s chains) (holds : Holds s chains m) {index : Nat}
    {rest : List Nat} (less : index < s.map.capacity) (split : chains index = a :: rest)
    (found : s.cells a = some n) (equal : policy.eq n.key key) :
    Represents
      { s with map := { setBucketHead s.map index n.next with len := s.map.len - 1 } }
      (m.erase key) := by
  obtain ⟨head, bucket, chain⟩ := rep.bucket less
  have member : Member s.map chains a := ⟨index, less, by rw [split]; exact List.mem_cons_self⟩
  rw [split] at chain
  obtain ⟨-, n', found', tail⟩ := chain
  cases found.symm.trans found'
  have linked := rep.toLinked.set index tail fun i head _ bucket => rep.linked i head bucket
  have split' : chains index = [] ++ a :: rest := split
  exact rep.without holds member found equal linked (fun b n found => ⟨n.next, found⟩) rfl rfl rfl
    rfl (rep.mem_without less split')

/-- A later node of a bucket is taken out, by the pointer of the node before it. -/
theorem Rep.unlink (rep : Rep policy s chains) (holds : Holds s chains m) {index p : Nat}
    {front rest : List Nat} (less : index < s.map.capacity)
    (split : chains index = front ++ p :: a :: rest) {prev : Node K V} (found : s.cells a = some n)
    (before : s.cells p = some prev) (equal : policy.eq n.key key) :
    Represents
      { s with
        cells := Function.update s.cells p (some { prev with next := n.next })
        map := { s.map with len := s.map.len - 1 } } (m.erase key) := by
  obtain ⟨head, bucket, chain⟩ := rep.bucket less
  have member : Member s.map chains a := ⟨index, less, by rw [split]; simp⟩
  rw [split] at chain
  have shorter : Chain Node.next (Function.update s.cells p (some { prev with next := n.next }))
      head (front ++ p :: rest) := chain.unlink before found rfl
  have split' : chains index = (front ++ [p]) ++ a :: rest := by simp [split]
  have linked : Linked (Function.update s.cells p (some { prev with next := n.next }))
      s.map.buckets s.map.capacity (Function.update chains index ((front ++ [p]) ++ rest)) := by
    refine ⟨rep.length, fun i head' bucket' => ?_⟩
    by_cases here : i = index
    · subst here
      cases bucket.symm.trans bucket'
      simpa [Function.update_self] using shorter
    · rw [Function.update_of_ne here]
      have less' : i < s.map.capacity := rep.length ▸ (List.getElem?_eq_some_iff.mp bucket').1
      refine (rep.linked i head' bucket').update_of_not_mem (fun inside => here ?_) _
      exact rep.bucket_unique less' less inside (by rw [split]; simp)
  exact rep.without holds member found equal linked (SameData.update before _) rfl rfl rfl rfl
    (rep.mem_without less split')

theorem insert_agrees (represents : Represents s m) (key : K) (value : V) (storage box : Bool) :
    ∃ output s' m', hashMapInsert policy s key value storage box = some (output, s') ∧
      Agrees clone m s.map.capacity (.insert key value storage box : Op K V E) output m' ∧
      s'.map.capacity =
        capacityAfter m s.map.capacity (.insert key value storage box : Op K V E) ∧
      Represents s' m' := by
  simp only [hashMapInsert, capacityAfter]
  rcases ensureInsertCapacity_spec represents storage with
    ⟨needed, result⟩ | ⟨capacity, needed, ⟨full, other, result⟩ | ⟨keeps, pos, s₁, result, grown,
      chains, rep, holds⟩⟩
  · exact ⟨.failed .capacityOverflow, s, m, by rw [result]; rfl,
      ⟨by simp [InsertFails, needed], rfl⟩, by simp [needed], represents⟩
  · exact ⟨.failed mapRuntimeError, s, m, by rw [result]; rfl,
      ⟨by simp [InsertFails, needed, full, other], rfl⟩, by simp [needed, full], represents⟩
  · rw [result]
    have after : s₁.map.capacity = match insertCapacity s.map.capacity m.size with
        | some needed => if storage then needed else s.map.capacity
        | none => s.map.capacity := by
      cases storage with
      | true => simp [needed, grown]
      | false => simp [needed, grown, keeps]
    have less : startIndex (policy.hash key s₁.map.seed) s₁.map.capacity < s₁.map.capacity :=
      Nat.mod_lt _ (by omega)
    rcases lookup_find rep holds (by omega) key with
      ⟨front, a, rest, n, split, found, equal, stored, search⟩ | ⟨search, absent⟩
    · have member : Member s₁.map chains a := ⟨_, less, by rw [split]; simp⟩
      exact ⟨.replaced n.value, _, m.insert key value, by simp [search], ⟨⟨n.key, stored⟩, rfl⟩,
        by exact after, rep.replace holds member found equal value⟩
    · obtain ⟨head, bucket, -⟩ := rep.bucket less
      cases box with
      | true =>
        exact ⟨.inserted, _, m.insert key value, by simp [search, bucket], ⟨absent, rfl⟩,
          by exact after, rep.push holds absent value (by omega) bucket⟩
      | false =>
        exact ⟨.failed mapRuntimeError, s₁, m, by simp [search, bucket],
          ⟨by simp [InsertFails, needed, absent], rfl⟩, after, chains, rep, holds⟩

theorem removeIf_agrees (represents : Represents s m) (key : K) (predicate : V → Bool) :
    ∃ output s' m', hashMapRemoveIf policy s key predicate = some (output, s') ∧
      Agrees clone m s.map.capacity (.removeIf key predicate : Op K V E) output m' ∧
      s'.map.capacity = s.map.capacity ∧ Represents s' m' := by
  obtain ⟨chains, rep, holds⟩ := represents
  simp only [hashMapRemoveIf]
  split
  next zero =>
    have none := find_of_capacity_zero holds zero key
    exact ⟨.missing, s, m, rfl, ⟨by simp [none], rfl⟩, rfl, chains, rep, holds⟩
  rename_i pos
  have less : startIndex (policy.hash key s.map.seed) s.map.capacity < s.map.capacity :=
    Nat.mod_lt _ (Nat.pos_of_ne_zero pos)
  rcases lookup_find rep holds pos key with
    ⟨front, a, rest, n, split, found, equal, stored, search⟩ | ⟨search, absent⟩
  · rw [search]
    cases accepted : predicate n.value with
    | false =>
      refine ⟨.missing, s, m, by simp [accepted], ⟨?_, rfl⟩, rfl, chains, rep, holds⟩
      intro k v same
      cases stored.symm.trans same
      exact accepted
    | true =>
      have removed :
        Agrees clone m s.map.capacity (.removeIf key predicate : Op K V E) (.removed n.value)
          (m.erase key) := ⟨⟨n.key, stored⟩, accepted, rfl⟩
      rcases List.eq_nil_or_concat front with rfl | ⟨front, p, rfl⟩
      · exact ⟨.removed n.value, _, m.erase key, by simp [accepted], removed, by rfl,
          rep.pop holds less split found equal⟩
      · have split' : chains (startIndex (policy.hash key s.map.seed) s.map.capacity) =
            front ++ p :: a :: rest := by simp [split]
        obtain ⟨prev, before, -⟩ := rep.node _ less p (by rw [split']; simp)
        exact ⟨.removed n.value, _, m.erase key, by simp [accepted, before], removed, by rfl,
          rep.unlink holds less split' found before equal⟩
  · exact ⟨.missing, s, m, by rw [search]; rfl, ⟨by simp [absent], rfl⟩, rfl,
      chains, rep, holds⟩

theorem remove_agrees (represents : Represents s m) (key : K) :
    ∃ output s' m', hashMapRemove policy s key = some (output, s') ∧
      Agrees clone m s.map.capacity (.remove key : Op K V E) output m' ∧
      s'.map.capacity = s.map.capacity ∧ Represents s' m' := by
  obtain ⟨output, s', m', result, agrees, after⟩ :=
    @removeIf_agrees K V R E policy s m clone represents key fun _ => true
  refine ⟨output, s', m', result, ?_, after⟩
  cases output with
  | missing =>
    refine ⟨?_, agrees.2⟩
    by_contra stored
    obtain ⟨⟨k, v⟩, isEntry⟩ := Option.ne_none_iff_exists'.mp stored
    cases agrees.1 k v isEntry
  | removed value => exact ⟨agrees.1, agrees.2.2⟩
  | _ => exact agrees

/-- The loop of `hash_map_pop_any` takes the first node that it comes to. -/
theorem popLoop_spec (rep : Rep policy s chains) {indices : List Nat}
    (inside : ∀ i ∈ indices, i < s.map.capacity) :
    (∃ index a rest n, index < s.map.capacity ∧ chains index = a :: rest ∧ s.cells a = some n ∧
      popLoop s indices = some ((.item n.key n.value : Output K V R E), { s with
        map := { setBucketHead s.map index n.next with len := s.map.len - 1 } })) ∨
    (popLoop s indices = some ((.empty : Output K V R E), s) ∧ ∀ i ∈ indices, chains i = []) := by
  induction indices with
  | nil => exact .inr ⟨rfl, by simp⟩
  | cons i indices ih =>
    obtain ⟨less, inside'⟩ := List.forall_mem_cons.mp inside
    obtain ⟨head, bucket, chain⟩ := rep.bucket less
    cases addrs : chains i with
    | nil =>
      rw [addrs] at chain
      cases chain
      have skips : popLoop s (i :: indices) =
          (popLoop s indices : Option (Output K V R E × State K V)) := by
        simp [popLoop, bucket]
      rw [skips]
      rcases ih inside' with found | ⟨result, none⟩
      · exact .inl found
      · exact .inr ⟨result, List.forall_mem_cons.mpr ⟨addrs, none⟩⟩
    | cons a rest =>
      rw [addrs] at chain
      obtain ⟨rfl, n, found, -⟩ := chain
      exact .inl ⟨i, a, rest, n, less, addrs, found, by simp [popLoop, bucket, found]⟩

theorem popAny_agrees (represents : Represents s m) :
    ∃ output s' m', hashMapPopAny s = some (output, s') ∧
      Agrees clone m s.map.capacity (.popAny : Op K V E) output m' ∧
      s'.map.capacity = s.map.capacity ∧ Represents s' m' := by
  obtain ⟨chains, rep, holds⟩ := represents
  simp only [hashMapPopAny]
  split
  next zero =>
    refine ⟨.empty, s, m, rfl, ⟨ClassMap.ext fun k e => ?_, rfl⟩, rfl, chains, rep, holds⟩
    rw [find_of_capacity_zero holds zero k]
    exact iff_of_false (by simp) (by simp [ClassMap.find, ClassMap.empty])
  · rcases popLoop_spec rep fun i mem => List.mem_range.mp mem with
      ⟨index, a, rest, n, less, split, found, result⟩ | ⟨result, none⟩
    · have member : Member s.map chains a := ⟨index, less, by rw [split]; simp⟩
      refine ⟨.item n.key n.value, _, m.erase n.key, result, ⟨?_, rfl⟩, by rfl,
        rep.pop holds less split found (policy.refl _)⟩
      exact (holds _ _).mpr ⟨a, n, member, found, policy.refl _, rfl⟩
    · refine ⟨.empty, s, m, result, ⟨ClassMap.ext fun k e => ?_, rfl⟩, rfl, chains, rep, holds⟩
      refine iff_of_false ?_ (by simp [ClassMap.find, ClassMap.empty])
      rw [holds k e]
      rintro ⟨a, n, ⟨i, less, inside⟩, -⟩
      rw [none i (List.mem_range.mpr less)] at inside
      cases inside

/-! ### Visiting the entries -/

/-- The entries at addresses. -/
def entriesAt (cells : Nat → Option (Node K V)) (addrs : List Nat) : List (K × V) :=
  addrs.filterMap fun a => (cells a).map fun n => (n.key, n.value)

theorem callBody_append (body : List (K × V) → K → V → Option E)
    (calls first second : List (K × V)) :
    callBody body calls (first ++ second) =
      match callBody body calls first with
      | (calls, some error) => (calls, some error)
      | (calls, none) => callBody body calls second := by
  induction first generalizing calls with
  | nil => rfl
  | cons e first ih =>
    obtain ⟨k, v⟩ := e
    simp only [List.cons_append, callBody]
    split
    · rfl
    · exact ih _

theorem visitChain_spec (body : List (K × V) → K → V → Option E) {cells : Nat → Option (Node K V)}
    {addrs : List Nat} {fuel : Nat} (chain : Chain Node.next cells head addrs)
    (enough : addrs.length < fuel) (calls : List (K × V)) :
    visitChain cells body fuel head calls = some (callBody body calls (entriesAt cells addrs)) := by
  induction addrs generalizing head fuel calls with
  | nil =>
    obtain ⟨fuel, rfl⟩ : ∃ more, fuel = more + 1 := ⟨fuel - 1, by omega⟩
    cases chain
    rfl
  | cons a rest ih =>
    obtain ⟨rfl, n, found, tail⟩ := chain
    obtain ⟨fuel, rfl⟩ : ∃ more, fuel = more + 1 := ⟨fuel - 1, by omega⟩
    have entries : entriesAt cells (a :: rest) = (n.key, n.value) :: entriesAt cells rest := by
      simp [entriesAt, found]
    rw [entries]
    simp only [visitChain, found, callBody]
    cases body calls n.key n.value with
    | some error => rfl
    | none => exact ih tail (Nat.lt_of_succ_lt_succ enough) _

theorem visitBuckets_spec (rep : Rep policy s chains) (body : List (K × V) → K → V → Option E)
    {indices : List Nat} (inside : ∀ i ∈ indices, i < s.map.capacity) (calls : List (K × V)) :
    visitBuckets s body indices calls =
      some (callBody body calls (entriesAt s.cells (indices.flatMap chains))) := by
  induction indices generalizing calls with
  | nil => rfl
  | cons i indices ih =>
    obtain ⟨less, inside'⟩ := List.forall_mem_cons.mp inside
    obtain ⟨head, bucket, chain⟩ := rep.bucket less
    have entries : entriesAt s.cells ((i :: indices).flatMap chains) =
        entriesAt s.cells (chains i) ++ entriesAt s.cells (indices.flatMap chains) := by
      simp [entriesAt]
    rw [entries, callBody_append]
    simp only [visitBuckets, bucket, Option.bind_some,
      visitChain_spec body chain (rep.chain_length less)]
    cases callBody body calls (entriesAt s.cells (chains i)) with
    | mk calls error =>
      cases error with
      | some error => rfl
      | none => exact ih inside' calls

/-- The nodes of all buckets in turn are the entries of the finite map, each once. -/
theorem Rep.lists (rep : Rep policy s chains) (holds : Holds s chains m) :
    m.Lists (entriesAt s.cells ((List.range s.map.capacity).flatMap chains)) := by
  have member {a : Nat} : a ∈ (List.range s.map.capacity).flatMap chains ↔
      Member s.map chains a := by
    simp [Member]
  have nodup : ((List.range s.map.capacity).flatMap chains).Nodup := by
    refine List.nodup_flatMap.mpr ⟨fun i mem => ?_, ?_⟩
    · obtain ⟨head, -, chain⟩ := rep.bucket (List.mem_range.mp mem)
      exact chain.nodup
    · refine List.nodup_range.pairwise_of_forall_ne ?_
      intro i mem j mem' different a inside inside'
      exact different (rep.bucket_unique (List.mem_range.mp mem) (List.mem_range.mp mem')
        inside inside')
  constructor
  · rw [entriesAt, List.map_filterMap]
    refine List.pairwise_filterMap.mpr (nodup.imp_of_mem ?_)
    intro a b inside inside' different c isClass c' isClass' equal
    obtain ⟨e, entry, rfl⟩ := Option.map_eq_some_iff.mp isClass
    obtain ⟨e', entry', rfl⟩ := Option.map_eq_some_iff.mp isClass'
    obtain ⟨n, found, rfl⟩ := Option.map_eq_some_iff.mp entry
    obtain ⟨n', found', rfl⟩ := Option.map_eq_some_iff.mp entry'
    exact different (rep.unique a b (member.mp inside) (member.mp inside') n n' found found'
      (Quotient.exact equal))
  · intro k v
    rw [entriesAt, List.mem_filterMap, holds k (k, v)]
    constructor
    · rintro ⟨a, inside, entry⟩
      obtain ⟨n, found, same⟩ := Option.map_eq_some_iff.mp entry
      cases same
      exact ⟨a, n, member.mp inside, found, policy.refl _, rfl⟩
    · rintro ⟨a, n, inside, found, equal, same⟩
      exact ⟨a, member.mpr inside, by rw [found, same]; rfl⟩

theorem forEach_agrees (represents : Represents s m) (body : List (K × V) → K → V → Option E) :
    ∃ output, hashMapForEach s body = some (output, s) ∧
      Agrees clone m s.map.capacity (.forEach body : Op K V E) output m := by
  obtain ⟨chains, rep, holds⟩ := represents
  have visits := visitBuckets_spec rep body (fun i mem => List.mem_range.mp mem) []
  exact ⟨_, by rw [hashMapForEach, visits]; rfl, rfl, _, rep.lists holds, rfl⟩

/-- Buckets without nodes are an empty map. -/
theorem represents_empty (cells : Nat → Option (Node K V)) (top capacity seed : Nat) :
    Represents ⟨cells, top, ⟨List.replicate capacity none, capacity, 0, seed⟩⟩
      (ClassMap.empty : ClassMap K V policy.setoid) := by
  have linked := replicate_linked cells capacity
  have noMember (a : Nat) : ¬ Member
      ⟨List.replicate capacity none, capacity, 0, seed⟩ (fun _ => []) a := by
    simp [Member]
  refine ⟨fun _ => [], ⟨linked.length, linked.chain, by simp, ?_, ?_⟩, ?_⟩
  · intro a b member
    exact absurd member (noMember a)
  · simp [noMember]
  · intro k e
    refine iff_of_false (by simp [ClassMap.find, ClassMap.empty]) ?_
    rintro ⟨a, n, member, -⟩
    exact noMember a member

theorem clear_agrees (represents : Represents s m) (storage : Bool) :
    ∃ output s' m', hashMapClear s storage = some (output, s') ∧
      Agrees clone m s.map.capacity (.clear storage : Op K V E) output m' ∧
      s'.map.capacity = capacityAfter m s.map.capacity (.clear storage : Op K V E) ∧
      Represents s' m' := by
  cases storage with
  | true =>
    exact ⟨.done, _, ClassMap.empty, rfl, rfl, by simp [capacityAfter], represents_empty ..⟩
  | false => exact ⟨.panicked, s, m, rfl, ⟨rfl, rfl⟩, rfl, represents⟩

/-- Every operation does what it should to the finite map that the map stands for. -/
theorem step_agrees (represents : Represents s m) (op : Op K V E) :
    ∃ output s' m', step policy clone s op = some (output, s') ∧
      Agrees clone m s.map.capacity op output m' ∧
      s'.map.capacity = capacityAfter m s.map.capacity op ∧ Represents s' m' := by
  cases op with
  | insert key value storage box => exact insert_agrees clone represents key value storage box
  | get key =>
    obtain ⟨output, result, agrees⟩ := get_agrees (E := E) clone represents key
    exact ⟨output, s, m, result, agrees, rfl, represents⟩
  | containsKey key =>
    obtain ⟨output, result, agrees⟩ := containsKey_agrees (E := E) clone represents key
    exact ⟨output, s, m, result, agrees, rfl, represents⟩
  | remove key => exact remove_agrees clone represents key
  | removeIf key predicate => exact removeIf_agrees clone represents key predicate
  | popAny => exact popAny_agrees clone represents
  | forEach body =>
    obtain ⟨output, result, agrees⟩ := forEach_agrees clone represents body
    exact ⟨output, s, m, result, agrees, rfl, represents⟩
  | clear storage => exact clear_agrees clone represents storage
  | rehash capacity storage =>
    simp only [step]
    rcases rehash_spec represents capacity storage with
      ⟨full, result⟩ | ⟨free, s', result, grown, after⟩
    · exact ⟨.failed mapRuntimeError, s, m, by rw [result]; rfl, ⟨rfl, full, rfl⟩,
        by simp [capacityAfter, full], represents⟩
    · exact ⟨.done, s', m, by rw [result]; rfl, ⟨rfl, trivial⟩, by
        simp [capacityAfter, free, grown],
        after⟩

end Operations

/-! ### Runs -/

/-- A run of a finite map, kept in so many buckets at first, with given results. -/
inductive AgreesAll (clone : V → Except R V) :
    ClassMap K V policy.setoid → Nat → List (Op K V E) → List (Output K V R E) →
      ClassMap K V policy.setoid → Prop
  | nil (m capacity) : AgreesAll clone m capacity [] [] m
  | cons {m m₁ m₂ capacity op output ops outputs} (first : Agrees clone m capacity op output m₁)
      (rest : AgreesAll clone m₁ (capacityAfter m capacity op) ops outputs m₂) :
      AgreesAll clone m capacity (op :: ops) (output :: outputs) m₂

/-- What a well-formed map looks like, without reference to its chains: every bucket is the
head of a chain that ends, each node is in the bucket of its hash modulo the capacity, and no
two nodes have equal keys. -/
structure WellFormed (policy : KeyPolicy K) (s : State K V) : Prop where
  chains : ∀ i < s.map.capacity, ∃ head addrs, s.map.buckets[i]? = some head ∧
    Chain Node.next s.cells head addrs ∧
    ∀ a ∈ addrs, ∃ n, s.cells a = some n ∧ n.hash = policy.hash n.key s.map.seed ∧
      n.hash % s.map.capacity = i
  unique : ∀ i < s.map.capacity, ∀ j < s.map.capacity, ∀ head head' addrs addrs',
    s.map.buckets[i]? = some head → s.map.buckets[j]? = some head' →
    Chain Node.next s.cells head addrs → Chain Node.next s.cells head' addrs' →
    ∀ a ∈ addrs, ∀ b ∈ addrs', ∀ n n', s.cells a = some n → s.cells b = some n' →
      policy.eq n.key n'.key → a = b

theorem Rep.wellFormed {s : State K V} {chains : Nat → List Nat} (rep : Rep policy s chains) :
    WellFormed policy s where
  chains i less := by
    obtain ⟨head, bucket, chain⟩ := rep.bucket less
    refine ⟨head, chains i, bucket, chain, fun a inside => ?_⟩
    obtain ⟨n, found, hash, place, -⟩ := rep.node i less a inside
    exact ⟨n, found, hash, place⟩
  unique i less j less' head head' addrs addrs' bucket bucket' chain chain' a inside b inside' n n'
      found found' equal := by
    rw [chain.unique (rep.linked i head bucket)] at inside
    rw [chain'.unique (rep.linked j head' bucket')] at inside'
    exact rep.unique a b ⟨i, less, inside⟩ ⟨j, less', inside'⟩ n n' found found' equal

/-- Every run of operations on a new map returns, with results that a finite map over the
classes of keys gives; the map is well-formed then, and its length is the number of keys. -/
theorem run_refines (policy : KeyPolicy K) (clone : V → Except R V)
    (cells : Nat → Option (Node K V)) (top : Nat) (ops : List (Op K V E)) :
    ∃ outputs s m, run policy clone (hashMapNew cells top) ops = some (outputs, s) ∧
      AgreesAll clone (ClassMap.empty : ClassMap K V policy.setoid) initialCapacity ops outputs m ∧
      WellFormed policy s ∧ s.map.len = m.size ∧ Represents s m := by
  suffices all : ∀ (s : State K V) (m : ClassMap K V policy.setoid), Represents s m →
      ∃ outputs s' m', run policy clone s ops = some (outputs, s') ∧
        AgreesAll clone m s.map.capacity ops outputs m' ∧ Represents s' m' by
    obtain ⟨outputs, s, m, result, agrees, chains, rep, holds⟩ :=
      all _ _ (represents_empty cells top initialCapacity defaultSeed)
    exact ⟨outputs, s, m, result, agrees, rep.wellFormed, rep.size_eq holds, chains, rep, holds⟩
  induction ops with
  | nil => exact fun s m represents => ⟨[], s, m, rfl, .nil m _, represents⟩
  | cons op ops ih =>
    intro s m represents
    obtain ⟨output, s₁, m₁, first, agrees, after, represents₁⟩ := step_agrees clone represents op
    obtain ⟨outputs, s₂, m₂, rest, agrees', represents₂⟩ := ih s₁ m₁ represents₁
    exact ⟨output :: outputs, s₂, m₂, by simp [run, first, rest], .cons agrees (after ▸ agrees'),
      represents₂⟩

/-- Numbers as keys. -/
def numberKeys : KeyPolicy Nat where
  hash key seed := key + seed
  eq a b := a == b
  refl := by simp
  symm := by simp +contextual
  trans := by simp +contextual
  hash_congr := by simp +contextual

/-- Where nothing fails, an entry is inserted and found again. -/
theorem run_refines_inserted : ∃ s, ∃ m : ClassMap Nat Nat numberKeys.setoid,
    run numberKeys (Except.ok : Nat → Except Unit Nat) (hashMapNew (fun _ => none) 0)
      ([.insert 7 70 true true, .get 7] : List (Op Nat Nat Unit)) =
        some ([.inserted, .found 70], s) ∧
      WellFormed numberKeys s ∧ s.map.len = m.size ∧ m.find 7 = some (7, 70) ∧ Represents s m := by
  obtain ⟨outputs, s, m, result, agrees, wellFormed, len, represents⟩ :=
    run_refines numberKeys (Except.ok : Nat → Except Unit Nat) (fun _ => none) 0
      ([.insert 7 70 true true, .get 7] : List (Op Nat Nat Unit))
  obtain ⟨s', computed⟩ : ∃ s', run numberKeys (Except.ok : Nat → Except Unit Nat)
      (hashMapNew (fun _ => none) 0) ([.insert 7 70 true true, .get 7] : List (Op Nat Nat Unit)) =
        some ([.inserted, .found 70], s') := ⟨_, rfl⟩
  cases computed.symm.trans result
  refine ⟨s, m, computed, wellFormed, len, ?_, represents⟩
  cases agrees with
  | cons first rest =>
    cases rest with
    | cons second last =>
      cases last
      obtain ⟨-, rfl⟩ := first
      obtain ⟨rfl, k, v, found, -⟩ := second
      classical
      rw [ClassMap.find_insert, if_pos (numberKeys.setoid.refl 7)]

end Ciel.Map
