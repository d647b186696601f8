import Ciel.Library.ClassMap
import Ciel.Library.Chains

/-!
# The hash map of the standard library

`std/map`: an array of buckets, each the head of a chain of nodes. Nodes live in memory
and are reached by pointers; inserting puts a node in front of the chain of its bucket,
removing takes it out by a pointer, and rehashing relinks all nodes in place.

Memory is a function from addresses; addresses from `top` on are unused. Whether an
allocation succeeds is an input of the operation. A computation is `none` where the source
would follow a null pointer, index past the buckets or walk a chain for ever; a chain has
at most as many nodes as were ever allocated, which bounds the walks.
-/

namespace Ciel.Map

open Library

/-- The key policy that a map is used with: an equality and a seeded hash that respects it. -/
structure KeyPolicy (K : Type) where
  hash : K → Nat → Nat
  eq : K → K → Bool
  refl : ∀ a, eq a a
  symm : ∀ {a b}, eq a b → eq b a
  trans : ∀ {a b c}, eq a b → eq b c → eq a c
  hash_congr : ∀ {a b}, eq a b → ∀ seed, hash a seed = hash b seed

/-- Keys up to the equality of the policy. -/
def KeyPolicy.setoid {K : Type} (policy : KeyPolicy K) : Setoid K where
  r a b := policy.eq a b
  iseqv := ⟨policy.refl, policy.symm, policy.trans⟩

structure Node (K V : Type) where
  hash : Nat
  key : K
  value : V
  next : Option Nat

structure HashMap where
  buckets : List (Option Nat)
  capacity : Nat
  len : Nat
  seed : Nat
  deriving DecidableEq, Repr

/-- Memory and the map. -/
structure State (K V : Type) where
  cells : Nat → Option (Node K V)
  top : Nat
  map : HashMap

inductive MapError (R : Type)
  | keyNotFound
  | capacityOverflow
  | runtime (code : Int)
  | messageClone (report : R)
  deriving DecidableEq, Repr

def usizeMax : Nat := 2 ^ 64 - 1

def startIndex (hash capacity : Nat) : Nat := hash % capacity

def initialCapacity : Nat := 8

def defaultSeed : Nat := 0x123456789abcdef

def mapRuntimeError {R : Type} : MapError R := .runtime 5

def bucketHead (map : HashMap) (index : Nat) : Option (Option Nat) := map.buckets[index]?

def setBucketHead (map : HashMap) (index : Nat) (node : Option Nat) : HashMap :=
  { map with buckets := map.buckets.set index node }

variable {K V R E : Type} (policy : KeyPolicy K)

/-- The loop by which the operations look for a key in a chain. It finds the node, with the
node before it. -/
def findNode (cells : Nat → Option (Node K V)) (hash : Nat) (key : K) :
    Nat → Option Nat → Option Nat → Option (Option (Option Nat × Nat × Node K V))
  | 0, _, _ => none
  | _ + 1, _, none => some none
  | fuel + 1, previous, some current =>
    match cells current with
    | none => none
    | some node =>
      if node.hash = hash && policy.eq node.key key then some (some (previous, current, node))
      else findNode cells hash key fuel (some current) node.next

variable (s : State K V)

/-- The search in the bucket of a key. -/
def lookup (key : K) : Option (Option (Option Nat × Nat × Node K V)) :=
  let hash := policy.hash key s.map.seed
  (bucketHead s.map (startIndex hash s.map.capacity)).bind fun head =>
    findNode policy s.cells hash key (s.top + 1) none head

/-! ### Capacity -/

/-- The inner loop of `hash_map_rehash`: every node of a chain is put in front of the chain of
its new bucket. -/
def relink (capacity : Nat) : Nat → (Nat → Option (Node K V)) → List (Option Nat) → Option Nat →
    Option ((Nat → Option (Node K V)) × List (Option Nat))
  | 0, _, _, _ => none
  | _ + 1, cells, buckets, none => some (cells, buckets)
  | fuel + 1, cells, buckets, some raw =>
    match cells raw with
    | none => none
    | some node =>
      let index := startIndex node.hash capacity
      buckets[index]?.bind fun head =>
        relink capacity fuel (Function.update cells raw (some { node with next := head }))
          (buckets.set index (some raw)) node.next

/-- The outer loop, over the old buckets that are left. -/
def relinkAll (capacity fuel : Nat) (old : List (Option Nat)) :
    List Nat → (Nat → Option (Node K V)) → List (Option Nat) →
      Option ((Nat → Option (Node K V)) × List (Option Nat))
  | [], cells, buckets => some (cells, buckets)
  | i :: rest, cells, buckets =>
    old[i]?.bind fun raw =>
      (relink capacity fuel cells buckets raw).bind fun (cells, buckets) =>
        relinkAll capacity fuel old rest cells buckets

def hashMapRehash (requested : Nat) (storage : Bool) :
    Option (Except (MapError R) Unit × State K V) :=
  let capacity := if requested < initialCapacity then initialCapacity else requested
  if storage then
    (relinkAll capacity (s.top + 1) s.map.buckets (List.range s.map.capacity) s.cells
      (List.replicate capacity none)).map fun (cells, buckets) =>
        (.ok (), { s with cells, map := { s.map with buckets, capacity } })
  else some (.error mapRuntimeError, s)

def ensureInsertCapacity (storage : Bool) : Option (Except (MapError R) Unit × State K V) :=
  let capacity := s.map.capacity
  if capacity = 0 then hashMapRehash s initialCapacity storage
  else
    let limit := capacity - capacity / 4
    if s.map.len < limit then some (.ok (), s)
    else if capacity > usizeMax / 2 then some (.error .capacityOverflow, s)
    else hashMapRehash s (capacity * 2) storage

/-! ### Operations -/

/-- An empty map, next to whatever is in memory. -/
def hashMapNew (cells : Nat → Option (Node K V)) (top : Nat) : State K V :=
  ⟨cells, top, ⟨List.replicate initialCapacity none, initialCapacity, 0, defaultSeed⟩⟩

/-- What the operations return. -/
inductive Output (K V R E : Type)
  | inserted
  | replaced (old : V)
  | found (value : V)
  | contains (present : Bool)
  | removed (value : V)
  | missing
  | item (key : K) (value : V)
  | empty
  | visited (calls : List (K × V)) (error : Option E)
  | done
  | failed (error : MapError R)
  | panicked

def hashMapClear (storage : Bool) : Option (Output K V R E × State K V) :=
  let capacity := if s.map.capacity = 0 then initialCapacity else s.map.capacity
  if storage then
    some (.done, { s with
      map := { s.map with buckets := List.replicate capacity none, capacity, len := 0 } })
  else some (.panicked, s)

def hashMapContainsKey (key : K) : Option (Output K V R E × State K V) :=
  if s.map.capacity = 0 then some (.contains false, s)
  else
    (lookup policy s key).map fun
      | none => (.contains false, s)
      | some _ => (.contains true, s)

/-- A value is cloned before it is returned (`clone_message`). -/
def hashMapGet (clone : V → Except R V) (s : State K V) (key : K) :
    Option (Output K V R E × State K V) :=
  if s.map.capacity = 0 then some (.missing, s)
  else
    (lookup policy s key).map fun
      | none => (.missing, s)
      | some (_, _, node) =>
        match clone node.value with
        | .ok value => (.found value, s)
        | .error report => (.failed (.messageClone report), s)

def hashMapInsert (key : K) (value : V) (storage box : Bool) :
    Option (Output K V R E × State K V) :=
  (ensureInsertCapacity s storage).bind fun
    | (.error error, s) => some (.failed error, s)
    | (.ok (), s) =>
      let hash := policy.hash key s.map.seed
      let index := startIndex hash s.map.capacity
      (lookup policy s key).bind fun
        | some (_, current, node) =>
          some (.replaced node.value,
            { s with cells := Function.update s.cells current (some { node with key, value }) })
        | none =>
          (bucketHead s.map index).map fun head =>
            if box then
              let node := s.top
              (.inserted, {
                cells := Function.update s.cells node (some ⟨hash, key, value, head⟩)
                top := s.top + 1
                map := { setBucketHead s.map index (some node) with len := s.map.len + 1 } })
            else (.failed mapRuntimeError, s)

def hashMapRemoveIf (key : K) (predicate : V → Bool) : Option (Output K V R E × State K V) :=
  if s.map.capacity = 0 then some (.missing, s)
  else
    let index := startIndex (policy.hash key s.map.seed) s.map.capacity
    (lookup policy s key).bind fun
      | none => some (.missing, s)
      | some (previous, _, node) =>
        if predicate node.value = false then some (.missing, s)
        else
          match previous with
          | none =>
            some (.removed node.value, { s with
              map := { setBucketHead s.map index node.next with len := s.map.len - 1 } })
          | some previous =>
            (s.cells previous).map fun prev =>
              (.removed node.value, { s with
                cells := Function.update s.cells previous (some { prev with next := node.next })
                map := { s.map with len := s.map.len - 1 } })

def hashMapRemove (key : K) : Option (Output K V R E × State K V) :=
  hashMapRemoveIf policy s key fun _ => true

/-- The loop of `hash_map_pop_any`, over the buckets that are left. -/
def popLoop (s : State K V) : List Nat → Option (Output K V R E × State K V)
  | [] => some (.empty, s)
  | index :: rest =>
    (bucketHead s.map index).bind fun
      | none => popLoop s rest
      | some head =>
        (s.cells head).map fun node =>
          (.item node.key node.value, { s with
            map := { setBucketHead s.map index node.next with len := s.map.len - 1 } })

def hashMapPopAny : Option (Output K V R E × State K V) :=
  if s.map.capacity = 0 then some (.empty, s) else popLoop s (List.range s.map.capacity)

/-- The inner loop of `hash_map_for_each`. The body may do different things at different
calls, so it is given the calls before. -/
def visitChain (cells : Nat → Option (Node K V)) (body : List (K × V) → K → V → Option E) :
    Nat → Option Nat → List (K × V) → Option (List (K × V) × Option E)
  | 0, _, _ => none
  | _ + 1, none, calls => some (calls, none)
  | fuel + 1, some current, calls =>
    match cells current with
    | none => none
    | some node =>
      match body calls node.key node.value with
      | some error => some (calls ++ [(node.key, node.value)], some error)
      | none => visitChain cells body fuel node.next (calls ++ [(node.key, node.value)])

def visitBuckets (s : State K V) (body : List (K × V) → K → V → Option E) :
    List Nat → List (K × V) → Option (List (K × V) × Option E)
  | [], calls => some (calls, none)
  | index :: rest, calls =>
    (bucketHead s.map index).bind fun head =>
      (visitChain s.cells body (s.top + 1) head calls).bind fun
        | (calls, some error) => some (calls, some error)
        | (calls, none) => visitBuckets s body rest calls

def hashMapForEach (body : List (K × V) → K → V → Option E) : Option (Output K V R E × State K V) :=
  (visitBuckets s body (List.range s.map.capacity) []).map fun (calls, error) =>
    (.visited calls error, s)

/-! ### Runs -/

/-- An operation with its arguments, and whether its allocations succeed. -/
inductive Op (K V E : Type)
  | insert (key : K) (value : V) (storage box : Bool)
  | get (key : K)
  | containsKey (key : K)
  | remove (key : K)
  | removeIf (key : K) (predicate : V → Bool)
  | popAny
  | forEach (body : List (K × V) → K → V → Option E)
  | clear (storage : Bool)
  | rehash (capacity : Nat) (storage : Bool)

/-- An operation on the map. -/
def step (clone : V → Except R V) (s : State K V) :
    Op K V E → Option (Output K V R E × State K V)
  | .insert key value storage box => hashMapInsert policy s key value storage box
  | .get key => hashMapGet policy clone s key
  | .containsKey key => hashMapContainsKey policy s key
  | .remove key => hashMapRemove policy s key
  | .removeIf key predicate => hashMapRemoveIf policy s key predicate
  | .popAny => hashMapPopAny s
  | .forEach body => hashMapForEach s body
  | .clear storage => hashMapClear s storage
  | .rehash capacity storage =>
    (hashMapRehash s capacity storage).map fun
      | (.ok (), s) => (.done, s)
      | (.error error, s) => (.failed error, s)

/-- Operations one after the other. -/
def run (clone : V → Except R V) :
    State K V → List (Op K V E) → Option (List (Output K V R E) × State K V)
  | s, [] => some ([], s)
  | s, op :: ops =>
    (step policy clone s op).bind fun (output, s) =>
      (run clone s ops).map fun (outputs, s) => (output :: outputs, s)

end Ciel.Map
