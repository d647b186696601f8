import Ciel.Std.Json.TypedDecode
import Ciel.Std.MapRefines

/-!
# The hash maps behind the entries

A JSON object is written by visiting the hash map, and read by inserting one member after
the other into a new one. The list of entries stands for the hash map: inserting appends to
the list or finds that the key is there, and visiting goes through a rearrangement of it.

The key types of JSON objects have no two keys that the map takes for equal: `plain` below
says so of the key policy.
-/

namespace Ciel.Json

open Library

variable {policy : Map.KeyPolicy Key} {s : Map.State Key Val} {entries : List (Key × Val)}

/-- The hash map has these entries and no others. -/
def Stores (policy : Map.KeyPolicy Key) (s : Map.State Key Val) (entries : List (Key × Val)) :
    Prop :=
  ∃ m : ClassMap Key Val policy.setoid, Map.Represents s m ∧ m.Lists entries

/-- A new map stores nothing. -/
theorem stores_new (cells : Nat → Option (Map.Node Key Val)) (top : Nat) :
    Stores policy (Map.hashMapNew cells top) [] := by
  refine ⟨.empty, Map.represents_empty cells top _ _, List.nodup_nil, fun key value => ?_⟩
  simp [ClassMap.find, ClassMap.empty]

/-- The keys of the entries are different, as `HasType` asks. -/
theorem Stores.distinct (stores : Stores policy s entries) : (entries.map Prod.fst).Nodup := by
  obtain ⟨m, -, nodup, -⟩ := stores
  exact List.Nodup.of_map (Quotient.mk policy.setoid) (by rwa [List.map_map])

/-- Inserting into the hash map does to it what `insertEntry` does to the list. -/
theorem insertEntry_agrees (plain : ∀ {a b}, policy.eq a b = true ↔ a = b)
    (stores : Stores policy s entries) (key : Key) (value : Val) (storage box : Bool) :
    ∃ (output : Map.Output Key Val Unit Unit) (s' : Map.State Key Val),
      Map.hashMapInsert policy s key value storage box = some (output, s') ∧
        match output with
        | .inserted => insertEntry entries key value = .ok (entries ++ [(key, value)]) ∧
            Stores policy s' (entries ++ [(key, value)])
        | .replaced _ => insertEntry entries key value =
            .error (errorAt .duplicateField 0 "duplicate JSON object field")
        | .failed _ => Stores policy s' entries
        | _ => False := by
  obtain ⟨m, represents, lists⟩ := stores
  obtain ⟨output, s', m', inserted, agrees, -, represents'⟩ :=
    Map.insert_agrees (E := Unit) (fun _ => .error ()) represents key value storage box
  refine ⟨output, s', inserted, ?_⟩
  have known : entries.any (fun entry => entry.1 == key) = true ↔ ∃ e, m.find key = some e := by
    rw [List.any_eq_true]
    constructor
    · rintro ⟨⟨k, v⟩, inside, same⟩
      obtain rfl : k = key := eq_of_beq same
      exact ⟨_, (lists.2 k v).mp inside⟩
    · rintro ⟨⟨k, v⟩, found⟩
      obtain rfl : k = key := plain.mp (Quotient.exact (m.own found))
      exact ⟨(k, v), (lists.2 k v).mpr found, beq_self_eq_true _⟩
  cases output with
  | inserted =>
    obtain ⟨absent, rfl⟩ := agrees
    have fresh : ¬entries.any (fun entry => entry.1 == key) = true := by
      rw [known, absent]
      simp
    exact ⟨by rw [insertEntry, if_neg fresh], _, represents', lists.insert absent⟩
  | replaced old =>
    obtain ⟨⟨k, found⟩, -⟩ := agrees
    rw [insertEntry, if_pos (known.mpr ⟨_, found⟩)]
  | failed error =>
    obtain ⟨-, rfl⟩ := agrees
    exact ⟨_, represents', lists⟩
  | _ => exact agrees

/-- The inserts of a read that succeeds, in their order. -/
def insertAll (policy : Map.KeyPolicy Key) :
    Map.State Key Val → List (Key × Val) → Option (Map.State Key Val)
  | s, [] => some s
  | s, (key, value) :: rest =>
    match (Map.hashMapInsert policy s key value true true :
      Option (Map.Output Key Val Unit Unit × Map.State Key Val)) with
    | some (.inserted, s) => insertAll policy s rest
    | _ => none

/-- The list that `decodeEntries` builds is what the hash map stores after its inserts. -/
theorem insertAll_stores (plain : ∀ {a b}, policy.eq a b = true ↔ a = b) {s' : Map.State Key Val}
    {added : List (Key × Val)} (stores : Stores policy s entries)
    (ran : insertAll policy s added = some s') : Stores policy s' (entries ++ added) := by
  induction added generalizing s entries with
  | nil =>
    obtain rfl := Option.some.inj ran
    rwa [List.append_nil]
  | cons entry added ih =>
    obtain ⟨output, s₁, inserted, agrees⟩ :=
      insertEntry_agrees plain stores entry.1 entry.2 true true
    rw [insertAll, inserted] at ran
    cases output with
    | inserted => simpa using ih agrees.2 ran
    | _ => cases ran

/-- Visiting the hash map calls the body on the entries in some order. -/
theorem forEach_visits {E : Type} (stores : Stores policy s entries)
    (body : List (Key × Val) → Key → Val → Option E) :
    ∃ visited, visited.Perm entries ∧
      Map.hashMapForEach s body = some ((.visited (Map.callBody body [] visited).1
        (Map.callBody body [] visited).2 : Map.Output Key Val Unit E), s) := by
  obtain ⟨m, represents, lists⟩ := stores
  obtain ⟨output, ran, -, visited, lists', rfl⟩ :=
    Map.forEach_agrees (fun _ => .error ()) represents body
  exact ⟨visited, lists'.perm lists, ran⟩

end Ciel.Json
