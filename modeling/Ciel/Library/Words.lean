import Mathlib.Data.List.Basic
import Mathlib.Data.List.Infix

/-!
# Reading words off a concatenated code

A code writes a value as a list of words. Where several codes are written one
after the other, a reader has to find the border again. `Reads` says that it can:
two codes are equal, with continuations that begin with words that may follow, only if
the values agree and the continuations are equal. Values are compared through a map
`view`, so that a code may forget what `view` forgets.

Lists of values can be read back when their length is known, when a word that
starts no code marks their end, or when nothing follows them.

The last section turns a string into words, by cutting it at every occurrence of
one separator character. No word is lost, so equal words mean equal strings.
-/

namespace Library

section Codes

variable {α β W : Type*} {code : α → List W} {view : α → β} {xs ys : List α} {may : W → Prop}

/-- The first word, if there is one, is one that may follow a code. -/
def Follows (may : W → Prop) (rest : List W) : Prop := ∀ w ∈ rest.head?, may w

/-- The code begins with a word that may follow another code. -/
def Starts (may : W → Prop) (code : List W) : Prop := ∃ w ws, code = w :: ws ∧ may w

theorem Follows.flatMap {rest : List W} (starts : ∀ x ∈ xs, Starts may (code x))
    (follows : Follows may rest) : Follows may (xs.flatMap code ++ rest) := by
  cases xs with
  | nil => exact follows
  | cons x xs =>
    obtain ⟨w, ws, split, allowed⟩ := starts x List.mem_cons_self
    simp [Follows, split, allowed]

/-- The codes of `x` and `y` cannot be confused, whatever follows them. -/
def Reads (may : W → Prop) (code : α → List W) (view : α → β) (x y : α) : Prop :=
  ∀ rest rest', Follows may rest → Follows may rest' → code x ++ rest = code y ++ rest' →
    view x = view y ∧ rest = rest'

namespace Reads

theorem tails {x y : α} (read : ∀ u ∈ x :: xs, ∀ v ∈ y :: ys, Reads may code view u v) :
    ∀ u ∈ xs, ∀ v ∈ ys, Reads may code view u v := by
  intro u hu v hv
  exact read u (List.mem_cons_of_mem _ hu) v (List.mem_cons_of_mem _ hv)

/-- Lists of the same length. -/
theorem list (read : ∀ x ∈ xs, ∀ y ∈ ys, Reads may code view x y) (same : xs.length = ys.length)
    (starts : ∀ x ∈ xs, Starts may (code x)) (starts' : ∀ y ∈ ys, Starts may (code y))
    {rest rest' : List W} (follows : Follows may rest) (follows' : Follows may rest')
    (h : xs.flatMap code ++ rest = ys.flatMap code ++ rest') :
    xs.map view = ys.map view ∧ rest = rest' := by
  induction xs generalizing ys with
  | nil =>
    obtain rfl := List.length_eq_zero_iff.mp same.symm
    exact ⟨rfl, h⟩
  | cons x xs ih =>
    obtain _ | ⟨y, ys⟩ := ys
    · cases same
    · simp only [List.flatMap_cons, List.append_assoc] at h
      have later := (List.forall_mem_cons.mp starts).2
      have later' := (List.forall_mem_cons.mp starts').2
      obtain ⟨head, tail⟩ :=
        read x (by simp) y (by simp) _ _ (follows.flatMap later) (follows'.flatMap later') h
      obtain ⟨equal, same'⟩ := ih (tails read) (by simpa using same) later later' tail
      exact ⟨by simp [head, equal], same'⟩

/-- Lists that end at a word with which no code starts. -/
theorem terminated {stop : W} (stops : may stop)
    (read : ∀ x ∈ xs, ∀ y ∈ ys, Reads may code view x y)
    (starts : ∀ x ∈ xs ++ ys, ∃ w ws, code x = w :: ws ∧ may w ∧ w ≠ stop) {rest rest' : List W}
    (h : xs.flatMap code ++ stop :: rest = ys.flatMap code ++ stop :: rest') :
    xs.map view = ys.map view ∧ rest = rest' := by
  induction xs generalizing ys with
  | nil =>
    obtain _ | ⟨y, ys⟩ := ys
    · simpa using h
    · obtain ⟨w, ws, hy, -, other⟩ := starts y (by simp)
      simp [hy] at h
      exact absurd h.1.symm other
  | cons x xs ih =>
    obtain _ | ⟨y, ys⟩ := ys
    · obtain ⟨w, ws, hx, -, other⟩ := starts x (by simp)
      simp [hx] at h
      exact absurd h.1 other
    · simp only [List.flatMap_cons, List.append_assoc] at h
      have starts' : ∀ x ∈ xs ++ ys, ∃ w ws, code x = w :: ws ∧ may w ∧ w ≠ stop := by
        intro z hz
        apply starts z
        simp only [List.mem_append, List.mem_cons] at hz ⊢
        tauto
      have ends (rest : List W) : Follows may (stop :: rest) := by simp [Follows, stops]
      have follows {zs : List α} (sub : zs ⊆ xs ++ ys) (rest : List W) :
          Follows may (zs.flatMap code ++ stop :: rest) := by
        refine (ends rest).flatMap fun z member => ?_
        obtain ⟨w, ws, split, allowed, -⟩ := starts' z (sub member)
        exact ⟨w, ws, split, allowed⟩
      obtain ⟨head, tail⟩ := read x (by simp) y (by simp) _ _
        (follows (List.subset_append_left _ _) _) (follows (List.subset_append_right _ _) _) h
      obtain ⟨equal, same⟩ := ih (tails read) starts' tail
      exact ⟨by simp [head, equal], same⟩

/-- Lists that nothing follows. -/
theorem toEnd (read : ∀ x ∈ xs, ∀ y ∈ ys, Reads may code view x y)
    (starts : ∀ x ∈ xs, Starts may (code x)) (starts' : ∀ y ∈ ys, Starts may (code y))
    (h : xs.flatMap code = ys.flatMap code) : xs.map view = ys.map view := by
  have ends : Follows may [] := by simp [Follows]
  induction xs generalizing ys with
  | nil =>
    obtain _ | ⟨y, ys⟩ := ys
    · rfl
    · obtain ⟨w, ws, split, -⟩ := starts' y List.mem_cons_self
      simp [split] at h
  | cons x xs ih =>
    obtain _ | ⟨y, ys⟩ := ys
    · obtain ⟨w, ws, split, -⟩ := starts x List.mem_cons_self
      simp [split] at h
    · have later := (List.forall_mem_cons.mp starts).2
      have later' := (List.forall_mem_cons.mp starts').2
      rw [List.flatMap_cons, List.flatMap_cons, ← List.append_nil (xs.flatMap code),
        ← List.append_nil (ys.flatMap code)] at h
      obtain ⟨head, tail⟩ :=
        read x (by simp) y (by simp) _ _ (ends.flatMap later) (ends.flatMap later') h
      simp only [List.append_nil] at tail
      simp [head, ih (tails read) later later' tail]

end Reads

end Codes

section Strings

/-- The pieces of a string between the occurrences of `separator`. -/
def words (separator : Char) (s : String) : List (List Char) :=
  s.toList.splitOn separator

variable {separator : Char}

theorem words_ne_nil (separator : Char) (s : String) : words separator s ≠ [] :=
  List.splitOn_ne_nil _ _

theorem words_append (s t : String) :
    words separator (s ++ String.singleton separator ++ t) =
      words separator s ++ words separator t := by
  simp [words, List.splitOn_append_cons_self]

theorem words_of_not_mem {s : String} (h : separator ∉ s.toList) :
    words separator s = [s.toList] :=
  List.splitOn_eq_singleton h

end Strings
end Library
