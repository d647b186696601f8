import Mathlib.Algebra.GroupWithZero.Nat
import Ciel.Types.Ty

/-!
# The structural representation of an array type

Reflection describes an array by a tree: the empty array is `ArrayNil`, up to
sixteen elements are one `ArrayChunk`, and a longer array is an `ArrayCat` of
two shorter ones. The closure that represents an owned element may keep state
of its own, so it is passed as a stateful function.

`ArrayTree` is the abstract tree. The builder always returns the type of one
whose inner nodes cut their length into two positive parts and whose chunks,
read from left to right, cover the array.
-/

namespace Ciel.Types

/-- `META_ARRAY_CHUNK_SIZE`. -/
def metaArrayChunkSize : Nat := 16

/-- `meta_named`: a type of the standard `meta` module, before its definition
is attached. -/
def metaNamed (name : String) (args : List Ty) : Ty := .named none name args

/-- `meta_array_split_len`. The product never exceeds the length, so the
machine computes it without overflow. -/
def metaArraySplitLen (len : Nat) : Nat :=
  if len ≤ metaArrayChunkSize then len
  else
    let chunks := (len + metaArrayChunkSize - 1) / metaArrayChunkSize
    max (min (chunks / 2 * metaArrayChunkSize) (len - 1)) 1

theorem metaArraySplitLen_pos {len : Nat} (long : ¬len ≤ metaArrayChunkSize) :
    0 < metaArraySplitLen len := by
  simp only [metaArraySplitLen, if_neg long]
  omega

theorem metaArraySplitLen_lt {len : Nat} (long : ¬len ≤ metaArrayChunkSize) :
    metaArraySplitLen len < len := by
  have := long
  simp only [metaArrayChunkSize] at this
  simp only [metaArraySplitLen, if_neg long]
  omega

/-- `meta_array_repr_ty_with_leaf`, for an array of `len` elements. -/
def metaArrayReprTyWithLeaf {σ : Type} (elem : Ty) (borrowed : Bool)
    (ownedLeaf : Ty → StateM σ Ty) (len : Nat) : StateM σ Ty :=
  if len = 0 then return metaNamed "ArrayNil" []
  else if len ≤ metaArrayChunkSize then do
    let elemTy ← (if borrowed then pure elem else ownedLeaf elem)
    return metaNamed ("ArrayChunk" ++ toString len) [elemTy]
  else do
    let split := metaArraySplitLen len
    let left ← metaArrayReprTyWithLeaf elem borrowed ownedLeaf split
    let right ← metaArrayReprTyWithLeaf elem borrowed ownedLeaf (len - split)
    return metaNamed "ArrayCat" [left, right]
termination_by len
decreasing_by
  · exact metaArraySplitLen_lt ‹_›
  · have := metaArraySplitLen_pos ‹_›
    omega

/-- What the representation of an array is for: a tree of chunks, each with
its length and the representation of its elements. -/
inductive ArrayTree
  | nil
  | chunk (len : Nat) (leaf : Ty)
  | cat (left right : ArrayTree)

namespace ArrayTree

def ty : ArrayTree → Ty
  | nil => metaNamed "ArrayNil" []
  | chunk len leaf => metaNamed ("ArrayChunk" ++ toString len) [leaf]
  | cat left right => metaNamed "ArrayCat" [left.ty, right.ty]

/-- The lengths of the chunks from left to right. -/
def leafLengths : ArrayTree → List Nat
  | nil => []
  | chunk len _ => [len]
  | cat left right => left.leafLengths ++ right.leafLengths

/-- The number of elements the tree describes. -/
def len (tree : ArrayTree) : Nat := tree.leafLengths.sum

/-- Both parts of an inner node are positive, a chunk is within the chunk
size, and its element is represented by one of the `leaves`. -/
def Balanced (leaves : Ty → Prop) : ArrayTree → Prop
  | nil => True
  | chunk len leaf => 1 ≤ len ∧ len ≤ metaArrayChunkSize ∧ leaves leaf
  | cat left right =>
    0 < left.len ∧ 0 < right.len ∧ left.Balanced leaves ∧ right.Balanced leaves

end ArrayTree

/-- The types that may stand for the elements: the element itself when it is
borrowed, and otherwise what the closure makes of it in some state. -/
def ArrayLeaf {σ : Type} (elem : Ty) (borrowed : Bool) (ownedLeaf : Ty → StateM σ Ty)
    (leaf : Ty) : Prop :=
  if borrowed then leaf = elem else ∃ state, leaf = (ownedLeaf elem state).1

/-- The representation of every array is the type of a tree over exactly its
elements; the tree of the empty array, and only that one, is empty. -/
theorem metaArrayReprTyWithLeaf_tree {σ : Type} (elem : Ty) (borrowed : Bool)
    (ownedLeaf : Ty → StateM σ Ty) (len : Nat) (state : σ) :
    ∃ tree : ArrayTree,
      (metaArrayReprTyWithLeaf elem borrowed ownedLeaf len state).1 = tree.ty ∧
      tree.Balanced (ArrayLeaf elem borrowed ownedLeaf) ∧
      tree.leafLengths.sum = len ∧ (len = 0 ↔ tree = .nil) := by
  -- The tree is built along the recursion, whose second call starts in the
  -- closure's state after the first.
  induction len using Nat.strongRecOn generalizing state with
  | ind len shorter =>
    rw [metaArrayReprTyWithLeaf]
    by_cases empty : len = 0
    · refine ⟨.nil, ?_, trivial, ?_, ?_⟩
      · rw [if_pos empty]
        rfl
      · simp [empty, ArrayTree.leafLengths]
      · simp [empty]
    rw [if_neg empty]
    by_cases long : len ≤ metaArrayChunkSize
    · rw [if_pos long]
      obtain ⟨leaf, isLeaf, eq⟩ : ∃ leaf, ArrayLeaf elem borrowed ownedLeaf leaf ∧
          ((if borrowed then pure elem else ownedLeaf elem : StateM σ Ty) state).1 = leaf := by
        cases borrowed with
        | true => exact ⟨elem, rfl, rfl⟩
        | false => exact ⟨(ownedLeaf elem state).1, ⟨state, rfl⟩, rfl⟩
      refine ⟨.chunk len leaf, ?_, ⟨by omega, long, isLeaf⟩, ?_, ?_⟩
      · rw [ArrayTree.ty, ← eq]
        rfl
      · simp [ArrayTree.leafLengths]
      · simp [empty]
    · rw [if_neg long]
      have positive := metaArraySplitLen_pos long
      have less := metaArraySplitLen_lt long
      obtain ⟨left, leftTy, leftBalanced, leftLen, -⟩ := shorter _ less state
      obtain ⟨right, rightTy, rightBalanced, rightLen, -⟩ :=
        shorter (len - metaArraySplitLen len) (by omega)
          (metaArrayReprTyWithLeaf elem borrowed ownedLeaf (metaArraySplitLen len) state).2
      refine ⟨.cat left right, ?_, ?_, ?_, ?_⟩
      · rw [ArrayTree.ty, ← leftTy, ← rightTy]
        rfl
      · refine ⟨?_, ?_, leftBalanced, rightBalanced⟩
        · rwa [ArrayTree.len, leftLen]
        · rw [ArrayTree.len, rightLen]
          omega
      · rw [ArrayTree.leafLengths, List.sum_append, leftLen, rightLen]
        omega
      · simp [empty]

end Ciel.Types
