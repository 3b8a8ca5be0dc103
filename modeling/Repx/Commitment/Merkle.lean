import Repx.Foundation.PairedLevels
import Repx.Commitment.Sha256

/-! # Merkle tree over operation hashes

`MerkleTree` carries the sorted operation leaves together with the legacy
in-memory nodes, either of which may come from an attestation file. The root of
a leaf list is computed level by level after padding to a power of two.
-/
namespace Repx.Merkle
open ByteString PairedLevels Sha256
variable (sha256 : Str → Digest)

structure MerkleNode where
  hash : Str
  isLeaf : Bool
deriving DecidableEq, Repr

structure MerkleTree where
  leaves : List Str
  nodes : List MerkleNode
  leafCount : ℕ
deriving DecidableEq, Repr

/-- Hash two child hashes together; nothing separates them. -/
def hashPair (left right : Str) : Str := digestText (sha256 (left ++ right))

/-- `next_power_of_two`. -/
def nextPowerOfTwo (n : ℕ) : ℕ := 2 ^ Nat.clog 2 n

def paddingHash : Str := hashPair sha256 (utf8 "padding") (utf8 "padding")

def emptyRoot : Str := hashPair sha256 (utf8 "empty") (utf8 "empty")

/-- The loop that pushes padding hashes while the level is too short. -/
def padLevel (target : ℕ) (level : List Str) : List Str :=
  if level.length < target then padLevel target (level ++ [paddingHash sha256]) else level
termination_by target - level.length
decreasing_by
  simp only [List.length_append,List.length_singleton]
  omega

def rootFromLeaves (leaves : List Str) : Str :=
  if leaves.isEmpty then emptyRoot sha256
  else (reduceLevels (hashPair sha256)
    (padLevel sha256 (nextPowerOfTwo leaves.length) leaves)).getLast?.getD []

namespace MerkleTree

/-- The leaves, or for a legacy tree the slice of its nodes that holds them. -/
def leafHashes (t : MerkleTree) : List Str :=
  if !t.leaves.isEmpty || t.leafCount == 0 then t.leaves
  else
    let paddedLeafCount := (t.nodes.length + 1) / 2
    let firstLeaf := paddedLeafCount - 1
    ((t.nodes.drop firstLeaf).take t.leafCount).map (·.hash)

/-- The first node when there is one, otherwise the root over the leaves. -/
def rootHash (t : MerkleTree) : Str :=
  match t.nodes.head? with
  | some root => root.hash
  | none => rootFromLeaves sha256 t.leafHashes

@[simp] theorem leafHashes_of_no_nodes (leaves : List Str) (n : ℕ) :
    leafHashes ⟨leaves,[],n⟩ = leaves := by
  unfold leafHashes
  cases leaves <;> simp

@[simp] theorem rootHash_of_no_nodes (leaves : List Str) (n : ℕ) :
    rootHash sha256 ⟨leaves,[],n⟩ = rootFromLeaves sha256 leaves := by
  simp [rootHash]

/-- A legacy tree that names leaves only through its nodes has at least one. -/
theorem leafHashes_ne_nil {t : MerkleTree} (hl : t.leaves = []) (hc : t.leafCount ≠ 0)
    (hn : t.nodes ≠ []) : t.leafHashes ≠ [] := by
  have hlen : 0 < t.nodes.length := List.length_pos_of_ne_nil hn
  have hcond : (!t.leaves.isEmpty || t.leafCount == 0) = false := by simp [hl,hc]
  rw [← List.length_pos_iff,leafHashes,hcond]
  simp only [Bool.false_eq_true,↓reduceIte,List.length_map,List.length_take,List.length_drop]
  omega

end MerkleTree

theorem padLevel_eq (target : ℕ) (level : List Str) :
    padLevel sha256 target level =
      level ++ List.replicate (target - level.length) (paddingHash sha256) := by
  induction level using padLevel.induct sha256 target with
  | case1 level hlt ih =>
    rw [padLevel,if_pos hlt,ih,List.append_assoc]
    obtain ⟨k,hk⟩ : ∃ k, target - level.length = k + 1 := ⟨target - level.length - 1,by omega⟩
    have hk' : target - (level ++ [paddingHash sha256]).length = k := by
      simp only [List.length_append,List.length_singleton]
      omega
    rw [hk,hk',List.replicate_succ]
    rfl
  | case2 level hlt =>
    rw [padLevel,if_neg hlt,Nat.sub_eq_zero_of_le (by omega)]
    simp

/-- The lowest row of the tree over a leaf list. -/
def firstRow (leaves : List Str) : List Str :=
  if leaves.isEmpty then [emptyRoot sha256]
  else padLevel sha256 (nextPowerOfTwo leaves.length) leaves

theorem firstRow_length (leaves : List Str) :
    (firstRow sha256 leaves).length = 2 ^ Nat.clog 2 leaves.length := by
  unfold firstRow
  cases leaves with
  | nil => simp
  | cons a rest =>
    have hle := Nat.le_pow_clog Nat.one_lt_two (rest.length + 1)
    rw [padLevel_eq]
    simp only [List.isEmpty_cons,Bool.false_eq_true,↓reduceIte,List.length_append,
      List.length_replicate,nextPowerOfTwo,List.length_cons]
    omega

/-- Both branches of `root_from_leaves` are the reduction of the lowest row. -/
theorem reduceLevels_firstRow (leaves : List Str) :
    reduceLevels (hashPair sha256) (firstRow sha256 leaves) = [rootFromLeaves sha256 leaves] := by
  cases leaves with
  | nil => simp [firstRow,rootFromLeaves,reduceLevels]
  | cons a rest =>
    have hl := reduceLevels_length (hashPair sha256) _ (firstRow_length sha256 (a :: rest))
    obtain ⟨r,hr⟩ := List.length_eq_one_iff.mp hl
    simp only [firstRow,rootFromLeaves,List.isEmpty_cons,Bool.false_eq_true,↓reduceIte] at hr ⊢
    rw [hr]
    rfl

/-- The root over a single operation is its hash. -/
@[simp] theorem rootFromLeaves_singleton (leaf : Str) : rootFromLeaves sha256 [leaf] = leaf := by
  simp [rootFromLeaves,padLevel,nextPowerOfTwo,reduceLevels]

/-- The byte strings hashed by `hash_pair` while the root is computed. -/
def rootInputs (leaves : List Str) : List Str :=
  if leaves.isEmpty then [utf8 "empty" ++ utf8 "empty"]
  else
    (if leaves.length < nextPowerOfTwo leaves.length then [utf8 "padding" ++ utf8 "padding"] else []) ++
      (reducePairs (hashPair sha256)
        (padLevel sha256 (nextPowerOfTwo leaves.length) leaves)).map (fun p => p.1 ++ p.2)

/-- The pairs combined above the lowest row are among the hashed byte strings. -/
theorem map_reducePairs_subset (leaves : List Str) :
    (reducePairs (hashPair sha256) (firstRow sha256 leaves)).map (fun p => p.1 ++ p.2) ⊆
      rootInputs sha256 leaves := by
  cases leaves with
  | nil => simp [firstRow,reducePairs]
  | cons a rest =>
    simp only [firstRow,rootInputs,List.isEmpty_cons,Bool.false_eq_true,↓reduceIte]
    exact List.subset_append_right _ _

end Repx.Merkle
