import Mathlib.Tactic.IntervalCases
import Repx.Commitment.Merkle
import Repx.Foundation.HeapRows

/-! # Trees of old attestation files

An old attestation holds no leaves but all nodes of its tree, in heap order over the
padded leaves. The slice that is read back as leaves is the lowest row without the padding,
and the first node is the root that is computed over it.
-/
namespace Repx.Merkle
open ByteString PairedLevels HeapRows Sha256
variable (sha256 : Str → Digest)

/-- The nodes of a tree over `leafCount` leaves, padded to the next power of two. -/
structure LegacyNodes (t : MerkleTree) : Prop where
  leaves : t.leaves = []
  leafCount : 1 ≤ t.leafCount
  length : t.nodes.length = 2 * nextPowerOfTwo t.leafCount - 1
  inner : ∀ i < nextPowerOfTwo t.leafCount - 1, ∀ node left right, t.nodes[i]? = some node →
    t.nodes[2 * i + 1]? = some left → t.nodes[2 * i + 2]? = some right →
      node.hash = hashPair sha256 left.hash right.hash
  padding : ∀ node ∈ t.nodes.drop (nextPowerOfTwo t.leafCount - 1 + t.leafCount), node.hash = paddingHash sha256

theorem le_nextPowerOfTwo (n : ℕ) : n ≤ nextPowerOfTwo n := Nat.le_pow_clog Nat.one_lt_two n

namespace LegacyNodes
variable {sha256} {t : MerkleTree}

theorem leafHashes_eq (h : LegacyNodes sha256 t) :
    t.leafHashes = ((t.nodes.drop (nextPowerOfTwo t.leafCount - 1)).take t.leafCount).map (·.hash) := by
  have hcond : (!t.leaves.isEmpty || t.leafCount == 0) = false := by
    have hc := h.leafCount
    simp [h.leaves]
    omega
  have hfirst : (t.nodes.length + 1) / 2 - 1 = nextPowerOfTwo t.leafCount - 1 := by
    have hle := le_nextPowerOfTwo t.leafCount
    have hc := h.leafCount
    rw [h.length]
    omega
  simp only [MerkleTree.leafHashes,hcond,Bool.false_eq_true,if_false,hfirst]

theorem leafHashes_length (h : LegacyNodes sha256 t) : t.leafHashes.length = t.leafCount := by
  have hle := le_nextPowerOfTwo t.leafCount
  rw [h.leafHashes_eq,List.length_map,List.length_take,List.length_drop,h.length]
  omega

theorem heapOrdered (h : LegacyNodes sha256 t) :
    HeapOrdered (hashPair sha256) (Nat.clog 2 t.leafCount) (t.nodes.map (·.hash)) := by
  refine ⟨by rw [List.length_map,h.length,nextPowerOfTwo,Nat.pow_succ,Nat.mul_comm],fun i hi => ?_⟩
  have hlen := h.length
  rw [← nextPowerOfTwo] at hi
  have hinner := h.inner i hi t.nodes[i] t.nodes[2 * i + 1] t.nodes[2 * i + 2]
    (List.getElem?_eq_getElem _) (List.getElem?_eq_getElem _) (List.getElem?_eq_getElem _)
  simp only [combineEntries,List.getElem?_map]
  rw [List.getElem?_eq_getElem (by omega),List.getElem?_eq_getElem (by omega),List.getElem?_eq_getElem (by omega)]
  exact congrArg some hinner

/-- The lowest row of the nodes is what the padding loop makes of the leaves. -/
theorem row_eq (h : LegacyNodes sha256 t) :
    row (t.nodes.map (·.hash)) (Nat.clog 2 t.leafCount) =
      padLevel sha256 (nextPowerOfTwo t.leafHashes.length) t.leafHashes := by
  have hle := le_nextPowerOfTwo t.leafCount
  have hpad : ((t.nodes.drop (nextPowerOfTwo t.leafCount - 1)).drop t.leafCount).map (·.hash) =
      List.replicate (nextPowerOfTwo t.leafCount - t.leafCount) (paddingHash sha256) := by
    rw [List.eq_replicate_iff,List.drop_drop]
    refine ⟨?_,fun hash hm => ?_⟩
    · rw [List.length_map,List.length_drop,h.length]
      omega
    · obtain ⟨node,hnode,rfl⟩ := List.mem_map.mp hm
      exact h.padding node hnode
  have hall : (t.nodes.drop (nextPowerOfTwo t.leafCount - 1)).length = nextPowerOfTwo t.leafCount := by
    rw [List.length_drop,h.length]
    omega
  rw [padLevel_eq,h.leafHashes_length,h.leafHashes_eq,← hpad,← List.map_append,List.take_append_drop,row,
    ← nextPowerOfTwo,← List.map_drop,← List.map_take,List.take_of_length_le hall.le]

end LegacyNodes

/-- A legacy tree reads its leaves out of its nodes, and its first node is the root over them. -/
theorem legacyNodes_leaves_root {t : MerkleTree} (h : LegacyNodes sha256 t) :
    t.leafHashes = ((t.nodes.drop (nextPowerOfTwo t.leafCount - 1)).take t.leafCount).map (·.hash) ∧
    t.leafHashes.length = t.leafCount ∧ t.rootHash sha256 = rootFromLeaves sha256 t.leafHashes := by
  refine ⟨h.leafHashes_eq,h.leafHashes_length,?_⟩
  have hne : t.leafHashes ≠ [] := by
    have hc := h.leafCount
    rw [← List.length_pos_iff,h.leafHashes_length]
    exact hc
  have hreduced := h.heapOrdered.reduceLevels_row
  rw [h.row_eq] at hreduced
  have hpos : 0 < t.nodes.length := by
    have hle := le_nextPowerOfTwo t.leafCount
    have hc := h.leafCount
    rw [h.length]
    omega
  obtain ⟨root,rest,hnodes⟩ := List.exists_cons_of_length_pos hpos
  rw [rootFromLeaves,if_neg (by simpa using hne),hreduced,MerkleTree.rootHash,hnodes]
  rfl

/-- A stand-in for the hash function. -/
def lengthDigest (text : Str) : Digest := Vector.replicate 32 text.length.toUInt8

/-- Three leaves, one padding hash and the three nodes over them. -/
def threeLeaves : MerkleTree :=
  let left := hashPair lengthDigest (utf8 "a") (utf8 "b")
  let right := hashPair lengthDigest (utf8 "c") (paddingHash lengthDigest)
  ⟨[],[⟨hashPair lengthDigest left right,false⟩,⟨left,false⟩,⟨right,false⟩,⟨utf8 "a",true⟩,⟨utf8 "b",true⟩,
    ⟨utf8 "c",true⟩,⟨paddingHash lengthDigest,true⟩],3⟩

theorem legacyNodes_leaves_root_three :
    threeLeaves.leafHashes = [utf8 "a",utf8 "b",utf8 "c"] ∧
      threeLeaves.rootHash lengthDigest = rootFromLeaves lengthDigest threeLeaves.leafHashes := by
  have hfour : nextPowerOfTwo threeLeaves.leafCount = 4 := by
    have hc : Nat.clog 2 3 = 2 := by decide +kernel
    simp only [nextPowerOfTwo,threeLeaves,hc]
    rfl
  have hnodes : LegacyNodes lengthDigest threeLeaves := by
    refine ⟨rfl,by decide,by rw [hfour]; rfl,fun i hi node left right hn hl hr => ?_,fun node hm => ?_⟩
    · rw [hfour] at hi
      interval_cases i <;> cases hn <;> cases hl <;> cases hr <;> rfl
    · rw [hfour] at hm
      rw [List.mem_singleton.mp (show node ∈ [⟨paddingHash lengthDigest,true⟩] from hm)]
  exact ⟨by decide,(legacyNodes_leaves_root lengthDigest hnodes).2.2⟩

end Repx.Merkle
