import Mathlib.Data.List.TakeDrop
import Repx.Foundation.PairedLevels

/-! # Rows of a list in heap order

The nodes of a perfect binary tree in one list: entry `i` stands over the entries
`2 * i + 1` and `2 * i + 2`. The rows of the tree are slices of the list, every row is
the row below it combined in pairs, and the first entry is the reduction of the last row.
-/
namespace Repx.HeapRows
open PairedLevels
variable {α : Type*} (combine : α → α → α)

/-- The combination of two entries, where both are there. -/
def combineEntries (heap : List α) (i j : ℕ) : Option α :=
  (heap[i]?).bind fun a => (heap[j]?).map (combine a)

/-- A tree with `depth` rows of inner nodes. -/
structure HeapOrdered (depth : ℕ) (heap : List α) : Prop where
  length : heap.length = 2 ^ (depth + 1) - 1
  inner : ∀ i < 2 ^ depth - 1, heap[i]? = combineEntries combine heap (2 * i + 1) (2 * i + 2)

/-- The entries of the tree that lie `k` steps below its root. -/
def row (heap : List α) (k : ℕ) : List α := (heap.drop (2 ^ k - 1)).take (2 ^ k)

theorem getElem?_row (heap : List α) (k : ℕ) {i : ℕ} (hi : i < 2 ^ k) :
    (row heap k)[i]? = heap[2 ^ k - 1 + i]? := by
  rw [row,List.getElem?_take_of_lt hi,List.getElem?_drop]

theorem row_length_le (heap : List α) (k : ℕ) : (row heap k).length ≤ 2 ^ k := by
  rw [row,List.length_take]
  exact min_le_left _ _

theorem getElem?_pairLevel (level : List α) (i : ℕ) :
    (pairLevel combine level)[i]? = combineEntries combine level (2 * i) (2 * i + 1) := by
  induction level using pairLevel.induct generalizing i with
  | case1 => rfl
  | case2 a => cases i <;> simp [pairLevel,combineEntries]
  | case3 a b rest ih =>
    cases i with
    | zero => rfl
    | succ i =>
      rw [pairLevel,List.getElem?_cons_succ,ih]
      rfl

variable {combine}

theorem HeapOrdered.row_length {depth k : ℕ} {heap : List α} (h : HeapOrdered combine depth heap)
    (hk : k ≤ depth) : (row heap k).length = 2 ^ k := by
  have hpow : 2 ^ k ≤ 2 ^ depth := Nat.pow_le_pow_right (by decide) hk
  rw [row,List.length_take,List.length_drop,h.length,Nat.pow_succ]
  omega

/-- The pairs of a row are the row above it. -/
theorem HeapOrdered.pairLevel_row {depth k : ℕ} {heap : List α} (h : HeapOrdered combine depth heap)
    (hk : k < depth) : pairLevel combine (row heap (k + 1)) = row heap k := by
  have hpow : 2 ^ (k + 1) ≤ 2 ^ depth := Nat.pow_le_pow_right (by decide) hk
  have hsucc : 2 ^ (k + 1) = 2 * 2 ^ k := by rw [Nat.pow_succ,Nat.mul_comm]
  apply List.ext_getElem?
  intro i
  by_cases hi : i < 2 ^ k
  · have hleft : 2 ^ (k + 1) - 1 + 2 * i = 2 * (2 ^ k - 1 + i) + 1 := by omega
    have hright : 2 ^ (k + 1) - 1 + (2 * i + 1) = 2 * (2 ^ k - 1 + i) + 2 := by omega
    have hinner := h.inner (2 ^ k - 1 + i) (by omega)
    rw [getElem?_pairLevel,combineEntries,getElem?_row heap (k + 1) (by omega),
      getElem?_row heap (k + 1) (by omega),getElem?_row heap k hi,hinner,hleft,hright,combineEntries]
  · have hlow := row_length_le heap k
    have hupper : (pairLevel combine (row heap (k + 1))).length = 2 ^ k := by
      rw [pairLevel_length,h.row_length hk,hsucc]
      omega
    rw [List.getElem?_eq_none (by omega),List.getElem?_eq_none (by omega)]

theorem HeapOrdered.iterate_row {depth k : ℕ} {heap : List α} (h : HeapOrdered combine depth heap)
    (hk : k ≤ depth) : (pairLevel combine)^[k] (row heap k) = row heap 0 := by
  induction k with
  | zero => rfl
  | succ k ih =>
    rw [Function.iterate_succ_apply,h.pairLevel_row hk]
    exact ih (Nat.le_of_succ_le hk)

/-- The reduction of the last row is the first entry. -/
theorem HeapOrdered.reduceLevels_row {depth : ℕ} {heap : List α} (h : HeapOrdered combine depth heap) :
    reduceLevels combine (row heap depth) = heap.take 1 := by
  rw [reduceLevels_eq_iterate combine depth (h.row_length le_rfl),h.iterate_row le_rfl]
  rfl

end Repx.HeapRows
