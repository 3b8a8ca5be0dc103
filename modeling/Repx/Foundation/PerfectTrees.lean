import Repx.Foundation.PairedLevels

/-! # Perfect binary trees over a row

A row of `2 ^ depth` values is split in halves down to single values. The leaves of the
tree are the row again, and combining neighbours level by level reaches the value that
the tree combines from the roots of its two subtrees.
-/
namespace Repx.PerfectTrees
open PairedLevels
variable {α : Type*}

/-- The lowest row of a perfect tree. -/
structure Row (α : Type*) (depth : ℕ) where
  values : List α
  length : values.length = 2 ^ depth

namespace Row
variable {depth : ℕ}

def left (row : Row α (depth + 1)) : Row α depth where
  values := row.values.take (2 ^ depth)
  length := by
    rw [List.length_take,row.length,Nat.pow_succ]
    omega

def right (row : Row α (depth + 1)) : Row α depth where
  values := row.values.drop (2 ^ depth)
  length := by
    rw [List.length_drop,row.length,Nat.pow_succ]
    omega

/-- The value of a row without halves. -/
def value (row : Row α 0) : α := row.values.head (List.ne_nil_of_length_pos (by rw [row.length]; decide))

theorem left_append_right (row : Row α (depth + 1)) : row.left.values ++ row.right.values = row.values :=
  List.take_append_drop _ _

theorem values_eq_value (row : Row α 0) : row.values = [row.value] := by
  obtain ⟨a,ha⟩ := List.length_eq_one_iff.mp row.length
  simp only [value,ha,List.head_cons]

end Row

inductive PerfectTree (α : Type*) : ℕ → Type _
  | leaf (value : α) : PerfectTree α 0
  | node {depth : ℕ} (left right : PerfectTree α depth) : PerfectTree α (depth + 1)

namespace PerfectTree

/-- Split a row in halves, and every half again. -/
def ofRow : {depth : ℕ} → Row α depth → PerfectTree α depth
  | 0, row => .leaf row.value
  | _ + 1, row => .node (ofRow row.left) (ofRow row.right)

def leaves : {depth : ℕ} → PerfectTree α depth → List α
  | _, .leaf value => [value]
  | _, .node left right => left.leaves ++ right.leaves

/-- The combination of the roots of the two subtrees. -/
def root (combine : α → α → α) : {depth : ℕ} → PerfectTree α depth → α
  | _, .leaf value => value
  | _, .node left right => combine (left.root combine) (right.root combine)

variable {depth : ℕ}

@[simp] theorem leaves_length (tree : PerfectTree α depth) : tree.leaves.length = 2 ^ depth := by
  induction tree with
  | leaf value => rfl
  | node left right hleft hright =>
    rw [leaves,List.length_append,hleft,hright,Nat.pow_succ,Nat.mul_two]

@[simp] theorem leaves_ofRow (row : Row α depth) : (ofRow row).leaves = row.values := by
  induction depth with
  | zero => rw [ofRow,leaves,row.values_eq_value]
  | succ depth ih => rw [ofRow,leaves,ih row.left,ih row.right,row.left_append_right]

end PerfectTree

section Levels
variable (combine : α → α → α)

/-- A level is paired as its first part and its second part are, if the first part is even. -/
theorem pairLevel_append {l : List α} (h : 2 ∣ l.length) (m : List α) :
    pairLevel combine (l ++ m) = pairLevel combine l ++ pairLevel combine m := by
  induction l using pairLevel.induct with
  | case1 => rfl
  | case2 a => simp at h
  | case3 a b rest ih => simp only [List.cons_append,pairLevel,ih (two_dvd_length_rest h)]

theorem iterate_pairLevel_append {depth : ℕ} {l : List α} (h : l.length = 2 ^ depth) (m : List α) :
    (pairLevel combine)^[depth] (l ++ m) = (pairLevel combine)^[depth] l ++ (pairLevel combine)^[depth] m := by
  induction depth generalizing l m with
  | zero => rfl
  | succ depth ih =>
    simp only [Function.iterate_succ_apply,pairLevel_append combine (two_dvd_length h)]
    exact ih (pairLevel_length_two_pow combine h) _

/-- After as many levels as the tree is deep, its root alone is left. -/
theorem iterate_pairLevel_leaves {depth : ℕ} (tree : PerfectTree α depth) :
    (pairLevel combine)^[depth] tree.leaves = [tree.root combine] := by
  induction tree with
  | leaf value => rfl
  | node left right hleft hright =>
    rw [Function.iterate_succ_apply',PerfectTree.leaves,iterate_pairLevel_append combine left.leaves_length,
      hleft,hright]
    rfl

theorem reduceLevels_leaves {depth : ℕ} (tree : PerfectTree α depth) :
    reduceLevels combine tree.leaves = [tree.root combine] := by
  rw [reduceLevels_eq_iterate combine depth tree.leaves_length,iterate_pairLevel_leaves]

/-- Bottom up and by halves, a row has the same root. -/
theorem reduceLevels_row {depth : ℕ} (row : Row α depth) :
    reduceLevels combine row.values = [(PerfectTree.ofRow row).root combine] := by
  rw [← PerfectTree.leaves_ofRow row,reduceLevels_leaves]

end Levels

end Repx.PerfectTrees
