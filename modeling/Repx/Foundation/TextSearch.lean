import Mathlib.Data.List.DropRight
import Mathlib.Data.List.Forall2

/-! # Searching a text and cutting it into lines

The last occurrence of a pattern, the first occurrence of a separator, the pieces that
`split_inclusive` yields, and a partial reading of every piece. A text is a list over any
alphabet.
-/
namespace Repx.TextSearch
variable {α : Type}

/-- A pattern begins nowhere in a text without its first letter. -/
theorem infix_append_of_head_not_mem {c : α} {pattern text rest : List α} (h : c ∉ text) :
    (c :: pattern) <:+: text ++ rest ↔ (c :: pattern) <:+: rest := by
  induction text with
  | nil => rfl
  | cons x text ih =>
    rw [List.mem_cons,not_or] at h
    rw [List.cons_append,List.infix_cons_iff,ih h.2]
    constructor
    · rintro (hp | hi)
      · exact absurd (List.cons_prefix_cons.mp hp).1 h.1
      · exact hi
    · exact Or.inr

/-- A text is cut in one way at the first occurrence of a letter. -/
theorem cut_at_first {c : α} {front back front' back' : List α} (hf : c ∉ front) (hf' : c ∉ front')
    (h : front ++ c :: back = front' ++ c :: back') : front = front' ∧ back = back' := by
  induction front generalizing front' with
  | nil =>
    cases front' with
    | nil => simpa using h
    | cons x front' =>
      simp only [List.nil_append,List.cons_append,List.cons.injEq] at h
      exact absurd (by simp [h.1]) hf'
  | cons x front ih =>
    cases front' with
    | nil =>
      simp only [List.nil_append,List.cons_append,List.cons.injEq] at h
      exact absurd (by simp [h.1]) hf
    | cons y front' =>
      simp only [List.cons_append,List.cons.injEq] at h
      obtain ⟨rfl,hb⟩ := ih (fun hm => hf (List.mem_cons_of_mem _ hm))
        (fun hm => hf' (List.mem_cons_of_mem _ hm)) h.2
      exact ⟨by rw [h.1],hb⟩

theorem mapM_eq_some {β : Type} {f : α → Option β} {xs : List α} {ys : List β} :
    xs.mapM f = some ys ↔ List.Forall₂ (fun x y => f x = some y) xs ys := by
  induction xs generalizing ys with
  | nil => simp [eq_comm]
  | cons x xs ih =>
    rw [List.mapM_cons]
    cases hx : f x with
    | none => simp [hx,List.forall₂_cons_left_iff]
    | some y =>
      cases hs : xs.mapM f with
      | none => simp [List.forall₂_cons_left_iff,← ih,hs]
      | some zs => simp [List.forall₂_cons_left_iff,← ih,hs,hx,eq_comm]

/-- All values or none: the values there are, when every element has one. -/
theorem mapM_eq_some_filterMap {β : Type} {f : α → Option β} {xs : List α} {ys : List β} :
    xs.mapM f = some ys ↔ (∀ x ∈ xs, f x ≠ none) ∧ ys = xs.filterMap f := by
  induction xs generalizing ys with
  | nil => simp [eq_comm]
  | cons x xs ih =>
    rw [List.mapM_cons]
    cases hx : f x with
    | none => simp [hx]
    | some y =>
      cases hs : xs.mapM f with
      | none =>
        have hn : ¬ ∀ x ∈ xs, f x ≠ none := fun h => by simpa [hs] using ih.mpr ⟨h,rfl⟩
        simp [hx,hn]
      | some zs =>
        obtain ⟨ha,rfl⟩ := ih.mp hs
        have hall : ∀ x' ∈ x :: xs, f x' ≠ none := List.forall_mem_cons.mpr ⟨by simp [hx],ha⟩
        rw [and_iff_right hall,List.filterMap_cons_some hx]
        simp [eq_comm]

theorem mapM_ne_none {β : Type} {f : α → Option β} {xs : List α} : xs.mapM f ≠ none ↔ ∀ x ∈ xs, f x ≠ none := by
  rw [Option.ne_none_iff_exists']
  exact ⟨fun ⟨ys,hy⟩ => (mapM_eq_some_filterMap.mp hy).1,
    fun hall => ⟨xs.filterMap f,mapM_eq_some_filterMap.mpr ⟨hall,rfl⟩⟩⟩

/-- All values or none is a question about the set of elements. -/
theorem mapM_congr_mem {β : Type} {f : α → Option β} {xs xs' : List α} (h : ∀ x, x ∈ xs ↔ x ∈ xs') :
    (xs.mapM f = none ↔ xs'.mapM f = none) ∧
      ∀ ys ys', xs.mapM f = some ys → xs'.mapM f = some ys' → ∀ y, y ∈ ys ↔ y ∈ ys' := by
  constructor
  · rw [← not_iff_not,← Ne,← Ne,mapM_ne_none,mapM_ne_none]
    simp only [h]
  · intro ys ys' hy hy' y
    rw [(mapM_eq_some_filterMap.mp hy).2,(mapM_eq_some_filterMap.mp hy').2,List.mem_filterMap,List.mem_filterMap]
    simp only [h]

theorem mapM_toOption {ε β : Type} (f : α → Except ε β) (xs : List α) :
    (xs.mapM f).toOption = xs.mapM fun x => (f x).toOption := by
  induction xs with
  | nil => rfl
  | cons x xs ih =>
    rw [List.mapM_cons,List.mapM_cons,← ih]
    cases f x with
    | error e => rfl
    | ok y => cases xs.mapM f <;> rfl

theorem exists_of_mem_right {α β : Type*} {r : α → β → Prop} {xs : List α} {ys : List β} {y : β}
    (h : List.Forall₂ r xs ys) (hy : y ∈ ys) : ∃ x ∈ xs, r x y := by
  induction h with
  | nil => simp at hy
  | cons hr _ ih =>
    rcases List.mem_cons.mp hy with rfl | hy
    · exact ⟨_,by simp,hr⟩
    · obtain ⟨x,hx,hr⟩ := ih hy
      exact ⟨x,by simp [hx],hr⟩

/-- The pieces of a text, each with the separator that ends it. -/
def endPieces (sep : α) : List (List α) → List (List α)
  | [] => []
  | [piece] => if piece = [] then [] else [piece]
  | piece :: pieces => (piece ++ [sep]) :: endPieces sep pieces

theorem endPieces_cons {pieces : List (List α)} (h : pieces ≠ []) (sep : α) (piece : List α) :
    endPieces sep (piece :: pieces) = (piece ++ [sep]) :: endPieces sep pieces := by
  cases pieces with
  | nil => exact absurd rfl h
  | cons next pieces => rfl

variable [DecidableEq α]

/-- Where the last occurrence of the pattern begins. -/
def rfind (pattern : List α) : List α → Option ℕ
  | [] => if pattern = [] then some 0 else none
  | x :: xs =>
    match rfind pattern xs with
    | some i => some (i + 1)
    | none => if pattern.isPrefixOf (x :: xs) then some 0 else none

theorem rfind_eq_none {pattern text : List α} : rfind pattern text = none ↔ ¬ pattern <:+: text := by
  induction text with
  | nil =>
    simp only [rfind,List.infix_nil]
    split_ifs <;> simp_all
  | cons x xs ih =>
    simp only [rfind,List.infix_cons_iff,not_or]
    cases hr : rfind pattern xs with
    | some i =>
      have hin : pattern <:+: xs := by
        by_contra hn
        simp [ih.mpr hn] at hr
      simp [hin]
    | none => simp [ih.mp hr]

/-- The last occurrence, as a decomposition in which none begins later. -/
theorem rfind_eq_some {c : α} {pattern text : List α} {i : ℕ} :
    rfind (c :: pattern) text = some i ↔ ∃ front back, text = front ++ (c :: pattern) ++ back ∧
      front.length = i ∧ ¬ (c :: pattern) <:+: pattern ++ back := by
  induction text generalizing i with
  | nil => simp [rfind]
  | cons x xs ih =>
    simp only [rfind]
    cases hr : rfind (c :: pattern) xs with
    | some j =>
      obtain ⟨front,back,rfl,rfl,hlast⟩ := ih.mp hr
      constructor
      · intro h
        exact ⟨x :: front,back,by simp,by simpa using h,hlast⟩
      · rintro ⟨front',back',ht,rfl,hlast'⟩
        cases front' with
        | nil =>
          simp only [List.nil_append,List.cons_append,List.cons.injEq] at ht
          exact absurd (ht.2 ▸ List.infix_append front (c :: pattern) back) hlast'
        | cons y front' =>
          simp only [List.cons_append,List.cons.injEq] at ht
          have hj := ih.mpr ⟨front',back',ht.2,rfl,hlast'⟩
          rw [hr,Option.some.injEq] at hj
          simp [hj]
    | none =>
      have hn := rfind_eq_none.mp hr
      constructor
      · intro h
        split_ifs at h with hp
        obtain ⟨back,hb⟩ := List.isPrefixOf_iff_prefix.mp hp
        obtain ⟨rfl,rfl⟩ := List.cons.inj hb
        exact ⟨[],back,by simp,by simpa using h,hn⟩
      · rintro ⟨front,back,ht,rfl,hlast⟩
        cases front with
        | nil =>
          rw [if_pos (List.isPrefixOf_iff_prefix.mpr ⟨back,by simpa using ht.symm⟩)]
          rfl
        | cons y front =>
          simp only [List.cons_append,List.cons.injEq] at ht
          exact absurd (ht.2 ▸ List.infix_append front (c :: pattern) back) hn

/-- `split_inclusive`. -/
def splitInclusive (sep : α) (text : List α) : List (List α) := endPieces sep (text.splitOn sep)

theorem not_mem_of_mem_splitOn {sep : α} {text piece : List α} (h : piece ∈ text.splitOn sep) :
    sep ∉ piece := by
  induction text generalizing piece with
  | nil => simp_all
  | cons x xs ih =>
    rw [List.splitOn_cons_eq_if_modifyHead] at h
    split_ifs at h with hx
    · rcases List.mem_cons.mp h with rfl | h
      · simp
      · exact ih h
    · cases hs : xs.splitOn sep with
      | nil => exact absurd hs (List.splitOn_ne_nil sep xs)
      | cons first others =>
        rw [hs,List.modifyHead_cons] at h
        rcases List.mem_cons.mp h with rfl | h
        · rw [List.mem_cons,not_or]
          exact ⟨fun he => hx (by simp [he]),ih (by simp [hs])⟩
        · exact ih (by simp [hs,h])

end Repx.TextSearch
