import Mathlib.Data.List.Sort
import Mathlib.Data.List.Destutter
import Mathlib.Order.Defs.Unbundled

/-! # Sorting and deduplicating by a key

A list is sorted by a derived key and adjacent elements with equal keys are
merged into the first of them. The keys that remain are strictly increasing, so
they depend only on the set of keys that occurred.
-/
namespace Repx.KeyedSort
open Std
variable {α κ : Type*} [Ord κ]

/-- Comparison of the keys. -/
def KeyLE (key : α → κ) (a b : α) : Prop := (compare (key a) (key b)).isLE = true

instance (key : α → κ) : DecidableRel (KeyLE key) := fun a b =>
  inferInstanceAs (Decidable ((compare (key a) (key b)).isLE = true))

def sortByKey (key : α → κ) (l : List α) : List α := l.insertionSort (KeyLE key)

/-- Keep the first of each run of adjacent equal keys. -/
def dedupByKey [DecidableEq κ] (key : α → κ) (l : List α) : List α :=
  l.destutter (fun a b => key a ≠ key b)

instance [TransOrd κ] (key : α → κ) : IsTrans α (KeyLE key) :=
  ⟨fun _ _ _ h h' => TransOrd.isLE_trans h h'⟩

instance [OrientedOrd κ] (key : α → κ) : Std.Total (KeyLE key) :=
  ⟨fun a b => by
    by_cases h : (compare (key a) (key b)).isLE = true
    · exact Or.inl h
    · exact Or.inr (Ordering.isLE_of_eq_lt (OrientedCmp.lt_of_not_isLE h))⟩

@[simp] theorem mem_sortByKey {key : α → κ} {l : List α} {a : α} : a ∈ sortByKey key l ↔ a ∈ l :=
  List.mem_insertionSort _

@[simp] theorem sortByKey_singleton (key : α → κ) (a : α) : sortByKey key [a] = [a] := rfl

@[simp] theorem sortByKey_nil (key : α → κ) : sortByKey key ([] : List α) = [] := rfl

/-- A list already in order is left alone. -/
theorem sortByKey_eq_self {key : α → κ} {l : List α} (h : l.Pairwise (KeyLE key)) : sortByKey key l = l :=
  h.insertionSort_eq

theorem sortByKey_sortByKey [TransOrd κ] (key : α → κ) (l : List α) :
    sortByKey key (sortByKey key l) = sortByKey key l :=
  sortByKey_eq_self (List.pairwise_insertionSort _ l)

omit [Ord κ] in
/-- Where only equal elements compare equal, sorting forgets the order of arrival. -/
theorem insertionSort_eq_of_perm (cmp : α → α → Ordering) [TransCmp cmp]
    (heq : ∀ a b, cmp a b = .eq → a = b) {l l' : List α} (h : l.Perm l') :
    l.insertionSort (fun a b => (cmp a b).isLE = true) = l'.insertionSort (fun a b => (cmp a b).isLE = true) := by
  have htotal : Std.Total (fun a b => (cmp a b).isLE = true) := ⟨fun a b => by
    by_cases hab : (cmp a b).isLE = true
    · exact Or.inl hab
    · exact Or.inr (Ordering.isLE_of_eq_lt (OrientedCmp.lt_of_not_isLE hab))⟩
  have htrans : IsTrans α (fun a b => (cmp a b).isLE = true) := ⟨fun _ _ _ => TransCmp.isLE_trans⟩
  have hanti : Std.Antisymm (fun a b => (cmp a b).isLE = true) :=
    ⟨fun a b hab hba => heq a b (OrientedCmp.isLE_antisymm hab hba)⟩
  apply List.Perm.eq_of_pairwise' (List.pairwise_insertionSort _ l) (List.pairwise_insertionSort _ l')
  exact ((List.perm_insertionSort _ l).trans h).trans (List.perm_insertionSort _ l').symm

omit [Ord κ] in
theorem eq_of_perm_of_length_le_one {l l' : List α} (h : l.Perm l') (hl : l.length ≤ 1) : l = l' := by
  match l, hl with
  | [], _ => exact (List.nil_perm.mp h).symm
  | [a], _ => exact List.singleton_perm.mp h

omit [Ord κ] in
/-- A sort may only choose the order of elements with one key. -/
theorem eq_of_pairwise_of_filter_eq [LinearOrder κ] {key : α → κ} {l l' : List α}
    (h : l.Pairwise fun a b => key a ≤ key b) (h' : l'.Pairwise fun a b => key a ≤ key b)
    (hf : ∀ k, l.filter (key · = k) = l'.filter (key · = k)) : l = l' := by
  have hmem : ∀ {m m' : List α}, (∀ k, m.filter (key · = k) = m'.filter (key · = k)) → ∀ a ∈ m, a ∈ m' := by
    intro m m' hk a ha
    have hin : a ∈ m.filter (key · = key a) := List.mem_filter.mpr ⟨ha,by simp⟩
    rw [hk] at hin
    exact (List.mem_filter.mp hin).1
  induction l generalizing l' with
  | nil =>
    cases l' with
    | nil => rfl
    | cons b l' => exact absurd (hmem (fun k => (hf k).symm) b List.mem_cons_self) List.not_mem_nil
  | cons a l ih =>
    cases l' with
    | nil => exact absurd (hmem hf a List.mem_cons_self) List.not_mem_nil
    | cons b l' =>
      have hle : ∀ {x y : α} {m : List α}, (y :: m).Pairwise (fun a b => key a ≤ key b) → x ∈ y :: m →
          key y ≤ key x := by
        intro x y m hp hx
        rcases List.mem_cons.mp hx with rfl | hx
        · exact le_rfl
        · exact (List.pairwise_cons.mp hp).1 x hx
      have hkey : key a = key b := (hle h (hmem (fun k => (hf k).symm) b List.mem_cons_self)).antisymm
        (hle h' (hmem hf a List.mem_cons_self))
      -- the least elements head the same filtered list
      have hhead := hf (key a)
      rw [List.filter_cons_of_pos (by simp),List.filter_cons_of_pos (by simp [hkey])] at hhead
      obtain ⟨rfl,-⟩ := List.cons.inj hhead
      rw [ih (List.pairwise_cons.mp h).2 (List.pairwise_cons.mp h').2 fun k => ?_]
      have hk := hf k
      by_cases hak : key a = k
      · rw [List.filter_cons_of_pos (by simpa using hak),List.filter_cons_of_pos (by simpa using hak)] at hk
        exact (List.cons.inj hk).2
      · rwa [List.filter_cons_of_neg (by simpa using hak),List.filter_cons_of_neg (by simpa using hak)] at hk

/-- The sorted list is determined by the multiset it holds. -/
theorem sortByKey_eq_of_perm [TransOrd κ] [LawfulEqOrd κ] {l l' : List κ} (h : l.Perm l') :
    sortByKey (fun k => k) l = sortByKey (fun k => k) l' :=
  insertionSort_eq_of_perm compare (fun _ _ => LawfulEqOrd.eq_of_compare) h

variable [DecidableEq κ]

omit [Ord κ] in
theorem dedupByKey_sublist (key : α → κ) (l : List α) : (dedupByKey key l).Sublist l :=
  List.destutter_sublist _ l

omit [Ord κ] in
private theorem exists_key_destutter' (key : α → κ) (a : α) (l : List α) :
    ∀ x ∈ a :: l, ∃ y ∈ l.destutter' (fun a b => key a ≠ key b) a, key y = key x := by
  induction l generalizing a with
  | nil =>
    intro x hx
    exact ⟨a,List.mem_singleton_self a,by rw [List.mem_singleton.mp hx]⟩
  | cons b l ih =>
    intro x hx
    by_cases hab : key a = key b
    · rw [List.destutter'_cons_neg _ (not_not.mpr hab)]
      rcases List.mem_cons.mp hx with rfl | hx
      · exact ih x x List.mem_cons_self
      rcases List.mem_cons.mp hx with rfl | hx
      · exact ⟨a,List.mem_destutter' _ _ _,hab⟩
      · exact ih a x (List.mem_cons_of_mem _ hx)
    · rw [List.destutter'_cons_pos _ hab]
      rcases List.mem_cons.mp hx with rfl | hx
      · exact ⟨x,List.mem_cons_self,rfl⟩
      · obtain ⟨y,hy,hk⟩ := ih b x hx
        exact ⟨y,List.mem_cons_of_mem _ hy,hk⟩

omit [Ord κ] in
/-- Merging loses no key. -/
theorem mem_map_dedupByKey {key : α → κ} {l : List α} {k : κ} :
    k ∈ (dedupByKey key l).map key ↔ k ∈ l.map key := by
  constructor
  · exact fun h => (dedupByKey_sublist key l).map key |>.subset h
  · intro h
    obtain ⟨x,hx,rfl⟩ := List.mem_map.mp h
    cases l with
    | nil => simp at hx
    | cons a l =>
      obtain ⟨y,hy,hk⟩ := exists_key_destutter' key a l x hx
      exact List.mem_map.mpr ⟨y,hy,hk⟩

theorem mem_map_dedup_sort {key : α → κ} {l : List α} {k : κ} :
    k ∈ (dedupByKey key (sortByKey key l)).map key ↔ k ∈ l.map key := by
  rw [mem_map_dedupByKey]
  simp only [List.mem_map,mem_sortByKey]

omit [Ord κ] in
/-- Keys that tell the same elements apart merge alike. -/
theorem dedupByKey_congr {κ' : Type*} [DecidableEq κ'] {key : α → κ} {key' : α → κ'} {l : List α}
    (h : ∀ a ∈ l, ∀ b ∈ l, key a = key b ↔ key' a = key' b) : dedupByKey key l = dedupByKey key' l := by
  cases l with
  | nil => rfl
  | cons a l =>
    simp only [dedupByKey,List.destutter_cons']
    induction l generalizing a with
    | nil => rfl
    | cons b l ih =>
      have hb := ih b fun x hx y hy => h x (by simp at hx ⊢; tauto) y (by simp at hy ⊢; tauto)
      have ha := ih a fun x hx y hy => h x (by simp at hx ⊢; tauto) y (by simp at hy ⊢; tauto)
      have hab := h a (by simp) b (by simp)
      by_cases hk : key a = key b
      · rw [List.destutter'_cons_neg _ (not_not.mpr hk),List.destutter'_cons_neg _ (not_not.mpr (hab.mp hk)),ha]
      · rw [List.destutter'_cons_pos _ hk,List.destutter'_cons_pos _ (fun hk' => hk (hab.mpr hk')),hb]

/-- The elements of a `BTreeSet`, in the order in which it is iterated. -/
def orderedSet (l : List κ) : List κ := dedupByKey (fun k => k) (sortByKey (fun k => k) l)

@[simp] theorem mem_orderedSet {l : List κ} {k : κ} : k ∈ orderedSet l ↔ k ∈ l := by
  simpa [orderedSet] using @mem_map_dedup_sort κ κ _ _ (fun k => k) l k

omit [Ord κ] [DecidableEq κ] in
private theorem isChain_imp₂ {r s t : α → α → Prop} {l : List α} (hr : l.IsChain r) (hs : l.IsChain s)
    (h : ∀ a b, r a b → s a b → t a b) : l.IsChain t := by
  induction l with
  | nil => exact .nil
  | cons a l ih =>
    cases l with
    | nil => exact .singleton a
    | cons b l =>
      rw [List.isChain_cons_cons] at hr hs ⊢
      exact ⟨h a b hr.1 hs.1,ih hr.2 hs.2⟩

variable [TransOrd κ] [LawfulEqOrd κ]

/-- The remaining keys are strictly increasing. -/
theorem pairwise_dedup_sort (key : α → κ) (l : List α) :
    ((dedupByKey key (sortByKey key l)).map key).Pairwise (fun a b => compare a b = .lt) := by
  have htrans : IsTrans κ (fun a b => compare a b = .lt) := ⟨fun _ _ _ => TransCmp.lt_trans⟩
  rw [← List.isChain_iff_pairwise,List.isChain_map]
  have hle := (List.pairwise_insertionSort (KeyLE key) l).sublist (dedupByKey_sublist key (sortByKey key l))
  have hne : (dedupByKey key (sortByKey key l)).IsChain (fun a b => key a ≠ key b) :=
    List.isChain_destutter _ _
  refine isChain_imp₂ hle.isChain hne ?_
  intro a b h hab
  rcases Ordering.isLE_iff_eq_lt_or_eq_eq.mp h with h | h
  · exact h
  · exact absurd (LawfulEqOrd.eq_of_compare h) hab

omit [LawfulEqOrd κ] in
/-- What has been sorted and merged stays as it is. -/
theorem dedup_sort_dedup_sort (key : α → κ) (l : List α) :
    dedupByKey key (sortByKey key (dedupByKey key (sortByKey key l))) = dedupByKey key (sortByKey key l) := by
  have hsorted : (dedupByKey key (sortByKey key l)).Pairwise (KeyLE key) :=
    (List.pairwise_insertionSort (KeyLE key) l).sublist (dedupByKey_sublist key (sortByKey key l))
  rw [sortByKey_eq_self hsorted]
  exact List.destutter_of_isChain _ _ (List.isChain_destutter _ _)

omit [DecidableEq κ] [LawfulEqOrd κ] in
/-- A strictly increasing list is determined by its elements. -/
theorem eq_of_increasing {l l' : List κ} (h : l.Pairwise (fun a b => compare a b = .lt))
    (h' : l'.Pairwise (fun a b => compare a b = .lt)) (hm : ∀ k, k ∈ l ↔ k ∈ l') : l = l' := by
  have hirrefl : Std.Irrefl (fun a b : κ => compare a b = .lt) :=
    ⟨fun a ha => by simp [ReflOrd.compare_self] at ha⟩
  have hanti : Std.Antisymm (fun a b : κ => compare a b = .lt) :=
    ⟨fun a b h h' => by rw [OrientedOrd.eq_swap (a := b),h] at h'; cases h'⟩
  exact List.Pairwise.eq_of_mem_iff h h' hm

/-- The list of keys is determined by the set of keys. -/
theorem map_dedup_sort_eq {key : α → κ} {l l' : List α} (h : ∀ k, k ∈ l.map key ↔ k ∈ l'.map key) :
    (dedupByKey key (sortByKey key l)).map key = (dedupByKey key (sortByKey key l')).map key := by
  apply eq_of_increasing (pairwise_dedup_sort key l) (pairwise_dedup_sort key l')
  intro k
  rw [mem_map_dedup_sort,mem_map_dedup_sort]
  exact h k

end Repx.KeyedSort
