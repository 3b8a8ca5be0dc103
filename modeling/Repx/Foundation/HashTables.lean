import Mathlib.Data.List.Rotate
import Mathlib.Data.List.Sort

/-! # Hash tables traversed in an arbitrary order

Tables and sets are extensional: two of them are equal when they hold the same
entries. A traversal lists the entries as some permutation, chosen anew at each
traversal site, and what is computed from a traversal is a function of the table
only when every such permutation gives the same result.
-/
namespace Repx.HashTables
open Std

/-- One permutation for every traversal site and every list of entries. -/
structure IterationOrder (ι : Type) where
  visit : {α : Type} → ι → List α → List α
  perm : ∀ {α : Type} (i : ι) (l : List α), (visit i l).Perm l

namespace IterationOrder
variable {ι : Type}

def stored : IterationOrder ι := ⟨fun _ l => l,fun _ l => .refl l⟩

def reversed : IterationOrder ι := ⟨fun _ l => l.reverse,fun _ l => l.reverse_perm⟩

@[simp] theorem mem_visit (order : IterationOrder ι) (i : ι) {α : Type} {l : List α} {a : α} :
    a ∈ order.visit i l ↔ a ∈ l :=
  (order.perm i l).mem_iff

/-- Every entry comes first in some order. -/
theorem exists_visit_eq_cons (i : ι) {α : Type} {l : List α} {a : α} (h : a ∈ l) :
    ∃ (order : IterationOrder ι) (rest : List α), order.visit i l = a :: rest := by
  obtain ⟨n,hn,rfl⟩ := List.mem_iff_getElem.mp h
  refine ⟨⟨fun _ l => l.rotate n,fun _ l => l.rotate_perm n⟩,l.drop (n + 1) ++ l.take n,?_⟩
  simp only [List.rotate_eq_drop_append_take hn.le,List.drop_eq_getElem_cons hn,List.cons_append]

/-- The first entry that a search finds looks the same in every order exactly when all
entries that it may find look the same. -/
theorem find?_visit_iff (i : ι) {α β : Type} {l : List α} {p : α → Bool} {f : α → β} {b : β} :
    (∀ order order' : IterationOrder ι,
      (((order.visit i l).find? p).map f).getD b = (((order'.visit i l).find? p).map f).getD b) ↔
      ∀ x ∈ l, ∀ y ∈ l, p x = true → p y = true → f x = f y := by
  constructor
  · intro h x hx y hy hpx hpy
    obtain ⟨order,rest,hfirst⟩ := exists_visit_eq_cons i hx
    obtain ⟨order',rest',hfirst'⟩ := exists_visit_eq_cons i hy
    have hsame := h order order'
    simpa [hfirst,hfirst',hpx,hpy] using hsame
  · intro h order order'
    cases hfind : (order.visit i l).find? p with
    | none =>
      have hnone : (order'.visit i l).find? p = none := by
        simpa using hfind
      rw [hnone]
    | some x =>
      have hx : x ∈ l := (mem_visit order i).mp (List.mem_of_find?_eq_some hfind)
      have hpx := List.find?_some hfind
      cases hfind' : (order'.visit i l).find? p with
      | none => exact absurd hpx (by simpa using List.find?_eq_none.mp hfind' x ((mem_visit order' i).mpr hx))
      | some y =>
        have hy : y ∈ l := (mem_visit order' i).mp (List.mem_of_find?_eq_some hfind')
        rw [Option.map_some,Option.map_some,h x hx y hy hpx (List.find?_some hfind')]

end IterationOrder

variable {ι : Type} {κ β : Type} [Ord κ] [TransOrd κ] [LawfulEqOrd κ] [DecidableEq κ]

theorem getElem?_insertMany_of_mem {t : ExtTreeMap κ β} {l : List (κ × β)} {k : κ} {v : β}
    (hd : (l.map Prod.fst).Nodup) (hm : (k,v) ∈ l) : (t.insertMany l)[k]? = some v := by
  apply ExtTreeMap.getElem?_insertMany_list_of_mem ReflOrd.compare_self _ hm
  rw [List.Nodup,List.pairwise_map] at hd
  exact hd.imp fun h he => h (LawfulEqOrd.eq_of_compare he)

theorem getElem?_insertMany_of_not_mem {t : ExtTreeMap κ β} {l : List (κ × β)} {k : κ}
    (hk : k ∉ l.map Prod.fst) : (t.insertMany l)[k]? = t[k]? := by
  apply ExtTreeMap.getElem?_insertMany_list_of_contains_eq_false
  rw [Bool.eq_false_iff]
  exact fun h => hk (List.contains_iff_mem.mp h)

omit [DecidableEq κ] in
theorem nodup_keys_toList (t : ExtTreeMap κ β) : (t.toList.map Prod.fst).Nodup := by
  rw [List.Nodup,List.pairwise_map]
  refine ExtTreeMap.distinct_keys_toList.imp ?_
  intro a b h he
  exact h (by rw [he]; exact ReflOrd.compare_self)

section Renaming
variable {κ' : Type} [Ord κ'] [TransOrd κ'] [LawfulEqOrd κ'] {f : κ → κ'}
variable {t : ExtTreeMap κ β} {t' : ExtTreeMap κ' β}

/-- Every key has in the second table, under its new name, what it has in the first. -/
def KeysRenamed (f : κ → κ') (t : ExtTreeMap κ β) (t' : ExtTreeMap κ' β) : Prop :=
  ∀ k, t'[f k]? = t[k]?

namespace KeysRenamed

omit [LawfulEqOrd κ] [DecidableEq κ] [LawfulEqOrd κ'] in
theorem contains (h : KeysRenamed f t t') (k : κ) : t'.contains (f k) = t.contains k := by
  rw [ExtTreeMap.contains_eq_isSome_getElem?,ExtTreeMap.contains_eq_isSome_getElem?,h k]

omit [LawfulEqOrd κ] [DecidableEq κ] [LawfulEqOrd κ'] in
theorem getD (h : KeysRenamed f t t') (k : κ) (v : β) : t'.getD (f k) v = t.getD k v := by
  rw [ExtTreeMap.getD_eq_getD_getElem?,ExtTreeMap.getD_eq_getD_getElem?,h k]

omit [TransOrd κ] [DecidableEq κ] [TransOrd κ'] in
private theorem compare_renamed (hf : Function.Injective f) (k k' : κ) :
    compare (f k) (f k') = .eq ↔ compare k k' = .eq := by
  rw [Std.compare_eq_iff_eq,Std.compare_eq_iff_eq,hf.eq_iff]

omit [DecidableEq κ] in
theorem insert (h : KeysRenamed f t t') (hf : Function.Injective f) (k : κ) (v : β) :
    KeysRenamed f (t.insert k v) (t'.insert (f k) v) := by
  intro k'
  simp only [ExtTreeMap.getElem?_insert,compare_renamed hf,h k']

omit [DecidableEq κ] in
theorem erase (h : KeysRenamed f t t') (hf : Function.Injective f) (k : κ) :
    KeysRenamed f (t.erase k) (t'.erase (f k)) := by
  intro k'
  simp only [ExtTreeMap.getElem?_erase,compare_renamed hf,h k']

end KeysRenamed

end Renaming

section Sets
variable {α : Type} [Ord α] [TransOrd α] [LawfulEqOrd α] [DecidableEq α]

/-- The members recorded under a key, none if the key is absent. -/
def membersAt (t : ExtTreeMap κ (ExtTreeSet α)) (k : κ) : ExtTreeSet α := t.getD k ∅

/-- Extend the set stored under a key, creating it if necessary. -/
def addMembers (t : ExtTreeMap κ (ExtTreeSet α)) (k : κ) (l : List α) : ExtTreeMap κ (ExtTreeSet α) :=
  t.insert k ((membersAt t k).insertMany l)

theorem mem_membersAt_addMembers {t : ExtTreeMap κ (ExtTreeSet α)} {k k' : κ} {l : List α} {a : α} :
    a ∈ membersAt (addMembers t k l) k' ↔ a ∈ membersAt t k' ∨ k = k' ∧ a ∈ l := by
  by_cases h : k = k'
  · subst h
    simp [membersAt,addMembers,ExtTreeSet.mem_insertMany_list]
  · simp [membersAt,addMembers,ExtTreeMap.getD_insert,h]

omit [DecidableEq κ] [LawfulEqOrd α] [DecidableEq α] in
theorem mem_addMembers {t : ExtTreeMap κ (ExtTreeSet α)} {k k' : κ} {l : List α} :
    k' ∈ addMembers t k l ↔ k' ∈ t ∨ k = k' := by
  simp [addMembers,ExtTreeMap.mem_insert,or_comm]

omit [DecidableEq κ] [DecidableEq α] in
/-- Such a table is its keys and the members under each. -/
theorem table_ext {t t' : ExtTreeMap κ (ExtTreeSet α)} (hk : ∀ k, k ∈ t ↔ k ∈ t')
    (hm : ∀ k a, a ∈ membersAt t k ↔ a ∈ membersAt t' k) : t = t' := by
  apply ExtTreeMap.ext_getElem?
  intro k
  have hg : membersAt t k = membersAt t' k := ExtTreeSet.ext_mem fun a => hm k a
  simp only [membersAt,ExtTreeMap.getD_eq_getD_getElem?] at hg
  have hks := hk k
  rw [ExtTreeMap.mem_iff_isSome_getElem?,ExtTreeMap.mem_iff_isSome_getElem?] at hks
  cases h : t[k]? <;> cases h' : t'[k]? <;> simp_all

/-- Extend one set after the other. -/
def addEntries (t : ExtTreeMap κ (ExtTreeSet α)) (l : List (κ × List α)) : ExtTreeMap κ (ExtTreeSet α) :=
  l.foldl (fun t e => addMembers t e.1 e.2) t

theorem mem_membersAt_addEntries {t : ExtTreeMap κ (ExtTreeSet α)} {l : List (κ × List α)} {k : κ} {a : α} :
    a ∈ membersAt (addEntries t l) k ↔ a ∈ membersAt t k ∨ ∃ e ∈ l, e.1 = k ∧ a ∈ e.2 := by
  induction l generalizing t with
  | nil => simp [addEntries]
  | cons e l ih =>
    rw [addEntries,List.foldl_cons,← addEntries,ih,mem_membersAt_addMembers]
    simp only [List.mem_cons,exists_eq_or_imp,or_assoc]

omit [DecidableEq κ] [LawfulEqOrd α] [DecidableEq α] in
theorem mem_addEntries {t : ExtTreeMap κ (ExtTreeSet α)} {l : List (κ × List α)} {k : κ} :
    k ∈ addEntries t l ↔ k ∈ t ∨ ∃ e ∈ l, e.1 = k := by
  induction l generalizing t with
  | nil => simp [addEntries]
  | cons e l ih =>
    rw [addEntries,List.foldl_cons,← addEntries,ih,mem_addMembers]
    simp only [List.mem_cons,exists_eq_or_imp,or_assoc]

end Sets

end Repx.HashTables
