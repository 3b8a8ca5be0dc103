import Mathlib.Algebra.Group.Nat.Defs
import Mathlib.Data.Nat.Log
import Mathlib.Data.List.Basic
import Mathlib.Logic.Function.Iterate

/-! # Level-by-level pairing of a list

A level is folded by combining neighbours, and a list is reduced by repeating
this until one element is left. Equal results are traced back down: either the
two rows agree, or two distinct pairs were combined to the same value on the way.
-/
namespace Repx.PairedLevels
variable {α : Type*} (combine : α → α → α)

/-- Combine neighbours; an unpaired last element is dropped. -/
def pairLevel : List α → List α
  | [] => []
  | [_] => []
  | a :: b :: rest => combine a b :: pairLevel rest

/-- The neighbours combined in one level. -/
def levelPairs : List α → List (α × α)
  | [] => []
  | [_] => []
  | a :: b :: rest => (a,b) :: levelPairs rest

@[simp] theorem pairLevel_length (level : List α) : (pairLevel combine level).length = level.length / 2 := by
  induction level using pairLevel.induct with
  | case1 => simp [pairLevel]
  | case2 a => simp [pairLevel]
  | case3 a b rest ih =>
    simp only [pairLevel,List.length_cons,ih]
    omega

omit combine in
theorem one_lt_length {d : ℕ} {level : List α} (h : level.length = 2 ^ (d + 1)) : 1 < level.length := by
  rw [h]
  exact Nat.one_lt_two_pow (Nat.succ_ne_zero d)

omit combine in
theorem two_dvd_length {d : ℕ} {level : List α} (h : level.length = 2 ^ (d + 1)) : 2 ∣ level.length :=
  ⟨2 ^ d,by rw [h,Nat.pow_succ,Nat.mul_comm]⟩

omit combine in
theorem two_dvd_length_rest {a b : α} {rest : List α} (h : 2 ∣ (a :: b :: rest).length) : 2 ∣ rest.length := by
  simp only [List.length_cons] at h
  omega

theorem pairLevel_length_two_pow {d : ℕ} {level : List α} (h : level.length = 2 ^ (d + 1)) :
    (pairLevel combine level).length = 2 ^ d := by
  rw [pairLevel_length,h,Nat.pow_succ,Nat.mul_div_cancel _ Nat.zero_lt_two]

theorem pairLevel_forall {P : α → Prop} (hc : ∀ a b, P (combine a b)) (level : List α) :
    ∀ c ∈ pairLevel combine level, P c := by
  induction level using pairLevel.induct with
  | case1 => simp [pairLevel]
  | case2 a => simp [pairLevel]
  | case3 a b rest ih =>
    intro c hm
    rcases List.mem_cons.mp hm with rfl | hm
    · exact hc a b
    · exact ih c hm

omit combine in
theorem levelPairs_forall {P : α → Prop} {level : List α} (h : ∀ a ∈ level, P a) :
    ∀ p ∈ levelPairs level, P p.1 ∧ P p.2 := by
  induction level using levelPairs.induct with
  | case1 => simp [levelPairs]
  | case2 a => simp [levelPairs]
  | case3 a b rest ih =>
    intro p hm
    rcases List.mem_cons.mp hm with rfl | hm
    · exact ⟨h a (by simp),h b (by simp)⟩
    · exact ih (fun c hc => h c (by simp [hc])) p hm

theorem pairLevel_eq_map (level : List α) :
    pairLevel combine level = (levelPairs level).map fun p => combine p.1 p.2 := by
  induction level using pairLevel.induct with
  | case1 => rfl
  | case2 a => rfl
  | case3 a b rest ih => rw [pairLevel,levelPairs,List.map_cons,ih]

omit combine in
/-- The pairs of a level of even length are the whole level. -/
theorem flatMap_levelPairs {level : List α} (h : 2 ∣ level.length) :
    (levelPairs level).flatMap (fun p => [p.1,p.2]) = level := by
  induction level using levelPairs.induct with
  | case1 => rfl
  | case2 a => simp at h
  | case3 a b rest ih =>
    rw [levelPairs,List.flatMap_cons,ih (two_dvd_length_rest h)]
    rfl

/-- Repeat the pairing while more than one element is left. -/
def reduceLevels (level : List α) : List α :=
  if 1 < level.length then reduceLevels (pairLevel combine level) else level
termination_by level.length
decreasing_by
  rw [pairLevel_length]
  omega

/-- Every pair combined by `reduceLevels`. -/
def reducePairs (level : List α) : List (α × α) :=
  if 1 < level.length then levelPairs level ++ reducePairs (pairLevel combine level) else []
termination_by level.length
decreasing_by
  rw [pairLevel_length]
  omega

@[simp] theorem iterate_pairLevel_length_div (k : ℕ) (level : List α) :
    ((pairLevel combine)^[k] level).length = level.length / 2 ^ k := by
  induction k with
  | zero => simp
  | succ k ih => rw [Function.iterate_succ_apply',pairLevel_length,ih,Nat.div_div_eq_div_mul,Nat.pow_succ]

theorem iterate_pairLevel_length (d k : ℕ) {level : List α} (h : level.length = 2 ^ (d + k)) :
    ((pairLevel combine)^[k] level).length = 2 ^ d := by
  rw [iterate_pairLevel_length_div,h,Nat.pow_add,Nat.mul_div_cancel _ (Nat.two_pow_pos k)]

/-- A row of power-of-two length needs exactly its logarithm many levels. -/
theorem reduceLevels_eq_iterate (d : ℕ) {level : List α} (h : level.length = 2 ^ d) :
    reduceLevels combine level = (pairLevel combine)^[d] level := by
  induction d generalizing level with
  | zero =>
    rw [reduceLevels,if_neg (by simp [h])]
    rfl
  | succ d ih =>
    rw [reduceLevels,if_pos (one_lt_length h),Function.iterate_succ_apply]
    exact ih (pairLevel_length_two_pow combine h)

theorem reduceLevels_length (d : ℕ) {level : List α} (h : level.length = 2 ^ d) :
    (reduceLevels combine level).length = 1 := by
  rw [reduceLevels_eq_iterate combine d h]
  exact iterate_pairLevel_length combine 0 d (by simpa using h)

/-- Reducing a higher row of a tree gives the same result. -/
theorem reduceLevels_iterate (d k : ℕ) {level : List α} (h : level.length = 2 ^ (d + k)) :
    reduceLevels combine ((pairLevel combine)^[k] level) = reduceLevels combine level := by
  rw [reduceLevels_eq_iterate combine d (iterate_pairLevel_length combine d k h),
    reduceLevels_eq_iterate combine (d + k) h,Function.iterate_add_apply]

theorem levelPairs_subset {level : List α} (h : 1 < level.length) :
    levelPairs level ⊆ reducePairs combine level := by
  rw [reducePairs,if_pos h]
  exact List.subset_append_left _ _

theorem reducePairs_pairLevel_subset {level : List α} (h : 1 < level.length) :
    reducePairs combine (pairLevel combine level) ⊆ reducePairs combine level := by
  rw [reducePairs.eq_def combine level,if_pos h]
  exact List.subset_append_right _ _

/-- Pairs of higher rows are among the pairs of the whole reduction. -/
theorem reducePairs_iterate_subset (d k : ℕ) {level : List α} (h : level.length = 2 ^ (d + k)) :
    reducePairs combine ((pairLevel combine)^[k] level) ⊆ reducePairs combine level := by
  induction k generalizing level with
  | zero => exact List.Subset.refl _
  | succ k ih =>
    rw [Function.iterate_succ_apply]
    exact List.Subset.trans (ih (pairLevel_length_two_pow combine h))
      (reducePairs_pairLevel_subset combine (one_lt_length h))

/-- A property of the row and of every combined value holds of every combined pair. -/
theorem reducePairs_forall {P : α → Prop} (hc : ∀ a b, P (combine a b)) {level : List α}
    (h : ∀ a ∈ level, P a) : ∀ p ∈ reducePairs combine level, P p.1 ∧ P p.2 := by
  induction level using reducePairs.induct combine with
  | case1 level hlt ih =>
    rw [reducePairs,if_pos hlt]
    intro p hp
    rcases List.mem_append.mp hp with hp | hp
    · exact levelPairs_forall h p hp
    · exact ih (pairLevel_forall combine hc level) p hp
  | case2 level hlt =>
    rw [reducePairs,if_neg hlt]
    simp

/-- Two distinct pairs, one from each list, are combined to one value. -/
def Clash (ps qs : List (α × α)) : Prop :=
  ∃ p ∈ ps, ∃ q ∈ qs, p ≠ q ∧ combine p.1 p.2 = combine q.1 q.2

variable {combine}

theorem Clash.mono {ps ps' qs qs' : List (α × α)} (h : Clash combine ps qs)
    (hp : ps ⊆ ps') (hq : qs ⊆ qs') : Clash combine ps' qs' := by
  obtain ⟨p,hps,q,hqs,hne,heq⟩ := h
  exact ⟨p,hp hps,q,hq hqs,hne,heq⟩

/-- One level is injective on rows of even length, up to a clash. -/
theorem eq_or_clash_of_pairLevel {l l' : List α} (hl : 2 ∣ l.length) (hl' : 2 ∣ l'.length)
    (h : pairLevel combine l = pairLevel combine l') :
    l = l' ∨ Clash combine (levelPairs l) (levelPairs l') := by
  induction l using pairLevel.induct generalizing l' with
  | case1 =>
    have hz := congrArg List.length h
    simp only [pairLevel_length,List.length_nil] at hz
    exact Or.inl (List.length_eq_zero_iff.mp (by omega)).symm
  | case2 a => simp at hl
  | case3 a b rest ih =>
    match l', hl', h with
    | [], _, h => simp [pairLevel] at h
    | [_], hl', _ => simp at hl'
    | a' :: b' :: rest', hl', h =>
      simp only [pairLevel,List.cons.injEq] at h
      by_cases hab : (a,b) = (a',b')
      · obtain ⟨rfl,rfl⟩ := Prod.mk.inj hab
        rcases ih (two_dvd_length_rest hl) (two_dvd_length_rest hl') h.2 with hr | hc
        · exact Or.inl (by rw [hr])
        · exact Or.inr (hc.mono (List.subset_cons_self _ _) (List.subset_cons_self _ _))
      · exact Or.inr ⟨(a,b),List.mem_cons_self,(a',b'),List.mem_cons_self,hab,h.1⟩

/-- Tracing equal tops of two trees down: the lowest row of the shorter tree is
a row of the taller one, or two distinct pairs clash. -/
theorem eq_iterate_or_clash (d k : ℕ) {l l' : List α} (hl : l.length = 2 ^ d)
    (hl' : l'.length = 2 ^ (d + k))
    (h : (pairLevel combine)^[d] l = (pairLevel combine)^[d + k] l') :
    l = (pairLevel combine)^[k] l' ∨
      Clash combine (reducePairs combine l) (reducePairs combine l') := by
  induction d generalizing l k with
  | zero => exact Or.inl (by simpa using h)
  | succ d ih =>
    have hrow := iterate_pairLevel_length combine (d + 1) k hl'
    have hshift : d + 1 + k = d + (k + 1) := by omega
    rw [hshift] at hl' h
    rw [Function.iterate_succ_apply] at h
    rcases ih (k + 1) (pairLevel_length_two_pow combine hl) hl' h with hr | hc
    · rw [Function.iterate_succ_apply'] at hr
      rcases eq_or_clash_of_pairLevel (two_dvd_length hl) (two_dvd_length hrow) hr with hr | hc
      · exact Or.inl hr
      · refine Or.inr (hc.mono (levelPairs_subset combine (one_lt_length hl)) ?_)
        exact List.Subset.trans (levelPairs_subset combine (one_lt_length hrow))
          (reducePairs_iterate_subset combine (d + 1) k (by rw [hl',hshift]))
    · exact Or.inr (hc.mono (reducePairs_pairLevel_subset combine (one_lt_length hl)) (List.Subset.refl _))

end Repx.PairedLevels
