import Mathlib.Data.List.Basic
import Mathlib.Logic.Function.Basic

/-! # Interleavings of local steps

Every step touches the components of some labels. Steps that share no label
commute, so the result of a run is determined by the sequence of steps at each
label separately, whatever their interleaving.
-/
namespace Repx.Interleaving
variable {ℓ σ ε : Type*}

/-- A change of the components in `S` that depends on these components only. -/
structure LocalTo (S : ℓ → Prop) (g : (ℓ → σ) → ℓ → σ) : Prop where
  frame : ∀ a k, ¬ S k → g a k = a k
  depends : ∀ a b, (∀ k, S k → a k = b k) → ∀ k, S k → g a k = g b k

namespace LocalTo
variable {S T : ℓ → Prop} {g h : (ℓ → σ) → ℓ → σ}

theorem id : LocalTo S (fun a : ℓ → σ => a) := ⟨fun _ _ _ => rfl,fun _ _ h => h⟩

theorem comp (hg : LocalTo S g) (hh : LocalTo S h) : LocalTo S (fun a => h (g a)) where
  frame a k hk := by rw [hh.frame _ _ hk,hg.frame _ _ hk]
  depends a b hab := hh.depends _ _ (hg.depends a b hab)

theorem foldl {act : (ℓ → σ) → ε → ℓ → σ} {l : List ε} (h : ∀ e ∈ l, LocalTo S (fun a => act a e)) :
    LocalTo S (fun a => l.foldl act a) := by
  induction l with
  | nil => exact id
  | cons e l ih =>
    exact comp (h e List.mem_cons_self) (ih fun f hf => h f (List.mem_cons_of_mem _ hf))

/-- Which local change is made may itself depend on the components in `S`. -/
theorem choose {τ : Type*} {v : (ℓ → σ) → τ} {f : τ → (ℓ → σ) → ℓ → σ}
    (hv : ∀ a b, (∀ k, S k → a k = b k) → v a = v b) (h : ∀ t, LocalTo S (f t)) :
    LocalTo S (fun a => f (v a) a) where
  frame a k hk := (h (v a)).frame a k hk
  depends a b hab k hk := by rw [hv a b hab,(h (v b)).depends a b hab k hk]

/-- Changing one component, reading one other. -/
theorem update [DecidableEq ℓ] {i j : ℓ} (hi : S i) (hj : S j) (f : σ → σ → σ) :
    LocalTo S (fun a => Function.update a i (f (a j) (a i))) where
  frame a k hk := by
    have hne : k ≠ i := by
      rintro rfl
      exact hk hi
    rw [Function.update_of_ne hne]
  depends a b hab k hk := by
    by_cases h : k = i
    · subst h
      rw [Function.update_self,Function.update_self,hab k hk,hab j hj]
    · rw [Function.update_of_ne h,Function.update_of_ne h,hab k hk]

/-- Changes of disjoint components commute. -/
theorem commute (hg : LocalTo S g) (hh : LocalTo T h) (hd : ∀ k, ¬ (S k ∧ T k)) (a : ℓ → σ) :
    h (g a) = g (h a) := by
  funext k
  by_cases hS : S k
  · have hT : ∀ k, S k → ¬ T k := fun k hS hT => hd k ⟨hS,hT⟩
    rw [hh.frame _ _ (hT k hS)]
    exact hg.depends _ _ (fun k hk => (hh.frame a k (hT k hk)).symm) k hS
  · rw [hg.frame _ _ hS]
    by_cases hT : T k
    · exact hh.depends _ _ (fun k hk => hg.frame a k fun hS => hd k ⟨hS,hk⟩) k hT
    · rw [hh.frame _ _ hT,hh.frame _ _ hT,hg.frame _ _ hS]

end LocalTo

section Projections
variable {step : σ → ε → σ} {touches : ℓ → ε → Bool}

private theorem foldl_move {e : ε} {l : List ε} (hcomm : ∀ x ∈ l, ∀ s, step (step s x) e = step (step s e) x)
    (s : σ) : step (l.foldl step s) e = l.foldl step (step s e) := by
  induction l generalizing s with
  | nil => rfl
  | cons x l ih =>
    rw [List.foldl_cons,List.foldl_cons,ih (fun y hy => hcomm y (List.mem_cons_of_mem _ hy)),
      hcomm x List.mem_cons_self]

/-- Nothing that shares a label with the first step of one run can precede that
step in another run with the same projections. -/
private theorem disjoint_of_first [DecidableEq ε] {e : ε} {l a b : List ε} (ha : e ∉ a)
    (hp : ∀ k, (e :: l).filter (touches k) = (a ++ e :: b).filter (touches k)) :
    ∀ x ∈ a, ∀ k, ¬ (touches k x = true ∧ touches k e = true) := by
  rintro x hx k ⟨hxk,hek⟩
  have h := hp k
  rw [List.filter_cons_of_pos hek,List.filter_append] at h
  cases hf : a.filter (touches k) with
  | nil =>
    have hmem : x ∈ a.filter (touches k) := List.mem_filter.mpr ⟨hx,hxk⟩
    rw [hf] at hmem
    cases hmem
  | cons y ys =>
    rw [hf,List.cons_append,List.cons.injEq] at h
    apply ha
    have hy : y ∈ a.filter (touches k) := by rw [hf]; exact List.mem_cons_self
    rw [h.1]
    exact (List.mem_filter.mp hy).1

private theorem filter_tail_eq {e : ε} {l a b : List ε}
    (hd : ∀ x ∈ a, ∀ k, ¬ (touches k x = true ∧ touches k e = true))
    (hp : ∀ k, (e :: l).filter (touches k) = (a ++ e :: b).filter (touches k)) (k : ℓ) :
    l.filter (touches k) = (a ++ b).filter (touches k) := by
  have h := hp k
  rw [List.filter_append] at h ⊢
  by_cases hek : touches k e = true
  · have hnil : a.filter (touches k) = [] :=
      List.filter_eq_nil_iff.mpr fun x hx hxk => hd x hx k ⟨hxk,hek⟩
    rw [List.filter_cons_of_pos hek,List.filter_cons_of_pos hek,hnil,List.nil_append,List.cons.injEq] at h
    rw [hnil,List.nil_append,h.2]
  · rwa [List.filter_cons_of_neg hek,List.filter_cons_of_neg hek] at h

/-- Two runs with the same sequence of steps at every label end in one state. -/
theorem foldl_eq_of_filter_eq [DecidableEq ε] (htouch : ∀ e, ∃ k, touches k e = true)
    (hcomm : ∀ s e f, (∀ k, ¬ (touches k e = true ∧ touches k f = true)) →
      step (step s e) f = step (step s f) e)
    {l l' : List ε} (hp : ∀ k, l.filter (touches k) = l'.filter (touches k)) (s : σ) :
    l.foldl step s = l'.foldl step s := by
  induction l generalizing l' s with
  | nil =>
    cases l' with
    | nil => rfl
    | cons e l' =>
      obtain ⟨k,hk⟩ := htouch e
      have h := hp k
      rw [List.filter_cons_of_pos hk] at h
      cases h
  | cons e l ih =>
    obtain ⟨k,hk⟩ := htouch e
    have hmem : e ∈ l'.filter (touches k) := by
      rw [← hp k,List.filter_cons_of_pos hk]
      exact List.mem_cons_self
    obtain ⟨a,b,rfl,ha⟩ := List.eq_append_cons_of_mem (List.mem_filter.mp hmem).1
    have hd := disjoint_of_first ha hp
    rw [List.foldl_append,List.foldl_cons,List.foldl_cons,
      foldl_move (fun x hx s => hcomm s x e (hd x hx)),← List.foldl_append]
    exact ih (filter_tail_eq hd hp) (step s e)

end Projections

end Repx.Interleaving
