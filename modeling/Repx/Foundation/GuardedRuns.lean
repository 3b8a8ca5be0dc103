import Mathlib.Data.List.Basic

/-! # Runs of a guarded transition system

A step function says for every state and action whether the action is enabled and
where it leads. A run remembers the states in which its actions were taken, so that
properties of every state and conditions on every step can be compared.
-/
namespace Repx.GuardedRuns
variable {σ α : Type} (step : σ → α → Option σ)

inductive Run (start : σ) : List (σ × α) → σ → Prop
  | nil : Run start [] start
  | snoc {steps : List (σ × α)} {s s' : σ} {a : α} : Run start steps s → step s a = some s' →
      Run start (steps ++ [(s,a)]) s'

/-- The state after an action, or the same state if it is not enabled. -/
def after (s : σ) (a : α) : σ := (step s a).getD s

/-- A property holds in every state of a run. -/
def Throughout (P : σ → Prop) (steps : List (σ × α)) (last : σ) : Prop := (∀ p ∈ steps, P p.1) ∧ P last

variable {step} {start last : σ} {steps : List (σ × α)} {A : α → Prop} {K P : σ → Prop}
  {G : σ → α → Prop}

theorem Run.extend (h : Run step start steps last) (a : α) (ha : (step last a).isSome = true) :
    Run step start (steps ++ [(last,a)]) (after step last a) := by
  obtain ⟨s',hs⟩ := Option.isSome_iff_exists.mp ha
  have hafter : after step last a = s' := by rw [after,hs,Option.getD_some]
  rw [hafter]
  exact h.snoc hs

theorem Throughout.snoc {s s' : σ} {a : α} :
    Throughout P (steps ++ [(s,a)]) s' ↔ Throughout P steps s ∧ P s' := by
  simp only [Throughout,List.mem_append,List.mem_singleton,or_imp,forall_and,forall_eq]

/-- A property holds throughout a run of admitted actions exactly when every step
meets a condition, if the condition is what a step needs to keep the property. The
invariant `K` may be used in either direction. -/
theorem Run.throughout_iff (h : Run step start steps last) (hA : ∀ p ∈ steps, A p.2) (hK : K start)
    (hP : P start) (kept : ∀ {s a s'}, A a → K s → P s → step s a = some s' → K s')
    (enough : ∀ {s a s'}, A a → K s → P s → step s a = some s' → G s a → P s')
    (needed : ∀ {s a s'}, A a → K s → P s → step s a = some s' → P s' → G s a) :
    Throughout P steps last ↔ ∀ p ∈ steps, G p.1 p.2 := by
  have hrun : (Throughout P steps last ↔ ∀ p ∈ steps, G p.1 p.2) ∧ (Throughout P steps last → K last) := by
    induction h with
    | nil => simpa [Throughout] using ⟨hP,fun _ => hK⟩
    | @snoc steps s s' a _ hs ih =>
      have ha : A a := hA (s,a) (by simp)
      obtain ⟨hiff,hkept⟩ := ih fun p hp => hA p (List.mem_append_left _ hp)
      have hguards : (∀ p ∈ steps ++ [(s,a)], G p.1 p.2) ↔ (∀ p ∈ steps, G p.1 p.2) ∧ G s a := by
        simp only [List.mem_append,List.mem_singleton,or_imp,forall_and,forall_eq]
      rw [Throughout.snoc,hguards]
      refine ⟨⟨?_,?_⟩,fun ht => kept ha (hkept ht.1) ht.1.2 hs⟩
      · rintro ⟨ht,hs'⟩
        exact ⟨hiff.mp ht,needed ha (hkept ht) ht.2 hs hs'⟩
      · rintro ⟨hg,hga⟩
        have ht := hiff.mpr hg
        exact ⟨ht,enough ha (hkept ht) ht.2 hs hga⟩
  exact hrun.1

end Repx.GuardedRuns
