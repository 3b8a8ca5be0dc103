import Mathlib.Algebra.Order.Ring.Nat
import Mathlib.Logic.Function.Basic
import Mathlib.Logic.Relation

/-! # A counter without a lock

Parties increment a shared counter by reading it and writing back one more, and others may
do the same in between. Increments get lost, but never all of them: the counter is at most
the number of increments that are done, and it is zero only when there are none.
-/
namespace Repx.RacyCounter
variable {P : Type} [DecidableEq P]

/-- The counter, what the parties have read in increments under way, and how many increments are done. -/
structure Counter (P : Type) where
  value : UInt64
  reading : P → Option UInt64
  done : ℕ

def Counter.start : Counter P := ⟨0,fun _ => none,0⟩

inductive Step (s : Counter P) : Counter P → Prop
  | read (party : P) : s.reading party = none →
      Step s { s with reading := Function.update s.reading party (some s.value) }
  | write (party : P) (value : UInt64) : s.reading party = some value →
      Step s ⟨value + 1,Function.update s.reading party none,s.done + 1⟩

/-- Nothing counts more than what is done. -/
structure Bounded (s : Counter P) : Prop where
  value : s.value.toNat ≤ s.done
  reading : ∀ party value, s.reading party = some value → value.toNat ≤ s.done
  zero : s.value = 0 → s.done = 0

variable {s s' : Counter P}

theorem Step.done_le (hs : Step s s') : s.done ≤ s'.done := by
  cases hs with
  | read => exact le_rfl
  | write => exact Nat.le_succ _

theorem Step.bounded (hs : Step s s') (h : Bounded s) (hdone : s'.done < 2 ^ 64) : Bounded s' := by
  cases hs with
  | read party hidle =>
    refine ⟨h.value,fun other value hread => ?_,h.zero⟩
    simp only [Function.update_apply] at hread
    split_ifs at hread
    · obtain rfl := Option.some.inj hread
      exact h.value
    · exact h.reading other value hread
  | write party value hread =>
    have hle := h.reading party value hread
    have hsucc : (value + 1).toNat = value.toNat + 1 := by
      rw [UInt64.toNat_add]
      exact Nat.mod_eq_of_lt (lt_of_le_of_lt (Nat.succ_le_succ hle) hdone)
    refine ⟨hsucc ▸ Nat.succ_le_succ hle,fun other value' hread' => ?_,fun hzero => ?_⟩
    · simp only [Function.update_apply] at hread'
      split_ifs at hread'
      exact (h.reading other value' hread').trans (Nat.le_succ _)
    · have hnone : (value + 1).toNat = 0 := congrArg UInt64.toNat hzero
      omega

theorem bounded_of_run (hrun : Relation.ReflTransGen Step Counter.start s) (hdone : s.done < 2 ^ 64) : Bounded s := by
  induction hrun with
  | refl => exact ⟨le_rfl,(fun _ _ hread => nomatch hread),fun _ => rfl⟩
  | tail _ hs ih => exact hs.bounded (ih (lt_of_le_of_lt hs.done_le hdone)) hdone

/-- The counter is zero exactly while no increment is done. -/
theorem value_eq_zero_iff (hrun : Relation.ReflTransGen Step Counter.start s) (hdone : s.done < 2 ^ 64) :
    s.value = 0 ↔ s.done = 0 := by
  have h := bounded_of_run hrun hdone
  refine ⟨h.zero,fun hnone => UInt64.toNat_inj.mp ?_⟩
  exact Nat.le_zero.mp (hnone ▸ h.value)

end Repx.RacyCounter
