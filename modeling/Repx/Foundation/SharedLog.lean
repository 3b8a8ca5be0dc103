import Mathlib.Data.List.Basic

/-! # Logs shared by several parties

Parties append to one log and later amend entries by position. Each of them could
as well keep a log of its own: its share is what it appended, and a position in the
shared log stands for a position in the share. Appending and amending respect this.
-/
namespace Repx.SharedLog
variable {τ α : Type} [DecidableEq τ]

/-- What one party appended. -/
def share (log : List (τ × α)) (party : τ) : List α := (log.filter (·.1 = party)).map Prod.snd

/-- An entry of the shared log and its place in the share of its party. -/
inductive Locates (party : τ) : List (τ × α) → ℕ → ℕ → Prop
  | here {a : α} {log : List (τ × α)} : Locates party ((party,a) :: log) 0 0
  | own {a : α} {log : List (τ × α)} {i j : ℕ} : Locates party log i j →
      Locates party ((party,a) :: log) (i + 1) (j + 1)
  | other {e : τ × α} {log : List (τ × α)} {i j : ℕ} : e.1 ≠ party → Locates party log i j →
      Locates party (e :: log) (i + 1) j

/-- Change the entry at a position, leaving its party. -/
def amend (log : List (τ × α)) (i : ℕ) (f : α → α) : List (τ × α) := log.modify i (Prod.map id f)

theorem mem_map_snd_iff {log : List (Bool × α)} {a : α} :
    a ∈ log.map Prod.snd ↔ a ∈ share log false ∨ a ∈ share log true := by
  simp only [share,List.mem_map,List.mem_filter]
  constructor
  · rintro ⟨⟨party,a⟩,he,rfl⟩
    cases party with
    | false => exact Or.inl ⟨_,⟨he,rfl⟩,rfl⟩
    | true => exact Or.inr ⟨_,⟨he,rfl⟩,rfl⟩
  · rintro (⟨e,⟨he,-⟩,rfl⟩ | ⟨e,⟨he,-⟩,rfl⟩) <;> exact ⟨e,he,rfl⟩

theorem share_append (log : List (τ × α)) (party k : τ) (a : α) :
    share (log ++ [(party,a)]) k = if party = k then share log k ++ [a] else share log k := by
  by_cases h : party = k <;> simp [share,h]

omit [DecidableEq τ] in
theorem map_snd_amend (log : List (τ × α)) (i : ℕ) (f : α → α) :
    (amend log i f).map Prod.snd = (log.map Prod.snd).modify i f := by
  induction log generalizing i with
  | nil => cases i <;> simp [amend]
  | cons e log ih =>
    cases i with
    | zero => simp [amend]
    | succ i => simpa [amend] using ih i

namespace Locates
variable {party : τ} {log : List (τ × α)} {i j : ℕ}

/-- A new entry is the last one of its share. -/
theorem last (log : List (τ × α)) (party : τ) (a : α) :
    Locates party (log ++ [(party,a)]) log.length (share log party).length := by
  induction log with
  | nil => exact .here
  | cons e log ih =>
    rcases e with ⟨k,b⟩
    by_cases hk : k = party
    · subst hk
      simpa [share] using ih.own
    · have h : (k,b).1 ≠ party := hk
      simpa [share,hk] using ih.other h

omit [DecidableEq τ] in
theorem append (h : Locates party log i j) (rest : List (τ × α)) : Locates party (log ++ rest) i j := by
  induction h with
  | here => exact .here
  | own _ ih => exact ih.own
  | other hne _ ih => exact ih.other hne

omit [DecidableEq τ] in
theorem amend (h : Locates party log i j) (i' : ℕ) (f : α → α) : Locates party (amend log i' f) i j := by
  induction h generalizing i' with
  | here => cases i' <;> exact .here
  | own h ih =>
    cases i' with
    | zero => exact h.own
    | succ i' => exact (ih i').own
  | other hne h ih =>
    cases i' with
    | zero => exact h.other hne
    | succ i' => exact (ih i').other hne

/-- Amending an entry of the shared log amends it in the share of its party only. -/
theorem share_amend (h : Locates party log i j) (f : α → α) (k : τ) :
    share (SharedLog.amend log i f) k = if party = k then (share log k).modify j f else share log k := by
  induction h with
  | here => by_cases hk : party = k <;> simp [SharedLog.amend,share,hk]
  | own _ ih => by_cases hk : party = k <;> simp_all [SharedLog.amend,share]
  | @other e log i j hne _ ih =>
    by_cases hk : party = k
    · subst hk
      simp_all [SharedLog.amend,share]
    · by_cases he : e.1 = k <;> simp_all [SharedLog.amend,share]

end Locates

end Repx.SharedLog
