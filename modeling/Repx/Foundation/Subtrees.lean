import Mathlib.Data.List.Infix
import Mathlib.Logic.Function.Basic

/-! # Subtrees of a space of names

A name lies within another one when it is that name or continues it behind a separator. A
tree is moved by exchanging the beginning of the names within it. Trees of which neither
lies within the other have no name in common, so that exchanging them twice changes nothing.
-/
namespace Repx.Subtrees
variable {α : Type*} [DecidableEq α] (sep : α)

/-- What may follow a name within it: nothing, or a separator. -/
def AtBoundary (rest : List α) : Prop := rest = [] ∨ rest.head? = some sep

instance (rest : List α) : Decidable (AtBoundary sep rest) :=
  inferInstanceAs (Decidable (rest = [] ∨ rest.head? = some sep))

def Within (root name : List α) : Prop := ∃ rest, AtBoundary sep rest ∧ name = root ++ rest

/-- The name after the tree it lies within was moved. -/
def moveTree (source target name : List α) : Option (List α) :=
  (name.dropPrefix? source).bind fun rest => if AtBoundary sep rest then some (target ++ rest) else none

/-- The name after two trees have changed places; the first direction is tried first. -/
def exchangeTrees (a b name : List α) : List α :=
  ((moveTree sep a b name).or (moveTree sep b a name)).getD name

/-- Neither tree lies within the other. -/
structure Apart (a b : List α) : Prop where
  left : ¬ Within sep a b
  right : ¬ Within sep b a

variable {sep}

omit [DecidableEq α] in
theorem AtBoundary.append {rest more : List α} (hne : rest ≠ []) (h : AtBoundary sep (rest ++ more)) :
    AtBoundary sep rest := by
  cases rest with
  | nil => exact absurd rfl hne
  | cons c rest => simpa [AtBoundary] using h

theorem moveTree_eq_some {source target name result : List α} :
    moveTree sep source target name = some result ↔
      ∃ rest, AtBoundary sep rest ∧ name = source ++ rest ∧ result = target ++ rest := by
  simp only [moveTree,Option.bind_eq_some_iff,List.dropPrefix?_eq_some_iff]
  constructor
  · rintro ⟨rest,⟨begun,rfl,hb⟩,hr⟩
    split_ifs at hr with hrest
    obtain rfl := Option.some.inj hr
    exact ⟨rest,hrest,by rw [eq_of_beq hb],rfl⟩
  · rintro ⟨rest,hrest,rfl,rfl⟩
    exact ⟨rest,⟨source,rfl,beq_self_eq_true source⟩,if_pos hrest⟩

theorem moveTree_append {source target rest : List α} (h : AtBoundary sep rest) :
    moveTree sep source target (source ++ rest) = some (target ++ rest) :=
  moveTree_eq_some.mpr ⟨rest,h,rfl,rfl⟩

theorem moveTree_eq_none {source target name : List α} (h : ¬ Within sep source name) :
    moveTree sep source target name = none := by
  rw [Option.eq_none_iff_forall_ne_some]
  intro result hr
  obtain ⟨rest,hrest,hname,-⟩ := moveTree_eq_some.mp hr
  exact h ⟨rest,hrest,hname⟩

theorem isSome_moveTree {source target name : List α} :
    (moveTree sep source target name).isSome = true ↔ Within sep source name := by
  rw [Option.isSome_iff_exists]
  constructor
  · rintro ⟨result,hr⟩
    obtain ⟨rest,hrest,hname,-⟩ := moveTree_eq_some.mp hr
    exact ⟨rest,hrest,hname⟩
  · rintro ⟨rest,hrest,rfl⟩
    exact ⟨target ++ rest,moveTree_append hrest⟩

omit [DecidableEq α] in
theorem within_iff_leads {root name : List α} : Within sep root name ↔ name = root ∨ root ++ [sep] <+: name := by
  constructor
  · rintro ⟨rest,rfl | hrest,rfl⟩
    · exact Or.inl (List.append_nil root)
    · obtain ⟨tail,rfl⟩ : ∃ tail, rest = sep :: tail := ⟨rest.tail,(List.eq_cons_of_mem_head? hrest)⟩
      exact Or.inr ⟨tail,by simp⟩
  · rintro (rfl | ⟨tail,rfl⟩)
    · exact ⟨[],Or.inl rfl,(List.append_nil _).symm⟩
    · exact ⟨sep :: tail,Or.inr rfl,by simp⟩

namespace Apart
variable {a b : List α}

omit [DecidableEq α] in
theorem symm (h : Apart sep a b) : Apart sep b a := ⟨h.right,h.left⟩

omit [DecidableEq α] in
/-- Trees that are apart have no name in common. -/
theorem not_within {name : List α} (h : Apart sep a b) (ha : Within sep a name) : ¬ Within sep b name := by
  rintro ⟨restb,hrestb,hb⟩
  obtain ⟨resta,hresta,rfl⟩ := ha
  rcases List.append_eq_append_iff.mp hb with ⟨between,rfl,rfl⟩ | ⟨between,rfl,rfl⟩
  · by_cases hne : between = []
    · subst hne
      exact h.left ⟨[],Or.inl rfl,rfl⟩
    · exact h.left ⟨between,AtBoundary.append hne hresta,rfl⟩
  · by_cases hne : between = []
    · subst hne
      exact h.right ⟨[],Or.inl rfl,rfl⟩
    · exact h.right ⟨between,AtBoundary.append hne hrestb,rfl⟩

end Apart

section Exchange
variable {a b : List α}

theorem exchangeTrees_left {rest : List α} (hrest : AtBoundary sep rest) :
    exchangeTrees sep a b (a ++ rest) = b ++ rest := by
  rw [exchangeTrees,moveTree_append hrest]
  rfl

theorem exchangeTrees_right {rest : List α} (h : Apart sep a b) (hrest : AtBoundary sep rest) :
    exchangeTrees sep a b (b ++ rest) = a ++ rest := by
  have hnot : ¬ Within sep a (b ++ rest) := h.symm.not_within ⟨rest,hrest,rfl⟩
  rw [exchangeTrees,moveTree_eq_none hnot,Option.none_or,moveTree_append hrest]
  rfl

theorem exchangeTrees_outside {name : List α} (ha : ¬ Within sep a name) (hb : ¬ Within sep b name) :
    exchangeTrees sep a b name = name := by
  rw [exchangeTrees,moveTree_eq_none ha,moveTree_eq_none hb]
  rfl

theorem exchangeTrees_involutive (h : Apart sep a b) : Function.Involutive (exchangeTrees sep a b) := by
  intro name
  by_cases ha : Within sep a name
  · obtain ⟨rest,hrest,rfl⟩ := ha
    rw [exchangeTrees_left hrest,exchangeTrees_right h hrest]
  · by_cases hb : Within sep b name
    · obtain ⟨rest,hrest,rfl⟩ := hb
      rw [exchangeTrees_right h hrest,exchangeTrees_left hrest]
    · rw [exchangeTrees_outside ha hb,exchangeTrees_outside ha hb]

end Exchange

end Repx.Subtrees
