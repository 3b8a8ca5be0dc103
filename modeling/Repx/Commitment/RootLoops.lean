import Mathlib.Computability.StateTransition
import Repx.Commitment.LegacyNodes
import Repx.Foundation.PerfectTrees

/-! # The two loops of `root_from_leaves`

The first loop pads the leaves to a power of two, the second pairs a level until one hash
is left. The length of a paired level stays a power of two, so a pairing covers the whole
level and the last one holds the root, which is that of the tree by halves.
-/
namespace Repx.Merkle
open ByteString PairedLevels PerfectTrees Sha256 StateTransition
variable (sha256 : Str → Digest)

/-- Where `root_from_leaves` stands: at the head of one of its loops, or at its end. The
`unwrap` of the pop panics if the last level is empty. -/
inductive RootLoop
  | padding (targetLen : ℕ) (level : List Str)
  | pairing (level : List Str)
  | returned (root : Str)
  | panicked

namespace RootLoop

/-- Up to the padding loop. -/
def start (leaves : List Str) : RootLoop :=
  if leaves.isEmpty then returned (emptyRoot sha256) else padding (nextPowerOfTwo leaves.length) leaves

def step : RootLoop → Option RootLoop
  | padding targetLen level =>
    some (if level.length < targetLen then padding targetLen (level ++ [paddingHash sha256]) else pairing level)
  | pairing level =>
    -- `chunks_exact` leaves out what does not fill a chunk.
    some (if 1 < level.length then pairing ((levelPairs level).map fun pair => hashPair sha256 pair.1 pair.2)
      else match level.getLast? with
        | some root => returned root
        | none => panicked)
  | returned _ => none
  | panicked => none

variable {sha256}

theorem step_padding_lt {targetLen : ℕ} {level : List Str} (h : level.length < targetLen) :
    step sha256 (padding targetLen level) = some (padding targetLen (level ++ [paddingHash sha256])) := by
  rw [step,if_pos h]

theorem step_padding_ge {targetLen : ℕ} {level : List Str} (h : ¬ level.length < targetLen) :
    step sha256 (padding targetLen level) = some (pairing level) := by
  rw [step,if_neg h]

theorem step_pairing_lt {level : List Str} (h : 1 < level.length) :
    step sha256 (pairing level) = some (pairing (pairLevel (hashPair sha256) level)) := by
  rw [step,if_pos h,pairLevel_eq_map]

theorem step_pairing_singleton (root : Str) : step sha256 (pairing [root]) = some (returned root) := rfl

variable (sha256) in
theorem reaches_padLevel (targetLen : ℕ) (level : List Str) :
    Reaches (step sha256) (padding targetLen level) (pairing (padLevel sha256 targetLen level)) := by
  induction level using padLevel.induct sha256 targetLen with
  | case1 level hlt ih =>
    rw [padLevel,if_pos hlt]
    exact .head (step_padding_lt hlt) ih
  | case2 level hge =>
    rw [padLevel,if_neg hge]
    exact .single (step_padding_ge hge)

variable (sha256) in
theorem reaches_reduceLevels (level : List Str) :
    Reaches (step sha256) (pairing level) (pairing (reduceLevels (hashPair sha256) level)) := by
  induction level using reduceLevels.induct (hashPair sha256) with
  | case1 level hlt ih =>
    rw [reduceLevels,if_pos hlt]
    exact .head (step_pairing_lt hlt) ih
  | case2 level hge =>
    rw [reduceLevels,if_neg hge]
    exact .refl

/-- The loops end, with the root. -/
theorem returned_mem_eval (leaves : List Str) :
    returned (rootFromLeaves sha256 leaves) ∈ eval (step sha256) (start sha256 leaves) := by
  refine mem_eval.mpr ⟨?_,rfl⟩
  cases leaves with
  | nil => exact .refl
  | cons leaf rest =>
    have hreduced := reduceLevels_firstRow sha256 (leaf :: rest)
    simp only [firstRow,List.isEmpty_cons,Bool.false_eq_true,if_false] at hreduced
    have hpad := reaches_padLevel sha256 (nextPowerOfTwo (leaf :: rest).length) (leaf :: rest)
    have hpair := reaches_reduceLevels sha256 (padLevel sha256 (nextPowerOfTwo (leaf :: rest).length) (leaf :: rest))
    rw [hreduced] at hpair
    exact (hpad.trans hpair).tail (step_pairing_singleton _)

/-- What holds whenever one of the loops starts over, over leaves of some number. -/
def LengthInvariant (count : ℕ) : RootLoop → Prop
  | padding targetLen level => targetLen = nextPowerOfTwo count ∧ level.length ≤ targetLen
  | pairing level => ∃ k, level.length = 2 ^ k
  | returned _ => True
  | panicked => False

theorem LengthInvariant.step {count : ℕ} {s s' : RootLoop} (h : LengthInvariant count s)
    (hs : step sha256 s = some s') : LengthInvariant count s' := by
  cases s with
  | padding targetLen level =>
    obtain ⟨htarget,hle⟩ := h
    by_cases hlt : level.length < targetLen
    · rw [step_padding_lt hlt] at hs
      obtain rfl := Option.some.inj hs
      refine ⟨htarget,?_⟩
      rw [List.length_append,List.length_singleton]
      exact hlt
    · rw [step_padding_ge hlt] at hs
      obtain rfl := Option.some.inj hs
      exact ⟨Nat.clog 2 count,(Nat.le_antisymm hle (not_lt.mp hlt)).trans htarget⟩
  | pairing level =>
    obtain ⟨k,hk⟩ := h
    cases k with
    | zero =>
      obtain ⟨root,rfl⟩ := List.length_eq_one_iff.mp hk
      rw [step_pairing_singleton] at hs
      obtain rfl := Option.some.inj hs
      trivial
    | succ k =>
      rw [step_pairing_lt (one_lt_length hk)] at hs
      obtain rfl := Option.some.inj hs
      exact ⟨k,pairLevel_length_two_pow (hashPair sha256) hk⟩
  | returned root => cases hs
  | panicked => cases hs

theorem LengthInvariant.reaches {count : ℕ} {s s' : RootLoop} (h : LengthInvariant count s)
    (hr : Reaches (RootLoop.step sha256) s s') : LengthInvariant count s' := by
  induction hr with
  | refl => exact h
  | tail _ hs ih => exact ih.step hs

variable (sha256) in
theorem lengthInvariant_start (leaves : List Str) : LengthInvariant leaves.length (start sha256 leaves) := by
  cases leaves with
  | nil => trivial
  | cons leaf rest => exact ⟨rfl,le_nextPowerOfTwo _⟩

end RootLoop

/-- The leaves with the padding behind them. -/
def paddedRow (leaves : List Str) : Row Str (Nat.clog 2 leaves.length) where
  values := leaves ++ List.replicate (2 ^ Nat.clog 2 leaves.length - leaves.length) (paddingHash sha256)
  length := by
    have hle := Nat.le_pow_clog Nat.one_lt_two leaves.length
    rw [List.length_append,List.length_replicate]
    omega

/-- The root of the level loop is the root of the tree that splits the padded leaves in halves. -/
theorem rootFromLeaves_eq_root {leaves : List Str} (hne : leaves ≠ []) :
    rootFromLeaves sha256 leaves = (PerfectTree.ofRow (paddedRow sha256 leaves)).root (hashPair sha256) := by
  have hrow : firstRow sha256 leaves = (paddedRow sha256 leaves).values := by
    rw [firstRow,if_neg (by simpa using hne),padLevel_eq]
    rfl
  have hroots := reduceLevels_firstRow sha256 leaves
  rw [hrow,reduceLevels_row] at hroots
  exact (List.singleton_inj.mp hroots).symm

/-- Over leaves that are not empty, both loops end and return the root of the tree by halves,
without a panic. Whenever the second starts over, the length of its level is a power of two,
and the pairs that it makes leave nothing of the level out. -/
theorem rootFromLeaves_loops {leaves : List Str} (hne : leaves ≠ []) :
    .returned (rootFromLeaves sha256 leaves) ∈ eval (RootLoop.step sha256) (RootLoop.start sha256 leaves) ∧
    ¬ Reaches (RootLoop.step sha256) (RootLoop.start sha256 leaves) .panicked ∧
    (∀ level, Reaches (RootLoop.step sha256) (RootLoop.start sha256 leaves) (.pairing level) →
      (∃ k, level.length = 2 ^ k) ∧
        (1 < level.length → (levelPairs level).flatMap (fun pair => [pair.1,pair.2]) = level)) ∧
    rootFromLeaves sha256 leaves = (PerfectTree.ofRow (paddedRow sha256 leaves)).root (hashPair sha256) := by
  have hstart := RootLoop.lengthInvariant_start sha256 leaves
  refine ⟨RootLoop.returned_mem_eval leaves,fun hr => hstart.reaches hr,fun level hr => ?_,
    rootFromLeaves_eq_root sha256 hne⟩
  obtain ⟨k,hk⟩ := hstart.reaches hr
  refine ⟨⟨k,hk⟩,fun hlt => flatMap_levelPairs ?_⟩
  cases k with
  | zero => omega
  | succ k => exact two_dvd_length hk

/-- Three leaves and one padding hash. -/
theorem rootFromLeaves_loops_three :
    .returned (hashPair lengthDigest (hashPair lengthDigest (utf8 "a") (utf8 "b"))
        (hashPair lengthDigest (utf8 "c") (paddingHash lengthDigest))) ∈
      eval (RootLoop.step lengthDigest) (RootLoop.start lengthDigest [utf8 "a",utf8 "b",utf8 "c"]) := by
  have hc : Nat.clog 2 3 = 2 := by decide +kernel
  have hroot : rootFromLeaves lengthDigest [utf8 "a",utf8 "b",utf8 "c"] =
      hashPair lengthDigest (hashPair lengthDigest (utf8 "a") (utf8 "b"))
        (hashPair lengthDigest (utf8 "c") (paddingHash lengthDigest)) := by
    simp [rootFromLeaves,padLevel,nextPowerOfTwo,hc,reduceLevels,pairLevel]
  rw [← hroot]
  exact (rootFromLeaves_loops lengthDigest (List.cons_ne_nil _ _)).1

end Repx.Merkle
