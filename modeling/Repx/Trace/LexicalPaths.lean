import Mathlib.Data.List.Infix
import Repx.Foundation.UnixPaths
import Repx.Trace.FileIdentity

/-! # Path classification and lexical normal forms

The classification of a path reads its text. Compared with the classification of
the lexical normal form it differs for every spelling that is more than the normal
form and slashes behind it.
-/
namespace Repx.Trace
open ByteString UnixPaths

/-- The text and slashes behind it. -/
def addSlashes (path : Str) (n : ℕ) : Str := path ++ List.replicate n slash

/-- How many slashes a text ends with. -/
def endSlashes (path : Str) : ℕ := (path.rtakeWhile (· == slash)).length

theorem addSlashes_endSlashes (path : Str) : addSlashes (trimEndSlashes path) (endSlashes path) = path := by
  have hslashes : path.rtakeWhile (· == slash) = List.replicate (endSlashes path) slash := by
    rw [List.eq_replicate_iff]
    refine ⟨rfl,fun byte hb => ?_⟩
    rw [List.rtakeWhile,List.mem_reverse] at hb
    simpa using List.mem_takeWhile_imp hb
  rw [addSlashes,← hslashes,trimEndSlashes,List.rdropWhile_append_rtakeWhile]

theorem exists_addSlashes (path : Str) : ∃ n, path = addSlashes (trimEndSlashes path) n :=
  ⟨endSlashes path,(addSlashes_endSlashes path).symm⟩

theorem trimEndSlashes_eq_self {path : Str} (h : path.getLast? ≠ some slash) : trimEndSlashes path = path := by
  rw [trimEndSlashes,List.rdropWhile_eq_self_iff]
  intro hne hl
  rw [List.getLast?_eq_getLast_of_ne_nil hne] at h
  exact h (by simpa using hl)

theorem getLast?_trimEndSlashes (path : Str) : (trimEndSlashes path).getLast? ≠ some slash := by
  intro h
  have hne : trimEndSlashes path ≠ [] := by
    intro h0
    simp [h0] at h
  have hl := List.rdropWhile_last_not (· == slash) path hne
  rw [List.getLast?_eq_getLast_of_ne_nil hne,Option.some.injEq] at h
  exact hl (by simpa [trimEndSlashes] using h)

/-- A text that does not end with a slash is met in front of added slashes only where they begin. -/
theorem eq_of_append_replicate {w q : Str} {n : ℕ} (hw : w.getLast? ≠ some slash)
    (h : w = q ++ List.replicate n slash) : n = 0 := by
  cases n with
  | zero => rfl
  | succ n =>
    rw [List.replicate_succ',← List.append_assoc] at h
    rw [h,List.getLast?_concat] at hw
    exact absurd rfl hw

/-- A directory contains a path with added slashes when it contains the path or is the path. -/
theorem below_addSlashes {dir path : Str} (n : ℕ) (hd : dir.getLast? ≠ some slash) :
    dir ++ [slash] <+: addSlashes path (n + 1) ↔ dir = path ∨ dir ++ [slash] <+: path := by
  constructor
  · rintro ⟨tail,ht⟩
    rw [addSlashes] at ht
    rcases List.append_eq_append_iff.mp ht with ⟨as,hp,-⟩ | ⟨bs,hdir,hrep⟩
    · exact Or.inr ⟨as,hp.symm⟩
    · have hbs : bs = List.replicate bs.length slash := by
        rw [List.eq_replicate_iff]
        exact ⟨rfl,fun b hb => List.eq_of_mem_replicate (hrep ▸ List.mem_append_left tail hb)⟩
      cases hl : bs.length with
      | zero =>
        rw [List.length_eq_zero_iff.mp hl,List.append_nil] at hdir
        exact Or.inr ⟨[],by rw [hdir,List.append_nil]⟩
      | succ k =>
        rw [hbs,hl,List.replicate_succ',← List.append_assoc] at hdir
        have hdp := (List.append_inj' hdir rfl).1
        obtain rfl := eq_of_append_replicate hd hdp
        exact Or.inl (by simpa using hdp)
  · rintro (rfl | h)
    · exact ⟨List.replicate n slash,by simp [addSlashes,List.replicate_succ]⟩
    · exact h.trans (List.prefix_append _ _)

theorem isPathWithin_iff {path dir : Str} : isPathWithin path dir = true ↔
    trimEndSlashes dir = [] ∨ path = trimEndSlashes dir ∨ trimEndSlashes dir ++ [slash] <+: path := by
  simp [isPathWithin,or_assoc]

theorem ne_of_addSlashes {dir path : Str} (n : ℕ) (hd : dir.getLast? ≠ some slash) :
    addSlashes path (n + 1) ≠ dir := by
  rintro rfl
  rw [addSlashes,List.replicate_succ',← List.append_assoc,List.getLast?_concat] at hd
  exact hd rfl

/-- Slashes behind a path do not move it out of a directory or into one. -/
theorem isPathWithin_addSlashes (path dir : Str) (n : ℕ) :
    isPathWithin (addSlashes path n) dir = isPathWithin path dir := by
  cases n with
  | zero => simp [addSlashes]
  | succ n =>
    rw [Bool.eq_iff_iff,isPathWithin_iff,isPathWithin_iff]
    have hd := getLast?_trimEndSlashes dir
    simp only [below_addSlashes n hd,ne_of_addSlashes n hd,false_or,eq_comm]

def belowSystemDir (path : Str) : Bool :=
  systemStateDirs.any fun dir => path == dir || (dir ++ [slash]).isPrefixOf path

theorem belowSystemDir_addSlashes (path : Str) (n : ℕ) :
    belowSystemDir (addSlashes path n) = belowSystemDir path := by
  cases n with
  | zero => simp [addSlashes]
  | succ n =>
    have hdirs : ∀ dir ∈ systemStateDirs, dir.getLast? ≠ some slash := by decide
    rw [Bool.eq_iff_iff]
    simp only [belowSystemDir,List.any_eq_true,Bool.or_eq_true,beq_iff_eq,List.isPrefixOf_iff_prefix]
    refine exists_congr fun dir => and_congr_right fun hm => ?_
    simp only [below_addSlashes n (hdirs dir hm),ne_of_addSlashes n (hdirs dir hm),false_or,eq_comm]

def telemetryDir : Str := utf8 "/go/telemetry"

theorem contains_iff {path pattern : Str} : contains path pattern = true ↔ pattern <:+: path := by
  simp only [contains,List.any_eq_true,List.mem_tails,List.isPrefixOf_iff_prefix]
  rw [List.infix_iff_prefix_suffix]
  exact exists_congr fun tail => and_comm

/-- A slash behind the telemetry directory is read as something in it. -/
theorem isGoTelemetryPath_addSlashes (path : Str) (n : ℕ) :
    isGoTelemetryPath (addSlashes path (n + 1)) = true ↔
      isGoTelemetryPath path = true ∨ telemetryDir <:+ path := by
  have hp : utf8 "/go/telemetry/" = telemetryDir ++ [slash] := by decide
  have hlast : telemetryDir.getLast? ≠ some slash := by decide
  simp only [isGoTelemetryPath,contains_iff,hp]
  constructor
  · intro h
    rw [addSlashes,List.infix_append_iff] at h
    rcases h with h | h | ⟨front,back,he,hfront,hback⟩
    · exact Or.inl h
    · have hm : 103 ∈ List.replicate (n + 1) slash := h.subset (by decide)
      exact absurd (List.eq_of_mem_replicate hm) (by decide)
    · have hb : back = List.replicate back.length slash := by
        rw [List.eq_replicate_iff]
        exact ⟨rfl,fun b hm => List.eq_of_mem_replicate (hback.subset hm)⟩
      cases hl : back.length with
      | zero =>
        rw [List.length_eq_zero_iff.mp hl,List.append_nil] at he
        exact Or.inl (he ▸ hfront.isInfix)
      | succ k =>
        rw [hb,hl,List.replicate_succ',← List.append_assoc] at he
        have hd := (List.append_inj' he rfl).1
        obtain rfl := eq_of_append_replicate hlast hd
        rw [List.replicate_zero,List.append_nil] at hd
        exact Or.inr (hd ▸ hfront)
  · rintro (h | ⟨front,rfl⟩)
    · exact h.trans (List.prefix_append _ _).isInfix
    · exact ⟨front,List.replicate n slash,by simp [addSlashes,List.replicate_succ]⟩

theorem isSystemState_eq (path : Str) :
    isSystemState path = (belowSystemDir path || systemStateFiles.contains path || isGoTelemetryPath path) :=
  rfl

/-- What the normal form of a path with slashes behind it must not be. -/
def SlashSensitive (path : Str) : Prop :=
  path ∈ systemStateFiles ∨ telemetryDir <:+ path ∧ belowSystemDir path = false ∧ isGoTelemetryPath path = false

theorem isSystemState_addSlashes (path : Str) (n : ℕ) :
    isSystemState (addSlashes path (n + 1)) = isSystemState path ↔ ¬ SlashSensitive path := by
  have hfiles : ∀ file ∈ systemStateFiles, belowSystemDir file = false ∧ isGoTelemetryPath file = false ∧
      ¬ telemetryDir <:+ file ∧ file.getLast? ≠ some slash := by decide
  have hslash : addSlashes path (n + 1) ∉ systemStateFiles :=
    fun hm => ne_of_addSlashes n (hfiles _ hm).2.2.2 rfl
  rw [Bool.eq_iff_iff]
  simp only [isSystemState_eq,Bool.or_eq_true,belowSystemDir_addSlashes,isGoTelemetryPath_addSlashes,
    List.contains_iff_mem,hslash,or_false,SlashSensitive,not_or]
  by_cases hm : path ∈ systemStateFiles
  · obtain ⟨hb,hg,ht,-⟩ := hfiles path hm
    simp [hm,hb,hg,ht]
  · cases hb : belowSystemDir path <;> cases hg : isGoTelemetryPath path <;> simp [hm]

theorem isPathWithin_self (path : Str) : isPathWithin path path = true := by
  rw [isPathWithin_iff]
  obtain ⟨n,hn⟩ := exists_addSlashes path
  cases n with
  | zero => exact Or.inr (Or.inl (by simpa [addSlashes] using hn))
  | succ n =>
    refine Or.inr (Or.inr ⟨List.replicate n slash,?_⟩)
    conv_rhs => rw [hn]
    simp [addSlashes,List.replicate_succ]

/-- Nothing but the root and slashes is left of a path without a name. -/
theorem eq_root_addSlashes {path : Str} (ha : isAbsolute path = true) (h : trimEndSlashes path = []) :
    ∃ n, path = addSlashes [slash] n := by
  obtain ⟨m,hm⟩ := exists_addSlashes path
  rw [h] at hm
  cases m with
  | zero =>
    rw [hm] at ha
    exact absurd ha (by decide)
  | succ m => exact ⟨m,by rw [hm]; simp [addSlashes,List.replicate_succ]⟩

theorem not_prefix_slashes {path : Str} (ha : isAbsolute path = true) (hl : path.getLast? ≠ some slash)
    (n : ℕ) : ¬ path <+: List.replicate n slash := by
  intro h
  obtain ⟨rest,rfl⟩ := isAbsolute_iff.mp ha
  have hlast := List.getLast?_eq_getLast_of_ne_nil (List.cons_ne_nil separator rest)
  have hm := h.subset (List.getLast_mem (List.cons_ne_nil separator rest))
  rw [List.eq_of_mem_replicate hm] at hlast
  exact hl hlast

/-- A path and a canonical path that are within each other differ by slashes. -/
theorem eq_addSlashes_of_within {path normal : Str} (ha : isAbsolute path = true) (hn : Canonical normal)
    (h : isPathWithin normal path = true) (h' : isPathWithin path normal = true) :
    ∃ n, path = addSlashes normal n := by
  obtain ⟨m,hm⟩ := exists_addSlashes path
  rcases hn.2 with rfl | hlast
  · have hempty : trimEndSlashes path = [] := by
      rcases isPathWithin_iff.mp h with h0 | h0 | ⟨tail,h0⟩
      · exact h0
      · exact absurd (congrArg List.getLast? h0).symm (getLast?_trimEndSlashes path)
      · cases ht : trimEndSlashes path with
        | nil => rfl
        | cons b rest =>
          rw [ht] at h0
          have hlen := congrArg List.length h0
          simp only [List.length_append,List.length_cons,List.length_nil] at hlen
          omega
    exact eq_root_addSlashes ha hempty
  · have hself : trimEndSlashes normal = normal := trimEndSlashes_eq_self hlast
    rw [isPathWithin_iff,hself] at h'
    rcases h' with h0 | h0 | h0
    · rw [h0] at hn
      exact absurd hn.1 (by decide)
    · exact ⟨0,by simpa [addSlashes] using h0⟩
    · have hpath : normal <+: addSlashes (trimEndSlashes path) m := hm ▸ (List.prefix_append _ _).trans h0
      rcases isPathWithin_iff.mp h with h1 | h1 | ⟨tail,h1⟩
      · rw [h1] at hpath
        exact absurd hpath (not_prefix_slashes hn.1 hlast m)
      · exact ⟨m,by rw [h1]; exact hm⟩
      · have htail : (slash :: tail).getLast? ≠ some slash := by
          rw [← h1,List.append_assoc,List.getLast?_append_of_ne_nil _ (by simp)] at hlast
          exact hlast
        rw [← h1,List.append_assoc,addSlashes,List.prefix_append_right_inj] at hpath
        exact absurd hpath (not_prefix_slashes rfl htail m)

/-- A path is classified like its lexical normal form, under every directory, exactly when it is
that form, or that form with slashes behind it and the form does not feel them. -/
theorem classification_lexical_iff {path : Str} (ha : isAbsolute path = true) :
    (isSystemState path = isSystemState (normalizePath path) ∧ ∀ dir, isAbsolute dir = true →
      isPathWithin path dir = isPathWithin (normalizePath path) dir) ↔
    path = normalizePath path ∨
      (∃ n, path = addSlashes (normalizePath path) (n + 1)) ∧ ¬ SlashSensitive (normalizePath path) := by
  have hn := canonical_normalizePath ha
  generalize normalizePath path = normal at hn
  constructor
  · rintro ⟨hsys,hwithin⟩
    have hin := hwithin path ha
    have hin' := hwithin normal hn.1
    rw [isPathWithin_self] at hin hin'
    obtain ⟨n,hp⟩ := eq_addSlashes_of_within ha hn hin.symm hin'
    cases n with
    | zero => exact Or.inl (by simpa [addSlashes] using hp)
    | succ n =>
      rw [hp] at hsys
      exact Or.inr ⟨⟨n,hp⟩,(isSystemState_addSlashes normal n).mp hsys⟩
  · rintro (rfl | ⟨⟨n,rfl⟩,hs⟩)
    · exact ⟨rfl,fun _ _ => rfl⟩
    · exact ⟨(isSystemState_addSlashes normal n).mpr hs,fun dir _ => isPathWithin_addSlashes normal dir _⟩

theorem classification_lexical_iff_proc :
    (isSystemState (utf8 "/proc//") = isSystemState (normalizePath (utf8 "/proc//")) ∧
      ∀ dir, isAbsolute dir = true →
        isPathWithin (utf8 "/proc//") dir = isPathWithin (normalizePath (utf8 "/proc//")) dir) ↔
    utf8 "/proc//" = normalizePath (utf8 "/proc//") ∨
      (∃ n, utf8 "/proc//" = addSlashes (normalizePath (utf8 "/proc//")) (n + 1)) ∧
        ¬ SlashSensitive (normalizePath (utf8 "/proc//")) :=
  classification_lexical_iff (by decide)

/-- A detour that hides machine state, and one that leaves a watched directory unnoticed. -/
theorem detours_misclassified :
    isAbsolute (utf8 "/tmp/../proc/cpuinfo") = true ∧
    isSystemState (utf8 "/tmp/../proc/cpuinfo") = false ∧
    isSystemState (normalizePath (utf8 "/tmp/../proc/cpuinfo")) = true ∧
    isAbsolute (utf8 "/w/../etc/x") = true ∧ isAbsolute (utf8 "/w") = true ∧
    isPathWithin (utf8 "/w/../etc/x") (utf8 "/w") = true ∧
    isPathWithin (normalizePath (utf8 "/w/../etc/x")) (utf8 "/w") = false := by
  decide +kernel

end Repx.Trace
