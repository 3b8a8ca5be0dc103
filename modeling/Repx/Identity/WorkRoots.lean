import Mathlib.Data.Nat.Find
import Repx.Identity.GoImportConfig

/-! # Work roots in import configurations

Two import configurations with one normal form are compared line by line, and the
work root of every rewritten line is exchanged for another.
-/
namespace Repx.Identity
open ByteString Utf8 TextSearch

/-- The work directory that no other encloses. -/
def Outermost (value root digits relative : Str) : Prop :=
  WorkValue value root digits relative ∧ ∀ root' digits' relative',
    WorkValue value root' digits' relative' → root.length ≤ root'.length

/-- Lines that differ at most in a work root. -/
def Corresponding (line line' : Str) : Prop :=
  line = line' ∨ ∃ head value value' root root' digits digits' relative, PackageHead head ∧
    line = head ++ value ∧ line' = head ++ value' ∧
      Outermost value root digits relative ∧ Outermost value' root' digits' relative

/-- A package line in whose value a work directory is replaced. -/
def Rewritten (line : Str) : Prop :=
  ∃ head value, PackageHead head ∧ line = head ++ value ∧ normalizeGoWorkPath value ≠ none

/-- A package line that spells the placeholder itself. -/
def SpellsPlaceholder (line : Str) : Prop :=
  ∃ head relative, PackageHead head ∧ line = head ++ (workPlaceholder ++ slash :: relative) ∧
    normalizeGoWorkPath (workPlaceholder ++ slash :: relative) = none

/-- What stands from the end of the outermost work directory to the end of the innermost one. -/
def Nesting (value between : Str) : Prop :=
  ∃ root digits relative root' digits' relative', Outermost value root digits relative ∧
    Innermost value root' digits' relative' ∧ slash :: relative = between ++ slash :: relative'

/-- The placeholder does not face a work directory, and facing values nest their work directories alike. -/
def Faithful (line line' : Str) : Prop :=
  (Rewritten line → ¬ SpellsPlaceholder line') ∧ (SpellsPlaceholder line → ¬ Rewritten line') ∧
    ∀ head value head' value', PackageHead head → line = head ++ value → PackageHead head' →
      line' = head' ++ value' → normalizeGoWorkPath value ≠ none → normalizeGoWorkPath value' ≠ none →
        ∃ between, Nesting value between ∧ Nesting value' between

theorem WorkValue.unique {value root digits relative root' digits' relative' : Str}
    (h : WorkValue value root digits relative) (h' : WorkValue value root' digits' relative')
    (hl : root.length = root'.length) : digits = digits' ∧ relative = relative' := by
  obtain ⟨rfl,-,hd⟩ := h
  obtain ⟨he,-,hd'⟩ := h'
  simp only [List.append_assoc] at he
  obtain ⟨-,he⟩ := List.append_inj he hl
  have hcut := List.append_cancel_left he
  exact cut_at_first (fun hm => absurd (hd slash hm) (by decide))
    (fun hm => absurd (hd' slash hm) (by decide)) hcut

theorem Outermost.unique {value root digits relative root' digits' relative' : Str}
    (h : Outermost value root digits relative) (h' : Outermost value root' digits' relative') :
    relative = relative' :=
  (h.1.unique h'.1 (le_antisymm (h.2 _ _ _ h'.1) (h'.2 _ _ _ h.1))).2

theorem Innermost.unique {value root digits relative root' digits' relative' : Str}
    (h : Innermost value root digits relative) (h' : Innermost value root' digits' relative') :
    relative = relative' := by
  have h1 := normalizeGoWorkPath_eq_some.mpr ⟨root,digits,relative,h.1,h.2,rfl⟩
  have h2 := normalizeGoWorkPath_eq_some.mpr ⟨root',digits',relative',h'.1,h'.2,rfl⟩
  rw [h1,Option.some.injEq] at h2
  exact (List.cons.inj (List.append_cancel_left h2)).2

theorem exists_outermost {value root digits relative : Str} (h : WorkValue value root digits relative) :
    ∃ root' digits' relative', Outermost value root' digits' relative' := by
  classical
  have hex : ∃ n, ∃ root digits relative, WorkValue value root digits relative ∧ root.length = n :=
    ⟨root.length,root,digits,relative,h,rfl⟩
  obtain ⟨root',digits',relative',h',hl⟩ := Nat.find_spec hex
  refine ⟨root',digits',relative',h',fun root'' digits'' relative'' h'' => ?_⟩
  rw [hl]
  exact Nat.find_min' hex ⟨root'',digits'',relative'',h'',rfl⟩

/-- Behind a work directory that begins earlier there is one more. -/
theorem WorkValue.marker_behind {value root digits relative root' digits' relative' : Str}
    (h : WorkValue value root digits relative) (h' : WorkValue value root' digits' relative')
    (hlt : root'.length < root.length) : goBuildMarker <:+: slash :: relative' := by
  have hc : goBuildMarker = slash :: utf8 "go-build" := by decide
  obtain ⟨rfl,-,-⟩ := h
  obtain ⟨he,-,hd'⟩ := h'
  simp only [List.append_assoc] at he
  obtain ⟨tail,hr,ht⟩ | ⟨tail,hr,ht⟩ := List.append_eq_append_iff.mp he
  · rw [hr,List.length_append] at hlt
    omega
  · cases tail with
    | nil =>
      rw [hr,List.append_nil] at hlt
      omega
    | cons x tail =>
      rw [hc,List.cons_append,List.cons_append,← hc,List.cons.injEq] at ht
      rw [← infix_behind_digits hd',ht.2]
      exact List.infix_append' tail goBuildMarker _

/-- The innermost work directory is reached below the outermost one. -/
theorem Innermost.nesting {value root digits relative : Str} (h : Innermost value root digits relative) :
    ∃ between, Nesting value between := by
  obtain ⟨root',digits',relative',h'⟩ := exists_outermost h.1
  have hs : slash :: relative <:+ value := ⟨_,h.1.1.symm⟩
  have hs' : slash :: relative' <:+ value := ⟨_,h'.1.1.symm⟩
  have hsuffix : slash :: relative <:+ slash :: relative' := by
    rcases Nat.lt_or_ge root'.length root.length with hlt | hge
    · rcases List.suffix_or_suffix_of_suffix hs hs' with hin | hin
      · exact hin
      · exact absurd ((h.1.marker_behind h'.1 hlt).trans hin.isInfix) h.2
    · have he := (h.1.unique h'.1 (le_antisymm (h'.2 _ _ _ h.1) hge).symm).2
      exact he ▸ List.suffix_rfl
  obtain ⟨between,hb⟩ := hsuffix
  exact ⟨between,root',digits',relative',root,digits,relative,h',h,hb.symm⟩

/-- The path below the outermost directory is the nesting and the path below the innermost. -/
theorem Nesting.relative_eq {value between root digits relative root' digits' relative' : Str}
    (h : Nesting value between) (ho : Outermost value root digits relative)
    (hi : Innermost value root' digits' relative') :
    slash :: relative = between ++ slash :: relative' := by
  obtain ⟨_,_,_,_,_,_,ho',hi',he⟩ := h
  rw [ho.unique ho',hi.unique hi',he]

theorem Innermost.normalizes {value root digits relative : Str}
    (h : Innermost value root digits relative) :
    normalizeGoWorkPath value = some (workPlaceholder ++ slash :: relative) :=
  normalizeGoWorkPath_eq_some.mpr ⟨root,digits,relative,h.1,h.2,rfl⟩

/-- A placeholder in front of a path without a work directory holds none either. -/
theorem no_marker_behind_placeholder {relative : Str} (h : ¬ goBuildMarker <:+: slash :: relative) :
    ¬ goBuildMarker <:+: workPlaceholder ++ slash :: relative := by
  have hc : goBuildMarker = slash :: utf8 "go-build" := by decide
  rwa [hc,infix_append_of_head_not_mem (by decide),← hc]

theorem WorkValue.marker {value root digits relative : Str} (h : WorkValue value root digits relative) :
    goBuildMarker <:+: value := by
  rw [h.1,List.append_assoc]
  exact List.infix_append _ _ _

theorem normalizeGoWorkPath_eq_none {value : Str} (h : ¬ goBuildMarker <:+: value) :
    normalizeGoWorkPath value = none := by
  rw [Option.eq_none_iff_forall_ne_some]
  intro output ho
  obtain ⟨root,digits,relative,hv,-⟩ := normalizeGoWorkPath_eq_some.mp ho
  exact h hv.marker

/-- A rewritten line against a line that reads like its normal form. -/
theorem rewritten_against_kept {head value root digits relative line' : Str} (hh : PackageHead head)
    (hi : Innermost value root digits relative)
    (he : line' = head ++ (workPlaceholder ++ slash :: relative)) :
    Rewritten (head ++ value) ∧ SpellsPlaceholder line' ∧ ¬ Corresponding (head ++ value) line' ∧
      ¬ Corresponding line' (head ++ value) := by
  have hnone : normalizeGoWorkPath (workPlaceholder ++ slash :: relative) = none :=
    normalizeGoWorkPath_eq_none (no_marker_behind_placeholder hi.2)
  have hne : head ++ value ≠ line' := by
    intro h
    rw [he] at h
    have hv := List.append_cancel_left h
    rw [← hv,hi.normalizes] at hnone
    simp at hnone
  have hno {head' value' root' digits' relative'} (hh' : PackageHead head')
      (hl : line' = head' ++ value') : ¬ Outermost value' root' digits' relative' := by
    intro ho
    rw [he] at hl
    rw [← (hh.unique hh' hl).2] at ho
    exact no_marker_behind_placeholder hi.2 ho.1.marker
  refine ⟨⟨head,value,hh,rfl,by simp [hi.normalizes]⟩,⟨head,relative,hh,he,hnone⟩,?_,?_⟩
  · rintro (h | ⟨head',_,_,_,_,_,_,_,hh',-,hl,-,ho⟩)
    · exact hne h
    · exact hno hh' hl ho
  · rintro (h | ⟨head',_,_,_,_,_,_,_,hh',hl,-,ho,-⟩)
    · exact hne h.symm
    · exact hno hh' hl ho

theorem Kept.not_rewritten {line : Str} (h : Kept line) : ¬ Rewritten line := by
  rintro ⟨head,value,hh,he,hn⟩
  exact hn (h head value hh he)

/-- Two lines with one normal form: what the comparison of their spellings decides. -/
theorem corresponding_iff_faithful {line line' written : Str} {changed changed' : Bool}
    (h : normalizeLine line = some (written,changed)) (h' : normalizeLine line' = some (written,changed')) :
    Corresponding line line' ↔ Faithful line line' := by
  rcases normalizeLine_spec h with ⟨-,rfl,hk⟩ | ⟨-,head,value,root,digits,relative,hh,rfl,hi,hw⟩
  · rcases normalizeLine_spec h' with ⟨-,rfl,-⟩ | ⟨-,head',value',root',digits',relative',hh',rfl,hi',hw'⟩
    · refine iff_of_true (Or.inl rfl) ⟨fun hr => absurd hr hk.not_rewritten,fun _ => hk.not_rewritten,?_⟩
      intro head value _ _ hh he _ _ hn _
      exact absurd (hk head value hh he) hn
    · obtain ⟨hr,hs,-,hc⟩ := rewritten_against_kept hh' hi' hw'
      exact iff_of_false hc fun hf => hf.2.1 hs hr
  · rcases normalizeLine_spec h' with ⟨-,rfl,hk⟩ | ⟨-,head',value',root',digits',relative',hh',rfl,hi',hw'⟩
    · obtain ⟨hr,hs,hc,-⟩ := rewritten_against_kept hh hi hw
      exact iff_of_false hc fun hf => hf.1 hr hs
    · obtain ⟨rfl,hrel⟩ := hh.unique hh' (hw.symm.trans hw')
      obtain rfl : relative = relative' := (List.cons.inj (List.append_cancel_left hrel)).2
      have notSpelled {v r d : Str} (hv : Innermost v r d relative) : ¬ SpellsPlaceholder (head ++ v) := by
        rintro ⟨head',rel,hh',he,hn⟩
        rw [← (hh.unique hh' he).2,hv.normalizes] at hn
        simp at hn
      constructor
      · intro hc
        refine ⟨fun _ => notSpelled hi',fun hs => absurd hs (notSpelled hi),?_⟩
        intro h₁ v₁ h₂ v₂ hh₁ he₁ hh₂ he₂ _ _
        obtain ⟨rfl,rfl⟩ := hh.unique hh₁ he₁
        obtain ⟨-,rfl⟩ := hh.unique hh₂ he₂
        obtain ⟨between,hb⟩ := hi.nesting
        obtain ⟨between',hb'⟩ := hi'.nesting
        rcases hc with hc | ⟨head',_,_,_,_,_,_,outer,hh',hl,hl',ho,ho'⟩
        · rw [List.append_cancel_left hc] at hb ⊢
          exact ⟨between,hb,hb⟩
        · obtain ⟨rfl,rfl⟩ := hh.unique hh' hl
          obtain rfl := List.append_cancel_left hl'
          have he := (hb.relative_eq ho hi).symm.trans (hb'.relative_eq ho' hi')
          rw [List.append_cancel_right he] at hb
          exact ⟨between',hb,hb'⟩
      · rintro ⟨-,-,hf⟩
        obtain ⟨between,hb,hb'⟩ := hf head value head value' hh rfl hh rfl (by simp [hi.normalizes])
          (by simp [hi'.normalizes])
        obtain ⟨r,d,o,ho⟩ := exists_outermost hi.1
        obtain ⟨r',d',o',ho'⟩ := exists_outermost hi'.1
        have he := (hb.relative_eq ho hi).trans (hb'.relative_eq ho' hi').symm
        obtain rfl : o = o' := (List.cons.inj he).2
        exact Or.inr ⟨head,value,value',r,r',d,d',o,hh,rfl,rfl,ho,ho'⟩

theorem exists_outputs {contents output : Str} (h : normalizeGoImportConfig contents = some output) :
    ∃ outputs, List.Forall₂ (fun line out => normalizeLine line = some out) (contents.splitOn newline)
      outputs ∧ output.splitOn newline = outputs.map Prod.fst := by
  obtain ⟨-,outputs,hf,rfl,-⟩ := normalizeGoImportConfig_eq_some.mp h
  exact ⟨outputs,hf,splitOn_written hf⟩

/-- Facing lines are written out alike. -/
theorem forall₂_written {contents contents' output : Str}
    (h : normalizeGoImportConfig contents = some output)
    (h' : normalizeGoImportConfig contents' = some output) :
    List.Forall₂ (fun line line' => ∃ written changed changed', normalizeLine line = some (written,changed) ∧
      normalizeLine line' = some (written,changed')) (contents.splitOn newline)
        (contents'.splitOn newline) := by
  obtain ⟨outputs,hf,ho⟩ := exists_outputs h
  obtain ⟨outputs',hf',ho'⟩ := exists_outputs h'
  have he : outputs.map Prod.fst = outputs'.map Prod.fst := ho.symm.trans ho'
  generalize contents.splitOn newline = lines at hf
  generalize contents'.splitOn newline = lines' at hf'
  clear ho ho' h h'
  induction hf generalizing outputs' lines' with
  | nil =>
    obtain rfl := List.map_eq_nil_iff.mp he.symm
    rw [List.forall₂_nil_right_iff.mp hf']
    exact List.Forall₂.nil
  | @cons line out lines outputs hl _ ih =>
    cases hf' with
    | nil => simp at he
    | @cons line' out' lines' outputs' hl' hf' =>
      simp only [List.map_cons,List.cons.injEq] at he
      exact List.Forall₂.cons ⟨out.1,out.2,out'.2,hl,by rw [hl',he.1]⟩ (ih outputs' he.2 lines' hf')

/-- Two files with one normal form differ in work roots only if and only if no placeholder faces
a work directory and facing values nest their work directories alike. -/
theorem importConfigs_correspond_iff {contents contents' output : Str}
    (h : normalizeGoImportConfig contents = some output)
    (h' : normalizeGoImportConfig contents' = some output) :
    List.Forall₂ Corresponding (contents.splitOn newline) (contents'.splitOn newline) ↔
      ∀ pair ∈ (contents.splitOn newline).zip (contents'.splitOn newline), Faithful pair.1 pair.2 := by
  have hw := forall₂_written h h'
  rw [List.forall₂_iff_zip]
  constructor
  · rintro ⟨-,hc⟩ ⟨line,line'⟩ hm
    obtain ⟨_,_,_,hl,hl'⟩ := List.forall₂_zip hw hm
    exact (corresponding_iff_faithful hl hl').mp (hc hm)
  · refine fun hf => ⟨hw.length_eq,fun {line line'} hm => ?_⟩
    obtain ⟨_,_,_,hl,hl'⟩ := List.forall₂_zip hw hm
    exact (corresponding_iff_faithful hl hl').mpr (hf _ hm)

/-- Two files of which one spells the placeholder where the other names a work directory. -/
def placeholderConfig : Str := utf8 "packagefile a=$WORK/b\npackagefile c=/t/go-build1/d\n"

def workRootConfig : Str := utf8 "packagefile a=/t/go-build1/b\npackagefile c=/t/go-build1/d\n"

def otherRootConfig : Str := utf8 "packagefile a=/s/go-build72/b\npackagefile c=/s/go-build72/d\n"

def commonConfig : Str := utf8 "packagefile a=$WORK/b\npackagefile c=$WORK/d\n"

theorem packageHead_a : PackageHead (utf8 "packagefile a=") :=
  ⟨utf8 "packagefile ",by decide,utf8 "a",by decide,by decide⟩

theorem placeholderConfig_collides : normalizeGoImportConfig placeholderConfig = some commonConfig ∧
    normalizeGoImportConfig workRootConfig = some commonConfig ∧
      ¬ List.Forall₂ Corresponding (placeholderConfig.splitOn newline)
        (workRootConfig.splitOn newline) := by
  refine ⟨by decide +kernel,by decide +kernel,?_⟩
  have hp : placeholderConfig.splitOn newline =
      [utf8 "packagefile a=$WORK/b",utf8 "packagefile c=/t/go-build1/d",[]] := by decide +kernel
  have hw : workRootConfig.splitOn newline =
      [utf8 "packagefile a=" ++ utf8 "/t/go-build1/b",utf8 "packagefile c=/t/go-build1/d",[]] := by
    decide +kernel
  rw [hp,hw]
  intro h
  have hi : Innermost (utf8 "/t/go-build1/b") (utf8 "/t") (utf8 "1") (utf8 "b") :=
    ⟨⟨by decide,by decide,List.all_eq_true.mp (by decide)⟩,by decide⟩
  exact (rewritten_against_kept packageHead_a hi (by decide)).2.2.2 (List.forall₂_cons.mp h).1

theorem importConfigs_correspond_iff_roots :
    normalizeGoImportConfig otherRootConfig = some commonConfig ∧
    (List.Forall₂ Corresponding (workRootConfig.splitOn newline) (otherRootConfig.splitOn newline) ↔
      ∀ pair ∈ (workRootConfig.splitOn newline).zip (otherRootConfig.splitOn newline),
        Faithful pair.1 pair.2) :=
  ⟨by decide +kernel,importConfigs_correspond_iff
    (by decide +kernel : normalizeGoImportConfig workRootConfig = some commonConfig)
    (by decide +kernel)⟩

/-- A line whose work root, if it has one, is exchanged for another. -/
def Rerooted (line line' : Str) : Prop :=
  ¬ Rewritten line ∧ line' = line ∨ ∃ head value root digits relative root' digits', PackageHead head ∧
    line = head ++ value ∧ Innermost value root digits relative ∧
      line' = head ++ (root' ++ goBuildMarker ++ digits' ++ slash :: relative) ∧
        isUtf8 root' = true ∧ newline ∉ root' ∧ digits' ≠ [] ∧ ∀ b ∈ digits', isAsciiDigit b = true

theorem Rerooted.written {line line' : Str} {out : Str × Bool} (h : Rerooted line line')
    (hl : normalizeLine line = some out) : normalizeLine line' = some out := by
  rcases h with ⟨-,rfl⟩ | ⟨head,value,root,digits,relative,root',digits',hh,rfl,hi,rfl,-,-,hne,hd⟩
  · exact hl
  · have hi' : Innermost (root' ++ goBuildMarker ++ digits' ++ slash :: relative) root' digits' relative :=
      ⟨⟨rfl,hne,hd⟩,hi.2⟩
    rw [normalizeLine_package hh,hi.normalizes] at hl
    rw [normalizeLine_package hh,hi'.normalizes,hl]

theorem isUtf8_digits {digits : Str} (hd : ∀ b ∈ digits, isAsciiDigit b = true) :
    isUtf8 digits = true := by
  apply isUtf8_of_ascii
  intro b hb
  have hx := hd b hb
  simp only [isAsciiDigit,Bool.and_eq_true,decide_eq_true_eq] at hx
  exact UInt8.lt_of_le_of_lt hx.2 (by decide)

theorem Rerooted.isUtf8 {line line' : Str} (h : Rerooted line line') (hl : isUtf8 line = true) :
    isUtf8 line' = true := by
  rcases h with ⟨-,rfl⟩ | ⟨head,value,root,digits,relative,root',digits',hh,rfl,hi,rfl,hu,-,-,hd⟩
  · exact hl
  · obtain ⟨keyword,-,key,-,rfl⟩ := hh
    rw [List.append_assoc,List.singleton_append] at hl
    obtain ⟨hfront,hback⟩ := isUtf8_append_ascii (by decide) hl
    rw [isUtf8_cons_ascii (by decide),hi.1.1] at hback
    have hrel := (isUtf8_append_ascii (by decide) hback).2
    rw [List.append_assoc,isUtf8_append hfront,List.singleton_append,isUtf8_cons_ascii (by decide),
      List.append_assoc,List.append_assoc,isUtf8_append hu,isUtf8_append (by decide),
      isUtf8_append (isUtf8_digits hd),hrel]

theorem Rerooted.newline_not_mem {line line' : Str} (h : Rerooted line line') (hl : newline ∉ line) :
    newline ∉ line' := by
  rcases h with ⟨-,rfl⟩ | ⟨head,value,root,digits,relative,root',digits',-,rfl,hi,rfl,-,hn,-,hd⟩
  · exact hl
  · rw [hi.1.1] at hl
    simp only [List.mem_append,not_or] at hl ⊢
    exact ⟨hl.1,⟨⟨⟨hn,by decide⟩,fun hm => absurd (hd newline hm) (by decide)⟩,hl.2.2⟩⟩

/-- A line that was written out is kept when it is read again. -/
theorem normalizeLine_again {line : Str} {out : Str × Bool} (h : normalizeLine line = some out) :
    normalizeLine out.1 = some (out.1,false) := by
  obtain ⟨written,changed⟩ := out
  rcases normalizeLine_spec h with ⟨rfl,rfl,-⟩ | ⟨-,head,value,root,digits,relative,hh,-,hi,rfl⟩
  · exact h
  · rw [normalizeLine_package hh,normalizeGoWorkPath_eq_none (no_marker_behind_placeholder hi.2)]

theorem forall₂_rerooted {lines lines' : List Str} {outputs : List (Str × Bool)}
    (hr : List.Forall₂ Rerooted lines lines')
    (hf : List.Forall₂ (fun line out => normalizeLine line = some out) lines outputs) :
    List.Forall₂ (fun line out => normalizeLine line = some out) lines' outputs := by
  induction hr generalizing outputs with
  | nil => exact hf
  | cons hl _ ih =>
    cases hf with
    | cons ho hf => exact List.Forall₂.cons (hl.written ho) (ih hf)

/-- The normal form does not depend on the work roots, and it has none left. -/
theorem normalizeGoImportConfig_root_independent {contents output : Str}
    (h : normalizeGoImportConfig contents = some output) :
    (∀ lines, List.Forall₂ Rerooted (contents.splitOn newline) lines →
      normalizeGoImportConfig ([newline].intercalate lines) = some output) ∧
    normalizeGoImportConfig output = none := by
  obtain ⟨hu,outputs,hf,rfl,hany⟩ := normalizeGoImportConfig_eq_some.mp h
  constructor
  · intro lines hr
    have hne : lines ≠ [] := by
      rintro rfl
      exact List.splitOn_ne_nil newline contents (List.forall₂_nil_right_iff.mp hr)
    have hsplit : ([newline].intercalate lines).splitOn newline = lines := by
      refine List.splitOn_intercalate newline (fun line hl => ?_) hne
      obtain ⟨old,ho,hre⟩ := exists_of_mem_right hr hl
      exact hre.newline_not_mem (not_mem_of_mem_splitOn ho)
    refine normalizeGoImportConfig_eq_some.mpr
      ⟨(isUtf8_intercalate (by decide)).mpr fun line hl => ?_,outputs,?_,rfl,hany⟩
    · obtain ⟨old,ho,hre⟩ := exists_of_mem_right hr hl
      have hlines : isUtf8 ([newline].intercalate (contents.splitOn newline)) = true := by
        rwa [List.intercalate_splitOn]
      exact hre.isUtf8 ((isUtf8_intercalate (by decide)).mp hlines old ho)
    · rw [hsplit]
      exact forall₂_rerooted hr hf
  · rw [Option.eq_none_iff_forall_ne_some]
    intro again ha
    obtain ⟨-,outputs',hf',-,out,ho,hchanged⟩ := normalizeGoImportConfig_eq_some.mp ha
    rw [splitOn_written hf] at hf'
    obtain ⟨written,hw,hl⟩ := exists_of_mem_right hf' ho
    obtain ⟨first,hfirst,rfl⟩ := List.mem_map.mp hw
    obtain ⟨line,-,hline⟩ := exists_of_mem_right hf hfirst
    rw [normalizeLine_again hline,Option.some.injEq] at hl
    rw [← hl] at hchanged
    simp at hchanged

theorem commonConfig_root_independent : normalizeGoImportConfig commonConfig = none :=
  (normalizeGoImportConfig_root_independent
    (by decide +kernel : normalizeGoImportConfig workRootConfig = some commonConfig)).2

end Repx.Identity
