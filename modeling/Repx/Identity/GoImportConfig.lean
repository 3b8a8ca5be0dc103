import Repx.Foundation.TextSearch
import Repx.Identity.GoCacheEntry

/-! # Go import configurations

A control file of the Go linker names the archives of its packages. The random work
directory in the value of a package line is replaced by a placeholder, everything
else is kept, and a file with an unknown line is not touched.
-/
namespace Repx.Identity
open ByteString Utf8 TextSearch

def slash : UInt8 := 47

def equalsSign : UInt8 := 61

def goBuildMarker : Str := utf8 "/go-build"

def workPlaceholder : Str := utf8 "$WORK"

def normalizeGoWorkPath (path : Str) : Option Str := do
  let start ← rfind goBuildMarker path
  let suffix := path.drop (start + goBuildMarker.length)
  let digitCount := (suffix.takeWhile isAsciiDigit).length
  if digitCount = 0 ∨ suffix[digitCount]? ≠ some slash then none
  else some (workPlaceholder ++ suffix.drop digitCount)

def packageRest (line : Str) : Option Str :=
  (line.dropPrefix? (utf8 "packagefile ")).or (line.dropPrefix? (utf8 "packageshlib "))

def isPlainLine (line : Str) : Bool :=
  line.isEmpty || line == utf8 "# import config" || (utf8 "importmap ").isPrefixOf line ||
    (utf8 "modinfo ").isPrefixOf line

/-- The line as it is written out, and whether it was changed. -/
def normalizeLine (line : Str) : Option (Str × Bool) :=
  match packageRest line with
  | some rest => do
    let equals ← rest.idxOf? equalsSign
    let valueOffset := line.length - rest.length + equals + 1
    match normalizeGoWorkPath (line.drop valueOffset) with
    | some workRelative => some (line.take valueOffset ++ workRelative,true)
    | none => some (line,false)
  | none => if isPlainLine line then some (line,false) else none

/-- A line and what ends it. -/
def stripEnding (lineWithEnding : Str) : Str × Str :=
  match lineWithEnding.dropSuffix? [newline] with
  | some line => (line,[newline])
  | none => (lineWithEnding,[])

/-- The text written so far, and whether any line was changed. -/
def configStep (state : Str × Bool) (lineWithEnding : Str) : Option (Str × Bool) := do
  let (line,ending) := stripEnding lineWithEnding
  let (written,changed) ← normalizeLine line
  some (state.1 ++ written ++ ending,state.2 || changed)

def normalizeGoImportConfig (contents : Str) : Option Str := do
  let text ← if isUtf8 contents then some contents else none
  let (normalized,changed) ← (splitInclusive newline text).foldlM configStep ([],false)
  if changed then some normalized else none

/-- A value below a directory `go-build<digits>`. -/
def WorkValue (value root digits relative : Str) : Prop :=
  value = root ++ goBuildMarker ++ digits ++ slash :: relative ∧ digits ≠ [] ∧
    ∀ b ∈ digits, isAsciiDigit b = true

theorem takeWhile_digits {digits rest : Str} (hd : ∀ b ∈ digits, isAsciiDigit b = true) :
    (digits ++ slash :: rest).takeWhile isAsciiDigit = digits := by
  rw [List.takeWhile_append_of_pos hd,List.takeWhile_cons_of_neg (by decide),List.append_nil]

theorem digits_before_slash {text : Str} (h : text[(text.takeWhile isAsciiDigit).length]? = some slash) :
    ∃ digits rest, text = digits ++ slash :: rest ∧ ∀ b ∈ digits, isAsciiDigit b = true := by
  obtain ⟨hl,hs⟩ := List.getElem?_eq_some_iff.mp h
  have hcut : (text.takeWhile isAsciiDigit ++ text.dropWhile isAsciiDigit).drop
      (text.takeWhile isAsciiDigit).length = text.dropWhile isAsciiDigit := List.drop_left
  rw [List.takeWhile_append_dropWhile,List.drop_eq_getElem_cons hl,hs] at hcut
  refine ⟨text.takeWhile isAsciiDigit,text.drop ((text.takeWhile isAsciiDigit).length + 1),?_,
    fun b hb => List.mem_takeWhile_imp hb⟩
  rw [hcut,List.takeWhile_append_dropWhile]

theorem infix_behind_digits {digits rest : Str} (hd : ∀ b ∈ digits, isAsciiDigit b = true) :
    goBuildMarker <:+: utf8 "go-build" ++ (digits ++ rest) ↔ goBuildMarker <:+: rest := by
  have hc : goBuildMarker = slash :: utf8 "go-build" := by decide
  rw [hc,infix_append_of_head_not_mem (by decide),infix_append_of_head_not_mem fun hm =>
    absurd (hd slash hm) (by decide)]

/-- The rewritten value: the directory found from the right, with nothing like it behind. -/
theorem normalizeGoWorkPath_eq_some {path output : Str} :
    normalizeGoWorkPath path = some output ↔ ∃ root digits relative,
      WorkValue path root digits relative ∧ ¬ goBuildMarker <:+: slash :: relative ∧
        output = workPlaceholder ++ slash :: relative := by
  have hc : goBuildMarker = slash :: utf8 "go-build" := by decide
  constructor
  · intro h
    cases hr : rfind goBuildMarker path with
    | none => simp [normalizeGoWorkPath,hr] at h
    | some start =>
      simp only [normalizeGoWorkPath,hr,Option.bind_eq_bind,Option.bind_some] at h
      rw [hc,rfind_eq_some,← hc] at hr
      obtain ⟨root,back,rfl,rfl,hlast⟩ := hr
      have hb : (root ++ goBuildMarker ++ back).drop (root.length + goBuildMarker.length) = back := by
        rw [← List.length_append]
        exact List.drop_left
      rw [hb] at h
      split_ifs at h with hcond
      rw [not_or,not_not] at hcond
      obtain ⟨hne,hs⟩ := hcond
      obtain ⟨digits,relative,rfl,hd⟩ := digits_before_slash hs
      rw [takeWhile_digits hd,List.drop_left,Option.some.injEq] at h
      rw [takeWhile_digits hd,List.length_eq_zero_iff] at hne
      exact ⟨root,digits,relative,⟨(List.append_assoc _ _ _).symm,hne,hd⟩,
        by rwa [infix_behind_digits hd] at hlast,h.symm⟩
  · rintro ⟨root,digits,relative,⟨rfl,hne,hd⟩,hlast,rfl⟩
    have hr : rfind goBuildMarker (root ++ goBuildMarker ++ digits ++ slash :: relative) =
        some root.length := by
      rw [hc,rfind_eq_some,← hc]
      exact ⟨root,digits ++ slash :: relative,by simp,rfl,by rwa [infix_behind_digits hd]⟩
    have hb : (root ++ goBuildMarker ++ digits ++ slash :: relative).drop
        (root.length + goBuildMarker.length) = digits ++ slash :: relative := by
      rw [← List.length_append,List.append_assoc (root ++ goBuildMarker)]
      exact List.drop_left
    simp only [normalizeGoWorkPath,hr,Option.bind_eq_bind,Option.bind_some,hb,takeWhile_digits hd]
    rw [if_neg,List.drop_left]
    simp [hne]

def packageKeywords : List Str := [utf8 "packagefile ",utf8 "packageshlib "]

/-- A package line up to its first equals sign. -/
def PackageHead (head : Str) : Prop :=
  ∃ keyword ∈ packageKeywords, ∃ key, equalsSign ∉ key ∧ head = keyword ++ key ++ [equalsSign]

theorem packageRest_keyword {keyword : Str} (h : keyword ∈ packageKeywords) (rest : Str) :
    packageRest (keyword ++ rest) = some rest := by
  simp only [packageKeywords,List.mem_cons,List.not_mem_nil,or_false] at h
  rcases h with rfl | rfl
  · have hp : (utf8 "packagefile " ++ rest).dropPrefix? (utf8 "packagefile ") = some rest :=
      List.dropPrefix?_append_of_beq rest (by decide)
    simp [packageRest,hp]
  · have hp : (utf8 "packageshlib " ++ rest).dropPrefix? (utf8 "packageshlib ") = some rest :=
      List.dropPrefix?_append_of_beq rest (by decide)
    have hn : (utf8 "packageshlib " ++ rest).dropPrefix? (utf8 "packagefile ") = none := by
      rw [show utf8 "packageshlib " = utf8 "package" ++ 115 :: utf8 "hlib " by decide,
        show utf8 "packagefile " = utf8 "package" ++ 102 :: utf8 "ile " by decide]
      rfl
    simp [packageRest,hp,hn]

theorem keyword_of_packageRest {line rest : Str} (h : packageRest line = some rest) :
    ∃ keyword ∈ packageKeywords, line = keyword ++ rest := by
  simp only [packageRest,Option.or_eq_some_iff] at h
  rcases h with h | ⟨-,h⟩
  · obtain ⟨keyword,rfl,hk⟩ := List.dropPrefix?_eq_some_iff.mp h
    exact ⟨keyword,by rw [eq_of_beq hk]; simp [packageKeywords],rfl⟩
  · obtain ⟨keyword,rfl,hk⟩ := List.dropPrefix?_eq_some_iff.mp h
    exact ⟨keyword,by rw [eq_of_beq hk]; simp [packageKeywords],rfl⟩

theorem idxOf?_first {key rest : Str} (h : equalsSign ∉ key) :
    (key ++ equalsSign :: rest).idxOf? equalsSign = some key.length := by
  rw [List.idxOf?_eq_some_iff]
  refine ⟨by simp,by simp,fun j hj => ?_⟩
  rw [List.getElem_append_left hj]
  exact fun he => h (he ▸ List.getElem_mem hj)

/-- A package line is decided by its value. -/
theorem normalizeLine_package {head : Str} (h : PackageHead head) (value : Str) :
    normalizeLine (head ++ value) = match normalizeGoWorkPath value with
      | some work => some (head ++ work,true)
      | none => some (head ++ value,false) := by
  obtain ⟨keyword,hk,key,heq,rfl⟩ := h
  have hr : packageRest (keyword ++ key ++ [equalsSign] ++ value) =
      some (key ++ equalsSign :: value) := by
    rw [List.append_assoc,List.append_assoc,packageRest_keyword hk]
    simp
  have ho : (keyword ++ key ++ [equalsSign] ++ value).length - (key ++ equalsSign :: value).length +
      key.length + 1 = (keyword ++ key ++ [equalsSign]).length := by
    simp only [List.length_append,List.length_cons,List.length_nil]
    omega
  simp only [normalizeLine,hr,idxOf?_first heq,Option.bind_eq_bind,Option.bind_some,ho,List.drop_left,
    List.take_left]

/-- A line that is written out is a package line or is kept. -/
theorem normalizeLine_cases {line : Str} {output : Str × Bool} (h : normalizeLine line = some output) :
    (∃ head value, PackageHead head ∧ line = head ++ value) ∨
      output = (line,false) ∧ ∀ head value, PackageHead head → line ≠ head ++ value := by
  cases hr : packageRest line with
  | some rest =>
    obtain ⟨keyword,hk,rfl⟩ := keyword_of_packageRest hr
    cases he : rest.idxOf? equalsSign with
    | none => simp [normalizeLine,hr,he] at h
    | some i =>
      have hm : equalsSign ∈ rest := by
        by_contra hn
        rw [List.idxOf?_eq_none_iff.mpr hn] at he
        simp at he
      obtain ⟨key,value,rfl,hkey⟩ := List.eq_append_cons_of_mem hm
      exact Or.inl ⟨keyword ++ key ++ [equalsSign],value,⟨keyword,hk,key,hkey,rfl⟩,by simp⟩
  | none =>
    refine Or.inr ⟨?_,?_⟩
    · simp only [normalizeLine,hr] at h
      split_ifs at h
      exact (Option.some.inj h).symm
    · rintro head value ⟨keyword,hk,key,-,rfl⟩ rfl
      rw [List.append_assoc,List.append_assoc,packageRest_keyword hk] at hr
      simp at hr

theorem stripEnding_ended (line : Str) : stripEnding (line ++ [newline]) = (line,[newline]) := by
  have hs : (line ++ [newline]).dropSuffix? [newline] = some line := by
    rw [List.dropSuffix?_eq_some_iff]
    exact ⟨[newline],rfl,by simp⟩
  simp only [stripEnding,hs]

theorem stripEnding_last {line : Str} (h : newline ∉ line) : stripEnding line = (line,[]) := by
  cases hs : line.dropSuffix? [newline] with
  | none => simp only [stripEnding,hs]
  | some rest =>
    obtain ⟨s,rfl,he⟩ := List.dropSuffix?_eq_some_iff.mp hs
    obtain rfl := eq_of_beq he
    exact absurd (by simp) h

/-- The loop over the pieces writes out the lines one by one. -/
theorem foldlM_configStep {lines : List Str} (hne : lines ≠ []) (hn : ∀ line ∈ lines, newline ∉ line)
    (state : Str × Bool) : (endPieces newline lines).foldlM configStep state =
      (lines.mapM normalizeLine).map fun outputs =>
        (state.1 ++ [newline].intercalate (outputs.map Prod.fst),state.2 || outputs.any Prod.snd) := by
  induction lines generalizing state with
  | nil => exact absurd rfl hne
  | cons line lines ih =>
    cases lines with
    | nil =>
      by_cases h0 : line = []
      · subst h0
        have hempty : normalizeLine [] = some ([],false) := by decide
        simp [endPieces,hempty]
      · have hs := stripEnding_last (hn line (by simp))
        cases ho : normalizeLine line <;> simp [endPieces,h0,configStep,hs,ho]
    | cons next lines =>
      have hs := stripEnding_ended line
      have hrest := ih (by simp) fun l hl => hn l (List.mem_cons_of_mem _ hl)
      rw [endPieces_cons (by simp),List.foldlM_cons,List.mapM_cons]
      cases ho : normalizeLine line with
      | none => simp [configStep,hs,ho]
      | some output =>
        simp only [configStep,hs,ho,Option.bind_eq_bind,Option.bind_some,hrest]
        cases hm : (next :: lines).mapM normalizeLine with
        | none => simp
        | some outputs =>
          have ho : outputs ≠ [] := by
            rintro rfl
            simpa using mapM_eq_some.mp hm
          simp [List.intercalate_cons_of_ne_nil,ho,Bool.or_assoc]

theorem PackageHead.unique {head head' value value' : Str} (h : PackageHead head) (h' : PackageHead head')
    (he : head ++ value = head' ++ value') : head = head' ∧ value = value' := by
  have hfree : ∀ keyword ∈ packageKeywords, equalsSign ∉ keyword := by decide
  obtain ⟨keyword,hk,key,hkey,rfl⟩ := h
  obtain ⟨keyword',hk',key',hkey',rfl⟩ := h'
  simp only [List.append_assoc _ [equalsSign],List.singleton_append] at he
  obtain ⟨hf,hv⟩ := cut_at_first
    (fun hm => (List.mem_append.mp hm).elim (hfree keyword hk) hkey)
    (fun hm => (List.mem_append.mp hm).elim (hfree keyword' hk') hkey') he
  exact ⟨by rw [hf],hv⟩

/-- The work directory found from the right. -/
def Innermost (value root digits relative : Str) : Prop :=
  WorkValue value root digits relative ∧ ¬ goBuildMarker <:+: slash :: relative

/-- A line that is kept, with nothing to replace in its value. -/
def Kept (line : Str) : Prop :=
  ∀ head value, PackageHead head → line = head ++ value → normalizeGoWorkPath value = none

/-- What a line becomes. -/
theorem normalizeLine_spec {line written : Str} {changed : Bool}
    (h : normalizeLine line = some (written,changed)) :
    changed = false ∧ written = line ∧ Kept line ∨
      changed = true ∧ ∃ head value root digits relative, PackageHead head ∧ line = head ++ value ∧
        Innermost value root digits relative ∧
          written = head ++ (workPlaceholder ++ slash :: relative) := by
  rcases normalizeLine_cases h with ⟨head,value,hh,rfl⟩ | ⟨ho,hn⟩
  · rw [normalizeLine_package hh] at h
    cases hw : normalizeGoWorkPath value with
    | none =>
      simp only [hw,Option.some.injEq,Prod.mk.injEq] at h
      refine Or.inl ⟨h.2.symm,h.1.symm,fun head' value' hh' he => ?_⟩
      rwa [← (hh.unique hh' he).2]
    | some work =>
      simp only [hw,Option.some.injEq,Prod.mk.injEq] at h
      obtain ⟨root,digits,relative,hv,hlast,rfl⟩ := normalizeGoWorkPath_eq_some.mp hw
      exact Or.inr ⟨h.2.symm,head,value,root,digits,relative,hh,rfl,⟨hv,hlast⟩,h.1.symm⟩
  · obtain ⟨rfl,rfl⟩ := Prod.mk.inj ho
    exact Or.inl ⟨rfl,rfl,fun head value hh he => absurd he (hn head value hh)⟩

theorem newline_not_mem_written {line written : Str} {changed : Bool} (hn : newline ∉ line)
    (h : normalizeLine line = some (written,changed)) : newline ∉ written := by
  rcases normalizeLine_spec h with ⟨-,rfl,-⟩ | ⟨-,head,value,root,digits,relative,-,rfl,⟨⟨rfl,-⟩,-⟩,rfl⟩
  · exact hn
  · simp only [List.mem_append,List.mem_cons,not_or] at hn ⊢
    exact ⟨hn.1,by decide,hn.2.2⟩

theorem normalizeGoImportConfig_eq {contents : Str} (hu : isUtf8 contents = true) :
    normalizeGoImportConfig contents =
      ((contents.splitOn newline).mapM normalizeLine).bind fun outputs =>
        if outputs.any Prod.snd then some ([newline].intercalate (outputs.map Prod.fst)) else none := by
  have hfold := foldlM_configStep (List.splitOn_ne_nil newline contents)
    (fun line hl => not_mem_of_mem_splitOn hl) ([],false)
  simp only [normalizeGoImportConfig,splitInclusive,hu,if_true,Option.bind_eq_bind,Option.bind_some]
  rw [hfold]
  cases (contents.splitOn newline).mapM normalizeLine with
  | none => rfl
  | some outputs => simp only [Option.map_some,Option.bind_some,List.nil_append,Bool.false_or]

/-- A file is normalized line by line, and at least one line is rewritten. -/
theorem normalizeGoImportConfig_eq_some {contents output : Str} :
    normalizeGoImportConfig contents = some output ↔ isUtf8 contents = true ∧ ∃ outputs,
      List.Forall₂ (fun line out => normalizeLine line = some out) (contents.splitOn newline) outputs ∧
        output = [newline].intercalate (outputs.map Prod.fst) ∧ ∃ out ∈ outputs, out.2 = true := by
  by_cases hu : isUtf8 contents = true
  · simp only [normalizeGoImportConfig_eq hu,hu,true_and,← mapM_eq_some,Option.bind_eq_some_iff,
      ← List.any_eq_true,Option.ite_none_right_eq_some,Option.some.injEq]
    constructor
    · rintro ⟨outputs,hm,hany,he⟩
      exact ⟨outputs,hm,he.symm,hany⟩
    · rintro ⟨outputs,hm,he,hany⟩
      exact ⟨outputs,hm,hany,he.symm⟩
  · simp [normalizeGoImportConfig,hu]

theorem splitOn_written {contents : Str} {outputs : List (Str × Bool)}
    (h : List.Forall₂ (fun line out => normalizeLine line = some out) (contents.splitOn newline) outputs) :
    ([newline].intercalate (outputs.map Prod.fst)).splitOn newline = outputs.map Prod.fst := by
  apply List.splitOn_intercalate
  · intro written hw
    obtain ⟨⟨written,changed⟩,hmem,rfl⟩ := List.mem_map.mp hw
    obtain ⟨line,hline,hl⟩ := exists_of_mem_right h hmem
    exact newline_not_mem_written (not_mem_of_mem_splitOn hline) hl
  · intro h0
    rw [List.map_eq_nil_iff.mp h0] at h
    exact List.splitOn_ne_nil newline contents (List.forall₂_nil_right_iff.mp h)

end Repx.Identity
