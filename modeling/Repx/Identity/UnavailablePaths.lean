import Repx.Foundation.UnixPaths
import Repx.Identity.GoCacheEntry

/-! # Identities of unavailable files

A file that cannot be read is named by its path, in which the names of sessions, work
directories and compiler temporaries are replaced by placeholders.
-/
namespace Repx.Identity
open ByteString UnixPaths

def isAsciiAlphanumeric (byte : UInt8) : Bool :=
  isAsciiDigit byte || (65 ≤ byte && byte ≤ 90) || (97 ≤ byte && byte ≤ 122)

def isSessionTempComponent (component : Str) : Bool :=
  match component.dropPrefix? (utf8 "tmp.") with
  | some suffix => 6 ≤ suffix.length && suffix.all isAsciiAlphanumeric
  | none => false

def isGoWorkDirComponent (component : Str) : Bool :=
  match component.dropPrefix? (utf8 "go-build") with
  | some suffix => !suffix.isEmpty && suffix.all isAsciiDigit
  | none => false

/-- `split_once` at the first dot, with the whole text as the stem when there is none. -/
def splitExtension (component : Str) : Str × Option Str :=
  match component.idxOf? dot with
  | some i => (component.take i,some (component.drop (i + 1)))
  | none => (component,none)

def isGeneratedStem (stem : Str) : Bool :=
  ((utf8 "cc").isPrefixOf stem && 8 ≤ stem.length || (utf8 "rustc").isPrefixOf stem && 10 ≤ stem.length) &&
    stem.all isAsciiAlphanumeric

def sessionPlaceholder : Str := utf8 "<session>"

def goWorkPlaceholder : Str := utf8 "<go-work>"

def compilerTempPlaceholder : Option Str → Str
  | some extension => utf8 "<compiler-temp>" ++ [dot] ++ extension
  | none => utf8 "<compiler-temp>"

def normalizeCompilerTempComponent (component : Str) : Str :=
  let (stem,extension) := splitExtension component
  if isGeneratedStem stem then compilerTempPlaceholder extension else component

/-- A terminal of a session: digits behind the directory of terminals. -/
def isSessionTerminal (path : Str) : Bool :=
  (utf8 "/dev/pts/").isPrefixOf path && (path.drop 9).all isAsciiDigit

def isUnderTemp (path : Str) : Bool := (utf8 "/tmp/").isPrefixOf path || (utf8 "/var/tmp/").isPrefixOf path

def normalizeComponent (underTemp : Bool) (value : Str) : Str :=
  if underTemp && isSessionTempComponent value then sessionPlaceholder
  else if underTemp && isGoWorkDirComponent value then goWorkPlaceholder
  else if underTemp then normalizeCompilerTempComponent value
  else value

def normalizeUnavailablePath (path : Str) : Str :=
  if isSessionTerminal path then utf8 "/dev/pts/<session>"
  else collect ((parts path).map (normalizeComponent (isUnderTemp path)))

example : normalizeUnavailablePath (utf8 "/tmp/go-tmp/go-build123/ccABCDEF.s.d") =
    utf8 "/tmp/go-tmp/<go-work>/<compiler-temp>.s.d" := by decide +kernel

def IsCompilerTemp (component : Str) (extension : Option Str) : Prop :=
  isGeneratedStem (splitExtension component).1 = true ∧ (splitExtension component).2 = extension

/-- A component that one of the three recognizers takes. -/
def isRecognized (component : Str) : Bool :=
  isSessionTempComponent component || isGoWorkDirComponent component ||
    isGeneratedStem (splitExtension component).1

/-- Two temporaries that differ in what is random about them. -/
def SameTemporary (a b : Str) : Prop :=
  isSessionTempComponent a = true ∧ isSessionTempComponent b = true ∨
    isGoWorkDirComponent a = true ∧ isGoWorkDirComponent b = true ∨
      ∃ extension, IsCompilerTemp a extension ∧ IsCompilerTemp b extension

theorem normalizeComponent_of_not_recognized {underTemp : Bool} {name : Str}
    (h : (underTemp && isRecognized name) = false) : normalizeComponent underTemp name = name := by
  cases underTemp with
  | false => rfl
  | true =>
    simp only [Bool.true_and,isRecognized,Bool.or_eq_false_iff] at h
    simp [normalizeComponent,normalizeCompilerTempComponent,h]

/-- What a recognized component becomes, by the first recognizer that takes it. -/
theorem normalizeComponent_recognized {name : Str} (h : isRecognized name = true) :
    isSessionTempComponent name = true ∧ normalizeComponent true name = sessionPlaceholder ∨
      isGoWorkDirComponent name = true ∧ normalizeComponent true name = goWorkPlaceholder ∨
        ∃ extension, IsCompilerTemp name extension ∧
          normalizeComponent true name = compilerTempPlaceholder extension := by
  cases hs : isSessionTempComponent name with
  | true => exact Or.inl ⟨rfl,by simp [normalizeComponent,hs]⟩
  | false =>
    cases hg : isGoWorkDirComponent name with
    | true => exact Or.inr (Or.inl ⟨rfl,by simp [normalizeComponent,hs,hg]⟩)
    | false =>
      simp only [isRecognized,hs,hg,Bool.false_or] at h
      refine Or.inr (Or.inr ⟨(splitExtension name).2,⟨h,rfl⟩,?_⟩)
      simp [normalizeComponent,hs,hg,normalizeCompilerTempComponent,h]

theorem compilerTempPlaceholder_injective : Function.Injective compilerTempPlaceholder := by
  intro a b h
  have hlen : ∀ e : Str, utf8 "<compiler-temp>" ++ [dot] ++ e ≠ utf8 "<compiler-temp>" := by
    intro e he
    have hl := congrArg List.length he
    simp only [List.length_append,List.length_cons] at hl
    omega
  cases a <;> cases b <;> simp only [compilerTempPlaceholder] at h
  · rfl
  · exact absurd h.symm (hlen _)
  · exact absurd h (hlen _)
  · rw [List.append_cancel_left h]

theorem placeholders_apart (extension : Option Str) : sessionPlaceholder ≠ goWorkPlaceholder ∧
    sessionPlaceholder ≠ compilerTempPlaceholder extension ∧
      goWorkPlaceholder ≠ compilerTempPlaceholder extension := by
  have hsecond : (compilerTempPlaceholder extension)[1]? = some 99 := by
    cases extension <;> rfl
  refine ⟨by decide,fun h => ?_,fun h => ?_⟩ <;> rw [← h] at hsecond <;>
    exact absurd hsecond (by decide)

/-- Two recognized components with one placeholder are temporaries of one kind. -/
theorem sameTemporary_of_eq {a b : Str} (ha : isRecognized a = true) (hb : isRecognized b = true)
    (h : normalizeComponent true a = normalizeComponent true b) : SameTemporary a b := by
  rcases normalizeComponent_recognized ha with ⟨hka,hna⟩ | ⟨hka,hna⟩ | ⟨ea,hka,hna⟩
  · rcases normalizeComponent_recognized hb with ⟨hkb,hnb⟩ | ⟨hkb,hnb⟩ | ⟨eb,hkb,hnb⟩
    · exact Or.inl ⟨hka,hkb⟩
    · exact absurd (hna.symm.trans (h.trans hnb)) (placeholders_apart none).1
    · exact absurd (hna.symm.trans (h.trans hnb)) (placeholders_apart eb).2.1
  · rcases normalizeComponent_recognized hb with ⟨hkb,hnb⟩ | ⟨hkb,hnb⟩ | ⟨eb,hkb,hnb⟩
    · exact absurd (hnb.symm.trans (h.symm.trans hna)) (placeholders_apart none).1
    · exact Or.inr (Or.inl ⟨hka,hkb⟩)
    · exact absurd (hna.symm.trans (h.trans hnb)) (placeholders_apart eb).2.2
  · rcases normalizeComponent_recognized hb with ⟨hkb,hnb⟩ | ⟨hkb,hnb⟩ | ⟨eb,hkb,hnb⟩
    · exact absurd (hnb.symm.trans (h.symm.trans hna)) (placeholders_apart ea).2.1
    · exact absurd (hnb.symm.trans (h.symm.trans hna)) (placeholders_apart ea).2.2
    · obtain rfl := compilerTempPlaceholder_injective (hna.symm.trans (h.trans hnb))
      exact Or.inr (Or.inr ⟨ea,hka,hkb⟩)

/-- No recognizer takes a name that begins like a placeholder. -/
theorem isRecognized_angle (rest : Str) : isRecognized (60 :: rest) = false := by
  have hstem : isGeneratedStem (splitExtension (60 :: rest)).1 = false := by
    have halnum : ((splitExtension (60 :: rest)).1.all isAsciiAlphanumeric) = false := by
      cases hi : (60 :: rest).idxOf? dot with
      | none => simp [splitExtension,hi,show isAsciiAlphanumeric 60 = false by decide]
      | some i =>
        cases i with
        | zero =>
          have h0 := (List.idxOf?_eq_some_iff.mp hi).2.1
          simp [dot] at h0
        | succ i => simp [splitExtension,hi,show isAsciiAlphanumeric 60 = false by decide]
    simp [isGeneratedStem,halnum]
  have hs : isSessionTempComponent (60 :: rest) = false := rfl
  have hg : isGoWorkDirComponent (60 :: rest) = false := rfl
  simp [isRecognized,hs,hg,hstem]

theorem isRecognized_normalizeComponent (name : Str) :
    isRecognized (normalizeComponent true name) = false := by
  cases h : isRecognized name with
  | false => rw [normalizeComponent_of_not_recognized (by simp [h]),h]
  | true =>
    rcases normalizeComponent_recognized h with ⟨-,hn⟩ | ⟨-,hn⟩ | ⟨extension,-,hn⟩
    · rw [hn]
      exact isRecognized_angle _
    · rw [hn]
      exact isRecognized_angle _
    · rw [hn]
      cases extension <;> exact isRecognized_angle _

theorem extension_not_mem {component : Str} {extension : Str} {b : UInt8} (hb : b ∉ component)
    (h : (splitExtension component).2 = some extension) : b ∉ extension := by
  cases hi : component.idxOf? dot with
  | none => simp [splitExtension,hi] at h
  | some i =>
    simp only [splitExtension,hi,Option.some.injEq] at h
    exact fun hm => hb (List.mem_of_mem_drop (h ▸ hm))

/-- A name stays a name. -/
theorem isName_normalizeComponent (underTemp : Bool) {name : Str} (h : IsName name) :
    IsName (normalizeComponent underTemp name) := by
  cases hr : underTemp && isRecognized name with
  | false => rwa [normalizeComponent_of_not_recognized hr]
  | true =>
    rw [Bool.and_eq_true] at hr
    obtain ⟨rfl,hr⟩ := hr
    rcases normalizeComponent_recognized hr with ⟨-,hn⟩ | ⟨-,hn⟩ | ⟨extension,⟨-,he⟩,hn⟩
    · rw [hn]
      exact ⟨by decide,by decide,by decide⟩
    · rw [hn]
      exact ⟨by decide,by decide,by decide⟩
    · rw [hn]
      cases extension with
      | none => exact ⟨by decide,by decide,by decide⟩
      | some extension =>
        refine ⟨by simp [compilerTempPlaceholder],fun hm => ?_,fun hd => ?_⟩
        · rcases List.mem_append.mp hm with hm | hm
          · exact absurd hm (by decide)
          · exact extension_not_mem h.2.1 he hm
        · have hlen := congrArg List.length hd
          have htext : (utf8 "<compiler-temp>").length = 15 := by decide
          simp only [compilerTempPlaceholder,List.length_append,List.length_cons,List.length_nil] at hlen
          omega

theorem parted_normalized (underTemp : Bool) (path : Str) :
    Parted ((parts path).map (normalizeComponent underTemp)) :=
  (parts_parted path).map (by cases underTemp <;> decide) (by cases underTemp <;> decide)
    fun _ hn => isName_normalizeComponent underTemp hn

/-- The parts of the normal form. -/
def normalParts (path : Str) : List Str :=
  if isSessionTerminal path then [utf8 "/",utf8 "dev",utf8 "pts",utf8 "<session>"]
  else (parts path).map (normalizeComponent (isUnderTemp path))

theorem terminalParts_parted : Parted [utf8 "/",utf8 "dev",utf8 "pts",utf8 "<session>"] :=
  ⟨some .rootDir,by simp [IsLead],[utf8 "dev",utf8 "pts",utf8 "<session>"],by
    simp only [IsName]
    decide,by decide⟩

theorem normalParts_parted (path : Str) : Parted (normalParts path) := by
  simp only [normalParts]
  split_ifs
  · exact terminalParts_parted
  · exact parted_normalized _ path

theorem normalizeUnavailablePath_eq (path : Str) :
    normalizeUnavailablePath path = collect (normalParts path) := by
  simp only [normalizeUnavailablePath,normalParts]
  split_ifs
  · decide +kernel
  · rfl

theorem parts_normalizeUnavailablePath (path : Str) : parts (normalizeUnavailablePath path) = normalParts path := by
  rw [normalizeUnavailablePath_eq,(normalParts_parted path).parts_collect]

theorem normalizeUnavailablePath_eq_iff {p q : Str} :
    normalizeUnavailablePath p = normalizeUnavailablePath q ↔ normalParts p = normalParts q := by
  constructor
  · intro h
    rw [← parts_normalizeUnavailablePath,h,parts_normalizeUnavailablePath]
  · intro h
    rw [normalizeUnavailablePath_eq,h,normalizeUnavailablePath_eq]

/-- Paths that agree but for session terminals and temporaries. -/
def SamePath (p q : Str) : Prop :=
  isSessionTerminal p = true ∧ isSessionTerminal q = true ∨
    List.Forall₂ (fun a b => a = b ∨ isUnderTemp p = true ∧ isUnderTemp q = true ∧ SameTemporary a b)
      (parts p) (parts q)

/-- Terminals face terminals, and recognized temporaries face recognized temporaries. -/
def FacesAlike (p q : Str) : Prop :=
  isSessionTerminal p = true ∧ isSessionTerminal q = true ∨
    isSessionTerminal p = false ∧ isSessionTerminal q = false ∧
      ∀ pair ∈ (parts p).zip (parts q), (isUnderTemp p && isRecognized pair.1) =
        (isUnderTemp q && isRecognized pair.2)

theorem SameTemporary.recognized {a b : Str} (h : SameTemporary a b) :
    isRecognized a = true ∧ isRecognized b = true := by
  rcases h with ⟨ha,hb⟩ | ⟨ha,hb⟩ | ⟨_,⟨ha,-⟩,hb,-⟩ <;> simp [isRecognized,ha,hb]

/-- Two components with one normal form: alike when both recognizers agree. -/
theorem alike_iff {u v : Bool} {a b : Str} (h : normalizeComponent u a = normalizeComponent v b) :
    (a = b ∨ u = true ∧ v = true ∧ SameTemporary a b) ↔ (u && isRecognized a) = (v && isRecognized b) := by
  cases ha : u && isRecognized a with
  | true =>
    rw [Bool.and_eq_true] at ha
    obtain ⟨rfl,ha⟩ := ha
    cases hb : v && isRecognized b with
    | true =>
      rw [Bool.and_eq_true] at hb
      obtain ⟨rfl,hb⟩ := hb
      simp [sameTemporary_of_eq ha hb h]
    | false =>
      rw [normalizeComponent_of_not_recognized hb] at h
      have hnot := isRecognized_normalizeComponent a
      rw [h] at hnot
      refine iff_of_false ?_ (by simp)
      rintro (rfl | ⟨-,-,hs⟩)
      · rw [ha] at hnot
        simp at hnot
      · rw [hs.recognized.2] at hnot
        simp at hnot
  | false =>
    rw [normalizeComponent_of_not_recognized ha] at h
    cases hb : v && isRecognized b with
    | true =>
      rw [Bool.and_eq_true] at hb
      obtain ⟨rfl,hb⟩ := hb
      have hnot := isRecognized_normalizeComponent b
      rw [← h] at hnot
      refine iff_of_false ?_ (by simp)
      rintro (rfl | ⟨-,-,hs⟩)
      · rw [hb] at hnot
        simp at hnot
      · rw [hs.recognized.1] at hnot
        simp at hnot
    | false =>
      rw [normalizeComponent_of_not_recognized hb] at h
      simp [h]

/-- The parts of a session terminal. -/
theorem parts_terminal {path : Str} (h : isSessionTerminal path = true) :
    isUnderTemp path = false ∧ (parts path = [utf8 "/",utf8 "dev",utf8 "pts"] ∨
      ∃ digits, (∀ b ∈ digits, isAsciiDigit b = true) ∧
        parts path = [utf8 "/",utf8 "dev",utf8 "pts",digits]) := by
  simp only [isSessionTerminal,Bool.and_eq_true,List.isPrefixOf_iff_prefix,List.all_eq_true] at h
  obtain ⟨⟨digits,rfl⟩,hd⟩ := h
  rw [show 9 = (utf8 "/dev/pts/").length by decide,List.drop_left] at hd
  refine ⟨rfl,?_⟩
  have hp : utf8 "/dev/pts/" ++ digits = utf8 "/dev/pts" ++ separator :: digits := rfl
  rw [parts,hp,components_append_separator (by decide)]
  by_cases h0 : digits = []
  · subst h0
    exact Or.inl (by decide +kernel)
  · have hname : IsName digits := ⟨h0,fun hm => absurd (hd separator hm) (by decide),by
      rintro rfl
      exact absurd (hd dot (by simp)) (by decide)⟩
    refine Or.inr ⟨digits,hd,?_⟩
    rw [bodyComponents_name hname,List.map_append,List.map_singleton,asOsStr_ofName]
    rfl

theorem isRecognized_digits {digits : Str} (hd : ∀ b ∈ digits, isAsciiDigit b = true) :
    isRecognized digits = false := by
  cases digits with
  | nil => decide
  | cons b rest =>
    have hb := hd b (by simp)
    have hdot : (b :: rest).idxOf? dot = none :=
      List.idxOf?_eq_none_iff.mpr fun hm => absurd (hd dot hm) (by decide)
    have hletter : ∀ c, isAsciiDigit c = false → (b == c) = false := by
      intro c hc
      rw [beq_eq_false_iff_ne]
      rintro rfl
      rw [hb] at hc
      simp at hc
    have hs : isSessionTempComponent (b :: rest) = false := by
      have hp : (b :: rest).dropPrefix? (116 :: utf8 "mp.") = none := by
        simp [List.dropPrefix?,hletter 116 (by decide)]
      rw [isSessionTempComponent,show utf8 "tmp." = 116 :: utf8 "mp." by decide,hp]
    have hg : isGoWorkDirComponent (b :: rest) = false := by
      have hp : (b :: rest).dropPrefix? (103 :: utf8 "o-build") = none := by
        simp [List.dropPrefix?,hletter 103 (by decide)]
      rw [isGoWorkDirComponent,show utf8 "go-build" = 103 :: utf8 "o-build" by decide,hp]
    have hc : isGeneratedStem (b :: rest) = false := by
      have h99 := hletter 99 (by decide)
      have h114 := hletter 114 (by decide)
      rw [beq_eq_false_iff_ne] at h99 h114
      rw [isGeneratedStem,show utf8 "cc" = 99 :: utf8 "c" by decide,
        show utf8 "rustc" = 114 :: utf8 "ustc" by decide]
      simp [Ne.symm h99,Ne.symm h114]
    simp [isRecognized,hs,hg,splitExtension,hdot,hc]

/-- A terminal is spelled unlike any path with its normal form that is none. -/
theorem parts_ne_of_terminal {p q : Str} (hp : isSessionTerminal p = true)
    (hq : isSessionTerminal q = false) (h : normalParts p = normalParts q) : parts p ≠ parts q := by
  intro he
  simp only [normalParts,hp,hq,if_true,Bool.false_eq_true,if_false,← he] at h
  rcases (parts_terminal hp).2 with hparts | ⟨digits,hd,hparts⟩
  · rw [hparts] at h
    simp at h
  · rw [hparts] at h
    simp only [List.map_cons,List.map_nil,List.cons.injEq,and_true] at h
    have hlast := h.2.2.2
    rw [normalizeComponent_of_not_recognized (by simp [isRecognized_digits hd])] at hlast
    rw [← hlast] at hd
    exact absurd hd (by decide)

theorem forall₂_iff_of_map_eq {u v : Bool} {xs ys : List Str}
    (h : xs.map (normalizeComponent u) = ys.map (normalizeComponent v)) :
    List.Forall₂ (fun a b => a = b ∨ u = true ∧ v = true ∧ SameTemporary a b) xs ys ↔
      ∀ pair ∈ xs.zip ys, (u && isRecognized pair.1) = (v && isRecognized pair.2) := by
  have hf : List.Forall₂ (fun a b => normalizeComponent u a = normalizeComponent v b) xs ys := by
    rw [← List.forall₂_eq_eq_eq] at h
    rwa [List.forall₂_map_left_iff,List.forall₂_map_right_iff] at h
  rw [List.forall₂_iff_zip]
  constructor
  · rintro ⟨-,ha⟩ ⟨a,b⟩ hm
    exact (alike_iff (List.forall₂_zip hf hm)).mp (ha hm)
  · exact fun ha => ⟨hf.length_eq,fun {a b} hm => (alike_iff (List.forall₂_zip hf hm)).mpr (ha _ hm)⟩

theorem samePath_iff {p q : Str} (h : normalParts p = normalParts q) : SamePath p q ↔ FacesAlike p q := by
  have alone {a b : Str} (ha : isSessionTerminal a = true) (hb : isSessionTerminal b = false)
      (hab : normalParts a = normalParts b) {r : Str → Str → Prop}
      (hr : List.Forall₂ r (parts a) (parts b)) : ¬ ∀ x y, r x y → x = y := by
    intro heq
    have he := hr.imp heq
    rw [List.forall₂_eq_eq_eq] at he
    exact parts_ne_of_terminal ha hb hab he
  cases hp : isSessionTerminal p with
  | true =>
    cases hq : isSessionTerminal q with
    | true => simp [SamePath,FacesAlike,hp,hq]
    | false =>
      refine iff_of_false ?_ (by simp [FacesAlike,hp,hq])
      rintro (⟨-,hq'⟩ | hf)
      · rw [hq] at hq'
        simp at hq'
      · refine alone hp hq h hf ?_
        rintro x y (rfl | ⟨hu,-,-⟩)
        · rfl
        · rw [(parts_terminal hp).1] at hu
          simp at hu
  | false =>
    cases hq : isSessionTerminal q with
    | true =>
      refine iff_of_false ?_ (by simp [FacesAlike,hp,hq])
      rintro (⟨hp',-⟩ | hf)
      · rw [hp] at hp'
        simp at hp'
      · refine alone hq hp h.symm hf.flip ?_
        rintro x y (rfl | ⟨-,hu,-⟩)
        · rfl
        · rw [(parts_terminal hq).1] at hu
          simp at hu
    | false =>
      simp only [normalParts,hp,hq,Bool.false_eq_true,if_false] at h
      simp only [SamePath,FacesAlike,hp,hq,Bool.false_eq_true,false_and,false_or,true_and]
      exact forall₂_iff_of_map_eq h

/-- The parts of a path under a directory of temporaries. -/
def TempParts (texts : List Str) : Prop :=
  [utf8 "/",utf8 "tmp"] <+: texts ∨ [utf8 "/",utf8 "var",utf8 "tmp"] <+: texts

theorem parts_underTemp {path : Str} (h : isUnderTemp path = true) : TempParts (parts path) := by
  simp only [isUnderTemp,Bool.or_eq_true,List.isPrefixOf_iff_prefix] at h
  rcases h with ⟨rest,rfl⟩ | ⟨rest,rfl⟩
  · refine Or.inl ⟨(bodyComponents rest).map Component.asOsStr,?_⟩
    have hp : utf8 "/tmp/" ++ rest = utf8 "/tmp" ++ separator :: rest := rfl
    rw [parts,hp,components_append_separator (by decide),List.map_append]
    rfl
  · refine Or.inr ⟨(bodyComponents rest).map Component.asOsStr,?_⟩
    have hp : utf8 "/var/tmp/" ++ rest = utf8 "/var/tmp" ++ separator :: rest := rfl
    rw [parts,hp,components_append_separator (by decide),List.map_append]
    rfl

/-- A path built of the parts of one under a directory of temporaries, with something in it. -/
theorem isUnderTemp_collect {texts : List Str} (h : Parted texts) (ht : TempParts texts)
    (hr : ∃ a ∈ texts, isRecognized a = true) : isUnderTemp (collect texts) = true := by
  obtain ⟨a,hm,ha⟩ := hr
  simp only [isUnderTemp,Bool.or_eq_true,List.isPrefixOf_iff_prefix]
  rcases ht with ⟨rest,rfl⟩ | ⟨rest,rfl⟩
  · cases rest with
    | nil => exact absurd ha ((by decide : ∀ b ∈ [utf8 "/",utf8 "tmp"], ¬ isRecognized b = true) a hm)
    | cons x rest =>
      have hn : ∀ n ∈ x :: rest, IsName n := fun n hm =>
        Parted.names_of_root h n (List.mem_cons_of_mem _ hm)
      have hp := separator_prefix_collect (by decide : collect [utf8 "/",utf8 "tmp"] = utf8 "/tmp")
        (by decide) (by decide) hn
      exact Or.inl (List.IsPrefix.trans ⟨x,rfl⟩ hp)
  · cases rest with
    | nil =>
      exact absurd ha ((by decide : ∀ b ∈ [utf8 "/",utf8 "var",utf8 "tmp"], ¬ isRecognized b = true) a hm)
    | cons x rest =>
      have hn : ∀ n ∈ x :: rest, IsName n := fun n hm =>
        Parted.names_of_root h n (List.mem_cons_of_mem _ (List.mem_cons_of_mem _ hm))
      have hp := separator_prefix_collect
        (by decide : collect [utf8 "/",utf8 "var",utf8 "tmp"] = utf8 "/var/tmp") (by decide) (by decide) hn
      exact Or.inr (List.IsPrefix.trans ⟨x,rfl⟩ hp)

/-- A path whose text hides from the tests what its components are. -/
def Disguised (path : Str) : Prop :=
  isSessionTerminal path = false ∧ isUnderTemp path = false ∧
    ((∃ digits, (∀ b ∈ digits, isAsciiDigit b = true) ∧
      parts path = [utf8 "/",utf8 "dev",utf8 "pts",digits]) ∨
      TempParts (parts path) ∧ ∃ a ∈ parts path, isRecognized a = true)

theorem normalizeComponent_eq_self {u : Bool} {a : Str} :
    normalizeComponent u a = a ↔ (u && isRecognized a) = false := by
  constructor
  · intro h
    cases ha : u && isRecognized a with
    | false => rfl
    | true =>
      rw [Bool.and_eq_true] at ha
      obtain ⟨rfl,ha⟩ := ha
      have hnot := isRecognized_normalizeComponent a
      rw [h,ha] at hnot
      simp at hnot
  · exact normalizeComponent_of_not_recognized

theorem map_normalizeComponent_eq_self {u : Bool} {texts : List Str} :
    texts.map (normalizeComponent u) = texts ↔ ∀ a ∈ texts, (u && isRecognized a) = false := by
  have hid : texts.map (normalizeComponent u) = texts.map id ↔ ∀ a ∈ texts, normalizeComponent u a = id a :=
    List.map_inj_left
  rw [List.map_id] at hid
  exact hid.trans (forall₂_congr fun a _ => normalizeComponent_eq_self)

/-- Normalizing a path that was built of its parts. -/
theorem normalizeUnavailablePath_collect {texts : List Str} (h : Parted texts) :
    normalizeUnavailablePath (collect texts) = collect texts ↔ isSessionTerminal (collect texts) = false ∧
      ∀ a ∈ texts, (isUnderTemp (collect texts) && isRecognized a) = false := by
  have hp := h.parts_collect
  have hcollect : normalizeUnavailablePath (collect texts) = collect texts ↔
      normalParts (collect texts) = texts := by
    constructor
    · intro he
      rw [← parts_normalizeUnavailablePath,he,hp]
    · intro he
      rw [normalizeUnavailablePath_eq,he]
  rw [hcollect,normalParts,hp]
  cases ht : isSessionTerminal (collect texts) with
  | true =>
    refine iff_of_false ?_ (by simp)
    intro he
    have hparts := (parts_terminal ht).2
    rw [hp,← he] at hparts
    rcases hparts with hparts | ⟨digits,hd,hparts⟩
    · simp at hparts
    · simp only [if_true,List.cons.injEq,and_true,true_and] at hparts
      rw [← hparts] at hd
      exact absurd hd (by decide)
  | false =>
    simp only [Bool.false_eq_true,if_false,true_and]
    exact map_normalizeComponent_eq_self

theorem isSessionTerminal_collect {texts : List Str} (h : Parted texts) :
    isSessionTerminal (collect texts) = true ↔ ∃ digits, (∀ b ∈ digits, isAsciiDigit b = true) ∧
      texts = [utf8 "/",utf8 "dev",utf8 "pts",digits] := by
  constructor
  · intro ht
    have hparts := (parts_terminal ht).2
    rw [h.parts_collect] at hparts
    rcases hparts with rfl | hparts
    · exact absurd ht (by decide)
    · exact hparts
  · rintro ⟨digits,hd,rfl⟩
    have hname := Parted.names_of_root h digits (by simp)
    have hc : collect [utf8 "/",utf8 "dev",utf8 "pts",digits] = utf8 "/dev/pts/" ++ digits := by
      have hdir : collect [utf8 "/",utf8 "dev",utf8 "pts"] = utf8 "/dev/pts" := by decide
      have hl := collect_concat [utf8 "/",utf8 "dev",utf8 "pts"] digits
      rw [hdir,push,isAbsolute_name hname.2.1,if_neg (by simp),if_neg (by decide)] at hl
      exact hl
    have hdrop : (utf8 "/dev/pts/" ++ digits).drop 9 = digits := rfl
    rw [hc,isSessionTerminal,hdrop,Bool.and_eq_true,List.isPrefixOf_iff_prefix,List.all_eq_true]
    exact ⟨List.prefix_append _ _,hd⟩

theorem not_terminal_of_tempParts {texts : List Str} (h : TempParts texts) (f : Str → Str)
    (htmp : f (utf8 "tmp") = utf8 "tmp") (hvar : f (utf8 "var") = utf8 "var") (digits : Str) :
    texts.map f ≠ [utf8 "/",utf8 "dev",utf8 "pts",digits] := by
  intro he
  rcases h with ⟨rest,rfl⟩ | ⟨rest,rfl⟩ <;>
    simp only [List.cons_append,List.nil_append,List.map_cons,List.cons.injEq,htmp,hvar] at he <;>
      exact absurd he.2.1 (by decide)

/-- Normalizing again changes the path exactly where its text was a disguise. -/
theorem normalizeUnavailablePath_idempotent_iff (path : Str) :
    normalizeUnavailablePath (normalizeUnavailablePath path) = normalizeUnavailablePath path ↔
      ¬ Disguised path := by
  have hparted := normalParts_parted path
  rw [normalizeUnavailablePath_eq path,normalizeUnavailablePath_collect hparted,
    ← Bool.not_eq_true,isSessionTerminal_collect hparted]
  cases ht : isSessionTerminal path with
  | true =>
    have hn : normalParts path = [utf8 "/",utf8 "dev",utf8 "pts",utf8 "<session>"] := by
      simp [normalParts,ht]
    rw [hn]
    refine iff_of_true ⟨?_,by decide⟩ (by simp [Disguised,ht])
    rintro ⟨digits,hd,he⟩
    simp only [List.cons.injEq,and_true,true_and] at he
    rw [← he] at hd
    exact absurd hd (by decide)
  | false =>
    have hn : normalParts path = (parts path).map (normalizeComponent (isUnderTemp path)) := by
      simp [normalParts,ht]
    cases hu : isUnderTemp path with
    | true =>
      rw [hn,hu]
      refine iff_of_true ⟨?_,?_⟩ (by simp [Disguised,hu])
      · rintro ⟨digits,-,he⟩
        exact not_terminal_of_tempParts (parts_underTemp hu) _ (by decide) (by decide) digits he
      · intro a ha
        obtain ⟨name,-,rfl⟩ := List.mem_map.mp ha
        rw [isRecognized_normalizeComponent,Bool.and_false]
    | false =>
      have hself : (parts path).map (normalizeComponent false) = parts path :=
        map_normalizeComponent_eq_self.mpr fun a _ => rfl
      rw [hn,hu,hself]
      have hpp := parts_parted path
      simp only [Disguised,ht,hu,true_and,not_or]
      refine and_congr_right fun _ => ?_
      constructor
      · rintro h ⟨htemp,a,ha,hr⟩
        have hunder := isUnderTemp_collect hpp htemp ⟨a,ha,hr⟩
        have hfalse := h a ha
        rw [hunder,hr] at hfalse
        simp at hfalse
      · intro h a ha
        rw [Bool.eq_false_iff]
        intro hand
        rw [Bool.and_eq_true] at hand
        have htemp := parts_underTemp hand.1
        rw [hpp.parts_collect] at htemp
        exact h ⟨htemp,a,ha,hand.2⟩

/-- Two paths with one normal form agree up to temporaries when and only when terminals and
temporaries face their like, and the normal form is stable unless the path was disguised. -/
theorem normalizeUnavailablePath_binds_iff (p q : Str) :
    (normalizeUnavailablePath p = normalizeUnavailablePath q → (SamePath p q ↔ FacesAlike p q)) ∧
    (normalizeUnavailablePath (normalizeUnavailablePath p) = normalizeUnavailablePath p ↔ ¬ Disguised p) :=
  ⟨fun h => samePath_iff (normalizeUnavailablePath_eq_iff.mp h),
    normalizeUnavailablePath_idempotent_iff p⟩

/-- A spelled placeholder is confused with a session, and a doubled slash hides a temporary at first. -/
theorem placeholder_path_collides :
    normalizeUnavailablePath (utf8 "/tmp/tmp.ABCDEF/x") = normalizeUnavailablePath (utf8 "/tmp/<session>/x") ∧
    ¬ SamePath (utf8 "/tmp/tmp.ABCDEF/x") (utf8 "/tmp/<session>/x") ∧
    normalizeUnavailablePath (normalizeUnavailablePath (utf8 "//tmp/ccABCDEF.s")) ≠
      normalizeUnavailablePath (utf8 "//tmp/ccABCDEF.s") := by
  have heq : normalizeUnavailablePath (utf8 "/tmp/tmp.ABCDEF/x") =
      normalizeUnavailablePath (utf8 "/tmp/<session>/x") := by decide +kernel
  refine ⟨heq,?_,by decide +kernel⟩
  rw [samePath_iff (normalizeUnavailablePath_eq_iff.mp heq)]
  rintro (⟨hp,-⟩ | ⟨-,-,h⟩)
  · exact absurd hp (by decide +kernel)
  · have hpair : (utf8 "tmp.ABCDEF",utf8 "<session>") ∈
        (parts (utf8 "/tmp/tmp.ABCDEF/x")).zip (parts (utf8 "/tmp/<session>/x")) := by decide +kernel
    exact absurd (h _ hpair) (by decide +kernel)

end Repx.Identity
