import Repx.Identity.UnavailablePaths
import Repx.Identity.WorkRoots
import Repx.Trace.FileIdentity

/-! # Content identities of observed files

A regular file is hashed raw, as a normalized import configuration, or as a normalized
cache entry. The form is chosen by the path, the size and what the contents parse as.
-/
namespace Repx.Identity
open ByteString Utf8 Sha256 UnixPaths TextSearch
open Trace (FileObservation)

structure Metadata where
  isFile : Bool
  len : ℕ

inductive ErrorKind where
  | notFound
  | other
deriving DecidableEq

/-- What the system answers about an open file: its metadata, whether each of the three seeks to
the start succeeds, and what is read after each of them. -/
structure OpenFile where
  metadata : Except ErrorKind Metadata
  seek : Fin 3 → Bool
  read : Fin 3 → Option Str

def maxNormalizedControlFileSize : ℕ := 16 * 1024 * 1024

def goCacheEntrySize : ℕ := 175

def isGoImportConfigPath (path : Str) : Bool :=
  (fileName path == some (utf8 "importcfg") || fileName path == some (utf8 "importcfg.link")) &&
    (parts path).any isGoWorkDirComponent

def isGoCacheEntryPath (path : Str) : Bool :=
  match (fileName path).bind (·.dropSuffix? (utf8 "-a")) with
  | some hash => hash.length == 64 && hash.all isLowerHex &&
      (parent path).bind fileName == some (hash.take 2)
  | none => false

section Observation
variable (digest : Str → Digest)

def hashPath (path : Str) : Str :=
  digestText (digest (utf8 "repx-path-v1" ++ [0] ++ normalizeUnavailablePath path))

def importConfigTag : Str := utf8 "repx-go-importcfg-v1" ++ [0]

def cacheEntryTag : Str := utf8 "repx-go-cache-entry-v1" ++ [0]

/-- The contents hashed as they are. -/
def observeRaw (file : OpenFile) (path : Str) : FileObservation :=
  match file.read 2 with
  | some contents => .content (digestText (digest contents))
  | none => .unreadable (hashPath digest path)

/-- From the second special form on; `none` when reading the entry panics. -/
def observeEntry (file : OpenFile) (path : Str) (len : ℕ) : Option FileObservation :=
  if len = goCacheEntrySize ∧ isGoCacheEntryPath path = true then
    match file.read 1 with
    | none => some (.unreadable (hashPath digest path))
    | some contents =>
      match normalizeGoCacheEntry contents with
      | .ok normalized => some (.content (digestText (digest (cacheEntryTag ++ normalized))))
      | .error .panicked => none
      | .error .rejected =>
        if file.seek 2 then some (observeRaw digest file path)
        else some (.unreadable (hashPath digest path))
  else some (observeRaw digest file path)

def observeFile (file : OpenFile) (path : Str) : Option FileObservation :=
  match file.metadata with
  | .error .notFound => some (.missing (hashPath digest path))
  | .error .other => some (.unreadable (hashPath digest path))
  | .ok metadata =>
    if !metadata.isFile then some (.nonRegular (hashPath digest path))
    else if !file.seek 0 then some (.unreadable (hashPath digest path))
    else if metadata.len ≤ maxNormalizedControlFileSize ∧ isGoImportConfigPath path = true then
      match file.read 0 with
      | none => some (.unreadable (hashPath digest path))
      | some contents =>
        match normalizeGoImportConfig contents with
        | some normalized => some (.content (digestText (digest (importConfigTag ++ normalized))))
        | none =>
          if file.seek 1 then observeEntry digest file path metadata.len
          else some (.unreadable (hashPath digest path))
    else observeEntry digest file path metadata.len

end Observation

/-- Every reading that succeeds yields the contents. -/
def OpenFile.Reads (file : OpenFile) (contents : Str) : Prop := ∀ i read, file.read i = some read → read = contents

/-- A file of which every question is answered. -/
def OpenFile.whole (contents : Str) : OpenFile :=
  ⟨.ok ⟨true,contents.length⟩,fun _ => true,fun _ => some contents⟩

/-- The form in which contents are hashed. -/
inductive HashedForm where
  | raw
  | importConfig (normalized : Str)
  | cacheEntry (normalized : Str)
deriving DecidableEq

def entryForm (len : ℕ) (path contents : Str) : HashedForm :=
  if len = goCacheEntrySize ∧ isGoCacheEntryPath path = true then
    match normalizeGoCacheEntry contents with
    | .ok normalized => .cacheEntry normalized
    | .error _ => .raw
  else .raw

def hashedForm (len : ℕ) (path contents : Str) : HashedForm :=
  if len ≤ maxNormalizedControlFileSize ∧ isGoImportConfigPath path = true then
    match normalizeGoImportConfig contents with
    | some normalized => .importConfig normalized
    | none => entryForm len path contents
  else entryForm len path contents

/-- The bytes that are hashed. -/
def HashedForm.preimage (contents : Str) : HashedForm → Str
  | raw => contents
  | importConfig normalized => importConfigTag ++ normalized
  | cacheEntry normalized => cacheEntryTag ++ normalized

variable {digest : Str → Digest}

theorem observeRaw_content {file : OpenFile} {path contents id : Str} (hr : file.Reads contents)
    (h : observeRaw digest file path = .content id) : id = digestText (digest contents) := by
  simp only [observeRaw] at h
  split at h
  · rename_i read hread
    rw [hr 2 read hread] at h
    exact (FileObservation.content.inj h).symm
  · simp at h

theorem observeEntry_content {file : OpenFile} {path contents id : Str} {len : ℕ}
    (hr : file.Reads contents) (h : observeEntry digest file path len = some (.content id)) :
    id = digestText (digest ((entryForm len path contents).preimage contents)) := by
  simp only [observeEntry] at h
  simp only [entryForm]
  by_cases hc : len = goCacheEntrySize ∧ isGoCacheEntryPath path = true
  · rw [if_pos hc] at h ⊢
    cases hread : file.read 1 with
    | none => simp [hread] at h
    | some read =>
      obtain rfl := hr 1 read hread
      simp only [hread] at h
      cases hn : normalizeGoCacheEntry read with
      | ok normalized =>
        simp only [hn,Option.some.injEq,FileObservation.content.injEq] at h
        exact h.symm
      | error stop =>
        cases stop with
        | panicked => simp [hn] at h
        | rejected =>
          simp only [hn] at h
          by_cases hs : file.seek 2 = true
          · rw [if_pos hs] at h
            exact observeRaw_content hr (Option.some.inj h)
          · simp [hs] at h
  · rw [if_neg hc] at h ⊢
    exact observeRaw_content hr (Option.some.inj h)

/-- A content identity is the digest of what the form of the file has hashed. -/
theorem observeFile_content {file : OpenFile} {metadata : Metadata} {path contents id : Str}
    (hm : file.metadata = .ok metadata) (hr : file.Reads contents)
    (h : observeFile digest file path = some (.content id)) :
    id = digestText (digest ((hashedForm metadata.len path contents).preimage contents)) := by
  simp only [observeFile,hm] at h
  simp only [hashedForm]
  by_cases hf : metadata.isFile = true
  case neg => simp [hf] at h
  by_cases hs : file.seek 0 = true
  case neg => simp [hf,hs] at h
  rw [if_neg (by simp [hf]),if_neg (by simp [hs])] at h
  by_cases hc : metadata.len ≤ maxNormalizedControlFileSize ∧ isGoImportConfigPath path = true
  · rw [if_pos hc] at h ⊢
    cases hread : file.read 0 with
    | none => simp [hread] at h
    | some read =>
      obtain rfl := hr 0 read hread
      simp only [hread] at h
      cases hn : normalizeGoImportConfig read with
      | some normalized =>
        simp only [hn,Option.some.injEq,FileObservation.content.injEq] at h
        exact h.symm
      | none =>
        simp only [hn] at h
        by_cases hs1 : file.seek 1 = true
        · rw [if_pos hs1] at h
          exact observeEntry_content hr h
        · simp [hs1] at h
  · rw [if_neg hc] at h ⊢
    exact observeEntry_content hr h

theorem tags_apart (a b : Str) : importConfigTag ++ a ≠ cacheEntryTag ++ b := by
  intro h
  have hi : (importConfigTag ++ a)[8]? = some 105 := rfl
  have hc : (cacheEntryTag ++ b)[8]? = some 99 := rfl
  rw [h,hc] at hi
  exact absurd hi (by decide)

/-- A file that answers every question is observed in its form, unless the entry panics. -/
theorem observeFile_whole (digest : Str → Digest) (path : Str) {contents : Str}
    (h : normalizeGoCacheEntry contents ≠ .error .panicked) :
    observeFile digest (.whole contents) path =
      some (.content (digestText (digest ((hashedForm contents.length path contents).preimage contents)))) := by
  have hentry : observeEntry digest (.whole contents) path contents.length = some (.content (digestText
      (digest ((entryForm contents.length path contents).preimage contents)))) := by
    simp only [observeEntry,entryForm,OpenFile.whole]
    split_ifs
    · cases hn : normalizeGoCacheEntry contents with
      | ok n => rfl
      | error stop =>
        cases stop with
        | rejected => rfl
        | panicked => exact absurd hn h
    · rfl
  simp only [observeFile,hashedForm,OpenFile.whole,Bool.not_true,Bool.false_eq_true,if_false]
  by_cases hc : contents.length ≤ maxNormalizedControlFileSize ∧ isGoImportConfigPath path = true
  · simp only [if_pos hc]
    cases normalizeGoImportConfig contents with
    | some n => rfl
    | none => exact hentry
  · simp only [if_neg hc]
    exact hentry

/-- The digests collide; or the contents are equal or one normalizer gave both the same text, and
neither is hashed raw where the other is normalized. -/
def Separated (digest : Str → Digest) (contents contents' : Str) (form form' : HashedForm) : Prop :=
  Collision digest [form.preimage contents,form'.preimage contents'] ∨
    (contents = contents' ∨ (∃ n, form = .importConfig n ∧ form' = .importConfig n) ∨
      ∃ n, form = .cacheEntry n ∧ form' = .cacheEntry n) ∧ (form = .raw ↔ form' = .raw)

/-- Contents hashed raw that spell out the tag and the normal form of a normalized file. -/
def Crafted (contents : Str) (form form' : HashedForm) : Prop :=
  form = .raw ∧ ∃ n, form' = .importConfig n ∧ contents = importConfigTag ++ n ∨
    form' = .cacheEntry n ∧ contents = cacheEntryTag ++ n

theorem Crafted.preimage_eq {contents contents' : Str} {form form' : HashedForm}
    (h : Crafted contents form form') :
    form.preimage contents = form'.preimage contents' ∧ ¬ (form = .raw ↔ form' = .raw) := by
  obtain ⟨rfl,n,⟨rfl,rfl⟩ | ⟨rfl,rfl⟩⟩ := h
  · exact ⟨rfl,by simp⟩
  · exact ⟨rfl,by simp⟩

/-- Two files of which one is crafted from the other are not separated. -/
theorem not_separated_of_crafted {contents contents' : Str} {form form' : HashedForm}
    (h : form.preimage contents = form'.preimage contents' ∧ ¬ (form = .raw ↔ form' = .raw)) :
    ¬ Separated digest contents contents' form form' := by
  rintro (⟨x,hx,y,hy,hne,-⟩ | ⟨-,hraw⟩)
  · rw [h.1] at hx hy
    simp only [List.mem_cons,List.not_mem_nil,or_false,or_self] at hx hy
    exact hne (hx.trans hy.symm)
  · exact h.2 hraw

/-- Two files with one preimage are hashed alike, unless one is crafted from the other. -/
theorem separated_of_preimage_eq {contents contents' : Str} {form form' : HashedForm}
    (hp : form.preimage contents = form'.preimage contents') (hc : ¬ Crafted contents form form')
    (hc' : ¬ Crafted contents' form' form) : Separated digest contents contents' form form' := by
  cases form with
  | raw =>
    cases form' with
    | raw => exact Or.inr ⟨Or.inl hp,Iff.rfl⟩
    | importConfig n => exact absurd ⟨rfl,n,Or.inl ⟨rfl,hp⟩⟩ hc
    | cacheEntry n => exact absurd ⟨rfl,n,Or.inr ⟨rfl,hp⟩⟩ hc
  | importConfig n =>
    cases form' with
    | raw => exact absurd ⟨rfl,n,Or.inl ⟨rfl,hp.symm⟩⟩ hc'
    | importConfig n' =>
      rw [List.append_cancel_left hp]
      exact Or.inr ⟨Or.inr (Or.inl ⟨n',rfl,rfl⟩),by simp⟩
    | cacheEntry n' => exact absurd hp (tags_apart n n')
  | cacheEntry n =>
    cases form' with
    | raw => exact absurd ⟨rfl,n,Or.inr ⟨rfl,hp.symm⟩⟩ hc'
    | importConfig n' => exact absurd hp.symm (tags_apart n' n)
    | cacheEntry n' =>
      rw [List.append_cancel_left hp]
      exact Or.inr ⟨Or.inr (Or.inr ⟨n',rfl,rfl⟩),by simp⟩

/-- Two files with one content identity are separated exactly when neither is a raw text crafted
from the normal form of the other. -/
theorem contentIdentity_separated_iff {file file' : OpenFile} {metadata metadata' : Metadata}
    {path path' contents contents' id : Str} (hm : file.metadata = .ok metadata)
    (hm' : file'.metadata = .ok metadata') (hr : file.Reads contents) (hr' : file'.Reads contents')
    (h : observeFile digest file path = some (.content id))
    (h' : observeFile digest file' path' = some (.content id)) :
    Separated digest contents contents' (hashedForm metadata.len path contents)
        (hashedForm metadata'.len path' contents') ↔
      ¬ Crafted contents (hashedForm metadata.len path contents) (hashedForm metadata'.len path' contents') ∧
      ¬ Crafted contents' (hashedForm metadata'.len path' contents') (hashedForm metadata.len path contents) := by
  have hd : digest ((hashedForm metadata.len path contents).preimage contents) =
      digest ((hashedForm metadata'.len path' contents').preimage contents') :=
    digestText_injective ((observeFile_content hm hr h).symm.trans (observeFile_content hm' hr' h'))
  constructor
  · refine fun hs => ⟨fun hc => not_separated_of_crafted hc.preimage_eq hs,fun hc => ?_⟩
    obtain ⟨hp,hraw⟩ := hc.preimage_eq
    exact not_separated_of_crafted ⟨hp.symm,fun he => hraw he.symm⟩ hs
  · rintro ⟨hc,hc'⟩
    by_cases hp : (hashedForm metadata.len path contents).preimage contents =
      (hashedForm metadata'.len path' contents').preimage contents'
    · exact separated_of_preimage_eq hp hc hc'
    · exact Or.inl ⟨_,by simp,_,by simp,hp,hd⟩

theorem OpenFile.whole_reads (contents : Str) : (OpenFile.whole contents).Reads contents :=
  fun _ _ h => (Option.some.inj h).symm

def configPath : Str := utf8 "/t/go-build1/b001/importcfg"

def outputPath : Str := utf8 "/t/out"

/-- A text that spells out what is hashed for an import configuration. -/
def craftedContents : Str := importConfigTag ++ commonConfig

theorem hashedForm_config : hashedForm workRootConfig.length configPath workRootConfig =
    .importConfig commonConfig := by
  decide +kernel

theorem hashedForm_crafted : hashedForm craftedContents.length outputPath craftedContents = .raw := by
  decide +kernel

theorem craftedContents_collides : craftedContents ≠ workRootConfig ∧ ∀ digest : Str → Digest, ∃ id,
    observeFile digest (.whole craftedContents) outputPath = some (.content id) ∧
    observeFile digest (.whole workRootConfig) configPath = some (.content id) ∧
    ¬ Separated digest craftedContents workRootConfig
      (hashedForm craftedContents.length outputPath craftedContents)
      (hashedForm workRootConfig.length configPath workRootConfig) := by
  refine ⟨by decide +kernel,fun digest => ⟨digestText (digest craftedContents),?_,?_,?_⟩⟩
  · rw [observeFile_whole digest outputPath (by decide +kernel),hashedForm_crafted]
    rfl
  · rw [observeFile_whole digest configPath (by decide +kernel),hashedForm_config]
    rfl
  · rw [hashedForm_config,hashedForm_crafted]
    exact not_separated_of_crafted ⟨rfl,by simp⟩

/-- Two configurations that differ in their work roots share an identity and are separated. -/
theorem rootConfigs_separated : workRootConfig ≠ otherRootConfig ∧ ∀ digest : Str → Digest,
    Separated digest workRootConfig otherRootConfig
      (hashedForm workRootConfig.length configPath workRootConfig)
      (hashedForm otherRootConfig.length configPath otherRootConfig) := by
  have ho : hashedForm otherRootConfig.length configPath otherRootConfig = .importConfig commonConfig := by
    decide +kernel
  refine ⟨by decide +kernel,fun digest => ?_⟩
  have h := observeFile_whole digest configPath
    (by decide +kernel : normalizeGoCacheEntry workRootConfig ≠ .error .panicked)
  have h' := observeFile_whole digest configPath
    (by decide +kernel : normalizeGoCacheEntry otherRootConfig ≠ .error .panicked)
  rw [hashedForm_config] at h
  rw [ho] at h'
  refine (contentIdentity_separated_iff rfl rfl (OpenFile.whole_reads _) (OpenFile.whole_reads _) h h').mpr ?_
  constructor
  · rintro ⟨hraw,-⟩
    exact absurd (hashedForm_config.symm.trans hraw) (by simp)
  · rintro ⟨hraw,-⟩
    exact absurd (ho.symm.trans hraw) (by simp)

end Repx.Identity
