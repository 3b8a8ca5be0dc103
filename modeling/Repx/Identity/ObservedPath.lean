import Repx.Identity.ObservedFile

/-! # What the identity of a path stands for

A path is looked up, opened if a regular file is there, and observed. What is seen does not
depend on the hash. An identity stands for the kind of what was seen and for one text: the bytes
that were read, in the form of the file, or the path without its temporaries.
-/
namespace Repx.Identity
open ByteString Utf8 Sha256 UnixPaths
open Trace (FileObservation)

/-- What the system answers about a path: what is there, and the file that is opened afterwards. -/
structure PathAnswers where
  metadata : Except ErrorKind Metadata
  opened : Except ErrorKind OpenFile

def openRegular (answers : PathAnswers) : Except ErrorKind (Option OpenFile) := do
  let metadata ← answers.metadata
  if !metadata.isFile then .ok none
  else answers.opened.map some

/-- `none` when reading a cache entry panics. -/
def observePath (digest : Str → Digest) (answers : PathAnswers) (path : Str) : Option FileObservation :=
  match openRegular answers with
  | .ok (some file) => observeFile digest file path
  | .ok none => some (.nonRegular (hashPath digest path))
  | .error .notFound => some (.missing (hashPath digest path))
  | .error .other => some (.unreadable (hashPath digest path))

/-! ## Sights -/

inductive SightKind where
  | contents
  | missing
  | unreadable
  | nonRegular
deriving DecidableEq

/-- What is hashed, and what kind of observation is made of it. -/
structure Sight where
  kind : SightKind
  text : Str
deriving DecidableEq

namespace Sight

def hashed (sight : Sight) : Str :=
  if sight.kind = .contents then sight.text else utf8 "repx-path-v1" ++ [0] ++ sight.text

def observed (digest : Str → Digest) (sight : Sight) : FileObservation :=
  let hash := digestText (digest sight.hashed)
  match sight.kind with
  | .contents => .content hash
  | .missing => .missing hash
  | .unreadable => .unreadable hash
  | .nonRegular => .nonRegular hash

/-- Nothing but the path is seen. -/
def unavailable (kind : SightKind) (path : Str) : Sight := ⟨kind,normalizeUnavailablePath path⟩

end Sight

def ErrorKind.sightKind : ErrorKind → SightKind
  | notFound => .missing
  | other => .unreadable

/-- A size and a path that may have an import configuration. -/
abbrev MayBeConfig (len : ℕ) (path : Str) : Prop :=
  len ≤ maxNormalizedControlFileSize ∧ isGoImportConfigPath path = true

/-- A size and a path that may have a cache entry. -/
abbrev MayBeEntry (len : ℕ) (path : Str) : Prop := len = goCacheEntrySize ∧ isGoCacheEntryPath path = true

/-- What can be seen of an open file. Bytes come from a regular file only. They are in a special form if the path
may have it and the contents do, and raw otherwise. -/
inductive SeenIn (file : OpenFile) (path : Str) : Sight → Prop
  | error (e : ErrorKind) (h : file.metadata = .error e) : SeenIn file path (.unavailable e.sightKind path)
  | special (metadata : Metadata) (h : file.metadata = .ok metadata) (hkind : metadata.isFile = false) :
      SeenIn file path (.unavailable .nonRegular path)
  | interrupted (i : Fin 3) (h : file.seek i = false ∨ file.read i = none) :
      SeenIn file path (.unavailable .unreadable path)
  | importConfig (metadata : Metadata) (contents normalized : Str) (h : file.metadata = .ok metadata)
      (hkind : metadata.isFile = true) (hform : MayBeConfig metadata.len path) (hread : file.read 0 = some contents)
      (hnormalized : normalizeGoImportConfig contents = some normalized) :
      SeenIn file path ⟨.contents,importConfigTag ++ normalized⟩
  | cacheEntry (metadata : Metadata) (contents normalized : Str) (h : file.metadata = .ok metadata)
      (hkind : metadata.isFile = true) (hform : MayBeEntry metadata.len path) (hread : file.read 1 = some contents)
      (hnormalized : normalizeGoCacheEntry contents = .ok normalized) :
      SeenIn file path ⟨.contents,cacheEntryTag ++ normalized⟩
  | raw (metadata : Metadata) (contents : Str) (h : file.metadata = .ok metadata) (hkind : metadata.isFile = true)
      (hconfig : MayBeConfig metadata.len path →
        ∃ read, file.read 0 = some read ∧ normalizeGoImportConfig read = none)
      (hentry : MayBeEntry metadata.len path →
        ∃ read, file.read 1 = some read ∧ normalizeGoCacheEntry read = .error .rejected)
      (hread : file.read 2 = some contents) : SeenIn file path ⟨.contents,contents⟩

/-- What can be seen at a path. -/
inductive Seen (answers : PathAnswers) (path : Str) : Sight → Prop
  | error (e : ErrorKind) (h : openRegular answers = .error e) : Seen answers path (.unavailable e.sightKind path)
  | special (h : openRegular answers = .ok none) : Seen answers path (.unavailable .nonRegular path)
  | opened (file : OpenFile) (sight : Sight) (h : openRegular answers = .ok (some file))
      (hseen : SeenIn file path sight) : Seen answers path sight

section Observation
variable {digest : Str → Digest} {file : OpenFile} {answers : PathAnswers} {path : Str}

theorem exists_seen_observeRaw {metadata : Metadata} (hm : file.metadata = .ok metadata)
    (hkind : metadata.isFile = true)
    (hconfig : MayBeConfig metadata.len path → ∃ read, file.read 0 = some read ∧ normalizeGoImportConfig read = none)
    (hentry : MayBeEntry metadata.len path →
      ∃ read, file.read 1 = some read ∧ normalizeGoCacheEntry read = .error .rejected) :
    ∃ sight, SeenIn file path sight ∧ observeRaw digest file path = sight.observed digest := by
  unfold observeRaw
  cases hread : file.read 2 with
  | none => exact ⟨_,.interrupted 2 (Or.inr hread),rfl⟩
  | some contents => exact ⟨_,.raw metadata contents hm hkind hconfig hentry hread,rfl⟩

theorem exists_seen_observeEntry {metadata : Metadata} (hm : file.metadata = .ok metadata)
    (hkind : metadata.isFile = true)
    (hconfig : MayBeConfig metadata.len path → ∃ read, file.read 0 = some read ∧ normalizeGoImportConfig read = none)
    {o : FileObservation} (h : observeEntry digest file path metadata.len = some o) :
    ∃ sight, SeenIn file path sight ∧ o = sight.observed digest := by
  unfold observeEntry at h
  by_cases hentry : MayBeEntry metadata.len path
  · rw [if_pos hentry] at h
    cases hread : file.read 1 with
    | none =>
      simp only [hread,Option.some.injEq] at h
      exact ⟨_,.interrupted 1 (Or.inr hread),h.symm⟩
    | some contents =>
      simp only [hread] at h
      cases hn : normalizeGoCacheEntry contents with
      | ok normalized =>
        simp only [hn,Option.some.injEq] at h
        exact ⟨_,.cacheEntry metadata contents normalized hm hkind hentry hread hn,h.symm⟩
      | error stop =>
        cases stop with
        | panicked => simp [hn] at h
        | rejected =>
          simp only [hn] at h
          split_ifs at h with hseek
          · obtain rfl := Option.some.inj h
            exact exists_seen_observeRaw hm hkind hconfig fun _ => ⟨contents,hread,hn⟩
          · exact ⟨_,.interrupted 2 (Or.inl (by simpa using hseek)),(Option.some.inj h).symm⟩
  · rw [if_neg hentry] at h
    obtain rfl := Option.some.inj h
    exact exists_seen_observeRaw hm hkind hconfig fun hform => absurd hform hentry

theorem exists_seen_observeFile {o : FileObservation} (h : observeFile digest file path = some o) :
    ∃ sight, SeenIn file path sight ∧ o = sight.observed digest := by
  unfold observeFile at h
  cases hm : file.metadata with
  | error e =>
    refine ⟨_,.error e hm,?_⟩
    cases e <;> simp only [hm,Option.some.injEq] at h <;> exact h.symm
  | ok metadata =>
    simp only [hm] at h
    cases hkind : metadata.isFile with
    | false =>
      simp only [hkind,Bool.not_false,if_true,Option.some.injEq] at h
      exact ⟨_,.special metadata hm hkind,h.symm⟩
    | true =>
      simp only [hkind,Bool.not_true,Bool.false_eq_true,if_false] at h
      by_cases hseek : file.seek 0 = false
      · simp only [hseek,Bool.not_false,if_true,Option.some.injEq] at h
        exact ⟨_,.interrupted 0 (Or.inl hseek),h.symm⟩
      rw [if_neg (by simpa using hseek)] at h
      by_cases hconfig : MayBeConfig metadata.len path
      · rw [if_pos hconfig] at h
        cases hread : file.read 0 with
        | none =>
          simp only [hread,Option.some.injEq] at h
          exact ⟨_,.interrupted 0 (Or.inr hread),h.symm⟩
        | some contents =>
          simp only [hread] at h
          cases hn : normalizeGoImportConfig contents with
          | some normalized =>
            simp only [hn,Option.some.injEq] at h
            exact ⟨_,.importConfig metadata contents normalized hm hkind hconfig hread hn,h.symm⟩
          | none =>
            simp only [hn] at h
            split_ifs at h with hagain
            · exact exists_seen_observeEntry hm hkind (fun _ => ⟨contents,hread,hn⟩) h
            · exact ⟨_,.interrupted 1 (Or.inl (by simpa using hagain)),(Option.some.inj h).symm⟩
      · rw [if_neg hconfig] at h
        exact exists_seen_observeEntry hm hkind (fun hform => absurd hform hconfig) h

/-- An observation was made of something that can be seen at the path. -/
theorem exists_seen_observePath {o : FileObservation} (h : observePath digest answers path = some o) :
    ∃ sight, Seen answers path sight ∧ o = sight.observed digest := by
  unfold observePath at h
  cases hopen : openRegular answers with
  | error e =>
    refine ⟨_,.error e hopen,?_⟩
    cases e <;> simp only [hopen,Option.some.injEq] at h <;> exact h.symm
  | ok opened =>
    cases opened with
    | none =>
      simp only [hopen,Option.some.injEq] at h
      exact ⟨_,.special hopen,h.symm⟩
    | some file =>
      simp only [hopen] at h
      obtain ⟨sight,hseen,hobserved⟩ := exists_seen_observeFile h
      exact ⟨sight,.opened file sight hopen hseen,hobserved⟩

/-! ## Identities -/

/-- What stands before the digest of an identity. -/
def SightKind.label : SightKind → Str
  | contents => []
  | missing => utf8 "missing:"
  | unreadable => utf8 "unreadable:"
  | nonRegular => utf8 "non-regular:"

/-- The first letter of an identity. -/
def SightKind.letter : SightKind → UInt8
  | contents => 115
  | missing => 109
  | unreadable => 117
  | nonRegular => 110

theorem letter_injective : Function.Injective SightKind.letter := by
  intro kind kind' h
  cases kind <;> cases kind' <;> first | rfl | exact absurd h (by decide)

theorem identity_observed (digest : Str → Digest) (sight : Sight) :
    (sight.observed digest).identity = sight.kind.label ++ digestText (digest sight.hashed) := by
  unfold Sight.observed
  cases sight.kind <;> rfl

theorem head?_label (kind : SightKind) (hash : Digest) :
    (kind.label ++ digestText hash).head? = some kind.letter := by
  cases kind <;> rfl

/-- The kinds are told apart by the first letter. -/
theorem identity_eq_iff {sight sight' : Sight} :
    (sight.observed digest).identity = (sight'.observed digest).identity ↔
      sight.kind = sight'.kind ∧ digest sight.hashed = digest sight'.hashed := by
  rw [identity_observed,identity_observed]
  constructor
  · intro h
    have hfirst := congrArg List.head? h
    rw [head?_label,head?_label] at hfirst
    have hkind := letter_injective (Option.some.inj hfirst)
    rw [hkind] at h
    exact ⟨hkind,digestText_injective (List.append_cancel_left h)⟩
  · rintro ⟨hkind,hdigest⟩
    rw [hkind,hdigest]

theorem hashed_injective {sight sight' : Sight} (hkind : sight.kind = sight'.kind)
    (h : sight.hashed = sight'.hashed) : sight = sight' := by
  obtain ⟨kind,text⟩ := sight
  obtain ⟨kind',text'⟩ := sight'
  obtain rfl : kind = kind' := hkind
  simp only [Sight.hashed] at h
  split_ifs at h
  · rw [h]
  · rw [List.append_cancel_left h]

/-- Two observations have one identity when the same was seen, and only then, up to a collision among what is
seen in one kind: neither do bytes pass for a path, nor does a missing file pass for one that cannot be read. -/
theorem identity_binds {answers' : PathAnswers} {path' : Str} {o o' : FileObservation}
    (h : observePath digest answers path = some o) (h' : observePath digest answers' path' = some o') :
    ∃ sight sight', Seen answers path sight ∧ Seen answers' path' sight' ∧ o = sight.observed digest ∧
      o' = sight'.observed digest ∧
      (o.identity = o'.identity ↔ sight = sight' ∨
        sight.kind = sight'.kind ∧ sight.hashed ≠ sight'.hashed ∧ digest sight.hashed = digest sight'.hashed) := by
  obtain ⟨sight,hseen,rfl⟩ := exists_seen_observePath h
  obtain ⟨sight',hseen',rfl⟩ := exists_seen_observePath h'
  refine ⟨sight,sight',hseen,hseen',rfl,rfl,?_⟩
  rw [identity_eq_iff]
  constructor
  · rintro ⟨hkind,hdigest⟩
    by_cases hhashed : sight.hashed = sight'.hashed
    · exact Or.inl (hashed_injective hkind hhashed)
    · exact Or.inr ⟨hkind,hhashed,hdigest⟩
  · rintro (rfl | ⟨hkind,-,hdigest⟩)
    · exact ⟨rfl,rfl⟩
    · exact ⟨hkind,hdigest⟩

end Observation

/-! ## Paths that are gone -/

def goneAnswers : PathAnswers := ⟨.error .notFound,.error .notFound⟩

def leadingBytes (text : Str) : Digest := Vector.ofFn fun i => text.getD i 0

/-- Where nothing is found, one session passes for another. -/
theorem identity_binds_sessions : ∃ sight sight',
    Seen goneAnswers (utf8 "/tmp/tmp.AbCdEf/x") sight ∧ Seen goneAnswers (utf8 "/tmp/tmp.Gh0123/x") sight' ∧
    (sight = sight' ∨ sight.kind = sight'.kind ∧ sight.hashed ≠ sight'.hashed ∧
      leadingBytes sight.hashed = leadingBytes sight'.hashed) := by
  have hobserve (path : Str) :
      observePath leadingBytes goneAnswers path = some (.missing (hashPath leadingBytes path)) := rfl
  obtain ⟨sight,sight',hseen,hseen',-,-,hiff⟩ :=
    identity_binds (hobserve (utf8 "/tmp/tmp.AbCdEf/x")) (hobserve (utf8 "/tmp/tmp.Gh0123/x"))
  have hnormalized : normalizeUnavailablePath (utf8 "/tmp/tmp.AbCdEf/x") =
      normalizeUnavailablePath (utf8 "/tmp/tmp.Gh0123/x") := by decide +kernel
  exact ⟨sight,sight',hseen,hseen',hiff.mp (by rw [hashPath,hnormalized,← hashPath])⟩

end Repx.Identity
