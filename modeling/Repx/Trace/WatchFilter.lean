import Repx.Probe.Maps
import Repx.Trace.LexicalPaths
import Repx.Foundation.Utf8

/-! # The watch filter of the kernel

Watched directories are installed as they are spelled. The kernel compares a path with the
installed bytes, the collector with these bytes less the slashes at their end. A path the
collector keeps is dropped by the kernel when it has fewer slashes behind the directory.
-/
namespace Repx.Trace
open ByteString Utf8 Probe

/-- The prefixes of a trace: canonical directories, or the text of a directory that has no canonical path. -/
def watchPrefixes (canonicalize : Str → Option Str) (watchDirs : List Str) : Except Str (List Str) :=
  if maxWatchPrefixes < watchDirs.length then
    .error (numeral 10 watchDirs.length ++ utf8 " watch directories requested, but the tracer supports at most " ++
      numeral 10 maxWatchPrefixes)
  else
    let prefixes := watchDirs.map fun dir => lossy ((canonicalize dir).getD dir)
    match prefixes.find? fun text => maxPrefixLen < text.length with
    | some text =>
      .error (utf8 "watch prefix is " ++ numeral 10 text.length ++ utf8 " bytes, but the tracer supports at most " ++
        numeral 10 maxPrefixLen ++ utf8 ": " ++ text)
    | none => .ok prefixes

def watchedPrefix (text : Str) : WatchedPrefix := ⟨Vector.ofFn fun i => text.getD i.val 0,text.length.toUInt32⟩

/-- The watch maps are filled before the command is spawned. -/
def armWatch (m : Maps) (prefixes : List Str) : Maps :=
  if prefixes.isEmpty then m
  else
    { m with
      watchMode := some 1
      watchedPrefixes := fun i => (prefixes[i]?.map watchedPrefix).or (m.watchedPrefixes i) }

theorem watchPrefixes_ok {canonicalize : Str → Option Str} {watchDirs prefixes : List Str}
    (h : watchPrefixes canonicalize watchDirs = .ok prefixes) :
    prefixes.length ≤ maxWatchPrefixes ∧ ∀ text ∈ prefixes, text.length ≤ maxPrefixLen := by
  simp only [watchPrefixes] at h
  split_ifs at h with hcount
  split at h
  · cases h
  · rename_i hfind
    obtain rfl := Except.ok.inj h
    refine ⟨by rw [List.length_map]; exact Nat.le_of_not_lt hcount,fun text hm => ?_⟩
    simpa using List.find?_eq_none.mp hfind text hm

section Kernel

theorem length_toUInt32 {n : ℕ} (h : n < 256) : n.toUInt32.toNat = n := by
  have hsmall : n < 2 ^ 32 := lt_trans h (by decide)
  exact UInt32.toNat_ofNat_of_lt' hsmall

theorem maxPrefixLen_le_maxPathLen : maxPrefixLen ≤ maxPathLen := by decide

/-- The test of one installed prefix. -/
def meetsPrefix (p : WatchedPrefix) (path : PathBuffer) (pathLen : UInt32) : Bool :=
  p.len != 0 && p.len ≤ maxPrefixLen.toUInt32 && p.len ≤ pathLen &&
    (List.finRange maxPrefixLen).all fun j =>
      p.len ≤ j.val.toUInt32 || path.get (Fin.castLE maxPrefixLen_le_maxPathLen j) == p.bytes.get j

theorem matchesWatchedPrefix_iff {m : Maps} {path : PathBuffer} {pathLen : UInt32} :
    m.matchesWatchedPrefix path pathLen = true ↔
      ∃ i < maxWatchPrefixes, ∃ p, m.watchedPrefixes i = some p ∧ meetsPrefix p path pathLen = true := by
  simp only [Maps.matchesWatchedPrefix,List.any_eq_true,List.mem_range]
  refine exists_congr fun i => and_congr_right fun _ => ?_
  cases hp : m.watchedPrefixes i with
  | none => simp
  | some p => simp [meetsPrefix]

/-- The byte loop compares the whole prefix. -/
theorem meetsPrefix_iff {text : Str} (ht : text.length ≤ maxPrefixLen)
    (path : { bytes : Str // bytes.length < maxPathLen }) :
    meetsPrefix (watchedPrefix text) (StringRead.buffer (some path)) (StringRead.len (some path)) = true ↔
      text ≠ [] ∧ text <+: path.val := by
  obtain ⟨bytes,hb⟩ := path
  have hlt : text.length < 256 := Nat.lt_of_le_of_lt ht (by decide)
  have htext := length_toUInt32 hlt
  have hbytes : (StringRead.len (some ⟨bytes,hb⟩)).toNat = bytes.length := length_toUInt32 hb
  have hmax : maxPrefixLen.toUInt32.toNat = maxPrefixLen := rfl
  have hindex (j : Fin maxPrefixLen) : j.val.toUInt32.toNat = j.val :=
    length_toUInt32 (Nat.lt_of_lt_of_le j.isLt (by decide))
  have hzero : (watchedPrefix text).len ≠ 0 ↔ text ≠ [] := by
    rw [ne_eq,← UInt32.toNat_inj,watchedPrefix,htext,UInt32.toNat_zero,List.length_eq_zero_iff]
  have hlen : (watchedPrefix text).len.toNat = text.length := htext
  have hpath (j : Fin maxPrefixLen) :
      (StringRead.buffer (some ⟨bytes,hb⟩)).get (Fin.castLE (by decide) j) = bytes.getD j.val 0 :=
    Vector.getElem_ofFn _
  have hlead (j : Fin maxPrefixLen) : (watchedPrefix text).bytes.get j = text.getD j.val 0 :=
    Vector.getElem_ofFn _
  simp only [meetsPrefix,Bool.and_eq_true,bne_iff_ne,decide_eq_true_eq,hzero,UInt32.le_iff_toNat_le,hmax,hbytes,
    List.all_eq_true,List.mem_finRange,forall_const,Bool.or_eq_true,beq_iff_eq,hindex,hlen,hpath,hlead]
  rw [List.prefix_iff_getElem]
  constructor
  · rintro ⟨⟨⟨hne,-⟩,hle⟩,hall⟩
    refine ⟨hne,hle,fun i hi => ?_⟩
    have hi' := (hall ⟨i,Nat.lt_of_lt_of_le hi ht⟩).resolve_left (Nat.not_le.mpr hi)
    have hbound := Nat.lt_of_lt_of_le hi hle
    simp only [List.getD_eq_getElem?_getD,List.getElem?_eq_getElem hi,List.getElem?_eq_getElem hbound] at hi'
    exact hi'.symm
  · rintro ⟨hne,hle,hall⟩
    refine ⟨⟨⟨hne,ht⟩,hle⟩,fun j => ?_⟩
    by_cases hj : j.val < text.length
    · refine Or.inr ?_
      have hbound := Nat.lt_of_lt_of_le hj hle
      simp only [List.getD_eq_getElem?_getD,List.getElem?_eq_getElem hj,List.getElem?_eq_getElem hbound]
      exact (hall j.val hj).symm
    · exact Or.inl (Nat.le_of_not_lt hj)

/-- The kernel accepts what begins with the text of an installed directory. -/
theorem matches_armWatch_iff {root : UInt32} {prefixes : List Str} (hcount : prefixes.length ≤ maxWatchPrefixes)
    (hlen : ∀ text ∈ prefixes, text.length ≤ maxPrefixLen) (path : { bytes : Str // bytes.length < maxPathLen }) :
    (armWatch (rootMaps root) prefixes).matchesWatchedPrefix (StringRead.buffer (some path))
        (StringRead.len (some path)) = true ↔
      ∃ text ∈ prefixes, text ≠ [] ∧ text <+: path.val := by
  have hinstalled (i : ℕ) :
      (armWatch (rootMaps root) prefixes).watchedPrefixes i = prefixes[i]?.map watchedPrefix := by
    rw [armWatch]
    split_ifs with he
    · rw [List.isEmpty_iff.mp he]
      rfl
    · exact Option.or_none
  rw [matchesWatchedPrefix_iff]
  constructor
  · rintro ⟨i,-,p,hp,hmeets⟩
    rw [hinstalled] at hp
    obtain ⟨text,htext,rfl⟩ := Option.map_eq_some_iff.mp hp
    have hm := List.mem_of_getElem? htext
    exact ⟨text,hm,(meetsPrefix_iff (hlen text hm) path).mp hmeets⟩
  · rintro ⟨text,hm,htext⟩
    obtain ⟨i,hi,rfl⟩ := List.getElem_of_mem hm
    refine ⟨i,Nat.lt_of_lt_of_le hi hcount,watchedPrefix prefixes[i],?_,(meetsPrefix_iff (hlen _ hm) path).mpr htext⟩
    rw [hinstalled,List.getElem?_eq_getElem hi]
    rfl

end Kernel

section Slashes

/-- How many slashes follow in a path on the text of a directory without the slashes at its end. -/
def slashesBehind (path dir : Str) : ℕ := ((path.drop (trimEndSlashes dir).length).takeWhile (· == slash)).length

theorem replicate_prefix_iff {n : ℕ} {text : Str} :
    List.replicate n slash <+: text ↔ n ≤ (text.takeWhile (· == slash)).length := by
  induction text generalizing n with
  | nil => cases n <;> simp [List.replicate_succ]
  | cons byte text ih =>
    cases n with
    | zero => simp
    | succ n =>
      by_cases hb : byte = slash
      · subst hb
        rw [List.replicate_succ,List.cons_prefix_cons,ih,List.takeWhile_cons_of_pos (by simp),List.length_cons]
        simp
      · rw [List.replicate_succ,List.cons_prefix_cons,List.takeWhile_cons_of_neg (by simpa using hb)]
        simp [Ne.symm hb]

/-- A path within a directory begins with the text of the directory when it has enough slashes behind it. -/
theorem prefix_iff_of_within {path dir : Str} (h : isPathWithin path dir = true) :
    dir <+: path ↔ endSlashes dir ≤ slashesBehind path dir := by
  obtain ⟨rest,rfl⟩ : trimEndSlashes dir <+: path := by
    rcases isPathWithin_iff.mp h with hroot | hself | hbelow
    · rw [hroot]
      exact List.nil_prefix
    · rw [hself]
    · exact (List.prefix_append _ _).trans hbelow
  rw [slashesBehind,List.drop_left,← replicate_prefix_iff]
  have hcancel := @List.prefix_append_right_inj _ (List.replicate (endSlashes dir) slash) rest (trimEndSlashes dir)
  have hdir : trimEndSlashes dir ++ List.replicate (endSlashes dir) slash = dir := addSlashes_endSlashes dir
  rwa [hdir] at hcancel

end Slashes

/-- The kernel accepts what the collector keeps under a watched directory when the path repeats the slashes
at the end of the installed text, or begins with another installed directory. -/
theorem kernelFilter_keeps_iff {canonicalize : Str → Option Str} {watchDirs prefixes : List Str}
    (h : watchPrefixes canonicalize watchDirs = .ok prefixes) {dir : Str} (hdir : dir ∈ prefixes) (hne : dir ≠ [])
    (root : UInt32) (path : { bytes : Str // bytes.length < maxPathLen }) :
    (isPathWithin path.val dir = true → (armWatch (rootMaps root) prefixes).matchesWatchedPrefix
        (StringRead.buffer (some path)) (StringRead.len (some path)) = true) ↔
      (isPathWithin path.val dir = true → endSlashes dir ≤ slashesBehind path.val dir ∨
        ∃ other ∈ prefixes, other ≠ dir ∧ other ≠ [] ∧ other <+: path.val) := by
  obtain ⟨hcount,hlen⟩ := watchPrefixes_ok h
  refine imp_congr_right fun hwithin => ?_
  rw [matches_armWatch_iff hcount hlen,← prefix_iff_of_within hwithin]
  constructor
  · rintro ⟨text,hm,htext,hlead⟩
    by_cases he : text = dir
    · exact Or.inl (he ▸ hlead)
    · exact Or.inr ⟨text,hm,he,htext,hlead⟩
  · rintro (hlead | ⟨other,hm,-,hother,hlead⟩)
    · exact ⟨dir,hdir,hne,hlead⟩
    · exact ⟨other,hm,hother,hlead⟩

theorem kernelFilter_keeps_iff_below :
    (armWatch (rootMaps 1) [utf8 "/out/"]).matchesWatchedPrefix
      (StringRead.buffer (some ⟨utf8 "/out/a",by decide⟩)) (StringRead.len (some ⟨utf8 "/out/a",by decide⟩)) = true :=
  (@kernelFilter_keeps_iff (fun _ => none) [utf8 "/out/"] [utf8 "/out/"] (by decide +kernel) (utf8 "/out/") (by simp)
    (by decide) 1 ⟨utf8 "/out/a",by decide⟩).mpr (fun _ => Or.inl (by decide)) (by decide)

/-- The directory itself is kept by the collector and dropped by the kernel. -/
theorem watched_dir_dropped :
    watchPrefixes (fun _ => none) [utf8 "/out/"] = .ok [utf8 "/out/"] ∧
    isPathWithin (utf8 "/out") (utf8 "/out/") = true ∧
    (armWatch (rootMaps 1) [utf8 "/out/"]).matchesWatchedPrefix
      (StringRead.buffer (some ⟨utf8 "/out",by decide⟩)) (StringRead.len (some ⟨utf8 "/out",by decide⟩)) = false := by
  refine ⟨by decide +kernel,by decide,?_⟩
  decide +kernel

end Repx.Trace
