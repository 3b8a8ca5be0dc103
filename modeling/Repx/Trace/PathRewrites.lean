import Repx.Foundation.Subtrees
import Repx.Trace.Collector

/-! # Renames and the paths of open files

A rename rewrites the paths of open files by their text. The text of a path decides as its
components do when it spells the renamed directory as the rename does. An exchange of two
names that do not contain each other exchanges the two subtrees and is undone by another.
-/
namespace Repx.Trace
open ByteString UnixPaths Subtrees Std HashTables

theorem rewritePathPrefix_eq_moveTree (path fromPath toPath : Str) :
    rewritePathPrefix path fromPath toPath = moveTree slash fromPath toPath path := by
  by_cases he : path = fromPath
  · subst he
    have hmove : moveTree slash path toPath (path ++ []) = some (toPath ++ []) := moveTree_append (Or.inl rfl)
    rw [List.append_nil,List.append_nil] at hmove
    rw [rewritePathPrefix,if_pos rfl,hmove]
  · rw [rewritePathPrefix,if_neg he,moveTree]
    cases hdrop : path.dropPrefix? fromPath with
    | none => rfl
    | some rest =>
      have hne : rest ≠ [] := by
        rintro rfl
        obtain ⟨begun,rfl,hb⟩ := List.dropPrefix?_eq_some_iff.mp hdrop
        exact he (by rw [List.append_nil,eq_of_beq hb])
      simp [AtBoundary,hne]

theorem rewritePathPrefix_eq_some {path fromPath toPath result : Str} :
    rewritePathPrefix path fromPath toPath = some result ↔
      ∃ rest, AtBoundary slash rest ∧ path = fromPath ++ rest ∧ result = toPath ++ rest := by
  rw [rewritePathPrefix_eq_moveTree,moveTree_eq_some]

namespace Slicer

/-- The copy the output slice uses. -/
def rewritePathPrefix (path fromPath toPath : Str) : Option Str :=
  if path = fromPath then some toPath
  else
    (path.dropPrefix? fromPath).bind fun suffix =>
      if suffix.head? = some slash then some (toPath ++ suffix) else none

theorem rewritePathPrefix_eq (path fromPath toPath : Str) :
    rewritePathPrefix path fromPath toPath = Trace.rewritePathPrefix path fromPath toPath := by
  rw [rewritePathPrefix,Trace.rewritePathPrefix]
  cases path.dropPrefix? fromPath <;> rfl

end Slicer

section Components
variable {path fromPath toPath : Str}

/-- What stands behind a boundary adds its components. -/
theorem components_append_boundary {base rest : Str} (hb : base ≠ []) (h : AtBoundary slash rest) :
    components (base ++ rest) = components base ++ bodyComponents rest := by
  rcases h with rfl | h
  · rw [List.append_nil,bodyComponents_nil,List.append_nil]
  · obtain ⟨tail,rfl⟩ : ∃ tail, rest = separator :: tail := ⟨rest.tail,List.eq_cons_of_mem_head? h⟩
    rw [components_append_separator hb,bodyComponents_separator_cons]

theorem ne_nil_of_isAbsolute (h : isAbsolute path = true) : path ≠ [] := by
  rintro rfl
  simp [isAbsolute] at h

/-- A rewritten path keeps the components behind the renamed directory. -/
theorem components_rewritten {result : Str} (hf : isAbsolute fromPath = true) (ht : isAbsolute toPath = true)
    (h : rewritePathPrefix path fromPath toPath = some result) :
    ∃ behind, components path = components fromPath ++ behind ∧ components result = components toPath ++ behind := by
  obtain ⟨rest,hrest,rfl,rfl⟩ := rewritePathPrefix_eq_some.mp h
  exact ⟨bodyComponents rest,components_append_boundary (ne_nil_of_isAbsolute hf) hrest,
    components_append_boundary (ne_nil_of_isAbsolute ht) hrest⟩

/-- The path is the renamed one, or goes on behind its text with a slash. -/
def SpellsAlike (path fromPath : Str) : Prop := path = fromPath ∨ fromPath ++ [slash] <+: path

/-- The rewriting of the text is a rewriting of the components. -/
def RewritesComponents (path fromPath toPath : Str) : Prop :=
  ((rewritePathPrefix path fromPath toPath).isSome = true ↔ components fromPath <+: components path) ∧
    ∀ result, rewritePathPrefix path fromPath toPath = some result →
      components result = components toPath ++ (components path).drop (components fromPath).length

/-- A path as its components spell it. -/
def Rendered (path : Str) : Prop := collect (parts path) = path

theorem isSome_rewritePathPrefix :
    (rewritePathPrefix path fromPath toPath).isSome = true ↔ SpellsAlike path fromPath := by
  rw [rewritePathPrefix_eq_moveTree,isSome_moveTree,within_iff_leads,SpellsAlike]

theorem rewritesComponents_iff (hf : isAbsolute fromPath = true) (ht : isAbsolute toPath = true) :
    RewritesComponents path fromPath toPath ↔
      (components fromPath <+: components path → SpellsAlike path fromPath) := by
  constructor
  · intro h hlead
    exact isSome_rewritePathPrefix.mp (h.1.mpr hlead)
  · intro h
    refine ⟨⟨fun hsome => ?_,fun hlead => isSome_rewritePathPrefix.mpr (h hlead)⟩,fun result hr => ?_⟩
    · obtain ⟨result,hr⟩ := Option.isSome_iff_exists.mp hsome
      obtain ⟨behind,hpath,-⟩ := components_rewritten hf ht hr
      exact ⟨behind,hpath.symm⟩
    · obtain ⟨behind,hpath,hresult⟩ := components_rewritten hf ht hr
      rw [hresult,hpath,List.drop_left]

/-- What is rendered from the root on ends with a name, unless it is the root. -/
theorem canonical_of_rendered (hr : Rendered path) (ha : isAbsolute path = true) : Canonical path := by
  have hlead : parts path = [separator] :: (bodyComponents path).map Component.asOsStr := by
    rw [parts,components_eq,lead,if_pos ha]
    rfl
  have hnames := Parted.names_of_root (hlead ▸ parts_parted path)
  rw [Rendered,hlead] at hr
  rw [← hr]
  generalize (bodyComponents path).map Component.asOsStr = names at hnames
  induction names using List.reverseRecOn with
  | nil => exact canonical_root
  | append_singleton names name ih =>
    rw [← List.cons_append,collect_concat]
    exact (ih fun n hm => hnames n (by simp [hm])).push (hnames name (by simp))

/-- Rendered paths are spelled alike where their components agree. -/
theorem spellsAlike_of_rendered (hp : Rendered path) (hf : Rendered fromPath) (ha : isAbsolute fromPath = true)
    (hroot : fromPath ≠ [slash]) (h : components fromPath <+: components path) : SpellsAlike path fromPath := by
  obtain ⟨behind,hb⟩ := h
  have hparts : parts path = parts fromPath ++ behind.map Component.asOsStr := by
    rw [parts,← hb,List.map_append,parts]
  cases hnames : behind.map Component.asOsStr with
  | nil =>
    rw [hnames,List.append_nil] at hparts
    rw [Rendered,hparts,hf] at hp
    exact Or.inl hp.symm
  | cons name names =>
    have hcanonical := canonical_of_rendered hf ha
    have hlead : parts fromPath = [separator] :: (bodyComponents fromPath).map Component.asOsStr := by
      rw [parts,components_eq,lead,if_pos ha]
      rfl
    have hparted := parts_parted path
    rw [hparts,hnames,hlead,List.cons_append] at hparted
    have hname := fun n hm => Parted.names_of_root hparted n (List.mem_append_right _ hm)
    have hlead := separator_prefix_collect hf (ne_nil_of_isAbsolute ha)
      (hcanonical.2.resolve_left hroot) hname
    rw [← hnames,← hparts,hp] at hlead
    have hslash : fromPath ++ [slash] <+: fromPath ++ separator :: name := ⟨name,by simp [slash,separator]⟩
    exact Or.inr (hslash.trans hlead)

/-- The rewriting follows the components when the renamed directory is spelled in the path as in the
rename, which rendered paths other than the root guarantee; both copies rewrite alike. -/
theorem rewritesComponents_iff_spelled {path fromPath toPath : Str} (hf : isAbsolute fromPath = true)
    (ht : isAbsolute toPath = true) :
    (RewritesComponents path fromPath toPath ∧
        Slicer.rewritePathPrefix path fromPath toPath = rewritePathPrefix path fromPath toPath ↔
      (components fromPath <+: components path → SpellsAlike path fromPath)) ∧
    (Rendered path → Rendered fromPath → fromPath ≠ [slash] →
      components fromPath <+: components path → SpellsAlike path fromPath) := by
  refine ⟨?_,fun hp hfrom hroot => spellsAlike_of_rendered hp hfrom hf hroot⟩
  rw [rewritesComponents_iff hf ht]
  exact and_iff_left (Slicer.rewritePathPrefix_eq path fromPath toPath)

theorem rewritesComponents_iff_spelled_file :
    RewritesComponents (utf8 "/tmp/old/a") (utf8 "/tmp/old") (utf8 "/tmp/new") := by
  have h := @rewritesComponents_iff_spelled (utf8 "/tmp/old/a") (utf8 "/tmp/old") (utf8 "/tmp/new")
    (by decide) (by decide)
  have hp : Rendered (utf8 "/tmp/old/a") := by
    unfold Rendered
    decide +kernel
  have hfrom : Rendered (utf8 "/tmp/old") := by
    unfold Rendered
    decide +kernel
  exact (h.1.mpr (h.2 hp hfrom (by decide))).1

/-- A directory that is renamed with a slash behind its name leaves its open files behind. -/
theorem trailing_slash_not_rewritten :
    ¬ RewritesComponents (utf8 "/tmp/old/a") (utf8 "/tmp/old/") (utf8 "/tmp/new") := by
  intro h
  have hlead : components (utf8 "/tmp/old/") <+: components (utf8 "/tmp/old/a") := by decide +kernel
  exact absurd (h.1.mpr hlead) (by decide)

end Components

section Exchange
variable {H : Type} {fromPath toPath : Str} {flags : UInt32}

/-- The path of an open file after an exchange of two names. -/
def exchangedPath (fromPath toPath path : Str) : Str := exchangeTrees slash fromPath toPath path

theorem rewriteOpenFilePath_exchange (hx : flags &&& renameExchange ≠ 0) (file : OpenFileState H) :
    rewriteOpenFilePath fromPath toPath flags file =
      { file with path := exchangedPath fromPath toPath file.path } := by
  simp only [rewriteOpenFilePath,rewritePathPrefix_eq_moveTree,exchangedPath,exchangeTrees]
  rw [if_pos (by simpa using hx)]
  cases (moveTree slash fromPath toPath file.path).or (moveTree slash toPath fromPath file.path) <;> rfl

theorem getElem?_rewriteOpenFilePaths (fdTable : FdTable H) (fromPath toPath : Str) (flags : UInt32)
    (d : Descriptor) : (rewriteOpenFilePaths fdTable fromPath toPath flags)[d]? =
      (fdTable[d]?).map (rewriteOpenFilePath fromPath toPath flags) := by
  simp [rewriteOpenFilePaths]

/-- Two names of which neither is the other or lies in it, as an exchange requires. -/
structure Exchangeable (fromPath toPath : Str) : Prop where
  ne : fromPath ≠ toPath
  left : ¬ fromPath ++ [slash] <+: toPath
  right : ¬ toPath ++ [slash] <+: fromPath

theorem Exchangeable.apart (h : Exchangeable fromPath toPath) : Apart slash fromPath toPath := by
  constructor
  · rw [within_iff_leads]
    rintro (he | hp)
    · exact h.ne he.symm
    · exact h.left hp
  · rw [within_iff_leads]
    rintro (he | hp)
    · exact h.ne he
    · exact h.right hp

/-- An exchange swaps the two subtrees in the table of open files and nothing else, and a second one
undoes it. -/
theorem exchange_swaps_subtrees (h : Exchangeable fromPath toPath) (hx : flags &&& renameExchange ≠ 0)
    (fdTable : FdTable H) :
    rewriteOpenFilePaths (rewriteOpenFilePaths fdTable fromPath toPath flags) fromPath toPath flags = fdTable ∧
    (∀ d : Descriptor, (rewriteOpenFilePaths fdTable fromPath toPath flags)[d]? =
      (fdTable[d]?).map fun file => { file with path := exchangedPath fromPath toPath file.path }) ∧
    Function.Injective (exchangedPath fromPath toPath) ∧
    (∀ rest, AtBoundary slash rest → exchangedPath fromPath toPath (fromPath ++ rest) = toPath ++ rest ∧
      exchangedPath fromPath toPath (toPath ++ rest) = fromPath ++ rest) ∧
    ∀ path, ¬ SpellsAlike path fromPath → ¬ SpellsAlike path toPath → exchangedPath fromPath toPath path = path := by
  have hinvolutive := exchangeTrees_involutive h.apart
  refine ⟨?_,fun d => ?_,hinvolutive.injective,fun rest hrest => ?_,fun path hf ht => ?_⟩
  · apply ExtTreeMap.ext_getElem?
    intro d
    rw [getElem?_rewriteOpenFilePaths,getElem?_rewriteOpenFilePaths,Option.map_map]
    cases hd : fdTable[d]? with
    | none => rfl
    | some file =>
      rw [Option.map_some,Function.comp_apply,rewriteOpenFilePath_exchange hx,rewriteOpenFilePath_exchange hx]
      exact congrArg (fun path => some { file with path := path }) (hinvolutive file.path)
  · rw [getElem?_rewriteOpenFilePaths]
    exact Option.map_congr fun file _ => rewriteOpenFilePath_exchange hx file
  · exact ⟨exchangeTrees_left hrest,exchangeTrees_right h.apart hrest⟩
  · exact exchangeTrees_outside (fun hw => hf (within_iff_leads.mp hw)) fun hw => ht (within_iff_leads.mp hw)

/-- Siblings of which one name begins with the other. -/
theorem exchange_swaps_subtrees_siblings :
    exchangedPath (utf8 "/w/out") (utf8 "/w/output") (utf8 "/w/out/a") = utf8 "/w/output/a" ∧
    exchangedPath (utf8 "/w/out") (utf8 "/w/output") (utf8 "/w/output") = utf8 "/w/out" := by
  have hexchange : Exchangeable (utf8 "/w/out") (utf8 "/w/output") := ⟨by decide,by decide,by decide⟩
  have h := (exchange_swaps_subtrees hexchange (by decide : renameExchange &&& renameExchange ≠ 0)
    (∅ : FdTable Unit)).2.2.2.1
  exact ⟨(h (utf8 "/a") (Or.inr rfl)).1,(h [] (Or.inl rfl)).2⟩

end Exchange

end Repx.Trace
