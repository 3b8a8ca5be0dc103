import Repx.Commitment.Attestation
import Repx.Foundation.UnixPaths
import Repx.Foundation.Utf8

/-! # Selection of build outputs

The snapshots of a workspace before and after the build, the outputs chosen among the
changed files, and the record of the flags that an attestation commits. The flags are
recorded as they were spelled, up to the workspace they lie in.
-/
namespace Repx.Workspace
open ByteString Utf8 UnixPaths TextSearch KeyedSort

inductive EntryKind where
  | file
  | symlink
  | directory
deriving DecidableEq

structure SnapshotEntry where
  kind : EntryKind
  hash : Option Str
  target : Option Str
deriving DecidableEq

/-- A table of paths, in the order in which it is iterated. -/
structure Snapshot where
  entries : List (Str × SnapshotEntry)
  nodup : (entries.map Prod.fst).Nodup

def Snapshot.get (snapshot : Snapshot) (path : Str) : Option SnapshotEntry := snapshot.entries.lookup path

structure OutputFile where
  path : Str
  hash : Str
deriving DecidableEq

inductive OutputMode where
  | inferred
  | explicit
deriving DecidableEq

structure SelectedOutputs where
  mode : OutputMode
  outputs : List OutputFile
deriving DecidableEq

/-- Sorted by path, and adjacent outputs merged when path and hash agree. -/
def ordered (outputs : List OutputFile) : List OutputFile :=
  dedupByKey (fun output => (output.path,output.hash)) (sortByKey OutputFile.path outputs)

def changedOutput (before : Snapshot) (path : Str) (entry : SnapshotEntry) : Option OutputFile :=
  if entry.kind ≠ .file then none
  else if before.get path ≠ some entry then entry.hash.map fun hash => ⟨path,hash⟩
  else none

def changedOutputs (before after : Snapshot) : List OutputFile :=
  ordered (after.entries.filterMap fun (path,entry) => changedOutput before path entry)

def absolutize (workspaceRoot path : Str) : Str :=
  normalizePath (if isAbsolute path then path else push workspaceRoot path)

def selectArtifact (after : Snapshot) (workspaceRoot artifact : Str) : Except Str OutputFile :=
  let key := lossy (absolutize workspaceRoot artifact)
  match after.get key with
  | none => .error (utf8 "explicit artifact does not exist after build: " ++ lossy artifact)
  | some entry =>
    if entry.kind ≠ .file then
      .error (utf8 "explicit artifact is not a regular file: " ++ lossy artifact)
    else
      match entry.hash with
      | none => .error (utf8 "explicit artifact could not be hashed: " ++ lossy artifact)
      | some hash => .ok ⟨key,hash⟩

def outputMode (artifacts outputRoots : List Str) : OutputMode :=
  if artifacts.isEmpty && outputRoots.isEmpty then .inferred else .explicit

def selectOutputs (before after : Snapshot) (workspaceRoot : Str) (artifacts outputRoots : List Str) :
    Except Str SelectedOutputs :=
  let mode := outputMode artifacts outputRoots
  if mode = .inferred then .ok ⟨mode,changedOutputs before after⟩
  else do
    let roots := outputRoots.map (absolutize workspaceRoot)
    let kept := (changedOutputs before after).filter fun output => roots.any (startsWith output.path)
    let selected ← artifacts.mapM (selectArtifact after workspaceRoot)
    .ok ⟨mode,ordered (kept ++ selected)⟩

def displayPath (workspaceRoot path : Str) : Str := lossy ((stripBase path workspaceRoot).getD path)

def metadataPath (workspaceRoot path : Str) : Str :=
  if isAbsolute path then displayPath workspaceRoot (lossy path) else lossy path

def OutputMode.text : OutputMode → Str
  | .inferred => utf8 "inferred"
  | .explicit => utf8 "explicit"

def outputSelectionMetadata (mode : OutputMode) (workspaceRoot : Str) (artifacts outputRoots : List Str) :
    Attest.OutputSelection where
  mode := mode.text
  artifacts := sortByKey (fun path => path) (artifacts.map (metadataPath workspaceRoot))
  outputRoots := sortByKey (fun path => path) (outputRoots.map (metadataPath workspaceRoot))

/-- The output that a key names after the build. -/
def outputAt (after : Snapshot) (key : Str) : Option OutputFile :=
  (after.get key).bind fun entry =>
    if entry.kind = .file then entry.hash.map fun hash => ⟨key,hash⟩ else none

theorem outputAt_eq_some {after : Snapshot} {key : Str} {output : OutputFile} :
    outputAt after key = some output ↔
      ∃ entry, after.get key = some entry ∧ entry.kind = .file ∧ entry.hash = some output.hash ∧
        output.path = key := by
  obtain ⟨path,hash⟩ := output
  simp only [outputAt,Option.bind_eq_some_iff]
  constructor
  · rintro ⟨entry,he,ho⟩
    split_ifs at ho with hk
    obtain ⟨text,ht,ho⟩ := Option.map_eq_some_iff.mp ho
    obtain ⟨rfl,rfl⟩ := OutputFile.mk.inj ho
    exact ⟨entry,he,hk,ht,rfl⟩
  · rintro ⟨entry,he,hk,ht,rfl⟩
    exact ⟨entry,he,by rw [if_pos hk,ht]; rfl⟩

theorem Snapshot.get_of_mem {snapshot : Snapshot} {path : Str} {entry : SnapshotEntry}
    (h : (path,entry) ∈ snapshot.entries) : snapshot.get path = some entry := by
  obtain ⟨entries,hn⟩ := snapshot
  simp only [get] at h ⊢
  induction entries with
  | nil => simp at h
  | cons head entries ih =>
    obtain ⟨path',entry'⟩ := head
    rw [List.map_cons,List.nodup_cons] at hn
    rcases List.mem_cons.mp h with he | hm
    · obtain ⟨rfl,rfl⟩ := Prod.mk.inj he
      simp
    · have hne : path ≠ path' := fun he => hn.1 (List.mem_map.mpr ⟨_,hm,he⟩)
      rw [List.lookup_cons,beq_false_of_ne hne]
      exact ih hn.2 hm

/-- An output that the table holds under its path. -/
def Held (after : Snapshot) (output : OutputFile) : Prop := outputAt after output.path = some output

theorem held_of_outputAt {after : Snapshot} {key : Str} {output : OutputFile}
    (h : outputAt after key = some output) : Held after output := by
  obtain ⟨-,-,-,-,hk⟩ := outputAt_eq_some.mp h
  rwa [Held,hk]

theorem mem_of_mem_ordered {outputs : List OutputFile} {output : OutputFile} (h : output ∈ ordered outputs) :
    output ∈ outputs :=
  mem_sortByKey.mp ((dedupByKey_sublist _ _).subset h)

theorem changedOutput_eq_some {before : Snapshot} {path : Str} {entry : SnapshotEntry} {output : OutputFile} :
    changedOutput before path entry = some output ↔
      entry.kind = .file ∧ before.get path ≠ some entry ∧ entry.hash = some output.hash ∧ output.path = path := by
  obtain ⟨path',hash⟩ := output
  simp only [changedOutput]
  split_ifs with hk hb
  · simp [hk]
  · simp [not_not.mp hk,hb,and_comm,eq_comm]
  · simp [not_not.mp hb]

theorem held_changedOutput {before after : Snapshot} {path : Str} {entry : SnapshotEntry} {output : OutputFile}
    (hm : (path,entry) ∈ after.entries) (ho : changedOutput before path entry = some output) : Held after output := by
  obtain ⟨hk,-,hh,rfl⟩ := changedOutput_eq_some.mp ho
  exact outputAt_eq_some.mpr ⟨entry,Snapshot.get_of_mem hm,hk,hh,rfl⟩

theorem held_changedOutputs {before after : Snapshot} {output : OutputFile}
    (h : output ∈ changedOutputs before after) : Held after output := by
  obtain ⟨⟨path,entry⟩,hm,ho⟩ := List.mem_filterMap.mp (mem_of_mem_ordered h)
  exact held_changedOutput hm ho

/-- Outputs of one table are merged by their paths. -/
theorem ordered_of_held {after : Snapshot} {outputs : List OutputFile} (h : ∀ output ∈ outputs, Held after output) :
    ordered outputs = dedupByKey OutputFile.path (sortByKey OutputFile.path outputs) := by
  apply dedupByKey_congr
  intro a ha b hb
  refine ⟨fun hab => (Prod.mk.inj hab).1,fun hab => ?_⟩
  have hheld := h a (mem_sortByKey.mp ha)
  rw [Held,hab,h b (mem_sortByKey.mp hb),Option.some.injEq] at hheld
  rw [hheld]

/-- Outputs of one table are told apart by their paths, so their list is determined by their set. -/
theorem ordered_congr {after : Snapshot} {outputs outputs' : List OutputFile}
    (h : ∀ output ∈ outputs, Held after output) (hm : ∀ output, output ∈ outputs ↔ output ∈ outputs') :
    ordered outputs = ordered outputs' := by
  have hself {l : List OutputFile} (hl : ∀ output ∈ l, Held after output) :
      (l.map OutputFile.path).filterMap (outputAt after) = l := by
    rw [List.filterMap_map]
    conv_rhs => rw [← List.filterMap_some (l := l)]
    exact List.filterMap_congr fun output ho => hl output ho
  have h' : ∀ output ∈ outputs', Held after output := fun output ho => h output ((hm output).mpr ho)
  have hkeys : (dedupByKey OutputFile.path (sortByKey OutputFile.path outputs)).map OutputFile.path =
      (dedupByKey OutputFile.path (sortByKey OutputFile.path outputs')).map OutputFile.path :=
    map_dedup_sort_eq fun k => by simp only [List.mem_map,hm]
  rw [← ordered_of_held h,← ordered_of_held h'] at hkeys
  rw [← hself fun output ho => h output (mem_of_mem_ordered ho),hkeys]
  exact hself fun output ho => h' output (mem_of_mem_ordered ho)

theorem selectArtifact_toOption (after : Snapshot) (workspaceRoot artifact : Str) :
    (selectArtifact after workspaceRoot artifact).toOption =
      outputAt after (lossy (absolutize workspaceRoot artifact)) := by
  simp only [selectArtifact,outputAt]
  cases after.get (lossy (absolutize workspaceRoot artifact)) with
  | none => rfl
  | some entry =>
    by_cases hk : entry.kind = .file
    · cases hh : entry.hash <;> simp [hk,hh,Except.toOption]
    · simp [hk,Except.toOption]

/-- The outputs that changed below one of the roots. -/
def keptOutputs (before after : Snapshot) (roots : List Str) : List OutputFile :=
  (changedOutputs before after).filter fun output => roots.any (startsWith output.path)

/-- An explicit selection reads the flags as absolute paths only. -/
theorem selectOutputs_toOption (before after : Snapshot) (workspaceRoot : Str)
    (artifacts outputRoots : List Str) :
    (selectOutputs before after workspaceRoot artifacts outputRoots).toOption =
      if artifacts = [] ∧ outputRoots = [] then some ⟨.inferred,changedOutputs before after⟩
      else (((artifacts.map (absolutize workspaceRoot)).mapM fun key => outputAt after (lossy key)).map
        fun selected => ⟨.explicit,
          ordered (keptOutputs before after (outputRoots.map (absolutize workspaceRoot)) ++ selected)⟩) := by
  have hmode : outputMode artifacts outputRoots =
      if artifacts = [] ∧ outputRoots = [] then .inferred else .explicit := by
    simp [outputMode,List.isEmpty_iff]
  simp only [selectOutputs,hmode]
  by_cases h : artifacts = [] ∧ outputRoots = []
  · simp [h,Except.toOption]
  · have hm := mapM_toOption (selectArtifact after workspaceRoot) artifacts
    simp only [selectArtifact_toOption] at hm
    rw [List.mapM_map]
    simp only [h,if_false,Function.comp_def]
    rw [← hm]
    cases artifacts.mapM (selectArtifact after workspaceRoot) <;> rfl

theorem isUtf8_of_stripBase {path base rest : Str} (hu : isUtf8 path = true) (hp : isAbsolute path = true)
    (hb : components base ≠ []) (h : stripBase path base = some rest) : isUtf8 rest = true := by
  obtain ⟨pieces,rfl,hpieces⟩ := stripBase_pieces hp hb h
  have hsplit : isUtf8 ([separator].intercalate (path.splitOn separator)) = true := by
    rwa [List.intercalate_splitOn]
  exact (isUtf8_intercalate (by decide)).mpr fun piece hm =>
    (isUtf8_intercalate (by decide)).mp hsplit piece (hpieces piece hm)

/-- A flag and its record name one path: what is stripped is what a relative path is joined to. -/
theorem absolutize_metadataPath {workspaceRoot path : Str} (hr : isAbsolute workspaceRoot = true)
    (hu : isUtf8 path = true) :
    absolutize workspaceRoot (metadataPath workspaceRoot path) = absolutize workspaceRoot path := by
  by_cases hp : isAbsolute path = true
  · rw [metadataPath,if_pos hp,lossy_of_isUtf8 hu,displayPath]
    cases hs : stripBase path workspaceRoot with
    | none => rw [Option.getD_none,lossy_of_isUtf8 hu]
    | some rest =>
      have hne : workspaceRoot ≠ [] := by
        rintro rfl
        simp [isAbsolute] at hr
      have hb : components workspaceRoot ≠ [] := by simp [components_eq,lead,hr]
      obtain ⟨hc,ha⟩ := stripBase_eq_some hb hs
      rw [Option.getD_some,lossy_of_isUtf8 (isUtf8_of_stripBase hu hp hb hs)]
      simp only [absolutize,ha,hp,if_true,Bool.false_eq_true,if_false,normalizePath]
      rw [components_push hne ha,hc]
  · rw [metadataPath,if_neg hp,lossy_of_isUtf8 hu]

/-- Lists of flags with one sorted record hold the same absolute paths. -/
theorem mem_absolutized_of_metadata {workspaceRoot : Str} (hr : isAbsolute workspaceRoot = true)
    {paths paths' : List Str} (hu : ∀ path ∈ paths, isUtf8 path = true)
    (hu' : ∀ path ∈ paths', isUtf8 path = true)
    (h : sortByKey (fun path => path) (paths.map (metadataPath workspaceRoot)) =
      sortByKey (fun path => path) (paths'.map (metadataPath workspaceRoot))) (key : Str) :
    key ∈ paths.map (absolutize workspaceRoot) ↔ key ∈ paths'.map (absolutize workspaceRoot) := by
  have hmap {l : List Str} (hl : ∀ path ∈ l, isUtf8 path = true) :
      l.map (absolutize workspaceRoot) =
        (l.map (metadataPath workspaceRoot)).map (absolutize workspaceRoot) := by
    rw [List.map_map]
    exact List.map_congr_left fun path hm => (absolutize_metadataPath hr (hl path hm)).symm
  have hmem (text : Str) : text ∈ paths.map (metadataPath workspaceRoot) ↔
      text ∈ paths'.map (metadataPath workspaceRoot) := by
    have hs := congrArg (text ∈ ·) h
    simpa only [mem_sortByKey,eq_iff_iff] using hs
  rw [hmap hu,hmap hu',List.mem_map,List.mem_map]
  simp only [hmem]

theorem mem_keptOutputs {before after : Snapshot} {roots : List Str} {output : OutputFile} :
    output ∈ keptOutputs before after roots ↔
      output ∈ changedOutputs before after ∧ ∃ root ∈ roots, startsWith output.path root = true := by
  simp [keptOutputs]

/-- The committed flags determine the selection. -/
theorem selectOutputs_of_metadata {workspaceRoot : Str} (hr : isAbsolute workspaceRoot = true)
    {mode mode' : OutputMode} {artifacts outputRoots artifacts' outputRoots' : List Str}
    (hu : ∀ path ∈ artifacts ++ outputRoots, isUtf8 path = true)
    (hu' : ∀ path ∈ artifacts' ++ outputRoots', isUtf8 path = true)
    (h : outputSelectionMetadata mode workspaceRoot artifacts outputRoots =
      outputSelectionMetadata mode' workspaceRoot artifacts' outputRoots') (before after : Snapshot) :
    (selectOutputs before after workspaceRoot artifacts outputRoots).toOption =
      (selectOutputs before after workspaceRoot artifacts' outputRoots').toOption := by
  have ha := mem_absolutized_of_metadata hr (fun path hm => hu path (List.mem_append_left _ hm))
    (fun path hm => hu' path (List.mem_append_left _ hm)) (congrArg Attest.OutputSelection.artifacts h)
  have ho := mem_absolutized_of_metadata hr (fun path hm => hu path (List.mem_append_right _ hm))
    (fun path hm => hu' path (List.mem_append_right _ hm)) (congrArg Attest.OutputSelection.outputRoots h)
  have hnil {paths paths' : List Str} (hp : ∀ key, key ∈ paths.map (absolutize workspaceRoot) ↔
      key ∈ paths'.map (absolutize workspaceRoot)) : paths = [] ↔ paths' = [] := by
    rw [← List.map_eq_nil_iff (f := absolutize workspaceRoot),List.eq_nil_iff_forall_not_mem]
    simp only [hp]
    rw [← List.eq_nil_iff_forall_not_mem,List.map_eq_nil_iff]
  rw [selectOutputs_toOption,selectOutputs_toOption]
  apply if_congr (and_congr (hnil ha) (hnil ho)) rfl
  obtain ⟨hnone,hsome⟩ := mapM_congr_mem (f := fun key => outputAt after (lossy key)) ha
  cases hm : (artifacts.map (absolutize workspaceRoot)).mapM fun key => outputAt after (lossy key) with
  | none => rw [hnone.mp hm,Option.map_none,Option.map_none]
  | some selected =>
    cases hm' : (artifacts'.map (absolutize workspaceRoot)).mapM fun key => outputAt after (lossy key) with
    | none =>
      rw [hnone.mpr hm'] at hm
      cases hm
    | some selected' =>
      have hordered : ordered (keptOutputs before after (outputRoots.map (absolutize workspaceRoot)) ++ selected) =
          ordered (keptOutputs before after (outputRoots'.map (absolutize workspaceRoot)) ++ selected') := by
        apply @ordered_congr after
        · intro output hmem
          rcases List.mem_append.mp hmem with hk | hs
          · exact held_changedOutputs (mem_keptOutputs.mp hk).1
          · rw [(mapM_eq_some_filterMap.mp hm).2] at hs
            obtain ⟨key,-,hkey⟩ := List.mem_filterMap.mp hs
            exact held_of_outputAt hkey
        · intro output
          simp only [List.mem_append,mem_keptOutputs,ho,hsome selected selected' hm hm']
      rw [Option.map_some,Option.map_some,hordered]

/-- One record for an absolute spelling and for a relative one that leaves the workspace and returns. -/
theorem selectOutputs_of_metadata_spellings :
    (selectOutputs ⟨[],by decide⟩ ⟨[(utf8 "/w/dist/app",⟨.file,some (utf8 "ab"),none⟩)],by decide⟩ (utf8 "/w")
      [utf8 "/w/../w/dist/app"] [utf8 "/w//dist/"]).toOption =
    (selectOutputs ⟨[],by decide⟩ ⟨[(utf8 "/w/dist/app",⟨.file,some (utf8 "ab"),none⟩)],by decide⟩ (utf8 "/w")
      [utf8 "../w/dist/app"] [utf8 "dist"]).toOption ∧
    (selectOutputs ⟨[],by decide⟩ ⟨[(utf8 "/w/dist/app",⟨.file,some (utf8 "ab"),none⟩)],by decide⟩ (utf8 "/w")
      [utf8 "../w/dist/app"] [utf8 "dist"]).toOption =
        some ⟨.explicit,[⟨utf8 "/w/dist/app",utf8 "ab"⟩]⟩ :=
  ⟨@selectOutputs_of_metadata (utf8 "/w") (by decide +kernel) .explicit .explicit _ _ _ _ (by decide +kernel)
    (by decide +kernel) (by decide +kernel) _ _,by decide +kernel⟩

end Repx.Workspace
