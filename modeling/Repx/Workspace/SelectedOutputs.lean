import Repx.Workspace.OutputSelection

/-! # What a selection holds

The outputs of an explicit selection, by the snapshots and the flags alone: every artifact,
and every changed file below one of the roots, once and in the order of the paths.
-/
namespace Repx.Workspace
open ByteString Utf8 UnixPaths TextSearch KeyedSort Std

/-- The snapshot has a regular file with this hash at the path. -/
def HashedFile (snapshot : Snapshot) (path hash : Str) : Prop :=
  ∃ entry, snapshot.get path = some entry ∧ entry.kind = .file ∧ entry.hash = some hash

/-- An artifact under its absolute path. -/
def IsArtifact (workspaceRoot : Str) (artifacts : List Str) (path : Str) : Prop :=
  ∃ artifact ∈ artifacts, lossy (absolutize workspaceRoot artifact) = path

/-- The path lies under one of the output roots, component by component. -/
def UnderRoot (workspaceRoot : Str) (outputRoots : List Str) (path : Str) : Prop :=
  ∃ root ∈ outputRoots, components (absolutize workspaceRoot root) <+: components path

theorem outputAt_eq_hashedFile {after : Snapshot} {path hash : Str} :
    outputAt after path = some ⟨path,hash⟩ ↔ HashedFile after path hash := by
  rw [outputAt_eq_some,HashedFile]
  simp only [and_true]

theorem outputAt_ne_none {after : Snapshot} {path : Str} :
    outputAt after path ≠ none ↔ ∃ hash, HashedFile after path hash := by
  rw [Option.ne_none_iff_exists']
  constructor
  · rintro ⟨output,ho⟩
    obtain ⟨entry,he,hk,hh,-⟩ := outputAt_eq_some.mp ho
    exact ⟨output.hash,entry,he,hk,hh⟩
  · rintro ⟨hash,h⟩
    exact ⟨_,outputAt_eq_hashedFile.mpr h⟩

theorem Snapshot.mem_of_get {snapshot : Snapshot} {path : Str} {entry : SnapshotEntry}
    (h : snapshot.get path = some entry) : (path,entry) ∈ snapshot.entries := by
  obtain ⟨front,back,he,-⟩ := List.lookup_eq_some_iff.mp h
  rw [he]
  simp

/-- Merging outputs of one table drops repetitions only. -/
theorem mem_ordered {after : Snapshot} {outputs : List OutputFile} (h : ∀ output ∈ outputs, Held after output)
    {output : OutputFile} : output ∈ ordered outputs ↔ output ∈ outputs := by
  refine ⟨mem_of_mem_ordered,fun hm => ?_⟩
  have hpath : output.path ∈ (ordered outputs).map OutputFile.path := by
    rw [ordered_of_held h,mem_map_dedup_sort]
    exact List.mem_map_of_mem hm
  obtain ⟨kept,hk,he⟩ := List.mem_map.mp hpath
  have hheld := h kept (mem_of_mem_ordered hk)
  rw [Held,he,h output hm,Option.some.injEq] at hheld
  rwa [hheld]

theorem pairwise_ordered {after : Snapshot} {outputs : List OutputFile} (h : ∀ output ∈ outputs, Held after output) :
    (ordered outputs).Pairwise fun a b => compare a.path b.path = .lt := by
  rw [ordered_of_held h]
  exact List.pairwise_map.mp (pairwise_dedup_sort OutputFile.path outputs)

theorem mem_changedOutputs {before after : Snapshot} {path hash : Str} :
    ⟨path,hash⟩ ∈ changedOutputs before after ↔ HashedFile after path hash ∧ before.get path ≠ after.get path := by
  unfold changedOutputs
  rw [mem_ordered fun output ho => ?held]
  case held =>
    obtain ⟨⟨path,entry⟩,hm,ho⟩ := List.mem_filterMap.mp ho
    exact held_changedOutput hm ho
  constructor
  · intro hm
    obtain ⟨⟨path',entry⟩,hm,ho⟩ := List.mem_filterMap.mp hm
    obtain ⟨hk,hb,hh,rfl⟩ := changedOutput_eq_some.mp ho
    have hget := Snapshot.get_of_mem hm
    exact ⟨⟨entry,hget,hk,hh⟩,by rwa [hget]⟩
  · rintro ⟨⟨entry,hget,hk,hh⟩,hb⟩
    rw [hget] at hb
    exact List.mem_filterMap.mpr ⟨(path,entry),Snapshot.mem_of_get hget,changedOutput_eq_some.mpr ⟨hk,hb,hh,rfl⟩⟩

section Congruence
variable {before before' after after' : Snapshot} (hb : ∀ path, before.get path = before'.get path)
  (ha : ∀ path, after.get path = after'.get path)
include hb ha

/-- The changes depend on the tables, and not on the order in which they are iterated. -/
theorem changedOutputs_congr : changedOutputs before after = changedOutputs before' after' := by
  have hmem {snapshot : Snapshot} {path : Str} {entry : SnapshotEntry} :
      (path,entry) ∈ snapshot.entries ↔ snapshot.get path = some entry :=
    ⟨Snapshot.get_of_mem,Snapshot.mem_of_get⟩
  have hchanged : changedOutput before = changedOutput before' := by
    funext path entry
    rw [changedOutput,changedOutput,hb path]
  refine @ordered_congr after _ _ (fun output ho => ?_) fun output => ?_
  · obtain ⟨⟨path,entry⟩,hm,ho⟩ := List.mem_filterMap.mp ho
    exact held_changedOutput hm ho
  · simp only [List.mem_filterMap,Prod.exists,hmem,ha,hchanged]

theorem selectOutputs_congr (workspaceRoot : Str) (artifacts outputRoots : List Str) :
    selectOutputs before after workspaceRoot artifacts outputRoots =
      selectOutputs before' after' workspaceRoot artifacts outputRoots := by
  have hartifact : selectArtifact after workspaceRoot = selectArtifact after' workspaceRoot := by
    funext artifact
    simp only [selectArtifact,ha]
  simp only [selectOutputs,changedOutputs_congr hb ha,hartifact]

end Congruence

/-- An explicit selection fails on an artifact that is no hashed file, and else holds the artifacts and
what changed under the roots. -/
theorem selectOutputs_explicit (before after : Snapshot) (workspaceRoot : Str) {artifacts outputRoots : List Str}
    (hne : artifacts ≠ [] ∨ outputRoots ≠ []) :
    ((∃ message, selectOutputs before after workspaceRoot artifacts outputRoots = .error message) ↔
      ∃ path, IsArtifact workspaceRoot artifacts path ∧ ¬ ∃ hash, HashedFile after path hash) ∧
    ∀ selected, selectOutputs before after workspaceRoot artifacts outputRoots = .ok selected →
      selected.outputs.Pairwise (fun a b => compare a.path b.path = .lt) ∧
      ∀ path hash, ⟨path,hash⟩ ∈ selected.outputs ↔ HashedFile after path hash ∧
        (IsArtifact workspaceRoot artifacts path ∨
          before.get path ≠ after.get path ∧ UnderRoot workspaceRoot outputRoots path) := by
  have hcond : ¬ (artifacts = [] ∧ outputRoots = []) := fun h => hne.elim (fun hn => hn h.1) fun hn => hn h.2
  have hoption := selectOutputs_toOption before after workspaceRoot artifacts outputRoots
  rw [if_neg hcond] at hoption
  have hkeys : (∀ key ∈ artifacts.map (absolutize workspaceRoot), outputAt after (lossy key) ≠ none) ↔
      ∀ path, IsArtifact workspaceRoot artifacts path → ∃ hash, HashedFile after path hash := by
    simp only [List.forall_mem_map,outputAt_ne_none,IsArtifact,forall_exists_index,and_imp]
    exact ⟨fun h path artifact hm he => he ▸ h artifact hm,fun h artifact hm => h _ artifact hm rfl⟩
  constructor
  · have hfail : (∃ message, selectOutputs before after workspaceRoot artifacts outputRoots = .error message) ↔
        (selectOutputs before after workspaceRoot artifacts outputRoots).toOption = none := by
      cases selectOutputs before after workspaceRoot artifacts outputRoots <;> simp [Except.toOption]
    rw [hfail,hoption,Option.map_eq_none_iff,← not_iff_not,← Ne,mapM_ne_none,hkeys]
    push Not
    rfl
  · intro selected hselected
    rw [hselected] at hoption
    obtain ⟨chosen,hchosen,rfl⟩ := Option.map_eq_some_iff.mp hoption.symm
    obtain ⟨hall,rfl⟩ := mapM_eq_some_filterMap.mp hchosen
    have hheld : ∀ output ∈ keptOutputs before after (outputRoots.map (absolutize workspaceRoot)) ++
        (artifacts.map (absolutize workspaceRoot)).filterMap (fun key => outputAt after (lossy key)),
        Held after output := by
      intro output hm
      rcases List.mem_append.mp hm with hk | hs
      · exact held_changedOutputs (mem_keptOutputs.mp hk).1
      · obtain ⟨key,-,hkey⟩ := List.mem_filterMap.mp hs
        exact held_of_outputAt hkey
    refine ⟨pairwise_ordered hheld,fun path hash => ?_⟩
    rw [mem_ordered hheld,List.mem_append,mem_keptOutputs,mem_changedOutputs,List.mem_filterMap]
    have hroots : (∃ root ∈ outputRoots.map (absolutize workspaceRoot), startsWith path root = true) ↔
        UnderRoot workspaceRoot outputRoots path := by
      simp [UnderRoot,startsWith_iff]
    have hartifacts : (∃ key ∈ artifacts.map (absolutize workspaceRoot),
        outputAt after (lossy key) = some ⟨path,hash⟩) ↔
          HashedFile after path hash ∧ IsArtifact workspaceRoot artifacts path := by
      constructor
      · rintro ⟨key,hm,hkey⟩
        obtain ⟨artifact,ha,rfl⟩ := List.mem_map.mp hm
        obtain ⟨entry,he,hk,hh,hp⟩ := outputAt_eq_some.mp hkey
        obtain rfl : path = lossy (absolutize workspaceRoot artifact) := hp
        exact ⟨⟨entry,he,hk,hh⟩,artifact,ha,rfl⟩
      · rintro ⟨hfile,artifact,ha,rfl⟩
        exact ⟨_,List.mem_map_of_mem ha,outputAt_eq_hashedFile.mpr hfile⟩
    rw [hroots,hartifacts,and_assoc,← and_or_left,or_comm]

/-- An artifact that lies under the root too is selected once. -/
theorem selectOutputs_explicit_once :
    selectOutputs ⟨[],by decide⟩ ⟨[(utf8 "/w/dist/app",⟨.file,some (utf8 "ab"),none⟩)],by decide⟩ (utf8 "/w")
      [utf8 "dist/../dist/app"] [utf8 "dist"] = .ok ⟨.explicit,[⟨utf8 "/w/dist/app",utf8 "ab"⟩]⟩ ∧
    HashedFile ⟨[(utf8 "/w/dist/app",⟨.file,some (utf8 "ab"),none⟩)],by decide⟩ (utf8 "/w/dist/app") (utf8 "ab") := by
  have hselected : selectOutputs ⟨[],by decide⟩
      ⟨[(utf8 "/w/dist/app",⟨.file,some (utf8 "ab"),none⟩)],by decide⟩ (utf8 "/w")
      [utf8 "dist/../dist/app"] [utf8 "dist"] = .ok ⟨.explicit,[⟨utf8 "/w/dist/app",utf8 "ab"⟩]⟩ := by decide +kernel
  have h := (selectOutputs_explicit ⟨[],by decide⟩
    ⟨[(utf8 "/w/dist/app",⟨.file,some (utf8 "ab"),none⟩)],by decide⟩ (utf8 "/w") (Or.inl (by simp))).2 _ hselected
  exact ⟨hselected,((h.2 (utf8 "/w/dist/app") (utf8 "ab")).mp (List.mem_singleton_self _)).1⟩

end Repx.Workspace
