import Repx.Foundation.Descent
import Repx.Foundation.HashTables
import Repx.Trace.Event
import Repx.Workspace.SelectedOutputs

/-! # Taking a snapshot of the workspace

The directories below the root are listed in turn, without following links, and every file
with readable contents, every link and every directory gets an entry under its path as text.
A snapshot ends although directories may be mounted into each other, and it describes the
reached paths one by one: in which order they were found makes no difference.
-/
namespace Repx.Workspace
open ByteString Utf8 UnixPaths KeyedSort HashTables Descent Std
open Trace (FileObservation)

inductive FileType where
  | file
  | directory
  | symlink
  | other
deriving DecidableEq

/-- What the system answers about a path. `metadata` follows links, `symlinkMetadata` does not. -/
structure FileSystem where
  symlinkMetadata : Str → Option FileType
  metadata : Str → Option FileType
  readLink : Str → Option Str
  canonicalize : Str → Except Str Str
  readDir : Str → Except Str (List Str)
  observePath : Str → FileObservation

/-- A path as it is opened and as it is recorded. -/
structure Place where
  actual : Str
  logical : Str
deriving DecidableEq

abbrev Entries := ExtTreeMap Str SnapshotEntry

namespace FileSystem
variable (fs : FileSystem)

/-- Looks at the path as text. -/
def hashFileContents (path : Str) : Option Str := (fs.observePath (lossy path)).contentHash

/-- A directory that is listed. -/
def isListed (path : Str) : Bool :=
  fs.symlinkMetadata path == some .directory && fileName path != some (utf8 ".git")

/-- The entry of a link gives way to that of the file it leads to. -/
def recordSymlink (place : Place) (entries : Entries) : Entries :=
  let logicalKey := lossy place.logical
  let target := (fs.readLink place.actual).map lossy
  let entries := entries.insert logicalKey ⟨.symlink,none,target⟩
  if fs.metadata place.actual = some .file then
    match fs.hashFileContents place.actual with
    | some hash => entries.insert logicalKey ⟨.file,some hash,target⟩
    | none => entries
  else entries

/-- What `walk` records before it descends. -/
def record (place : Place) (entries : Entries) : Entries :=
  let logicalKey := lossy place.logical
  match fs.symlinkMetadata place.actual with
  | none => entries
  | some .symlink => fs.recordSymlink place entries
  | some .directory =>
    if fileName place.actual = some (utf8 ".git") then entries
    else entries.insert logicalKey ⟨.directory,none,none⟩
  | some .file =>
    match fs.hashFileContents place.actual with
    | some hash => entries.insert logicalKey ⟨.file,some hash,none⟩
    | none => entries
  | some .other => entries

/-- The key under which `walk` remembers a directory. -/
def seenKey (place : Place) : Except Str (Option Str) :=
  if fs.isListed place.actual then (fs.canonicalize place.actual).map some else .ok none

/-- The children of a directory, in the order of their names. -/
def children (place : Place) : Except Str (List Place) :=
  (fs.readDir place.actual).map fun names =>
    (sortByKey (fun name => name) names).map fun name => ⟨push place.actual name,push place.logical name⟩

def terrain : Terrain Place Str Str := ⟨fs.seenKey,fs.children⟩

/-- `walk` and `walk_dir`. -/
def walk (fuel : ℕ) (place : Place) (state : State Str Entries) : Option (Except Str (State Str Entries)) :=
  descend fs.terrain fs.record fuel place state

/-- The table of a snapshot; `none` when the fuel does not suffice. -/
def snapshot (fuel : ℕ) (root : Str) : Option (Except Str Entries) :=
  (fs.walk fuel ⟨root,root⟩ ⟨∅,∅⟩).map (Except.map State.record)

end FileSystem

/-- A table in the order in which it is iterated. -/
def Snapshot.ofEntries {ι : Type} (order : IterationOrder ι) (site : ι) (entries : Entries) : Snapshot where
  entries := order.visit site entries.toList
  nodup := by
    rw [((order.perm site entries.toList).map Prod.fst).nodup_iff,ExtTreeMap.map_fst_toList_eq_keys]
    exact ExtTreeMap.nodup_keys

section Entry
variable (fs : FileSystem) (path : Str)

/-- The entry that a path gets, by what is there. -/
def FileSystem.entryAt : Option SnapshotEntry :=
  match fs.symlinkMetadata path with
  | some .symlink =>
    let target := (fs.readLink path).map lossy
    if fs.metadata path = some .file then
      some (((fs.hashFileContents path).map fun hash => ⟨.file,some hash,target⟩).getD ⟨.symlink,none,target⟩)
    else some ⟨.symlink,none,target⟩
  | some .directory => if fileName path = some (utf8 ".git") then none else some ⟨.directory,none,none⟩
  | some .file => (fs.hashFileContents path).map fun hash => ⟨.file,some hash,none⟩
  | _ => none

variable {fs path}

theorem getElem?_insert {entries : Entries} {key key' : Str} {entry : SnapshotEntry} :
    (entries.insert key entry)[key']? = if key = key' then some entry else entries[key']? := by
  rw [ExtTreeMap.getElem?_insert]
  simp only [Std.compare_eq_iff_eq]

/-- A place changes the entry of its own key, and only if it has one. -/
theorem getElem?_record {place : Place} {entries : Entries} {key : Str} :
    (fs.record place entries)[key]? =
      if lossy place.logical = key then (fs.entryAt place.actual).or entries[key]? else entries[key]? := by
  unfold FileSystem.record FileSystem.recordSymlink FileSystem.entryAt
  cases fs.symlinkMetadata place.actual with
  | none => simp
  | some type =>
    cases type with
    | file => cases fs.hashFileContents place.actual <;> simp [getElem?_insert]
    | directory =>
      dsimp only
      split_ifs <;> simp [getElem?_insert, *]
    | symlink =>
      dsimp only
      cases fs.hashFileContents place.actual <;> split_ifs <;> simp [getElem?_insert, *]
    | other => simp

/-- The places of a key decide its entry. -/
theorem getElem?_foldl_record {places : List Place} {first : Entries} {key : Str} {entry : Option SnapshotEntry}
    (h : ∀ place ∈ places, lossy place.logical = key → fs.entryAt place.actual = entry) :
    (places.foldl (fun entries place => fs.record place entries) first)[key]? =
      if ∃ place ∈ places, lossy place.logical = key then entry.or first[key]? else first[key]? := by
  induction places generalizing first with
  | nil => simp
  | cons place places ih =>
    rw [List.foldl_cons,ih fun p hp => h p (List.mem_cons_of_mem _ hp),getElem?_record]
    have hhere := h place List.mem_cons_self
    by_cases hk : lossy place.logical = key
    · simp only [hk,hhere hk,if_true,List.mem_cons,exists_eq_or_imp,true_or]
      split_ifs
      · rw [← Option.or_assoc,Option.or_self]
      · rfl
    · simp [hk]

end Entry

section Walk
variable (fs : FileSystem)

/-- The paths a walk from the root meets when nothing fails. -/
inductive Visited (root : Str) : Str → Prop
  | root : Visited root root
  | child {path name : Str} {names : List Str} : Visited root path → fs.isListed path = true →
      fs.readDir path = .ok names → name ∈ names → Visited root (push path name)

/-- A directory that has no canonical path or cannot be listed. -/
def Unlistable (path : Str) : Prop :=
  fs.isListed path = true ∧ ((∃ e, fs.canonicalize path = .error e) ∨ ∃ e, fs.readDir path = .error e)

/-- Directories hold names, and canonical paths are followed down through directories. -/
structure FileSystem.Lawful : Prop where
  names : ∀ path names, fs.readDir path = .ok names → ∀ name ∈ names, IsName name
  canonical : ∀ path target, fs.canonicalize path = .ok target → Canonical target
  canonicalize_push : ∀ path name target target', IsName name → fs.canonicalize path = .ok target →
    fs.symlinkMetadata (push path name) = some .directory → fs.canonicalize (push path name) = .ok target' →
    target' = push target name

variable {fs}

theorem seenKey_eq_ok_some {place : Place} {key : Str} :
    fs.seenKey place = .ok (some key) ↔ fs.isListed place.actual = true ∧ fs.canonicalize place.actual = .ok key := by
  unfold FileSystem.seenKey
  by_cases hl : fs.isListed place.actual = true
  · cases hc : fs.canonicalize place.actual <;> simp [hl,Except.map]
  · simp [hl]

theorem seenKey_eq_error {place : Place} {e : Str} :
    fs.seenKey place = .error e ↔ fs.isListed place.actual = true ∧ fs.canonicalize place.actual = .error e := by
  unfold FileSystem.seenKey
  by_cases hl : fs.isListed place.actual = true
  · cases hc : fs.canonicalize place.actual <;> simp [hl,Except.map]
  · simp [hl]

theorem children_eq_ok {place : Place} {places : List Place} : fs.children place = .ok places ↔
    ∃ names, fs.readDir place.actual = .ok names ∧ places =
      (sortByKey (fun name => name) names).map fun name => ⟨push place.actual name,push place.logical name⟩ := by
  unfold FileSystem.children
  cases fs.readDir place.actual <;> simp [Except.map,eq_comm]

theorem children_eq_error {place : Place} {e : Str} :
    fs.children place = .error e ↔ fs.readDir place.actual = .error e := by
  unfold FileSystem.children
  cases fs.readDir place.actual <;> simp [Except.map]

/-- A place that is reached is recorded under the path at which it is opened. -/
theorem visited_of_reach {root : Str} {place : Place} (h : Reach fs.terrain ⟨root,root⟩ place) :
    place.logical = place.actual ∧ Visited fs root place.actual := by
  induction h with
  | refl => exact ⟨rfl,.root⟩
  | child _ hkey hchildren hmem ih =>
    obtain ⟨names,hread,rfl⟩ := children_eq_ok.mp hchildren
    obtain ⟨name,hname,rfl⟩ := List.mem_map.mp hmem
    exact ⟨by rw [ih.1],.child ih.2 (seenKey_eq_ok_some.mp hkey).1 hread (mem_sortByKey.mp hname)⟩

theorem fails_iff_unlistable {path : Str} : (∃ e, Fails fs.terrain ⟨path,path⟩ e) ↔ Unlistable fs path := by
  constructor
  · rintro ⟨e,hkey | ⟨⟨key,hkey⟩,hc⟩⟩
    · obtain ⟨hl,hc⟩ := seenKey_eq_error.mp hkey
      exact ⟨hl,Or.inl ⟨e,hc⟩⟩
    · exact ⟨(seenKey_eq_ok_some.mp hkey).1,Or.inr ⟨e,children_eq_error.mp hc⟩⟩
  · rintro ⟨hl,⟨e,hc⟩ | ⟨e,hread⟩⟩
    · exact ⟨e,Or.inl (seenKey_eq_error.mpr ⟨hl,hc⟩)⟩
    · cases hc : fs.canonicalize path with
      | error e' => exact ⟨e',Or.inl (seenKey_eq_error.mpr ⟨hl,hc⟩)⟩
      | ok key => exact ⟨e,Or.inr ⟨⟨key,seenKey_eq_ok_some.mpr ⟨hl,hc⟩⟩,children_eq_error.mpr hread⟩⟩

/-- Where nothing that is reached fails, all visited paths are reached. -/
theorem reach_of_visited {root path : Str}
    (hok : ∀ path, Reach fs.terrain ⟨root,root⟩ ⟨path,path⟩ → ¬ Unlistable fs path) (h : Visited fs root path) :
    Reach fs.terrain ⟨root,root⟩ ⟨path,path⟩ := by
  induction h with
  | root => exact .refl _
  | @child path name names hv hl hread hmem ih =>
    cases hc : fs.canonicalize path with
    | error e => exact absurd ⟨hl,Or.inl ⟨e,hc⟩⟩ (hok path ih)
    | ok target =>
      exact .child ih (seenKey_eq_ok_some.mpr ⟨hl,hc⟩) (children_eq_ok.mpr ⟨names,hread,rfl⟩)
        (List.mem_map.mpr ⟨name,mem_sortByKey.mpr hmem,rfl⟩)

/-- What is reached lies below the root by names, and so does its canonical path below that of the root. -/
theorem names_of_reach (hfs : fs.Lawful) {root : Str} {place : Place} (h : Reach fs.terrain ⟨root,root⟩ place) :
    ∃ names : List Str, (∀ name ∈ names, IsName name) ∧ place = ⟨names.foldl push root,names.foldl push root⟩ ∧
      ∀ key, fs.seenKey place = .ok (some key) →
        ∃ target, fs.canonicalize root = .ok target ∧ key = names.foldl push target := by
  induction h with
  | refl => exact ⟨[],by simp,rfl,fun key hkey => ⟨key,(seenKey_eq_ok_some.mp hkey).2,rfl⟩⟩
  | child _ hkey hchildren hmem ih =>
    obtain ⟨names,hnames,rfl,hcanonical⟩ := ih
    obtain ⟨listing,hread,rfl⟩ := children_eq_ok.mp hchildren
    obtain ⟨name,hname,rfl⟩ := List.mem_map.mp hmem
    have hisName := hfs.names _ _ hread name (mem_sortByKey.mp hname)
    refine ⟨names ++ [name],?_,by simp,fun key hkey' => ?_⟩
    · intro n hn
      rcases List.mem_append.mp hn with hn | hn
      · exact hnames n hn
      · rw [List.mem_singleton.mp hn]
        exact hisName
    · obtain ⟨target,htarget,rfl⟩ := hcanonical _ hkey
      obtain ⟨hl,hc⟩ := seenKey_eq_ok_some.mp hkey'
      have hdir : fs.symlinkMetadata (push (names.foldl push root) name) = some .directory := by
        simp only [FileSystem.isListed,Bool.and_eq_true,beq_iff_eq] at hl
        exact hl.1
      have hpush := hfs.canonicalize_push _ name _ key hisName (seenKey_eq_ok_some.mp hkey).2 hdir hc
      exact ⟨target,htarget,by simpa using hpush⟩

/-- No two directories that are reached share their canonical path. -/
theorem place_eq_of_seenKey (hfs : fs.Lawful) {root : Str} {place place' : Place} {key : Str}
    (h : Reach fs.terrain ⟨root,root⟩ place) (h' : Reach fs.terrain ⟨root,root⟩ place')
    (hkey : fs.seenKey place = .ok (some key)) (hkey' : fs.seenKey place' = .ok (some key)) : place = place' := by
  obtain ⟨names,hnames,rfl,hc⟩ := names_of_reach hfs h
  obtain ⟨names',hnames',rfl,hc'⟩ := names_of_reach hfs h'
  obtain ⟨target,htarget,rfl⟩ := hc _ hkey
  obtain ⟨target',htarget',heq⟩ := hc' _ hkey'
  obtain rfl := Except.ok.inj (htarget.symm.trans htarget')
  have hne : target ≠ [] := by
    rintro rfl
    exact absurd (hfs.canonical _ _ htarget).1 (by decide)
  have hcomponents := congrArg components heq
  rw [components_foldl_push hne hnames,components_foldl_push hne hnames'] at hcomponents
  rw [ofName_injective.list_map (List.append_cancel_left hcomponents)]

end Walk

section Contents
variable {fs : FileSystem} {fuel : ℕ} {root : Str}

theorem snapshot_eq_trail : fs.snapshot fuel root = (descend fs.terrain trail fuel ⟨root,root⟩ ⟨∅,[]⟩).map
    (Except.map fun state => state.record.foldl (fun entries place => fs.record place entries) ∅) := by
  have h := descend_eq_trail fs.terrain fs.record ∅ fuel ⟨root,root⟩ ∅ []
  rw [List.foldl_nil] at h
  rw [FileSystem.snapshot,FileSystem.walk]
  rw [h,Option.map_map]
  congr 1
  funext result
  cases result <;> rfl

/-- A file system with finitely many directories has a snapshot, or the reason why there is none, whatever its
directories contain. -/
theorem snapshot_terminates (fs : FileSystem) (root : Str) (directories : List Str)
    (hfinite : ∀ path target, fs.canonicalize path = .ok target → target ∈ directories) :
    ∃ result, ∀ fuel, directories.length < fuel → fs.snapshot fuel root = some result := by
  have hkeys : ∀ place key, fs.terrain.key place = .ok (some key) → key ∈ directories :=
    fun place key hkey => hfinite _ _ (seenKey_eq_ok_some.mp hkey).2
  have hfuel : unseen directories ∅ < directories.length + 1 := Nat.lt_succ_of_le List.countP_le_length
  have hsome : (fs.walk (directories.length + 1) ⟨root,root⟩ ⟨∅,∅⟩).isSome := descend_isSome hkeys hfuel
  obtain ⟨result,hresult⟩ := Option.isSome_iff_exists.mp hsome
  refine ⟨result.map State.record,fun fuel hle => ?_⟩
  rw [FileSystem.snapshot,FileSystem.walk,descend_of_le hresult hle]
  rfl

/-- Every path is a directory that holds a directory, and there is only one of them. -/
def nestedMount : FileSystem where
  symlinkMetadata _ := some .directory
  metadata _ := some .directory
  readLink _ := none
  canonicalize _ := .ok (utf8 "/w")
  readDir _ := .ok [utf8 "d"]
  observePath _ := .nonRegular []

theorem snapshot_terminates_nestedMount :
    ∃ result, ∀ fuel, 1 < fuel → nestedMount.snapshot fuel (utf8 "/w") = some result :=
  snapshot_terminates nestedMount (utf8 "/w") [utf8 "/w"] fun path target h => by
    rw [← Except.ok.inj h]
    exact List.mem_singleton_self _

/-- The trail of a snapshot that was taken. -/
theorem exists_trail_of_snapshot {entries : Entries} (h : fs.snapshot fuel root = some (.ok entries)) :
    ∃ state, descend fs.terrain trail fuel ⟨root,root⟩ ⟨∅,[]⟩ = some (.ok state) ∧
      entries = state.record.foldl (fun entries place => fs.record place entries) ∅ := by
  rw [snapshot_eq_trail] at h
  obtain ⟨result,hresult,hmap⟩ := Option.map_eq_some_iff.mp h
  cases result with
  | error e => simp [Except.map] at hmap
  | ok state => exact ⟨state,hresult,(Except.ok.inj hmap).symm⟩

/-- The places of a snapshot are the visited paths, and all of them could be listed. -/
theorem mem_trail_snapshot (hfs : fs.Lawful) {state : State Str (List Place)}
    (h : descend fs.terrain trail fuel ⟨root,root⟩ ⟨∅,[]⟩ = some (.ok state)) :
    (∀ place, place ∈ state.record ↔ Visited fs root place.actual ∧ place.logical = place.actual) ∧
      ∀ path, Visited fs root path → ¬ Unlistable fs path := by
  obtain ⟨hmem,hfails⟩ := mem_trail_iff h fun m m' k => place_eq_of_seenKey hfs
  have hok (path : Str) (hr : Reach fs.terrain ⟨root,root⟩ ⟨path,path⟩) : ¬ Unlistable fs path := by
    intro hu
    obtain ⟨e,hfail⟩ := fails_iff_unlistable.mpr hu
    exact hfails _ e hr hfail
  refine ⟨fun place => ⟨fun hm => ?_,?_⟩,fun path hv => hok path (reach_of_visited hok hv)⟩
  · obtain ⟨hlogical,hv⟩ := visited_of_reach ((hmem place).mp hm)
    exact ⟨hv,hlogical⟩
  · obtain ⟨actual,logical⟩ := place
    rintro ⟨hv,hlogical⟩
    obtain rfl : logical = actual := hlogical
    exact (hmem _).mpr (reach_of_visited hok hv)

/-- No two visited paths read alike, as when all of them are text. -/
def ReadApart (fs : FileSystem) (root : Str) : Prop :=
  ∀ path path', Visited fs root path → Visited fs root path' → lossy path = lossy path' → path = path'

/-- The table of a snapshot has the entries of the visited paths, and no others. -/
theorem getElem?_snapshot (hfs : fs.Lawful) {entries : Entries} (h : fs.snapshot fuel root = some (.ok entries))
    (hapart : ReadApart fs root) {key : Str} {entry : SnapshotEntry} : entries[key]? = some entry ↔
      ∃ path, Visited fs root path ∧ lossy path = key ∧ fs.entryAt path = some entry := by
  obtain ⟨state,hstate,rfl⟩ := exists_trail_of_snapshot h
  have hmem := (mem_trail_snapshot hfs hstate).1
  by_cases hkey : ∃ place ∈ state.record, lossy place.logical = key
  · obtain ⟨⟨path,logical⟩,hm,hlossy⟩ := hkey
    obtain ⟨hv,hlogical⟩ := (hmem _).mp hm
    obtain rfl : logical = path := hlogical
    have hsame : ∀ place ∈ state.record, lossy place.logical = key →
        fs.entryAt place.actual = fs.entryAt logical := by
      intro place hp hk
      obtain ⟨hv',hlogical'⟩ := (hmem _).mp hp
      rw [hapart _ _ hv' hv (by rw [← hlogical',hk,← hlossy])]
    rw [getElem?_foldl_record hsame,if_pos ⟨_,hm,hlossy⟩]
    have hempty : (∅ : Entries)[key]? = none := ExtTreeMap.getElem?_empty
    rw [hempty,Option.or_none]
    constructor
    · exact fun he => ⟨logical,hv,hlossy,he⟩
    · rintro ⟨path,hv',hlossy',he⟩
      rwa [hapart _ _ hv' hv (hlossy'.trans hlossy.symm)] at he
  · have hnone : ∀ place ∈ state.record, lossy place.logical = key → fs.entryAt place.actual = none :=
      fun place hp hk => absurd ⟨place,hp,hk⟩ hkey
    rw [getElem?_foldl_record hnone,if_neg hkey]
    constructor
    · intro he
      simp at he
    · rintro ⟨path,hv,hlossy,-⟩
      exact absurd ⟨⟨path,path⟩,(hmem _).mpr ⟨hv,rfl⟩,hlossy⟩ hkey

theorem exists_unlistable_of_snapshot {e : Str} (h : fs.snapshot fuel root = some (.error e)) :
    ∃ path, Visited fs root path ∧ Unlistable fs path := by
  rw [snapshot_eq_trail] at h
  obtain ⟨result,hdescend,hmap⟩ := Option.map_eq_some_iff.mp h
  cases result with
  | ok state => simp [Except.map] at hmap
  | error e =>
    obtain ⟨⟨actual,logical⟩,hr,hfail⟩ := exists_fails_of_descend hdescend
    obtain ⟨hlogical,hv⟩ := visited_of_reach hr
    obtain rfl : logical = actual := hlogical
    exact ⟨_,hv,fails_iff_unlistable.mp ⟨e,hfail⟩⟩

/-- Two states of the files that show the same below the root, however their directories are listed. -/
structure SameContents (fs fs' : FileSystem) (root : Str) : Prop where
  lawful : fs.Lawful
  lawful' : fs'.Lawful
  apart : ReadApart fs root
  apart' : ReadApart fs' root
  listable : (∀ path, Visited fs root path → ¬ Unlistable fs path) →
    ∀ path, Visited fs' root path → ¬ Unlistable fs' path
  entries : ∀ key entry, (∃ path, Visited fs root path ∧ lossy path = key ∧ fs.entryAt path = some entry) ↔
    ∃ path, Visited fs' root path ∧ lossy path = key ∧ fs'.entryAt path = some entry

theorem SameContents.snapshot_eq {fs' : FileSystem} (hsame : SameContents fs fs' root) {entries : Entries}
    (h : fs.snapshot fuel root = some (.ok entries)) {fuel' : ℕ} {result : Except Str Entries}
    (h' : fs'.snapshot fuel' root = some result) : result = .ok entries := by
  obtain ⟨state,hstate,-⟩ := exists_trail_of_snapshot h
  have hlistable := hsame.listable (mem_trail_snapshot hsame.lawful hstate).2
  cases result with
  | error e =>
    obtain ⟨path,hv,hu⟩ := exists_unlistable_of_snapshot h'
    exact absurd hu (hlistable path hv)
  | ok entries' =>
    refine congrArg Except.ok (ExtTreeMap.ext_getElem? fun key => Option.ext fun entry => ?_)
    rw [getElem?_snapshot hsame.lawful h hsame.apart,getElem?_snapshot hsame.lawful' h' hsame.apart']
    exact (hsame.entries key entry).symm

end Contents

section Changes
variable {fs fs' : FileSystem} {fuel fuel' : ℕ} {root : Str} {entries entries' : Entries}

theorem get_ofEntries {ι : Type} (order : IterationOrder ι) (site : ι) (entries : Entries) (path : Str) :
    (Snapshot.ofEntries order site entries).get path = entries[path]? := by
  have hmem {entry : SnapshotEntry} :
      (path,entry) ∈ (Snapshot.ofEntries order site entries).entries ↔ entries[path]? = some entry := by
    rw [Snapshot.ofEntries,IterationOrder.mem_visit,ExtTreeMap.mem_toList_iff_getElem?_eq_some]
  cases he : entries[path]? with
  | some entry => exact Snapshot.get_of_mem (hmem.mpr he)
  | none =>
    cases hg : (Snapshot.ofEntries order site entries).get path with
    | none => rfl
    | some entry =>
      have hentry := hmem.mp (Snapshot.mem_of_get hg)
      rw [he] at hentry
      cases hentry

/-- A regular file, or a link to one, with contents of the given identity. The contents are read through the
path as text. -/
def HasFile (fs : FileSystem) (path hash : Str) : Prop :=
  (fs.symlinkMetadata path = some .file ∨ fs.symlinkMetadata path = some .symlink ∧ fs.metadata path = some .file) ∧
    fs.observePath (lossy path) = .content hash

theorem hashFileContents_eq_some {path hash : Str} :
    fs.hashFileContents path = some hash ↔ fs.observePath (lossy path) = .content hash := by
  unfold FileSystem.hashFileContents
  cases fs.observePath (lossy path) <;> simp [FileObservation.contentHash]

theorem entryAt_file_iff {path hash : Str} :
    (∃ entry, fs.entryAt path = some entry ∧ entry.kind = .file ∧ entry.hash = some hash) ↔ HasFile fs path hash := by
  rw [HasFile,← hashFileContents_eq_some]
  unfold FileSystem.entryAt
  cases fs.symlinkMetadata path with
  | none => simp
  | some type =>
    cases type with
    | file => cases fs.hashFileContents path <;> simp
    | directory =>
      dsimp only
      split_ifs <;> simp
    | symlink =>
      dsimp only
      cases fs.hashFileContents path <;> split_ifs with hm <;> simp [hm]
    | other => simp

end Changes

section Samples

variable (app : Option Str)

end Samples

end Repx.Workspace
