import Repx.Attribution.Observations
import Repx.Commands.Attesting
import Repx.Workspace.SnapshotWalk

/-! # A tracing command on its machine

The snapshots of a run are walks over the files before and after the build, and its events
come out of the ring. Where files are hashed to digests, the operations of its document have
the shape in which they are committed.
-/
namespace Repx.Commands
open ByteString Utf8 Sha256 HashTables RecordLayout Descent Trace Workspace

/-- A machine with one traced build on it, seen from outside of the program. -/
structure Machine (H : Type) where
  workspaceRoot : Str
  filesBefore : FileSystem
  filesAfter : FileSystem
  before : Except Str Entries
  before_eq : ∃ fuel, filesBefore.snapshot fuel workspaceRoot = some before
  after : Except Str Entries
  after_eq : ∃ fuel, filesAfter.snapshot fuel workspaceRoot = some after
  session : Session H
  byteOrder : Endian
  batches : List (List Str)
  sorted : List RawEvent
  sorted_eq : SortResult ((drainAll byteOrder batches).buffer.map (bufferedEvent byteOrder)) sorted
  canonicalize : Str → Option Str
  order : IterationOrder ℕ
  traversal : IterationOrder Slice.Traversal

namespace Machine
variable {H : Type} (m : Machine H) (flags : Flags)

def run : Run where
  workspaceRoot := m.workspaceRoot
  before := m.before.map (Snapshot.ofEntries m.order 0)
  trace := traceCommand m.session (flags.command.headD []) flags.watchDirs
    (drainAll m.byteOrder m.batches).malformed m.sorted
  after := m.after.map (Snapshot.ofEntries m.order 1)
  canonicalize := m.canonicalize
  order := m.order
  traversal := m.traversal

/-- Files are hashed to digests wherever they are observed. -/
structure Hashing : Prop where
  files : ∀ path, (m.filesAfter.observePath path).WellFormed
  start : m.session.start.Observes FileObservation.WellFormed
  view : ∀ site, (m.session.view site).Observes FileObservation.WellFormed

end Machine

section Snapshots
variable {fs : FileSystem}

/-- What a snapshot holds was found at a path that was visited. -/
theorem exists_entryAt_of_snapshot {fuel : ℕ} {root : Str} {entries : Entries}
    (h : fs.snapshot fuel root = some (.ok entries)) {key : Str} {entry : SnapshotEntry}
    (hentry : entries[key]? = some entry) :
    ∃ path, Visited fs root path ∧ lossy path = key ∧ fs.entryAt path = some entry := by
  obtain ⟨state,hstate,rfl⟩ := exists_trail_of_snapshot h
  have hvisited (place : Place) (hplace : place ∈ state.record) :
      place.logical = place.actual ∧ Visited fs root place.actual :=
    visited_of_reach (((covers_of_descend hstate).1.met place hplace).resolve_left List.not_mem_nil).1
  have hfold : ∀ (places : List Place) (first : Entries), (∀ place ∈ places, place ∈ state.record) →
      (∀ entry, first[key]? = some entry →
        ∃ path, Visited fs root path ∧ lossy path = key ∧ fs.entryAt path = some entry) → ∀ entry,
      (places.foldl (fun entries place => fs.record place entries) first)[key]? = some entry →
        ∃ path, Visited fs root path ∧ lossy path = key ∧ fs.entryAt path = some entry := by
    intro places
    induction places with
    | nil => exact fun first _ hfirst => hfirst
    | cons place places ih =>
      refine fun first hplaces hfirst => ih _ (fun p hp => hplaces p (List.mem_cons_of_mem _ hp)) fun entry he => ?_
      rw [getElem?_record] at he
      split_ifs at he with hkey
      · obtain ⟨hlogical,hv⟩ := hvisited place (hplaces place List.mem_cons_self)
        exact (Option.or_eq_some_iff.mp he).elim (fun hat => ⟨_,hv,by rw [← hlogical,hkey],hat⟩)
          fun hold => hfirst entry hold.2
      · exact hfirst entry he
  exact hfold state.record ∅ (fun _ h => h) (fun entry he => by simp at he) entry hentry

/-- An output that a snapshot holds is a file at a path that was visited. -/
theorem exists_file_of_snapshot {fuel : ℕ} {root : Str} {entries : Entries}
    (h : fs.snapshot fuel root = some (.ok entries)) {ι : Type} {order : IterationOrder ι} {site : ι}
    {output : Workspace.OutputFile} (hheld : Held (.ofEntries order site entries) output) :
    ∃ path, Visited fs root path ∧ lossy path = output.path ∧ HasFile fs path output.hash := by
  obtain ⟨entry,hget,hkind,hhash,-⟩ := outputAt_eq_some.mp hheld
  rw [get_ofEntries] at hget
  obtain ⟨path,hv,hlossy,hentry⟩ := exists_entryAt_of_snapshot h hget
  exact ⟨path,hv,hlossy,entryAt_file_iff.mp ⟨entry,hentry,hkind,hhash⟩⟩

/-- Every selected output is held by the snapshot after the build. -/
theorem held_of_selectOutputs {before after : Snapshot} {workspaceRoot : Str} {artifacts outputRoots : List Str}
    {selected : SelectedOutputs} (h : selectOutputs before after workspaceRoot artifacts outputRoots = .ok selected) :
    ∀ output ∈ selected.outputs, Held after output := by
  have hoption := selectOutputs_toOption before after workspaceRoot artifacts outputRoots
  rw [h] at hoption
  intro output ho
  split_ifs at hoption
  · obtain rfl := Option.some.inj hoption
    exact held_changedOutputs ho
  · obtain ⟨chosen,hchosen,rfl⟩ := Option.map_eq_some_iff.mp hoption.symm
    rcases List.mem_append.mp (mem_of_mem_ordered ho) with hkept | hartifact
    · exact held_changedOutputs (mem_keptOutputs.mp hkept).1
    · rw [(TextSearch.mapM_eq_some_filterMap.mp hchosen).2] at hartifact
      obtain ⟨key,-,hkey⟩ := List.mem_filterMap.mp hartifact
      exact held_of_outputAt hkey

end Snapshots

variable {H : Type} {m : Machine H} {flags : Flags} {built : Built}

theorem isDigestText_emptyContentHash : IsDigestText emptyContentHash :=
  ⟨utf8 "e3b0c44298fc1c149afbf4c8996fb92427ae41e4649b934ca495991b7852b855",rfl,rfl,by decide +kernel⟩

/-- The outputs of a build are files of the workspace after it. -/
theorem exists_file_of_output (h : (m.run flags).build flags = .ok built) {output : Workspace.OutputFile}
    (ho : output ∈ built.selected.outputs) : ∃ path, Visited m.filesAfter m.workspaceRoot path ∧
      lossy path = output.path ∧ HasFile m.filesAfter path output.hash := by
  obtain ⟨before,after,-,-,hafter,hselected⟩ := build_eq_ok.mp h
  have hheld := held_of_selectOutputs hselected output ho
  cases hentries : m.after with
  | error text => simp [Machine.run,hentries,Except.map] at hafter
  | ok entries =>
    obtain ⟨fuel,hfuel⟩ := m.after_eq
    rw [hentries] at hfuel
    obtain rfl : Snapshot.ofEntries m.order 1 entries = after := by
      simpa [Machine.run,hentries,Except.map] using hafter
    exact exists_file_of_snapshot hfuel hheld

/-- A build on a machine that hashes files has digests only. -/
theorem Machine.Hashing.genuine (hm : m.Hashing) (h : (m.run flags).build flags = .ok built) : Genuine built := by
  obtain ⟨before,after,-,htrace,-,-⟩ := build_eq_ok.mp h
  refine ⟨allObserved_traceCommand m.session _ _ _ _ isDigestText_emptyContentHash hm.start
    (fun site _ => hm.view site) htrace,?_⟩
  intro output ho
  obtain ⟨path,-,-,-,hobserved⟩ := exists_file_of_output h ho
  have hwell := hm.files (lossy path)
  rwa [hobserved] at hwell

/-- The build of a machine, as it is attested. -/
def Machine.attested (m : Machine H) (flags : Flags) (hm : m.Hashing) (built : Built)
    (h : (m.run flags).build flags = .ok built) : AttestedBuild :=
  ⟨m.run flags,flags,built,h,hm.genuine h⟩

section Sample

/-- Nothing is listed, and whatever is opened has the same contents. -/
def bareFiles : FileSystem where
  symlinkMetadata _ := none
  metadata _ := none
  readLink _ := none
  canonicalize _ := .error (utf8 "not found")
  readDir _ := .error (utf8 "not found")
  observePath _ := .content (digestText Merkle.blankDigest)

def hashedWorld : World Empty where
  readLink _ := none
  canonicalize _ := none
  openRegular _ := none
  tryClone := nofun
  observeFile := nofun
  observePath _ := .content (digestText Merkle.blankDigest)

/-- The command of this machine starts and exits, and leaves nothing behind. -/
def bareMachine : Machine Empty where
  workspaceRoot := utf8 "/w"
  filesBefore := bareFiles
  filesAfter := bareFiles
  before := .ok ∅
  before_eq := ⟨1,rfl⟩
  after := .ok ∅
  after_eq := ⟨1,rfl⟩
  session := { bareSession with start := hashedWorld, view := fun _ => hashedWorld }
  byteOrder := .little
  batches := []
  sorted := []
  sorted_eq := ⟨.refl _,.nil⟩
  canonicalize _ := none
  order := .stored
  traversal := .stored

theorem hashing_bareMachine : bareMachine.Hashing where
  files _ := isDigestText_digestText _
  start := ⟨nofun,fun _ => isDigestText_digestText _⟩
  view _ := ⟨nofun,fun _ => isDigestText_digestText _⟩

/-- The build of the command. -/
def bareBuilt : Built where
  result := ⟨[.exec ⟨⟨10,0⟩,0⟩ (.content (digestText Merkle.blankDigest)),.exit ⟨⟨10,0⟩,0⟩ 0],⟨⟨10,0⟩,0⟩,0⟩
  selected := ⟨.inferred,[]⟩

def bareFlags : Flags := ⟨[],[],[],[utf8 "true"]⟩

theorem build_bareMachine : (bareMachine.run bareFlags).build bareFlags = .ok bareBuilt :=
  build_eq_ok.mpr ⟨_,_,rfl,rfl,rfl,rfl⟩

end Sample

end Repx.Commands
