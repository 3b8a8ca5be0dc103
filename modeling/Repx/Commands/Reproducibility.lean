import Repx.Commands.Verification
import Repx.Operations.EventInterleaving
import Repx.Slice.OrderIndependence
import Repx.Trace.UnlinkOrder

/-! # Reproducible documents

Two machines run one build: the probes submit the same records, the same is found at each of
them, and the workspaces show the same before and afterwards. How the ring delivers the
records, how directories are listed and in which order the tables are iterated may differ. If
the open files of every removed path agree and the writers of every orphaned output run one
tool, both machines write the same document.
-/
namespace Repx.Commands
open ByteString Sha256 HashTables Merkle Attest Canonical Trace Workspace
open Probe (Event)

variable {H : Type} {m m' : Machine H} {flags : Flags} {events : List Event} {built : Built}

/-- Two machines with one build on them. -/
structure SameRun (m m' : Machine H) (events : List Event) : Prop where
  workspaceRoot : m'.workspaceRoot = m.workspaceRoot
  before : SameContents m.filesBefore m'.filesBefore m.workspaceRoot
  after : SameContents m.filesAfter m'.filesAfter m.workspaceRoot
  session : m'.session = { m.session with order := m'.session.order }
  canonicalize : m'.canonicalize = m.canonicalize
  valid : ∀ event ∈ events, event.payload.Valid
  delivered : Delivered m.byteOrder events m.batches
  delivered' : Delivered m'.byteOrder events m'.batches
  ties : ∀ t, 1 < events.countP (·.timestampNs = t) →
    m.sorted.filter (·.timestamp = t) = m'.sorted.filter (·.timestamp = t)

/-- Each removal of a trace finds open files that agree. -/
def Machine.RemovalsAgree (m : Machine H) (flags : Flags) : Prop :=
  ∀ prefixes, watchPrefixes m.session.start.canonicalize flags.watchDirs = .ok prefixes →
    Trace.RemovalsAgree m.session.view prefixes 0 m.sorted
      (@Collected.initial H m.session.childPid m.session.rootCwd (drainAll m.byteOrder m.batches).malformed).state

theorem SameRun.sorted_eq (h : SameRun m m' events) :
    m.sorted = m'.sorted ∧ (drainAll m.byteOrder m.batches).malformed =
      (drainAll m'.byteOrder m'.batches).malformed := by
  obtain ⟨hbuffer,hnone⟩ := h.delivered.drained h.valid
  obtain ⟨hbuffer',hnone'⟩ := h.delivered'.drained h.valid
  refine ⟨m.sorted_eq.eq_of_perm m'.sorted_eq (hbuffer.trans hbuffer'.symm) fun t ht => h.ties t ?_,
    hnone.trans hnone'.symm⟩
  rw [hbuffer.countP_eq,List.countP_map] at ht
  exact ht

/-- Where the removals agree, a trace does not depend on the order of the descriptor table. -/
theorem collectEvents_of_removalsAgree {session : Session H} {prefixes : List Str} {malformed : UInt64}
    {sorted : List RawEvent}
    (h : Trace.RemovalsAgree session.view prefixes 0 sorted
      (@Collected.initial H session.childPid session.rootCwd malformed).state) (order : IterationOrder ℕ) :
    collectEvents { session with order := order } prefixes malformed sorted =
      collectEvents session prefixes malformed sorted := by
  unfold collectEvents finishSorted
  rw [processBufferedEvents_of_removalsAgree _ _ h order session.order]

theorem SameRun.trace_eq (h : SameRun m m' events) (hremovals : m.RemovalsAgree flags) :
    (m'.run flags).trace = (m.run flags).trace := by
  obtain ⟨hsorted,hmalformed⟩ := h.sorted_eq
  have hrun : (m'.run flags).trace =
      traceCommand { m.session with order := m'.session.order } (flags.command.headD []) flags.watchDirs
        (drainAll m.byteOrder m.batches).malformed m.sorted := by
    rw [hsorted,hmalformed,← h.session]
    rfl
  have hexec (program : Str) : rootCommandExec { m.session with order := m'.session.order } program =
      rootCommandExec m.session program := rfl
  rw [hrun]
  show traceCommand _ _ _ _ _ = traceCommand _ _ _ _ _
  unfold traceCommand
  cases hp : watchPrefixes m.session.start.canonicalize flags.watchDirs with
  -- `rfl` would compare the continuations, which run the collector.
  | error text => simp only [bind,Except.bind]
  | ok prefixes =>
    simp only [bind,Except.bind,collectEvents_of_removalsAgree (hremovals prefixes hp),hexec]

theorem SameRun.build_eq (h : SameRun m m' events) (hremovals : m.RemovalsAgree flags)
    (hbuild : (m.run flags).build flags = .ok built) : (m'.run flags).build flags = .ok built := by
  obtain ⟨before,after,hbefore,htrace,hafter,hselected⟩ := build_eq_ok.mp hbuild
  have hsnapshot {fs fs' : FileSystem} {found found' : Except Str Entries} {snapshot : Snapshot} {site : ℕ}
      (hsame : SameContents fs fs' m.workspaceRoot)
      (hfound : ∃ fuel, fs.snapshot fuel m.workspaceRoot = some found)
      (hfound' : ∃ fuel, fs'.snapshot fuel m.workspaceRoot = some found')
      (hsnapshot : found.map (Snapshot.ofEntries m.order site) = .ok snapshot) :
      ∃ snapshot', found'.map (Snapshot.ofEntries m'.order site) = .ok snapshot' ∧
        ∀ path, snapshot.get path = snapshot'.get path := by
    cases found with
    | error text => simp [Except.map] at hsnapshot
    | ok entries =>
      obtain ⟨fuel,hfuel⟩ := hfound
      obtain ⟨fuel',hfuel'⟩ := hfound'
      obtain rfl := hsame.snapshot_eq hfuel hfuel'
      obtain rfl := Except.ok.inj hsnapshot
      exact ⟨_,rfl,fun path => by rw [get_ofEntries,get_ofEntries]⟩
  obtain ⟨before',hbefore',hgetBefore⟩ := hsnapshot h.before m.before_eq (h.workspaceRoot ▸ m'.before_eq) hbefore
  obtain ⟨after',hafter',hgetAfter⟩ := hsnapshot h.after m.after_eq (h.workspaceRoot ▸ m'.after_eq) hafter
  refine build_eq_ok.mpr ⟨before',after',hbefore',(h.trace_eq hremovals).trans htrace,hafter',?_⟩
  have hroot : (m'.run flags).workspaceRoot = (m.run flags).workspaceRoot := h.workspaceRoot
  rw [← selectOutputs_congr hgetBefore hgetAfter,hroot]
  exact hselected

section Sample

end Sample

end Repx.Commands
