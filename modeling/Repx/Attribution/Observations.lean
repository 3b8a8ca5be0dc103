import Repx.Attribution.RootExit
import Repx.Trace.TraceCommand
import Repx.Trace.UnlinkOrder

/-! # Where observations come from

The collector keeps an observation with every open file and reports it again at each
mapping, so that what an event carries may have been seen long before. Nothing is reported
that was not seen on the machine at some record, the empty content of a file that was
truncated when it was opened aside.
-/
namespace Repx.Trace
open ByteString Std Sha256 HashTables Probe
variable {H : Type}

/-- Everything that is observed on the machine has a property. -/
structure World.Observes (w : World H) (P : FileObservation → Prop) : Prop where
  file : ∀ handle path, P (w.observeFile handle path)
  path : ∀ path, P (w.observePath path)

/-- The observations that are kept with the open files have it. -/
def Kept (P : FileObservation → Prop) (files : FdTable H) : Prop :=
  ∀ (d : Descriptor) file, files[d]? = some file → ∀ o ∈ file.openObservation, P o

/-- The observations in events have it. -/
def AllObserved (P : FileObservation → Prop) (events : List TracedEvent) : Prop :=
  ∀ event ∈ events, ∀ o ∈ event.observations, P o

section Files
variable {w : World H} {P : FileObservation → Prop} {files : FdTable H} {file : OpenFileState H}

theorem observes_observeCurrent (hw : w.Observes P) (file : OpenFileState H) : P (file.observeCurrent w) := by
  unfold OpenFileState.observeCurrent
  split
  · exact hw.file _ _
  · exact hw.path _

/-- The first observation is made now or was kept. -/
theorem observes_getOpenObservation (hw : w.Observes P) (hfile : ∀ o ∈ file.openObservation, P o) :
    P (file.getOpenObservation w).1 ∧ ∀ o ∈ (file.getOpenObservation w).2.openObservation, P o := by
  unfold OpenFileState.getOpenObservation
  split
  · next o ho => exact ⟨hfile o ho,hfile⟩
  · refine ⟨observes_observeCurrent hw file,fun o ho => ?_⟩
    rw [← Option.some.inj ho]
    exact observes_observeCurrent hw file

theorem observes_closeObservation (hw : w.Observes P) : ∀ o ∈ file.closeObservation w, P o := by
  intro o ho
  unfold OpenFileState.closeObservation at ho
  split_ifs at ho
  · rw [← Option.some.inj ho]
    exact observes_observeCurrent hw file
  · cases ho

theorem kept_empty : Kept P (∅ : FdTable H) := by
  intro d file h
  simp at h

theorem Kept.insert (h : Kept P files) (d : Descriptor) (hfile : ∀ o ∈ file.openObservation, P o) :
    Kept P (files.insert d file) := by
  intro d' file' hd
  rw [ExtTreeMap.getElem?_insert] at hd
  split_ifs at hd
  · rwa [← Option.some.inj hd]
  · exact h d' file' hd

theorem Kept.erase (h : Kept P files) (d : Descriptor) : Kept P (files.erase d) := by
  intro d' file' hd
  rw [ExtTreeMap.getElem?_erase] at hd
  split_ifs at hd
  exact h d' file' hd

theorem openObservation_rewriteOpenFilePath (fromPath toPath : Str) (flags : UInt32) :
    (rewriteOpenFilePath fromPath toPath flags file).openObservation = file.openObservation := by
  unfold rewriteOpenFilePath
  dsimp only
  split <;> rfl

theorem Kept.rewriteOpenFilePaths (h : Kept P files) (fromPath toPath : Str) (flags : UInt32) :
    Kept P (rewriteOpenFilePaths files fromPath toPath flags) := by
  intro d file hd
  rw [Trace.rewriteOpenFilePaths,ExtTreeMap.getElem?_map] at hd
  obtain ⟨old,hold,rfl⟩ := Option.map_eq_some_iff.mp hd
  rw [openObservation_rewriteOpenFilePath]
  exact h d old hold

/-- A child keeps what its parent kept. -/
theorem Kept.forkProcess {s : EventCollectorState H} (h : Kept P s.fdTable) (parentPid childPid : UInt32) :
    Kept P (s.forkProcess w parentPid childPid).2.fdTable := by
  intro d file hd
  rw [forkProcess_fdTable] at hd
  split_ifs at hd
  · rcases Option.or_eq_some_iff.mp hd with hd | ⟨-,hd⟩
    · obtain ⟨own,hown,rfl⟩ := Option.map_eq_some_iff.mp hd
      exact h _ own hown
    · exact h d file hd
  · exact h d file hd

end Files

/-- What a record leaves behind has the property. -/
structure Observed (P : FileObservation → Prop) (r : Processed H) : Prop where
  kept : Kept P r.state.fdTable
  reported : AllObserved P r.emitted

section Records
variable {w : World H} {P : FileObservation → Prop} {s : EventCollectorState H} {external : Bool}
  {watchPrefixes : List Str}

theorem allObserved_singleton {event : TracedEvent} (h : ∀ o ∈ event.observations, P o) : AllObserved P [event] := by
  intro event' he
  rwa [List.mem_singleton.mp he]

theorem execProcess_fdTable (s : EventCollectorState H) (pid : UInt32) :
    (s.execProcess pid).2.fdTable = s.fdTable := by
  unfold EventCollectorState.execProcess
  split_ifs
  · rfl
  · exact currentProcess_fdTable s pid

theorem observed_nothing (h : Kept P s.fdTable) {s' : EventCollectorState H} (accepted : Bool)
    (hfiles : s'.fdTable = s.fdTable) : Observed P ⟨accepted,s',[]⟩ :=
  ⟨by rwa [hfiles],by simp [AllObserved]⟩

/-- A file that is opened is observed, unless it was truncated. -/
theorem observed_processFileOpen (hw : w.Observes P) (hempty : P (.content emptyContentHash))
    (h : Kept P s.fdTable) (payload : FileOpenEvent) :
    Observed P (processFileOpen w watchPrefixes external s payload) := by
  simp only [processFileOpen]
  split
  · exact observed_nothing h true (by simp)
  · generalize hfile : OpenFileState.mk _ _ _ _ = file
    have hcached : ∀ o ∈ file.openObservation, P o := by
      intro o ho
      rw [← hfile] at ho
      dsimp only at ho
      split_ifs at ho
      · rwa [← Option.some.inj ho]
      · cases ho
    obtain ⟨hobserved,hkept⟩ := observes_getOpenObservation hw hcached
    refine ⟨?_,allObserved_singleton (by simpa [TracedEvent.observations] using hobserved)⟩
    dsimp only
    split_ifs
    · exact Kept.insert (by simpa using h) _ hkept
    · simpa using h

theorem observed_processFileClose (hw : w.Observes P) (h : Kept P s.fdTable) (payload : FileCloseEvent) :
    Observed P (processFileClose w external s payload) := by
  have herase : Kept P ((s.currentProcess payload.tgid).2.fdTable.erase
      ⟨(s.currentProcess payload.tgid).1.lifetime,payload.fd.toInt⟩) := Kept.erase (by simpa using h) _
  simp only [processFileClose]
  split
  · exact observed_nothing herase true rfl
  · refine ⟨herase,allObserved_singleton fun o ho => ?_⟩
    obtain ⟨file,-,ho⟩ := Option.bind_eq_some_iff.mp (Option.mem_toList.mp ho)
    exact observes_closeObservation hw o ho

/-- A mapping reports the observation of the open, which is then kept. -/
theorem observed_processFileMmap (hw : w.Observes P) (h : Kept P s.fdTable) (payload : FileMmapEvent) :
    Observed P (processFileMmap w external s payload) := by
  have hfiles : Kept P (s.currentProcess payload.tgid).2.fdTable := by simpa using h
  simp only [processFileMmap]
  split
  · next file hfile =>
    obtain ⟨hobserved,hkept⟩ := observes_getOpenObservation hw (hfiles _ file hfile)
    refine ⟨hfiles.insert _ hkept,allObserved_singleton fun o ho => ?_⟩
    rw [← Option.some.inj (Option.mem_toList.mp ho)]
    exact hobserved
  · split
    · exact observed_nothing h true (by simp)
    · exact ⟨hfiles,allObserved_singleton (by simp [TracedEvent.observations])⟩

theorem observed_processFileRenameSource (h : Kept P s.fdTable) (payload : FilePathEvent) :
    Observed P (processFileRenameSource w external s payload) := by
  simp only [processFileRenameSource]
  split <;> exact observed_nothing h _ (by simp)

theorem observed_processFileRenameDestination (hw : w.Observes P) (h : Kept P s.fdTable) (payload : FilePathEvent) :
    Observed P (processFileRenameDestination w watchPrefixes external s payload) := by
  simp only [processFileRenameDestination]
  split
  · exact observed_nothing h false rfl
  · split
    · exact observed_nothing h false rfl
    · split
      · exact observed_nothing h true (by simp)
      · refine ⟨Kept.rewriteOpenFilePaths (by simpa using h) _ _ _,fun event he => ?_⟩
        rcases List.mem_cons.mp he with rfl | he
        · intro o ho
          rw [List.mem_singleton.mp ho]
          exact hw.path _
        · split_ifs at he
          · obtain rfl := List.mem_singleton.mp he
            intro o ho
            rw [List.mem_singleton.mp ho]
            exact hw.path _
          · cases he

theorem observed_processFileUnlink (hw : w.Observes P) (h : Kept P s.fdTable) (order : IterationOrder ℕ) (site : ℕ)
    (payload : FilePathEvent) : Observed P (processFileUnlink w watchPrefixes external s order site payload) := by
  simp only [processFileUnlink]
  split
  · exact observed_nothing h false (by simp)
  · split
    · exact observed_nothing h true (by simp)
    · refine ⟨by simpa using h,allObserved_singleton fun o ho => ?_⟩
      rw [List.mem_singleton.mp ho]
      split
      · exact observes_observeCurrent hw _
      · exact hw.path _

theorem observed_processExec (hw : w.Observes P) (h : Kept P s.fdTable) (payload : ProcessExecEvent) :
    Observed P (processExec w s payload) := by
  have hfiles := execProcess_fdTable s payload.tgid
  simp only [processExec]
  generalize s.execProcess payload.tgid = started at hfiles ⊢
  obtain ⟨process,s'⟩ := started
  cases process with
  | none => exact observed_nothing h true hfiles
  | some process =>
    have hkept : Kept P s'.fdTable := by rwa [hfiles]
    refine ⟨by simpa using hkept,allObserved_singleton fun o ho => ?_⟩
    rw [List.mem_singleton.mp ho]
    split
    · exact hw.file _ _
    · exact hw.path _

theorem observed_processFork (h : Kept P s.fdTable) (payload : ProcessForkEvent) :
    Observed P (processFork w s payload) :=
  ⟨h.forkProcess payload.parentPid payload.childPid,allObserved_singleton (by simp [TracedEvent.observations])⟩

theorem observed_processExit (h : Kept P s.fdTable) (payload : ProcessExitEvent) :
    Observed P (processExit s payload) :=
  ⟨by simpa [processExit] using h,allObserved_singleton (by simp [TracedEvent.observations])⟩

end Records

section Runs
variable {P : FileObservation → Prop} (hempty : P (.content emptyContentHash)) {order : IterationOrder ℕ}
  {view : ℕ → World H} {watchPrefixes : List Str}
include hempty

theorem observed_processEvent {s : EventCollectorState H} (h : Kept P s.fdTable) {site : ℕ}
    (hw : (view site).Observes P) (event : Event) :
    Observed P (processEvent order view watchPrefixes site event s) := by
  obtain ⟨source,timestamp,payload⟩ := event
  cases payload with
  | fileOpen payload => exact observed_processFileOpen hw hempty h payload
  | fileClose payload => exact observed_processFileClose hw h payload
  | fileMmap payload => exact observed_processFileMmap hw h payload
  | fileRenameSource payload => exact observed_processFileRenameSource h payload
  | fileRenameDestination payload => exact observed_processFileRenameDestination hw h payload
  | fileUnlink payload => exact observed_processFileUnlink hw h order site payload
  | processExec payload => exact observed_processExec hw h payload
  | processFork payload => exact observed_processFork h payload
  | processExit payload => exact observed_processExit h payload
  | unknown _ => exact observed_nothing h false rfl

theorem allObserved_processBufferedEvents (raws : List RawEvent) (site : ℕ) {c : Collected H}
    (hview : ∀ i < raws.length, (view (site + i)).Observes P) (hkept : Kept P c.state.fdTable)
    (hreported : AllObserved P c.events) :
    AllObserved P (processBufferedEvents order view watchPrefixes site raws c).events := by
  induction raws generalizing site c with
  | nil => exact hreported
  | cons raw raws ih =>
    have hrest : ∀ i < raws.length, (view (site + 1 + i)).Observes P := by
      intro i hi
      have hlater := hview (i + 1) (by simpa using hi)
      rwa [Nat.add_comm i,← Nat.add_assoc] at hlater
    obtain ⟨timestamp,_ | event⟩ := raw
    · exact ih (site + 1) hrest hkept hreported
    · have hstep : Observed P (processEvent order view watchPrefixes site event c.state) :=
        observed_processEvent hempty hkept (hview 0 (by simp)) event
      refine ih (site + 1) hrest ?_ fun event' he => ?_
      · simp only [processRawEvent]
        split
        · exact hstep.kept
        · exact hstep.kept
      · rcases List.mem_append.mp he with he | he
        · exact hreported event' he
        · exact hstep.reported event' he

/-- The end of a trace observes nothing. -/
theorem allObserved_finishSorted (childPid : UInt32) (exitCode : Int) (raws : List RawEvent) {c : Collected H}
    (hview : ∀ i < raws.length, (view i).Observes P) (hkept : Kept P c.state.fdTable)
    (hreported : AllObserved P c.events) :
    AllObserved P (finishSorted order view watchPrefixes childPid exitCode raws c).events := by
  have hrun : AllObserved P (processBufferedEvents order view watchPrefixes 0 raws c).events :=
    allObserved_processBufferedEvents hempty raws 0 (fun i hi => by simpa using hview i hi) hkept hreported
  have hexit : ∀ process, ∀ o ∈ (TracedEvent.exit process exitCode).observations, P o := by
    simp [TracedEvent.observations]
  simp only [finishSorted]
  split
  · next patched hpatched =>
    obtain ⟨before,p,old,after,hevents,rfl,-,-⟩ := setLastExit_eq_some hpatched
    rw [hevents] at hrun
    intro event he
    rcases List.mem_append.mp he with he | he
    · exact hrun event (List.mem_append_left _ he)
    · rcases List.mem_cons.mp he with rfl | he
      · exact hexit p
      · exact hrun event (List.mem_append_right _ (List.mem_cons_of_mem _ he))
  · intro event he
    rcases List.mem_append.mp he with he | he
    · exact hrun event he
    · rw [List.mem_singleton.mp he]
      exact hexit _

end Runs

section Traces
variable (session : Session H) (program : Str) (watchDirs : List Str) (malformed : UInt64) (sorted : List RawEvent)
  {result : TraceResult}

/-- What is observed of the executable and at the records holds of everything a trace reports. -/
theorem allObserved_traceCommand {P : FileObservation → Prop} (hempty : P (.content emptyContentHash))
    (hstart : session.start.Observes P) (hview : ∀ i < sorted.length, (session.view i).Observes P)
    (h : traceCommand session program watchDirs malformed sorted = .ok result) : AllObserved P result.events := by
  unfold traceCommand at h
  cases hprefixes : watchPrefixes session.start.canonicalize watchDirs with
  | error text =>
    rw [hprefixes] at h
    cases h
  | ok prefixes =>
    rw [hprefixes] at h
    obtain rfl := Except.ok.inj h
    intro event he
    rcases List.mem_cons.mp he with rfl | he
    · intro o ho
      rw [List.mem_singleton.mp ho]
      exact hstart.path _
    · have hnone : AllObserved P (@Collected.initial H session.childPid session.rootCwd malformed).events := by
        simp [AllObserved,Collected.initial]
      exact allObserved_finishSorted hempty session.childPid _ sorted hview kept_empty hnone event he

end Traces

end Repx.Trace
