import Repx.Operations.EventEffects
import Repx.Trace.RenamePairing

/-! # What a record does to the table of processes

Every record is attributed to one process: the current one of its thread group, or
the one that began the rename it completes. Apart from an exec and a fork it leaves
the numbering of processes alone once that process is known, and it gives open files,
a working directory or a waiting rename to no other process.
-/
namespace Repx.Trace
open ByteString Utf8 Std HashTables Probe Canonical

/-- Events that bring a new process instance into a trace. -/
def TracedEvent.introduces : TracedEvent → Bool
  | .exec _ _ => true
  | .fork _ _ => true
  | _ => false

section Frame
variable {H : Type} {s s' s'' : EventCollectorState H} {process : ProcessInstance}

/-- Agreement on the root and on the numbering of processes. -/
structure SameTable (s s' : EventCollectorState H) : Prop where
  rootProcess : s'.rootProcess = s.rootProcess
  rootInitialExecPending : s'.rootInitialExecPending = s.rootInitialExecPending
  currentProcesses : s'.currentProcesses = s.currentProcesses
  nextGenerations : s'.nextGenerations = s.nextGenerations

/-- Only one process may have gained anything. -/
structure Confined (process : ProcessInstance) (s s' : EventCollectorState H) : Prop extends SameTable s s' where
  cwds : ∀ l, l ∈ s'.processCwds → l ∈ s.processCwds ∨ l = process.lifetime
  files : ∀ d, d ∈ s'.fdTable → d ∈ s.fdTable ∨ d.lifetime = process.lifetime
  renames : ∀ (key : RenameKey) (pending : PendingRename), s'.pendingRenames[key]? = some pending →
    s.pendingRenames[key]? = some pending ∨ pending.process = process

theorem Confined.refl (process : ProcessInstance) (s : EventCollectorState H) : Confined process s s where
  rootProcess := rfl
  rootInitialExecPending := rfl
  currentProcesses := rfl
  nextGenerations := rfl
  cwds _ h := Or.inl h
  files _ h := Or.inl h
  renames _ _ h := Or.inl h

theorem Confined.trans (h : Confined process s s') (h' : Confined process s' s'') : Confined process s s'' where
  rootProcess := h'.rootProcess.trans h.rootProcess
  rootInitialExecPending := h'.rootInitialExecPending.trans h.rootInitialExecPending
  currentProcesses := h'.currentProcesses.trans h.currentProcesses
  nextGenerations := h'.nextGenerations.trans h.nextGenerations
  cwds l hl := (h'.cwds l hl).elim (h.cwds l) Or.inr
  files d hd := (h'.files d hd).elim (h.files d) Or.inr
  renames key pending hp := (h'.renames key pending hp).elim (h.renames key pending) Or.inr

variable (process) in
theorem confined_refuse (s : EventCollectorState H) : Confined process s (refuse s) :=
  { Confined.refl process s with }

variable (process) in
theorem confined_setFiles (s : EventCollectorState H) {fdTable : FdTable H}
    (h : ∀ d, d ∈ fdTable → d ∈ s.fdTable ∨ d.lifetime = process.lifetime) :
    Confined process s { s with fdTable := fdTable } :=
  { Confined.refl process s with files := h }

variable (process) in
theorem confined_setRenames (s : EventCollectorState H) {pendingRenames : ExtTreeMap RenameKey PendingRename}
    (h : ∀ (key : RenameKey) (pending : PendingRename), pendingRenames[key]? = some pending →
      s.pendingRenames[key]? = some pending ∨ pending.process = process) :
    Confined process s { s with pendingRenames := pendingRenames } :=
  { Confined.refl process s with renames := h }

theorem confined_resolvePath (w : World H) (s : EventCollectorState H) (process : ProcessInstance) (dfd : Int32)
    (rawPath : Str) : Confined process s (s.resolvePath w process dfd rawPath).2 := by
  unfold EventCollectorState.resolvePath
  dsimp only
  split
  · exact .refl process s
  · split
    · split
      · refine { Confined.refl process s with cwds := fun l hl => ?_ }
        rw [ExtTreeMap.mem_insert,Std.compare_eq_iff_eq] at hl
        exact hl.symm.imp_right Eq.symm
      · exact .refl process s
    · split
      · exact .refl process s
      · exact .refl process s

theorem mem_rewriteOpenFilePaths {fdTable : FdTable H} {fromPath toPath : Str} {flags : UInt32} {d : Descriptor} :
    d ∈ rewriteOpenFilePaths fdTable fromPath toPath flags ↔ d ∈ fdTable := by
  simp [rewriteOpenFilePaths]

end Frame

section Logs
variable {H : Type} (s : EventCollectorState H)

/-- The lifetime that `current_process` issues, if it has to start the process. -/
def startedBy (pid : UInt32) : List ProcessLifetime :=
  match s.currentProcesses[pid]? with
  | some _ => []
  | none => [(s.startProcess pid).1.lifetime]

/-- The lifetimes that `start_process` issues while a record is processed. -/
def issued (event : Event) : List ProcessLifetime :=
  match event.payload with
  | .fileOpen payload => startedBy s payload.tgid
  | .fileClose payload => startedBy s payload.tgid
  | .fileMmap payload => startedBy s payload.tgid
  | .fileRenameSource payload => startedBy s payload.tgid
  | .fileRenameDestination _ => []
  | .fileUnlink payload => startedBy s payload.tgid
  | .processExec payload =>
    if payload.tgid = s.rootProcess.lifetime.pid ∧ s.rootInitialExecPending then [] else startedBy s payload.tgid
  | .processFork payload =>
    startedBy s payload.parentPid ++
      [((s.currentProcess payload.parentPid).2.startProcess payload.childPid).1.lifetime]
  | .processExit payload => startedBy s payload.tgid
  | .unknown _ => []

/-- The instance that `exec_process` returns while a record is processed. -/
def executed (event : Event) : Option ProcessInstance :=
  match event.payload with
  | .processExec payload => (s.execProcess payload.tgid).1
  | _ => none

end Logs

/-- What a record did: nothing, something on behalf of the current process of a thread
group, the second half of a rename on behalf of the process that began it, an exec or
a fork; with the lifetimes it issued and the instance it executed. -/
inductive RecordStep {H : Type} (w : World H) (s s' : EventCollectorState H) (emitted : List TracedEvent) :
    List ProcessLifetime → Option ProcessInstance → Prop
  | idle (state : ∀ process, Confined process s s') (events : emitted = []) : RecordStep w s s' emitted [] none
  | acts (pid : UInt32) (state : Confined (s.currentProcess pid).1 (s.currentProcess pid).2 s')
      (events : ∀ e ∈ emitted, actor e = (s.currentProcess pid).1 ∧ e.introduces = false) :
      RecordStep w s s' emitted (startedBy s pid) none
  | late (key : RenameKey) (pending : PendingRename) (waiting : s.pendingRenames[key]? = some pending)
      (state : Confined pending.process s s')
      (events : ∀ e ∈ emitted, actor e = pending.process ∧ e.introduces = false) :
      RecordStep w s s' emitted [] none
  | skips (pid : UInt32) (s₁ : EventCollectorState H) (first : s.execProcess pid = (none,s₁))
      (state : ∀ process, Confined process s₁ s') (events : emitted = []) : RecordStep w s s' emitted [] none
  | execs (pid : UInt32) (process : ProcessInstance) (s₁ : EventCollectorState H)
      (observation : FileObservation) (next : s.execProcess pid = (some process,s₁))
      (state : Confined process s₁ s') (events : emitted = [.exec process observation]) :
      RecordStep w s s' emitted (startedBy s pid) (some process)
  | forks (parentPid childPid : UInt32)
      (state : Confined (s.forkProcess w parentPid childPid).1.2 (s.forkProcess w parentPid childPid).2 s')
      (events : emitted =
        [.fork (s.forkProcess w parentPid childPid).1.1 (s.forkProcess w parentPid childPid).1.2]) :
      RecordStep w s s' emitted (startedBy s parentPid ++ [(s.forkProcess w parentPid childPid).1.2.lifetime]) none

theorem RecordStep.refuse {H : Type} {w : World H} {s s' : EventCollectorState H} {emitted : List TracedEvent}
    {started : List ProcessLifetime} {exec : Option ProcessInstance} (h : RecordStep w s s' emitted started exec) :
    RecordStep w s (refuse s') emitted started exec := by
  cases h with
  | idle state events => exact .idle (fun process => (state process).trans (confined_refuse process s')) events
  | acts pid state events => exact .acts pid (state.trans (confined_refuse _ s')) events
  | late key pending waiting state events =>
    exact .late key pending waiting (state.trans (confined_refuse _ s')) events
  | skips pid s₁ first state events =>
    exact .skips pid s₁ first (fun process => (state process).trans (confined_refuse process s')) events
  | execs pid process s₁ observation next state events =>
    exact .execs pid process s₁ observation next (state.trans (confined_refuse _ s')) events
  | forks parentPid childPid state events =>
    exact .forks parentPid childPid (state.trans (confined_refuse _ s')) events

section Records
variable {H : Type} (w : World H) (watchPrefixes : List Str) (external : Bool) (s : EventCollectorState H)

theorem recordStep_fileOpen (payload : FileOpenEvent) :
    let r := processFileOpen w watchPrefixes external s payload
    RecordStep w s r.state r.emitted (startedBy s payload.tgid) none := by
  simp only [processFileOpen]
  have hresolved := confined_resolvePath w (s.currentProcess payload.tgid).2 (s.currentProcess payload.tgid).1
    payload.dfd (openedPath payload.path payload.pathLen)
  split
  · exact .acts payload.tgid hresolved (by simp)
  · refine .acts payload.tgid (hresolved.trans (confined_setFiles _ _ fun d hd => ?_)) ?_
    · split at hd
      · rw [ExtTreeMap.mem_insert,Std.compare_eq_iff_eq] at hd
        rcases hd with rfl | hd
        · exact Or.inr rfl
        · exact Or.inl hd
      · exact Or.inl hd
    · simp [actor,TracedEvent.introduces]

theorem recordStep_fileClose (payload : FileCloseEvent) :
    let r := processFileClose w external s payload
    RecordStep w s r.state r.emitted (startedBy s payload.tgid) none := by
  simp only [processFileClose]
  have herase : Confined (s.currentProcess payload.tgid).1 (s.currentProcess payload.tgid).2
      { (s.currentProcess payload.tgid).2 with
        fdTable := (s.currentProcess payload.tgid).2.fdTable.erase
          ⟨(s.currentProcess payload.tgid).1.lifetime,payload.fd.toInt⟩ } :=
    confined_setFiles _ _ fun d hd => Or.inl (ExtTreeMap.mem_of_mem_erase hd)
  split
  · exact .acts payload.tgid herase (by simp)
  · exact .acts payload.tgid herase (by simp [actor,TracedEvent.introduces])

theorem recordStep_fileMmap (payload : FileMmapEvent) :
    let r := processFileMmap w external s payload
    RecordStep w s r.state r.emitted (startedBy s payload.tgid) none := by
  simp only [processFileMmap]
  split
  · refine .acts payload.tgid (confined_setFiles _ _ fun d hd => ?_) (by simp [actor,TracedEvent.introduces])
    rw [ExtTreeMap.mem_insert,Std.compare_eq_iff_eq] at hd
    rcases hd with rfl | hd
    · exact Or.inr rfl
    · exact Or.inl hd
  · split
    · exact .acts payload.tgid (.refl _ _) (by simp)
    · exact .acts payload.tgid (.refl _ _) (by simp [actor,TracedEvent.introduces])

theorem recordStep_fileRenameSource (payload : FilePathEvent) :
    let r := processFileRenameSource w external s payload
    RecordStep w s r.state r.emitted (startedBy s payload.tgid) none := by
  simp only [processFileRenameSource]
  split
  · exact .acts payload.tgid (.refl _ _) (by simp)
  · next rawPath _ =>
    have hresolved := confined_resolvePath w (s.currentProcess payload.tgid).2 (s.currentProcess payload.tgid).1
      payload.dfd rawPath
    refine .acts payload.tgid (hresolved.trans (confined_setRenames _ _ fun key pending hp => ?_)) (by simp)
    rw [ExtTreeMap.getElem?_insert] at hp
    split at hp
    · obtain rfl := Option.some.inj hp
      exact Or.inr rfl
    · exact Or.inl hp

theorem recordStep_fileRenameDestination (payload : FilePathEvent) :
    let r := processFileRenameDestination w watchPrefixes external s payload
    RecordStep w s r.state r.emitted [] none := by
  simp only [processFileRenameDestination]
  split
  · exact .idle (fun process => .refl process s) rfl
  · next pending hpending =>
    have herase : ∀ process, Confined process s
        { s with pendingRenames := s.pendingRenames.erase ⟨payload.pid,payload.operationId⟩ } := by
      intro process
      refine confined_setRenames _ _ fun key pending hp => ?_
      rw [ExtTreeMap.getElem?_erase] at hp
      split at hp
      · cases hp
      · exact Or.inl hp
    split
    · exact .idle herase rfl
    · next rawPath _ =>
      have hresolved := (herase pending.process).trans
        (confined_resolvePath w _ pending.process payload.dfd rawPath)
      split
      · exact .late _ pending hpending hresolved (by simp)
      · refine .late _ pending hpending (hresolved.trans (confined_setFiles _ _ fun d hd => ?_)) ?_
        · exact Or.inl (mem_rewriteOpenFilePaths.mp hd)
        · intro e he
          unfold renameEvents at he
          split at he <;> simp only [List.mem_cons,List.not_mem_nil,or_false] at he
          · rcases he with rfl | rfl <;> exact ⟨rfl,rfl⟩
          · subst he
            exact ⟨rfl,rfl⟩

theorem recordStep_fileUnlink (order : IterationOrder ℕ) (site : ℕ) (payload : FilePathEvent) :
    let r := processFileUnlink w watchPrefixes external s order site payload
    RecordStep w s r.state r.emitted (startedBy s payload.tgid) none := by
  simp only [processFileUnlink]
  split
  · exact .acts payload.tgid (.refl _ _) (by simp)
  · next rawPath _ =>
    have hresolved := confined_resolvePath w (s.currentProcess payload.tgid).2 (s.currentProcess payload.tgid).1
      payload.dfd rawPath
    split
    · exact .acts payload.tgid hresolved (by simp)
    · exact .acts payload.tgid hresolved (by simp [actor,TracedEvent.introduces])

theorem execProcess_skips {pid : UInt32} :
    (pid = s.rootProcess.lifetime.pid ∧ s.rootInitialExecPending = true) ↔ (s.execProcess pid).1 = none := by
  unfold EventCollectorState.execProcess
  split
  · next h => exact ⟨fun _ => rfl,fun _ => h⟩
  · next h => exact ⟨fun h' => absurd h' h,fun h' => by cases h'⟩

theorem recordStep_exec (payload : ProcessExecEvent) :
    let r := processExec w s payload
    RecordStep w s r.state r.emitted
      (if payload.tgid = s.rootProcess.lifetime.pid ∧ s.rootInitialExecPending then [] else startedBy s payload.tgid)
      (s.execProcess payload.tgid).1 := by
  simp only [processExec,execProcess_skips]
  generalize hexec : s.execProcess payload.tgid = found
  obtain ⟨_ | process,s₁⟩ := found
  · rw [if_pos rfl]
    exact .skips payload.tgid s₁ hexec (fun process => .refl process s₁) rfl
  · rw [if_neg (by simp)]
    exact .execs payload.tgid process s₁ _ hexec (confined_resolvePath w s₁ process atFdcwd _) rfl

end Records

section Run
variable {H : Type} {order : IterationOrder ℕ} {view : ℕ → World H} {watchPrefixes : List Str} {site : ℕ}

variable (order view watchPrefixes site) in
theorem recordStep_processEvent (event : Event) (s : EventCollectorState H) :
    let r := processEvent order view watchPrefixes site event s
    RecordStep (view site) s r.state r.emitted (issued s event) (executed s event) := by
  obtain ⟨source,timestampNs,payload⟩ := event
  cases payload with
  | fileOpen payload => exact recordStep_fileOpen _ _ _ s payload
  | fileClose payload => exact recordStep_fileClose _ _ s payload
  | processExec payload => exact recordStep_exec _ s payload
  | processExit payload =>
    refine .acts payload.tgid (.refl _ _) ?_
    simp [processEvent,processExit,actor,TracedEvent.introduces]
  | fileMmap payload => exact recordStep_fileMmap _ _ s payload
  | fileRenameSource payload => exact recordStep_fileRenameSource _ _ s payload
  | fileRenameDestination payload => exact recordStep_fileRenameDestination _ _ _ s payload
  | fileUnlink payload => exact recordStep_fileUnlink _ _ _ s order site payload
  | processFork payload => exact .forks payload.parentPid payload.childPid (.refl _ _) rfl
  | unknown kind => exact .idle (fun process => .refl process s) rfl

/-- The lifetimes issued and the instance executed by a buffered record. -/
def issuedBy (raw : RawEvent) (s : EventCollectorState H) : List ProcessLifetime :=
  (raw.event.map (issued s)).getD []

def executedBy (raw : RawEvent) (s : EventCollectorState H) : Option ProcessInstance :=
  raw.event.bind (executed s)

variable (order view watchPrefixes site) in
theorem recordStep_processRawEvent (raw : RawEvent) (c : Collected H) :
    ∃ emitted, (processRawEvent order view watchPrefixes site raw c).events = c.events ++ emitted ∧
      RecordStep (view site) c.state (processRawEvent order view watchPrefixes site raw c).state emitted
        (issuedBy raw c.state) (executedBy raw c.state) := by
  obtain ⟨timestamp,_ | event⟩ := raw
  · exact ⟨[],(List.append_nil _).symm,.idle (fun process => confined_refuse process c.state) rfl⟩
  · have hstep := recordStep_processEvent order view watchPrefixes site event c.state
    refine ⟨_,rfl,?_⟩
    simp only [processRawEvent]
    split
    · exact hstep
    · exact hstep.refuse

end Run

end Repx.Trace
