import Repx.Trace.RenamePairing

/-! # Paths of processes that are gone

A buffer is processed after the traced command has ended, when `/proc` may have an entry
of another process under the number of one that exited. Relative paths are resolved
through these entries, and the directories found there are kept and handed on by forks.
Two machines that differ in such entries only lead to the same paths as long as no
relative path is resolved for a process that is gone.
-/
namespace Repx.Trace
open ByteString Utf8 Std HashTables Probe

section Entries

/-- The directory of a process under `/proc`, and what lies below it. -/
def InProc (pid : UInt32) (path : Str) : Prop :=
  ∃ rest, (rest = [] ∨ rest.head? = some slash) ∧ path = procEntry pid rest

theorem slash_not_mem_numeral (n : ℕ) : slash ∉ numeral 10 n := by
  intro h
  obtain ⟨c,hc,hslash⟩ := List.mem_map.mp h
  have hdigit := Char.isDigit_iff_toNat.mp (Nat.isDigit_of_mem_toDigits (by decide) (by decide) hc)
  have hlow : 48 ≤ c.toNat := hdigit.1
  have hhigh : c.toNat ≤ 57 := hdigit.2
  have hnat : c.toNat % 256 = 47 := congrArg UInt8.toNat hslash
  omega

/-- The number of an entry ends where its name begins. -/
theorem takeWhile_numeral (n : ℕ) {rest : Str} (h : rest = [] ∨ rest.head? = some slash) :
    (numeral 10 n ++ rest).takeWhile (· ≠ slash) = numeral 10 n := by
  have hdigits : ∀ b ∈ numeral 10 n, decide (b ≠ slash) = true := fun b hb =>
    decide_eq_true fun he => slash_not_mem_numeral n (he ▸ hb)
  have hrest : rest.takeWhile (· ≠ slash) = [] := by
    cases rest with
    | nil => rfl
    | cons b rest =>
      have hb : b = slash := by simpa using h
      simp [hb]
  rw [List.takeWhile_append_of_pos hdigits,hrest,List.append_nil]

/-- An entry belongs to one process only. -/
theorem InProc.pid_eq {pid pid' : UInt32} {entry : Str} (h : InProc pid' (procEntry pid (slash :: entry))) :
    pid = pid' := by
  obtain ⟨rest,hrest,heq⟩ := h
  simp only [procEntry,List.append_assoc] at heq
  have hnumerals := congrArg (List.takeWhile (· ≠ slash)) (List.append_cancel_left heq)
  rw [takeWhile_numeral _ (Or.inr rfl),takeWhile_numeral _ hrest] at hnumerals
  exact UInt32.toNat_inj.mp (numeral_ten_injective hnumerals)

variable {H : Type}

/-- The machine looks the same but for the entries of processes that are gone. -/
structure SameElsewhere (gone : UInt32 → Prop) (w w' : World H) : Prop where
  readLink : ∀ path, (∀ pid, gone pid → ¬ InProc pid path) → w'.readLink path = w.readLink path
  canonicalize : ∀ path, (∀ pid, gone pid → ¬ InProc pid path) → w'.canonicalize path = w.canonicalize path
  openRegular : ∀ path, (∀ pid, gone pid → ¬ InProc pid path) → w'.openRegular path = w.openRegular path
  observePath : ∀ path, (∀ pid, gone pid → ¬ InProc pid path) → w'.observePath path = w.observePath path
  tryClone : w'.tryClone = w.tryClone
  observeFile : w'.observeFile = w.observeFile

theorem SameElsewhere.readLink_procEntry {gone : UInt32 → Prop} {w w' : World H} (h : SameElsewhere gone w w')
    {pid : UInt32} (hpid : ¬ gone pid) (entry : Str) :
    w'.readLink (procEntry pid (slash :: entry)) = w.readLink (procEntry pid (slash :: entry)) := by
  refine h.readLink _ fun pid' hgone hin => hpid ?_
  rw [hin.pid_eq]
  exact hgone

/-- A machine that shows a directory of one process and nothing else. -/
def linkWorld (H : Type) (pid : UInt32) (dfd : Int32) (base : Str) : World H where
  readLink path := if path = procCwd pid ∨ path = procFd pid dfd then some base else none
  canonicalize _ := none
  openRegular _ := none
  tryClone _ := none
  observeFile _ _ := .missing emptyContentHash
  observePath _ := .missing emptyContentHash

theorem readLink_linkWorld (pid : UInt32) (dfd : Int32) (base : Str) :
    (linkWorld H pid dfd base).readLink (if dfd = atFdcwd then procCwd pid else procFd pid dfd) = some base := by
  split <;> simp [linkWorld]

theorem sameElsewhere_linkWorld {gone : UInt32 → Prop} {pid : UInt32} (hgone : gone pid) (dfd : Int32)
    (base base' : Str) : SameElsewhere gone (linkWorld H pid dfd base) (linkWorld H pid dfd base') where
  readLink path h := by
    have hcwd : path ≠ procCwd pid := by
      rintro rfl
      exact h pid hgone ⟨_,Or.inr rfl,rfl⟩
    have hfd : path ≠ procFd pid dfd := by
      rintro rfl
      exact h pid hgone ⟨_,Or.inr rfl,rfl⟩
    simp only [linkWorld,hcwd,hfd,or_self,if_false]
  canonicalize _ _ := rfl
  openRegular _ _ := rfl
  observePath _ _ := rfl
  tryClone := rfl
  observeFile := rfl

end Entries

/-- The paths of a rename or of an unlink. -/
def TracedEvent.resolvedPaths : TracedEvent → Option (List Str)
  | .fileRename _ fromPath toPath _ _ _ => some [fromPath,toPath]
  | .fileUnlink _ path _ _ _ => some [path]
  | _ => none

/-- The paths of renames and unlinks and the directories remembered for processes. -/
structure SamePaths {H : Type} (c c' : Collected H) : Prop where
  events : c'.events.filterMap TracedEvent.resolvedPaths = c.events.filterMap TracedEvent.resolvedPaths
  processCwds : c'.state.processCwds = c.state.processCwds

section Guard
variable {H : Type} (gone : UInt32 → Prop)

/-- A path that is absolute, or resolved for a process that is not gone. -/
def ResolvesLive (process : ProcessInstance) (rawPath : Str) : Prop :=
  rawPath.head? = some slash ∨ ¬ gone process.lifetime.pid

/-- No path that a record gives rise to, and no directory it leaves behind, is taken from
an entry of a process that is gone. -/
def EventResolvesLive (event : Event) (s : EventCollectorState H) : Prop :=
  match event.payload with
  | .fileOpen payload => payload.dfd = atFdcwd →
    ResolvesLive gone (s.currentProcess payload.tgid).1 (openedPath payload.path payload.pathLen)
  | .fileRenameSource payload => ∀ rawPath, decodeEventPath payload.path payload.pathLen = some rawPath →
    ResolvesLive gone (s.currentProcess payload.tgid).1 rawPath
  | .fileRenameDestination payload =>
    ∀ pending, s.pendingRenames[(⟨payload.pid,payload.operationId⟩ : RenameKey)]? = some pending →
      ∀ rawPath, decodeEventPath payload.path payload.pathLen = some rawPath →
        ResolvesLive gone pending.process rawPath
  | .fileUnlink payload => ∀ rawPath, decodeEventPath payload.path payload.pathLen = some rawPath →
    ResolvesLive gone (s.currentProcess payload.tgid).1 rawPath
  | .processExec payload => ∀ process, (s.execProcess payload.tgid).1 = some process →
    ResolvesLive gone process (openedPath payload.filename payload.filenameLen)
  | _ => True

end Guard

namespace EventCollectorState
variable {H : Type} (s : EventCollectorState H) (files : FdTable H)

def setFiles : EventCollectorState H := { s with fdTable := files }

variable {s files}

@[simp] theorem currentProcess_setFiles (pid : UInt32) :
    (s.setFiles files).currentProcess pid =
      ((s.currentProcess pid).1,(s.currentProcess pid).2.setFiles files) := by
  simp only [currentProcess,setFiles]
  split <;> rfl

@[simp] theorem execProcess_setFiles (pid : UInt32) :
    (s.setFiles files).execProcess pid = ((s.execProcess pid).1,(s.execProcess pid).2.setFiles files) := by
  by_cases h : pid = s.rootProcess.lifetime.pid ∧ s.rootInitialExecPending
  · have h' : pid = (s.setFiles files).rootProcess.lifetime.pid ∧ (s.setFiles files).rootInitialExecPending := h
    simp only [execProcess,if_pos h,if_pos h']
    rfl
  · have h' : ¬ (pid = (s.setFiles files).rootProcess.lifetime.pid ∧
        (s.setFiles files).rootInitialExecPending) := h
    simp only [execProcess,if_neg h,if_neg h',currentProcess_setFiles]
    rfl

@[simp] theorem resolvePath_setFiles (w : World H) (process : ProcessInstance) (dfd : Int32) (rawPath : Str) :
    (s.setFiles files).resolvePath w process dfd rawPath =
      ((s.resolvePath w process dfd rawPath).1,(s.resolvePath w process dfd rawPath).2.setFiles files) := by
  simp only [resolvePath,setFiles]
  split
  · rfl
  · split
    · split <;> rfl
    · split <;> rfl

variable (s) in
/-- Only a path relative to the working directory leaves something behind. -/
theorem resolvePath_of_ne {dfd : Int32} (h : dfd ≠ atFdcwd) (w : World H) (process : ProcessInstance)
    (rawPath : Str) : (s.resolvePath w process dfd rawPath).2 = s := by
  simp only [resolvePath,h,if_false]
  split
  · rfl
  · split <;> rfl

variable (s) in
theorem resolvePath_congr {gone : UInt32 → Prop} {w w' : World H} (h : SameElsewhere gone w w')
    {process : ProcessInstance} {rawPath : Str} (hlive : ResolvesLive gone process rawPath) (dfd : Int32) :
    s.resolvePath w' process dfd rawPath = s.resolvePath w process dfd rawPath := by
  rcases hlive with habsolute | hpid
  · simp only [resolvePath,habsolute,if_true]
  · have hcwd : w'.readLink (procCwd process.lifetime.pid) = w.readLink (procCwd process.lifetime.pid) :=
      h.readLink_procEntry hpid _
    have hfd : w'.readLink (procFd process.lifetime.pid dfd) = w.readLink (procFd process.lifetime.pid dfd) :=
      h.readLink_procEntry hpid _
    by_cases hdfd : dfd = atFdcwd
    · simp only [resolvePath,hdfd,if_true,hcwd]
    · simp only [resolvePath,hdfd,if_false,hfd]

/-- A path resolved for a process that is gone depends on what is found under its number,
unless it is absolute. -/
theorem resolvePath_stable_iff (s : EventCollectorState H) (gone : UInt32 → Prop) (process : ProcessInstance)
    (dfd : Int32) (rawPath : Str) :
    (∀ w w' : World H, SameElsewhere gone w w' →
      s.resolvePath w' process dfd rawPath = s.resolvePath w process dfd rawPath) ↔
        ResolvesLive gone process rawPath := by
  constructor
  · intro h
    by_contra hdead
    obtain ⟨hrelative,hgone⟩ := not_or.mp hdead
    have hpath (name : UInt8) (hname : name < 0x80) (hslash : name ≠ slash) :
        (s.resolvePath (linkWorld H process.lifetime.pid dfd [slash,name]) process dfd rawPath).1 =
          slash :: name :: lossy (slash :: rawPath) := by
      have hjoin : joinPath [slash,name] rawPath = slash :: name :: slash :: rawPath := by
        simp [joinPath,hrelative,hslash]
      simp only [resolvePath,hrelative,if_false,readLink_linkWorld,hjoin]
      rw [lossy_cons (by decide),lossy_cons hname]
    have heq := congrArg Prod.fst (h _ _ (sameElsewhere_linkWorld (not_not.mp hgone) dfd [slash,97] [slash,98]))
    rw [hpath 97 (by decide) (by decide),hpath 98 (by decide) (by decide)] at heq
    exact absurd (List.cons.inj (List.cons.inj heq).2).1 (by decide)
  · intro hlive w w' hw
    exact s.resolvePath_congr hw hlive dfd

end EventCollectorState

section Outcomes
variable {H : Type}

/-- Two records have the same outcome but for the open files and what else they report. -/
structure SameOutcome (r r' : Processed H) : Prop where
  accepted : r'.accepted = r.accepted
  state : ∃ files, r'.state = r.state.setFiles files
  paths : r'.emitted.filterMap TracedEvent.resolvedPaths = r.emitted.filterMap TracedEvent.resolvedPaths

/-- A record is taken and leads to a state but for the open files, without a rename or an
unlink. -/
structure Quiet (s : EventCollectorState H) (r : Processed H) : Prop where
  accepted : r.accepted = true
  state : ∃ files, r.state = s.setFiles files
  paths : r.emitted.filterMap TracedEvent.resolvedPaths = []

variable {s : EventCollectorState H} {files : FdTable H} {r r' : Processed H}

theorem Quiet.sameOutcome (h : Quiet s r) (files : FdTable H) (h' : Quiet (s.setFiles files) r') :
    SameOutcome r r' := by
  obtain ⟨files',hstate'⟩ := h'.state
  obtain ⟨files,hstate⟩ := h.state
  refine ⟨h'.accepted.trans h.accepted.symm,⟨files',?_⟩,h'.paths.trans h.paths.symm⟩
  rw [hstate,hstate']
  rfl

variable (w : World H) (watchPrefixes : List Str) (external : Bool)

variable (s) in
theorem quiet_fileOpen (payload : FileOpenEvent) :
    Quiet ((s.currentProcess payload.tgid).2.resolvePath w (s.currentProcess payload.tgid).1 payload.dfd
      (openedPath payload.path payload.pathLen)).2 (processFileOpen w watchPrefixes external s payload) := by
  simp only [processFileOpen]
  split
  · exact ⟨rfl,⟨_,rfl⟩,rfl⟩
  · exact ⟨rfl,⟨_,rfl⟩,rfl⟩

variable (s) in
theorem quiet_fileClose (payload : FileCloseEvent) :
    Quiet (s.currentProcess payload.tgid).2 (processFileClose w external s payload) := by
  simp only [processFileClose]
  split
  · exact ⟨rfl,⟨_,rfl⟩,rfl⟩
  · exact ⟨rfl,⟨_,rfl⟩,rfl⟩

variable (s) in
theorem quiet_fileMmap (payload : FileMmapEvent) :
    Quiet (s.currentProcess payload.tgid).2 (processFileMmap w external s payload) := by
  simp only [processFileMmap]
  split
  · exact ⟨rfl,⟨_,rfl⟩,rfl⟩
  · split
    · exact ⟨rfl,⟨_,rfl⟩,rfl⟩
    · exact ⟨rfl,⟨_,rfl⟩,rfl⟩

theorem quiet_exec {payload : ProcessExecEvent} {process : ProcessInstance} {s₁ : EventCollectorState H}
    (hexec : s.execProcess payload.tgid = (some process,s₁)) :
    Quiet (s₁.resolvePath w process atFdcwd (openedPath payload.filename payload.filenameLen)).2
      (processExec w s payload) := by
  simp only [processExec,hexec]
  exact ⟨rfl,⟨_,rfl⟩,rfl⟩

theorem quiet_exec_first {payload : ProcessExecEvent} {s₁ : EventCollectorState H}
    (hexec : s.execProcess payload.tgid = (none,s₁)) : Quiet s₁ (processExec w s payload) := by
  simp only [processExec,hexec]
  exact ⟨rfl,⟨_,rfl⟩,rfl⟩

variable (s) in
theorem quiet_exit (payload : ProcessExitEvent) :
    Quiet (s.currentProcess payload.tgid).2 (processExit s payload) := ⟨rfl,⟨_,rfl⟩,rfl⟩

variable (s) in
theorem quiet_fork (payload : ProcessForkEvent) :
    Quiet (s.forkProcess w payload.parentPid payload.childPid).2 (processFork w s payload) :=
  ⟨rfl,⟨_,rfl⟩,rfl⟩

variable (s files) in
/-- The directory a child inherits does not depend on the machine. -/
theorem forkProcess_setFiles (w' : World H) (parentPid childPid : UInt32) :
    ∃ files', ((s.setFiles files).forkProcess w' parentPid childPid).2 =
      (s.forkProcess w parentPid childPid).2.setFiles files' := by
  simp only [EventCollectorState.forkProcess,EventCollectorState.currentProcess_setFiles]
  exact ⟨_,rfl⟩

end Outcomes

section Steps
variable {H : Type} {gone : UInt32 → Prop} {w w' : World H} {watchPrefixes : List Str} {external : Bool}
  {s : EventCollectorState H} {files : FdTable H}

theorem sameOutcome_renameSource (h : SameElsewhere gone w w') {payload : FilePathEvent}
    (hlive : ∀ rawPath, decodeEventPath payload.path payload.pathLen = some rawPath →
      ResolvesLive gone (s.currentProcess payload.tgid).1 rawPath) :
    SameOutcome (processFileRenameSource w external s payload)
      (processFileRenameSource w' external (s.setFiles files) payload) := by
  simp only [processFileRenameSource,EventCollectorState.currentProcess_setFiles]
  cases hpath : decodeEventPath payload.path payload.pathLen with
  | none => exact ⟨rfl,⟨_,rfl⟩,rfl⟩
  | some rawPath =>
    simp only [EventCollectorState.resolvePath_setFiles,
      EventCollectorState.resolvePath_congr _ h (hlive rawPath hpath)]
    exact ⟨rfl,⟨_,rfl⟩,rfl⟩

/-- What is observed of a rename does not show in its paths. -/
theorem filterMap_renameEvents (process : ProcessInstance) (fromPath toPath : Str) (flags : UInt32)
    (external : Bool) (observation reverseObservation : FileObservation) :
    (renameEvents process fromPath toPath flags external observation reverseObservation).filterMap
        TracedEvent.resolvedPaths =
      [fromPath,toPath] :: if flags &&& renameExchange != 0 then [[toPath,fromPath]] else [] := by
  unfold renameEvents
  split <;> rfl

theorem sameOutcome_renameDestination (h : SameElsewhere gone w w') {payload : FilePathEvent}
    (hlive : ∀ pending, s.pendingRenames[(⟨payload.pid,payload.operationId⟩ : RenameKey)]? = some pending →
      ∀ rawPath, decodeEventPath payload.path payload.pathLen = some rawPath →
        ResolvesLive gone pending.process rawPath) :
    SameOutcome (processFileRenameDestination w watchPrefixes external s payload)
      (processFileRenameDestination w' watchPrefixes external (s.setFiles files) payload) := by
  have hwaiting : (s.setFiles files).pendingRenames = s.pendingRenames := rfl
  have hset (pendingRenames : ExtTreeMap RenameKey PendingRename) :
      { s.setFiles files with pendingRenames := pendingRenames } =
        { s with pendingRenames := pendingRenames }.setFiles files := rfl
  simp only [processFileRenameDestination,hwaiting,hset]
  cases hpending : s.pendingRenames[(⟨payload.pid,payload.operationId⟩ : RenameKey)]? with
  | none => exact ⟨rfl,⟨_,rfl⟩,rfl⟩
  | some pending =>
    cases hpath : decodeEventPath payload.path payload.pathLen with
    | none => exact ⟨rfl,⟨_,rfl⟩,rfl⟩
    | some rawPath =>
      simp only [EventCollectorState.resolvePath_setFiles,
        EventCollectorState.resolvePath_congr _ h (hlive pending hpending rawPath hpath)]
      split
      · exact ⟨rfl,⟨_,rfl⟩,rfl⟩
      · exact ⟨rfl,⟨_,rfl⟩,by rw [filterMap_renameEvents,filterMap_renameEvents]⟩

theorem sameOutcome_unlink (h : SameElsewhere gone w w') {payload : FilePathEvent}
    (hlive : ∀ rawPath, decodeEventPath payload.path payload.pathLen = some rawPath →
      ResolvesLive gone (s.currentProcess payload.tgid).1 rawPath) (order order' : IterationOrder ℕ) (site : ℕ) :
    SameOutcome (processFileUnlink w watchPrefixes external s order site payload)
      (processFileUnlink w' watchPrefixes external (s.setFiles files) order' site payload) := by
  simp only [processFileUnlink,EventCollectorState.currentProcess_setFiles]
  cases hpath : decodeEventPath payload.path payload.pathLen with
  | none => exact ⟨rfl,⟨_,rfl⟩,rfl⟩
  | some rawPath =>
    simp only [EventCollectorState.resolvePath_setFiles,
      EventCollectorState.resolvePath_congr _ h (hlive rawPath hpath)]
    split
    · exact ⟨rfl,⟨_,rfl⟩,rfl⟩
    · exact ⟨rfl,⟨_,rfl⟩,rfl⟩

theorem sameOutcome_fileOpen (h : SameElsewhere gone w w') {payload : FileOpenEvent}
    (hlive : payload.dfd = atFdcwd →
      ResolvesLive gone (s.currentProcess payload.tgid).1 (openedPath payload.path payload.pathLen)) :
    SameOutcome (processFileOpen w watchPrefixes external s payload)
      (processFileOpen w' watchPrefixes external (s.setFiles files) payload) := by
  refine (quiet_fileOpen s w watchPrefixes external payload).sameOutcome files ?_
  have hquiet := quiet_fileOpen (s.setFiles files) w' watchPrefixes external payload
  simp only [EventCollectorState.currentProcess_setFiles,EventCollectorState.resolvePath_setFiles] at hquiet
  by_cases hdfd : payload.dfd = atFdcwd
  · rwa [EventCollectorState.resolvePath_congr _ h (hlive hdfd)] at hquiet
  · rw [EventCollectorState.resolvePath_of_ne _ hdfd] at hquiet ⊢
    exact hquiet

theorem sameOutcome_exec (h : SameElsewhere gone w w') {payload : ProcessExecEvent}
    (hlive : ∀ process, (s.execProcess payload.tgid).1 = some process →
      ResolvesLive gone process (openedPath payload.filename payload.filenameLen)) :
    SameOutcome (processExec w s payload) (processExec w' (s.setFiles files) payload) := by
  have hfiles : (s.setFiles files).execProcess payload.tgid = _ :=
    EventCollectorState.execProcess_setFiles payload.tgid
  generalize hexec : s.execProcess payload.tgid = found at hlive hfiles
  obtain ⟨_ | process,s₁⟩ := found
  · exact (quiet_exec_first w hexec).sameOutcome files (quiet_exec_first w' hfiles)
  · refine (quiet_exec w hexec).sameOutcome files ?_
    have hquiet := quiet_exec w' hfiles
    rwa [EventCollectorState.resolvePath_setFiles,
      EventCollectorState.resolvePath_congr _ h (hlive process rfl)] at hquiet

variable (watchPrefixes files) in
/-- The second run is in a state that differs from that of the first in its open files. -/
theorem sameOutcome_processEvent (order order' : IterationOrder ℕ) {view view' : ℕ → World H} {site : ℕ}
    (h : SameElsewhere gone (view site) (view' site)) {event : Event} (hlive : EventResolvesLive gone event s) :
    SameOutcome (processEvent order view watchPrefixes site event s)
      (processEvent order' view' watchPrefixes site event (s.setFiles files)) := by
  obtain ⟨source,timestampNs,payload⟩ := event
  cases payload with
  | fileOpen payload => exact sameOutcome_fileOpen h hlive
  | fileClose payload =>
    refine (quiet_fileClose s _ _ payload).sameOutcome files ?_
    have hquiet := quiet_fileClose (s.setFiles files) (view' site) (source == 1) payload
    rwa [EventCollectorState.currentProcess_setFiles] at hquiet
  | processExec payload => exact sameOutcome_exec h hlive
  | processExit payload =>
    refine (quiet_exit s payload).sameOutcome files ?_
    have hquiet := quiet_exit (s.setFiles files) payload
    rwa [EventCollectorState.currentProcess_setFiles] at hquiet
  | fileMmap payload =>
    refine (quiet_fileMmap s _ _ payload).sameOutcome files ?_
    have hquiet := quiet_fileMmap (s.setFiles files) (view' site) (source == 1) payload
    rwa [EventCollectorState.currentProcess_setFiles] at hquiet
  | fileRenameSource payload => exact sameOutcome_renameSource h hlive
  | fileRenameDestination payload => exact sameOutcome_renameDestination h hlive
  | fileUnlink payload => exact sameOutcome_unlink h hlive order order' site
  | processFork payload =>
    obtain ⟨files',hfork⟩ := forkProcess_setFiles s files (view site) (view' site) payload.parentPid
      payload.childPid
    refine (quiet_fork s _ payload).sameOutcome files' ?_
    have hquiet := quiet_fork (s.setFiles files) (view' site) payload
    rwa [hfork] at hquiet
  | unknown kind => exact ⟨rfl,⟨files,rfl⟩,rfl⟩

end Steps

section Runs
variable {H : Type}

/-- No record of a buffer is resolved through an entry of a process that is gone by then. -/
def ResolvesLiveThroughout (order : IterationOrder ℕ) (view : ℕ → World H) (watchPrefixes : List Str)
    (gone : ℕ → UInt32 → Prop) : ℕ → List RawEvent → Collected H → Prop
  | _, [], _ => True
  | site, raw :: rest, c =>
    (∀ event, raw.event = some event → EventResolvesLive (gone site) event c.state) ∧
      ResolvesLiveThroughout order view watchPrefixes gone (site + 1) rest
        (processRawEvent order view watchPrefixes site raw c)

variable {order order' : IterationOrder ℕ} {view view' : ℕ → World H} {watchPrefixes : List Str}
  {gone : ℕ → UInt32 → Prop} {c c' : Collected H}

/-- Agreement on everything but the open files and what is reported of other records. -/
structure SameButFiles (c c' : Collected H) : Prop where
  state : ∃ files, c'.state = c.state.setFiles files
  events : c'.events.filterMap TracedEvent.resolvedPaths = c.events.filterMap TracedEvent.resolvedPaths

theorem SameButFiles.refl (c : Collected H) : SameButFiles c c := ⟨⟨_,rfl⟩,rfl⟩

theorem SameButFiles.samePaths (h : SameButFiles c c') : SamePaths c c' := by
  obtain ⟨files,hstate⟩ := h.state
  refine ⟨h.events,?_⟩
  rw [hstate]
  rfl

theorem SameButFiles.processRawEvent {site : ℕ} {raw : RawEvent} (h : SameButFiles c c')
    (hview : SameElsewhere (gone site) (view site) (view' site))
    (hlive : ∀ event, raw.event = some event → EventResolvesLive (gone site) event c.state) :
    SameButFiles (processRawEvent order view watchPrefixes site raw c)
      (processRawEvent order' view' watchPrefixes site raw c') := by
  obtain ⟨state',events'⟩ := c'
  obtain ⟨⟨files,rfl⟩,hevents⟩ := h
  obtain ⟨timestamp,_ | event⟩ := raw
  · exact ⟨⟨files,rfl⟩,hevents⟩
  · obtain ⟨haccepted,⟨files',hstate⟩,hpaths⟩ := sameOutcome_processEvent watchPrefixes files order order'
      hview (hlive event rfl)
    constructor
    · simp only [Trace.processRawEvent,haccepted]
      split
      · exact ⟨files',hstate⟩
      · exact ⟨files',by rw [hstate]; rfl⟩
    · simp only [Trace.processRawEvent,List.filterMap_append,hevents,hpaths]

theorem SameButFiles.processBufferedEvents {raws : List RawEvent} {site : ℕ} (h : SameButFiles c c')
    (hview : ∀ site, SameElsewhere (gone site) (view site) (view' site))
    (hlive : ResolvesLiveThroughout order view watchPrefixes gone site raws c) :
    SameButFiles (processBufferedEvents order view watchPrefixes site raws c)
      (processBufferedEvents order' view' watchPrefixes site raws c') := by
  induction raws generalizing site c c' with
  | nil => exact h
  | cons raw rest ih => exact ih (h.processRawEvent (hview site) hlive.1) hlive.2

theorem ResolvesLiveThroughout.of_append {before rest : List RawEvent} {site : ℕ}
    (h : ResolvesLiveThroughout order view watchPrefixes gone site (before ++ rest) c) :
    ResolvesLiveThroughout order view watchPrefixes gone site before c := by
  induction before generalizing site c with
  | nil => trivial
  | cons raw before ih => exact ⟨h.1,ih h.2⟩

/-- The exit code of the command is written into an exit only. -/
theorem filterMap_setLastExit (pid : UInt32) (exitCode : Int) {events events' : List TracedEvent}
    (h : setLastExit pid exitCode events = some events') :
    events'.filterMap TracedEvent.resolvedPaths = events.filterMap TracedEvent.resolvedPaths := by
  induction events generalizing events' with
  | nil => cases h
  | cons event rest ih =>
    simp only [setLastExit] at h
    split at h
    · next rest' hrest =>
      obtain rfl := Option.some.inj h
      rw [List.filterMap_cons,List.filterMap_cons,ih hrest]
    · split at h
      · split_ifs at h
        obtain rfl := Option.some.inj h
        rfl
      · cases h

theorem samePaths_finishSorted (order : IterationOrder ℕ) (view : ℕ → World H) (watchPrefixes : List Str)
    (childPid : UInt32) (exitCode : Int) (raws : List RawEvent) (c : Collected H) :
    SamePaths (processBufferedEvents order view watchPrefixes 0 raws c)
      (finishSorted order view watchPrefixes childPid exitCode raws c) := by
  unfold finishSorted
  generalize processBufferedEvents order view watchPrefixes 0 raws c = c
  dsimp only
  split
  · next events hlast => exact ⟨filterMap_setLastExit childPid exitCode hlast,rfl⟩
  · refine ⟨by simp [TracedEvent.resolvedPaths],?_⟩
    simp only [EventCollectorState.exitProcess,EventCollectorState.currentProcess]
    split <;> rfl

/-- Wherever no relative path of a buffer is resolved for a process that is gone, two
machines that differ in the entries of such processes only lead to the same paths of
renames and unlinks and to the same directories, after every record and in the end. -/
theorem samePaths_of_resolvesLive (order order' : IterationOrder ℕ) (view view' : ℕ → World H)
    (watchPrefixes : List Str) (gone : ℕ → UInt32 → Prop) (raws : List RawEvent) (c : Collected H)
    (hview : ∀ site, SameElsewhere (gone site) (view site) (view' site))
    (hlive : ResolvesLiveThroughout order view watchPrefixes gone 0 raws c) :
    (∀ before rest, raws = before ++ rest →
      SamePaths (processBufferedEvents order view watchPrefixes 0 before c)
        (processBufferedEvents order' view' watchPrefixes 0 before c)) ∧
      ∀ childPid exitCode, SamePaths (finishSorted order view watchPrefixes childPid exitCode raws c)
        (finishSorted order' view' watchPrefixes childPid exitCode raws c) := by
  constructor
  · rintro before rest rfl
    exact ((SameButFiles.refl c).processBufferedEvents hview hlive.of_append).samePaths
  · intro childPid exitCode
    have hbuffer : SamePaths (processBufferedEvents order view watchPrefixes 0 raws c)
        (processBufferedEvents order' view' watchPrefixes 0 raws c) :=
      ((SameButFiles.refl c).processBufferedEvents hview hlive).samePaths
    have hfirst := samePaths_finishSorted order view watchPrefixes childPid exitCode raws c
    have hsecond := samePaths_finishSorted order' view' watchPrefixes childPid exitCode raws c
    exact ⟨hsecond.events.trans (hbuffer.events.trans hfirst.events.symm),
      hsecond.processCwds.trans (hbuffer.processCwds.trans hfirst.processCwds.symm)⟩

end Runs

section Samples

/-- The number a record of an exit carries. -/
def RawEvent.exited (raw : RawEvent) : Option UInt32 :=
  match raw.event with
  | some ⟨_,_,.processExit payload⟩ => some payload.tgid
  | _ => none

/-- A machine on which another process has taken over the number 10. -/
def reusedWorld : World Empty :=
  { bareWorld with readLink := fun path => if path = procCwd 10 then some [slash,98] else none }

theorem sameElsewhere_reusedWorld : SameElsewhere (· = 10) bareWorld reusedWorld where
  readLink path h := by
    have hne : path ≠ procCwd 10 := by
      rintro rfl
      exact h 10 rfl ⟨_,Or.inr rfl,rfl⟩
    simp only [reusedWorld,bareWorld,hne,if_false]
  canonicalize _ _ := rfl
  openRegular _ _ := rfl
  observePath _ _ := rfl
  tryClone := rfl
  observeFile := rfl

/-- The root removes a file and exits. -/
def sampleRemoval (name : Str) : List RawEvent :=
  [⟨5,some ⟨0,5,.fileUnlink ⟨10,10,atFdcwd,0,5,Vector.ofFn fun i => name.getD i.val 0,name.length.toUInt32⟩⟩⟩,
    ⟨6,some ⟨0,6,.processExit ⟨10,10,0⟩⟩⟩]

theorem samePaths_of_resolvesLive_sample :
    SamePaths
      (finishSorted .stored (fun _ => bareWorld) [] 10 0 (sampleRemoval [slash,97]) (.initial 10 [slash] 0))
      (finishSorted .reversed (fun _ => reusedWorld) [] 10 0 (sampleRemoval [slash,97])
        (.initial 10 [slash] 0)) := by
  have hlive : ResolvesLiveThroughout .stored (fun _ => bareWorld) [] (fun _ pid => pid = 10) 0
      (sampleRemoval [slash,97]) (.initial 10 [slash] 0) := by
    refine ⟨fun event hevent => ?_,fun event hevent => ?_,trivial⟩
    · obtain rfl := Option.some.inj hevent
      intro rawPath hpath
      have hdecoded : decodeEventPath (Vector.ofFn fun i => [slash,97].getD i.val 0) [slash,97].length.toUInt32 =
          some [slash,97] := by decide +kernel
      obtain rfl := Option.some.inj (hdecoded.symm.trans hpath)
      exact Or.inl rfl
    · obtain rfl := Option.some.inj hevent
      trivial
  exact (samePaths_of_resolvesLive .stored .reversed _ _ [] (fun _ pid => pid = 10) _ _
    (fun _ => sameElsewhere_reusedWorld) hlive).2 10 0

/-- A relative path of a process that exited is resolved against the directory of the
process that has its number now. -/
theorem reused_pid_changes_paths :
    ¬ ∀ (order : IterationOrder ℕ) (view view' : ℕ → World Empty) (watchPrefixes : List Str)
      (rootPid : UInt32) (rootCwd : Str) (gone : UInt32 → Prop) (raws : List RawEvent),
      (∀ pid, gone pid → ∃ raw ∈ raws, raw.exited = some pid) →
      (∀ site, SameElsewhere gone (view site) (view' site)) →
      SamePaths (processBufferedEvents order view watchPrefixes 0 raws (.initial rootPid rootCwd 0))
        (processBufferedEvents order view' watchPrefixes 0 raws (.initial rootPid rootCwd 0)) := by
  intro h
  have hsame := h .stored (fun _ => bareWorld) (fun _ => reusedWorld) [] 10 [slash] (· = 10) (sampleRemoval [97])
    (by rintro _ rfl; exact ⟨_,List.mem_cons_of_mem _ List.mem_cons_self,rfl⟩)
    (fun _ => sameElsewhere_reusedWorld)
  exact absurd hsame.events (by decide +kernel)

end Samples

end Repx.Trace
