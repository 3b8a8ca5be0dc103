import Repx.Foundation.HashTables
import Repx.Probe.Record
import Repx.Trace.World

/-! # Collecting the records of a trace

The records of the ring buffer are processed one after the other. The collector
numbers process lifetimes and executable images, follows open files through renames and
forks, joins the two halves of a rename and counts the records it cannot use. A record
reports whether it was accepted and which events it gave rise to.
-/
namespace Repx.Trace
open ByteString Utf8 Std HashTables Probe

def saturatingSucc (n : UInt32) : UInt32 := if n = 4294967295 then n else n + 1

/-- `saturating_add` of a counter. -/
def saturatingAdd (n : UInt64) (k : ℕ) : UInt64 := UInt64.ofNat (min (n.toNat + k) (UInt64.size - 1))

/-- The key that the two halves of a rename share. -/
structure RenameKey where
  pid : UInt32
  operationId : UInt64
deriving DecidableEq

section Order

private def renameKeyCmp : RenameKey → RenameKey → Ordering :=
  compareLex (compareOn (·.pid)) (compareOn (·.operationId))

instance : Ord RenameKey := ⟨renameKeyCmp⟩

instance : TransOrd RenameKey := inferInstanceAs (TransCmp (compareLex _ _))

theorem compare_renameKey (a b : RenameKey) :
    compare a b = (compare a.pid b.pid).then (compare a.operationId b.operationId) := rfl

instance : LawfulEqOrd RenameKey where
  compare_self := ReflCmp.compare_self
  eq_of_compare {a b} h := by
    rw [compare_renameKey,Ordering.then_eq_eq] at h
    rcases a with ⟨p,o⟩
    rcases b with ⟨p',o'⟩
    obtain rfl : p = p' := LawfulEqOrd.eq_of_compare h.1
    obtain rfl : o = o' := LawfulEqOrd.eq_of_compare h.2
    rfl

end Order

structure PendingRename where
  process : ProcessInstance
  fromPath : Str
  flags : UInt32
  external : Bool
deriving DecidableEq

structure OpenFileState (H : Type) where
  path : Str
  handle : Option H
  flags : UInt32
  openObservation : Option FileObservation

namespace OpenFileState
variable {H : Type} (w : World H) (file : OpenFileState H)

def inherit : OpenFileState H := { file with handle := file.handle.bind w.tryClone }

def observeCurrent : FileObservation :=
  match file.handle with
  | some handle => w.observeFile handle file.path
  | none => w.observePath file.path

/-- The first observation is kept and returned from then on. -/
def getOpenObservation : FileObservation × OpenFileState H :=
  match file.openObservation with
  | some observation => (observation,file)
  | none => (file.observeCurrent w,{ file with openObservation := some (file.observeCurrent w) })

def mmapObservation : FileObservation × OpenFileState H := file.getOpenObservation w

def closeObservation : Option FileObservation :=
  if canWrite file.flags then some (file.observeCurrent w) else none

end OpenFileState

abbrev FdTable (H : Type) := ExtTreeMap Descriptor (OpenFileState H)

def renameExchange : UInt32 := 2

/-- Follow a rename, or an exchange of two names, in the path of an open file. -/
def rewriteOpenFilePath {H : Type} (fromPath toPath : Str) (flags : UInt32) (file : OpenFileState H) :
    OpenFileState H :=
  let replacement := (rewritePathPrefix file.path fromPath toPath).or
    (if flags &&& renameExchange != 0 then rewritePathPrefix file.path toPath fromPath else none)
  match replacement with
  | some path => { file with path := path }
  | none => file

def rewriteOpenFilePaths {H : Type} (fdTable : FdTable H) (fromPath toPath : Str) (flags : UInt32) : FdTable H :=
  fdTable.map fun _ => rewriteOpenFilePath fromPath toPath flags

structure EventCollectorState (H : Type) where
  rootProcess : ProcessInstance
  rootCwd : Str
  rootInitialExecPending : Bool
  currentProcesses : ExtTreeMap UInt32 ProcessInstance
  nextGenerations : ExtTreeMap UInt32 UInt32
  processCwds : ExtTreeMap ProcessLifetime Str
  fdTable : FdTable H
  pendingRenames : ExtTreeMap RenameKey PendingRename
  malformedEvents : UInt64

def atFdcwd : Int32 := -100

namespace EventCollectorState
variable {H : Type}

def new (rootPid : UInt32) (rootCwd : Str) : EventCollectorState H :=
  let rootProcess : ProcessInstance := ⟨⟨rootPid,0⟩,0⟩
  { rootProcess := rootProcess
    rootCwd := rootCwd
    rootInitialExecPending := true
    currentProcesses := (∅ : ExtTreeMap UInt32 ProcessInstance).insert rootPid rootProcess
    nextGenerations := (∅ : ExtTreeMap UInt32 UInt32).insert rootPid 1
    processCwds := (∅ : ExtTreeMap ProcessLifetime Str).insert rootProcess.lifetime rootCwd
    fdTable := ∅
    pendingRenames := ∅
    malformedEvents := 0 }

variable (s : EventCollectorState H)

def startProcess (pid : UInt32) : ProcessInstance × EventCollectorState H :=
  let generation := s.nextGenerations.getD pid 0
  let process : ProcessInstance := ⟨⟨pid,generation⟩,0⟩
  (process,
    { s with
      nextGenerations := s.nextGenerations.insert pid (saturatingSucc generation)
      currentProcesses := s.currentProcesses.insert pid process })

def currentProcess (pid : UInt32) : ProcessInstance × EventCollectorState H :=
  match s.currentProcesses[pid]? with
  | some process => (process,s)
  | none => s.startProcess pid

/-- The child takes over the working directory and the open files of the parent. -/
def forkProcess (w : World H) (parentPid childPid : UInt32) :
    (ProcessInstance × ProcessInstance) × EventCollectorState H :=
  let (parent,s) := s.currentProcess parentPid
  let (child,s) := s.startProcess childPid
  let processCwds :=
    match s.processCwds[parent.lifetime]? with
    | some cwd => s.processCwds.insert child.lifetime cwd
    | none => s.processCwds
  let inheritedFds := (s.fdTable.toList.filter fun e => e.1.lifetime = parent.lifetime).map fun e =>
    ((⟨child.lifetime,e.1.fd⟩ : Descriptor),e.2.inherit w)
  ((parent,child),{ s with processCwds := processCwds, fdTable := s.fdTable.insertMany inheritedFds })

/-- The first exec of the root is not reported. -/
def execProcess (pid : UInt32) : Option ProcessInstance × EventCollectorState H :=
  if pid = s.rootProcess.lifetime.pid ∧ s.rootInitialExecPending then
    (none,{ s with rootInitialExecPending := false })
  else
    let (process,s) := s.currentProcess pid
    let process := { process with execEpoch := saturatingSucc process.execEpoch }
    (some process,{ s with currentProcesses := s.currentProcesses.insert pid process })

/-- A relative path is resolved against the live directory if that can still be read,
and a path relative to the working directory against the last one seen otherwise. -/
def resolvePath (w : World H) (process : ProcessInstance) (dfd : Int32) (rawPath : Str) :
    Str × EventCollectorState H :=
  if rawPath.head? = some slash then (rawPath,s)
  else
    let procPath := if dfd = atFdcwd then procCwd process.lifetime.pid else procFd process.lifetime.pid dfd
    match w.readLink procPath with
    | some base =>
      (lossy (joinPath base rawPath),
        if dfd = atFdcwd then { s with processCwds := s.processCwds.insert process.lifetime base } else s)
    | none =>
      if dfd = atFdcwd then (lossy (joinPath (s.processCwds.getD process.lifetime s.rootCwd) rawPath),s)
      else (rawPath,s)

def exitProcess (pid : UInt32) : ProcessInstance × EventCollectorState H :=
  let (process,s) := s.currentProcess pid
  (process,{ s with currentProcesses := s.currentProcesses.erase pid })

end EventCollectorState

/-- What became of a record. -/
structure Processed (H : Type) where
  accepted : Bool
  state : EventCollectorState H
  emitted : List TracedEvent

/-- The recorded part of a path buffer. -/
def pathBytes (path : PathBuffer) (pathLen : UInt32) : Str := path.toList.take pathLen.toNat

def trimNul (text : Str) : Str := text.rdropWhile (· == 0)

def decodeEventPath (path : PathBuffer) (pathLen : UInt32) : Option Str :=
  let bytes := pathBytes path pathLen
  if isUtf8 bytes && !(trimNul bytes).isEmpty then some (trimNul bytes) else none

/-- The text of an opened path; one that does not decode is replaced. -/
def openedPath (path : PathBuffer) (pathLen : UInt32) : Str :=
  let bytes := pathBytes path pathLen
  trimNul (if isUtf8 bytes then bytes else utf8 "<invalid utf8>")

/-- The digest of no bytes. -/
def emptyContentHash : Str :=
  utf8 "sha256:e3b0c44298fc1c149afbf4c8996fb92427ae41e4649b934ca495991b7852b855"

def openTruncate : UInt32 := 512

section Records
variable {H : Type} (w : World H) (watchPrefixes : List Str) (external : Bool)
  (s : EventCollectorState H)

def processFileOpen (payload : FileOpenEvent) : Processed H :=
  let (process,s) := s.currentProcess payload.tgid
  let (rawResolved,s) := s.resolvePath w process payload.dfd (openedPath payload.path payload.pathLen)
  let procFdPath := procFd payload.tgid payload.fd
  let target := (w.procTarget procFdPath).filter (pathsAgree w rawResolved)
  let path := target.getD rawResolved
  if external && !isWatchedPath path watchPrefixes then ⟨true,s,[]⟩
  else
    let handle := w.openRegular (if target.isSome then procFdPath else path)
    let truncated := 0 ≤ payload.fd && payload.flags &&& openTruncate != 0
    let cached := if truncated then some (FileObservation.content emptyContentHash) else none
    let (observation,file) := (⟨path,handle,payload.flags,cached⟩ : OpenFileState H).getOpenObservation w
    let fdTable :=
      if 0 ≤ payload.fd then s.fdTable.insert ⟨process.lifetime,payload.fd.toInt⟩ file else s.fdTable
    ⟨true,{ s with fdTable := fdTable },
      [.fileOpen process path payload.flags payload.fd.toInt external observation]⟩

def processFileClose (payload : FileCloseEvent) : Processed H :=
  let (process,s) := s.currentProcess payload.tgid
  let descriptor : Descriptor := ⟨process.lifetime,payload.fd.toInt⟩
  let file := s.fdTable[descriptor]?
  let s := { s with fdTable := s.fdTable.erase descriptor }
  if external && file.isNone then ⟨true,s,[]⟩
  else
    ⟨true,s,[.fileClose process payload.fd.toInt (file.map OpenFileState.path) external
      (file.bind (OpenFileState.closeObservation w))]⟩

def processFileMmap (payload : FileMmapEvent) : Processed H :=
  let (process,s) := s.currentProcess payload.tgid
  let descriptor : Descriptor := ⟨process.lifetime,payload.fd.toInt⟩
  match s.fdTable[descriptor]? with
  | some file =>
    let (observation,file) := file.mmapObservation w
    ⟨true,{ s with fdTable := s.fdTable.insert descriptor file },
      [.fileMmap process payload.fd.toInt payload.prot payload.flags (some file.path) external (some observation)]⟩
  | none =>
    if external then ⟨true,s,[]⟩
    else ⟨true,s,[.fileMmap process payload.fd.toInt payload.prot payload.flags none external none]⟩

/-- The first half of a rename waits for the second. -/
def processFileRenameSource (payload : FilePathEvent) : Processed H :=
  let (process,s) := s.currentProcess payload.tgid
  match decodeEventPath payload.path payload.pathLen with
  | none => ⟨false,s,[]⟩
  | some rawPath =>
    let (path,s) := s.resolvePath w process payload.dfd rawPath
    let pending : PendingRename := ⟨process,path,payload.flags,external⟩
    ⟨true,{ s with pendingRenames := s.pendingRenames.insert ⟨payload.pid,payload.operationId⟩ pending },[]⟩

/-- An exchange is reported in both directions. -/
def renameEvents (process : ProcessInstance) (fromPath toPath : Str) (flags : UInt32) (external : Bool)
    (observation reverseObservation : FileObservation) : List TracedEvent :=
  .fileRename process fromPath toPath flags external observation ::
    if flags &&& renameExchange != 0 then
      [.fileRename process toPath fromPath flags external reverseObservation]
    else []

/-- The second half takes the first one out; without it the record is refused. -/
def processFileRenameDestination (payload : FilePathEvent) : Processed H :=
  let key : RenameKey := ⟨payload.pid,payload.operationId⟩
  match s.pendingRenames[key]? with
  | none => ⟨false,s,[]⟩
  | some pending =>
    let s := { s with pendingRenames := s.pendingRenames.erase key }
    match decodeEventPath payload.path payload.pathLen with
    | none => ⟨false,s,[]⟩
    | some rawPath =>
      let (toPath,s) := s.resolvePath w pending.process payload.dfd rawPath
      let external := pending.external || external
      if external && !watchPrefixes.any (fun dir =>
          isPathWithin pending.fromPath dir || isPathWithin toPath dir) then ⟨true,s,[]⟩
      else
        ⟨true,{ s with fdTable := rewriteOpenFilePaths s.fdTable pending.fromPath toPath pending.flags },
          renameEvents pending.process pending.fromPath toPath pending.flags external (w.observePath toPath)
            (w.observePath pending.fromPath)⟩

/-- The removed file is observed through the first open file of that path, in the
order in which the table is traversed. -/
def processFileUnlink (order : IterationOrder ℕ) (site : ℕ) (payload : FilePathEvent) : Processed H :=
  let (process,s) := s.currentProcess payload.tgid
  match decodeEventPath payload.path payload.pathLen with
  | none => ⟨false,s,[]⟩
  | some rawPath =>
    let (path,s) := s.resolvePath w process payload.dfd rawPath
    if external && !isWatchedPath path watchPrefixes then ⟨true,s,[]⟩
    else
      let observation :=
        match (order.visit site s.fdTable.toList).find? (fun e => e.2.path = path) with
        | some e => e.2.observeCurrent w
        | none => w.observePath path
      ⟨true,s,[.fileUnlink process path payload.flags external observation]⟩

def processExec (payload : ProcessExecEvent) : Processed H :=
  match s.execProcess payload.tgid with
  | (none,s) => ⟨true,s,[]⟩
  | (some process,s) =>
    let (rawFilename,s) := s.resolvePath w process atFdcwd (openedPath payload.filename payload.filenameLen)
    let target := (w.procTarget (procExe payload.tgid)).filter (pathsAgree w rawFilename)
    let filename := target.getD rawFilename
    let observation :=
      match w.openRegular (if target.isSome then procExe payload.tgid else filename) with
      | some file => w.observeFile file filename
      | none => w.observePath filename
    ⟨true,s,[.exec process observation]⟩

def processFork (payload : ProcessForkEvent) : Processed H :=
  let ((parent,child),s) := s.forkProcess w payload.parentPid payload.childPid
  ⟨true,s,[.fork parent child]⟩

/-- The process stays known, for records that are sorted behind its exit. -/
def processExit (payload : ProcessExitEvent) : Processed H :=
  let (process,s) := s.currentProcess payload.tgid
  ⟨true,s,[.exit process payload.exitCode.toInt]⟩

end Records

section Run
variable {H : Type} (order : IterationOrder ℕ) (view : ℕ → World H) (watchPrefixes : List Str)

def processEvent (site : ℕ) (event : Event) (s : EventCollectorState H) : Processed H :=
  let w := view site
  let external := event.source == 1
  match event.payload with
  | .fileOpen payload => processFileOpen w watchPrefixes external s payload
  | .fileClose payload => processFileClose w external s payload
  | .fileMmap payload => processFileMmap w external s payload
  | .fileRenameSource payload => processFileRenameSource w external s payload
  | .fileRenameDestination payload => processFileRenameDestination w watchPrefixes external s payload
  | .fileUnlink payload => processFileUnlink w watchPrefixes external s order site payload
  | .processExec payload => processExec w s payload
  | .processFork payload => processFork w s payload
  | .processExit payload => processExit s payload
  | .unknown _ => ⟨false,s,[]⟩

/-- A buffered record with the timestamp it is sorted by; data shorter than a record
has no event. -/
structure RawEvent where
  timestamp : UInt64
  event : Option Event
deriving DecidableEq

/-- The state of the collector and the events so far. -/
structure Collected (H : Type) where
  state : EventCollectorState H
  events : List TracedEvent

def refuse (s : EventCollectorState H) : EventCollectorState H :=
  { s with malformedEvents := saturatingAdd s.malformedEvents 1 }

def processRawEvent (site : ℕ) (raw : RawEvent) (c : Collected H) : Collected H :=
  match raw.event with
  | none => { c with state := refuse c.state }
  | some event =>
    let processed := processEvent order view watchPrefixes site event c.state
    ⟨if processed.accepted then processed.state else refuse processed.state,c.events ++ processed.emitted⟩

/-- Process the buffer; `view` is the machine at each of its positions. -/
def processBufferedEvents : ℕ → List RawEvent → Collected H → Collected H
  | _, [], c => c
  | site, raw :: rest, c =>
    processBufferedEvents (site + 1) rest (processRawEvent order view watchPrefixes site raw c)

/-- Give the last exit of a process its exit code, if there is one. -/
def setLastExit (pid : UInt32) (exitCode : Int) : List TracedEvent → Option (List TracedEvent)
  | [] => none
  | event :: rest =>
    match setLastExit pid exitCode rest with
    | some rest => some (event :: rest)
    | none =>
      match event with
      | .exit process _ => if process.lifetime.pid = pid then some (.exit process exitCode :: rest) else none
      | _ => none

/-- What `finish_with_sort` does with the sorted buffer. -/
def finishSorted (childPid : UInt32) (exitCode : Int) (raw : List RawEvent) (c : Collected H) : Collected H :=
  let c := processBufferedEvents order view watchPrefixes 0 raw c
  let c : Collected H :=
    match setLastExit childPid exitCode c.events with
    | some events => ⟨c.state,events⟩
    | none =>
      let (process,s) := c.state.exitProcess childPid
      ⟨s,c.events ++ [.exit process exitCode]⟩
  { c with
    state :=
      { c.state with
        malformedEvents := saturatingAdd c.state.malformedEvents c.state.pendingRenames.size
        pendingRenames := ∅ } }

end Run

/-- A buffer that the unstable sort by timestamp may return. -/
structure SortResult (raw sorted : List RawEvent) : Prop where
  perm : sorted.Perm raw
  sorted : sorted.Pairwise fun a b => a.timestamp ≤ b.timestamp

end Repx.Trace
