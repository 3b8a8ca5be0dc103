import Repx.Foundation.HashTables
import Repx.Trace.FileIdentity
import Repx.Trace.PendingWrites

/-! # Scanning a trace for an output slice

One pass over the events collects what every process read, wrote and renamed,
and which processes are responsible for a path and for a content. A second pass
over the recorded renames carries late writers over to the final paths.
-/
namespace Repx.Slice
open ByteString Std Trace HashTables

/-- The places at which the slice traverses an unordered table. -/
inductive Traversal where
  | inheritedWrites (event : ℕ)
  | renamedWrites (event : ℕ)
  | renameAliases (event : ℕ)
  | renameMembers (event : ℕ) (path : Str)
  | fixupAliases (pair : ℕ)
  | fixupMembers (pair : ℕ) (path : Str)
  | outputWriters (output : ℕ)
  | flowReads (step : ℕ)
  | hashWriters (step : ℕ) (hash : Str)
  | includedProcesses
  | sortedReads (process : ProcessInstance)
  | sortedWrites (process : ProcessInstance)
  | sortedRenames (process : ProcessInstance)
  | orphanHashes
  | orphanWriters (hash : Str)
deriving DecidableEq

structure ProcessFlow where
  toolHash : Option Str
  hasExec : Bool
  reads : ExtTreeSet Str
  writes : ExtTreeSet Str
  renames : ExtTreeSet Str

def ProcessFlow.default : ProcessFlow := ⟨none,false,∅,∅,∅⟩

/-- A write in progress: who opened the file, and where the file is now. -/
structure PendingWrite where
  process : ProcessInstance
  path : Str
deriving DecidableEq

abbrev Writers := ExtTreeMap Str (ExtTreeSet ProcessInstance)

structure ScanState where
  flows : ExtTreeMap ProcessInstance ProcessFlow
  pendingWrites : ExtTreeMap Descriptor PendingWrite
  writersByHash : Writers
  writersByPath : Writers
  rootExit : Option (ProcessInstance × Int)
  renamePairs : List (Str × Str)

namespace ScanState

def initial : ScanState := ⟨∅,∅,∅,∅,none,[]⟩

/-- `flows.entry(process).or_default()`, then a change. -/
def updateFlow (s : ScanState) (process : ProcessInstance) (f : ProcessFlow → ProcessFlow) : ScanState :=
  { s with flows := s.flows.insert process (f (s.flows.getD process .default)) }

def addRead (s : ScanState) (process : ProcessInstance) : Option Str → ScanState
  | some hash => s.updateFlow process fun flow => { flow with reads := flow.reads.insert hash }
  | none => s

def addPathWriter (s : ScanState) (path : Str) (process : ProcessInstance) : ScanState :=
  { s with writersByPath := addMembers s.writersByPath path [process] }

def addHashWriter (s : ScanState) (hash : Str) (process : ProcessInstance) : ScanState :=
  { s with writersByHash := addMembers s.writersByHash hash [process] }

end ScanState

/-- Give the writers of every path that a rename moves to the new path as well.
The aliases are collected before the first of them is added. -/
def aliasWriters (order : IterationOrder Traversal) (site : Traversal) (memberSite : Str → Traversal)
    (fromPath toPath : Str) (writers : Writers) : Writers :=
  let aliases := (order.visit site writers.toList).filterMap fun e =>
    (rewritePathPrefix e.1 fromPath toPath).map fun rewritten => (rewritten,e.2)
  addEntries writers (aliases.map fun e => (e.1,order.visit (memberSite e.1) e.2.toList))

/-- The new path of a file that is still being written. -/
def movePendingWrite (fromPath toPath : Str) (write : PendingWrite) : PendingWrite :=
  match rewritePathPrefix write.path fromPath toPath with
  | some rewritten => { write with path := rewritten }
  | none => write

/-- Every entry is rewritten in place. -/
def movePendingWrites (order : IterationOrder Traversal) (site : Traversal) (fromPath toPath : Str)
    (pending : ExtTreeMap Descriptor PendingWrite) : ExtTreeMap Descriptor PendingWrite :=
  pending.insertMany ((order.visit site pending.toList).map fun e =>
    (e.1,movePendingWrite fromPath toPath e.2))

section Events
variable (order : IterationOrder Traversal) (site : ℕ) (s : ScanState)

def scanExec (process : ProcessInstance) (observation : FileObservation) : ScanState :=
  s.updateFlow process fun flow => { flow with toolHash := some observation.identity, hasExec := true }

def scanFork (parent child : ProcessInstance) : ScanState :=
  let inheritedTool := s.flows[parent]?.bind ProcessFlow.toolHash
  let s := s.updateFlow child fun flow => { flow with toolHash := inheritedTool }
  { s with
    pendingWrites := inheritWrites order (.inheritedWrites site) parent.lifetime child.lifetime s.pendingWrites }

def scanFileOpen (process : ProcessInstance) (path : Str) (flags : UInt32) (fd : Int) (external : Bool)
    (observation : FileObservation) : ScanState :=
  if external then s
  else
    let s := if canRead flags then s.addRead process (readHash path observation) else s
    if canWrite flags then
      { s with pendingWrites := s.pendingWrites.insert ⟨process.lifetime,fd⟩ ⟨process,path⟩ }
    else s

def scanFileMmap (process : ProcessInstance) (fd : Int) (prot flags : UInt32) (path : Option Str)
    (external : Bool) (observation : Option FileObservation) : ScanState :=
  if external then s
  else
    match path, observation with
    | some path, some observation =>
      let s := s.addRead process (readHash path observation)
      if mapWrites prot flags then
        { s with pendingWrites := s.pendingWrites.insert ⟨process.lifetime,fd⟩ ⟨process,path⟩ }
      else s
    | _, _ => s

/-- A close with an observation settles who wrote the path and the content. -/
def settleWrite (write : PendingWrite) (path : Option Str) (observation : FileObservation) : ScanState :=
  let s := s.addPathWriter (path.getD write.path) write.process
  match observation.contentHash with
  | some hash =>
    (s.updateFlow write.process fun flow => { flow with writes := flow.writes.insert hash }).addHashWriter hash
      write.process
  | none => s

def scanFileClose (process : ProcessInstance) (fd : Int) (path : Option Str) (external : Bool)
    (observation : Option FileObservation) : ScanState :=
  if external then s
  else
    let pendingWrite := s.pendingWrites[(⟨process.lifetime,fd⟩ : Descriptor)]?
    let s := { s with pendingWrites := s.pendingWrites.erase ⟨process.lifetime,fd⟩ }
    match pendingWrite, observation with
    | some write, some observation => settleWrite s write path observation
    | _, _ => s

def scanFileRename (process : ProcessInstance) (fromPath toPath : Str) (external : Bool)
    (observation : FileObservation) : ScanState :=
  if external then s
  else
    let s := { s with
      pendingWrites := movePendingWrites order (.renamedWrites site) fromPath toPath s.pendingWrites
      writersByPath := aliasWriters order (.renameAliases site) (.renameMembers site) fromPath toPath
        s.writersByPath }
    let s := s.addPathWriter toPath process
    let s := { s with renamePairs := s.renamePairs ++ [(fromPath,toPath)] }
    match observation.contentHash with
    | some hash =>
      (s.updateFlow process fun flow =>
        { flow with reads := flow.reads.insert hash, renames := flow.renames.insert hash }).addHashWriter hash
          process
    | none => s

def scanExit (rootProcess : ProcessInstance) (process : ProcessInstance) (exitCode : Int) : ScanState :=
  if process.lifetime = rootProcess.lifetime then { s with rootExit := some (process,exitCode) } else s

def scanEvent (rootProcess : ProcessInstance) : TracedEvent → ScanState
  | .exec process observation => scanExec s process observation
  | .fork parent child => scanFork order site s parent child
  | .fileOpen process path flags fd external observation =>
    scanFileOpen s process path flags fd external observation
  | .fileMmap process fd prot flags path external observation =>
    scanFileMmap s process fd prot flags path external observation
  | .fileClose process fd path external observation => scanFileClose s process fd path external observation
  | .fileRename process fromPath toPath _ external observation =>
    scanFileRename order site s process fromPath toPath external observation
  | .fileUnlink _ _ _ _ _ => s
  | .exit process exitCode => scanExit s rootProcess process exitCode

end Events

/-- The event loop, every event with traversals of its own. -/
def scanFrom (order : IterationOrder Traversal) (rootProcess : ProcessInstance) :
    ℕ → ScanState → List TracedEvent → ScanState
  | _, s, [] => s
  | site, s, event :: events =>
    scanFrom order rootProcess (site + 1) (scanEvent order site s rootProcess event) events

/-- Apply every rename once more, now that all writes are recorded. -/
def renameFixup (order : IterationOrder Traversal) : ℕ → List (Str × Str) → Writers → Writers
  | _, [], writers => writers
  | pair, (fromPath,toPath) :: pairs, writers =>
    renameFixup order (pair + 1) pairs
      (aliasWriters order (.fixupAliases pair) (.fixupMembers pair) fromPath toPath writers)

/-- The tables after the scan and the rename fixup. -/
def scan (order : IterationOrder Traversal) (rootProcess : ProcessInstance) (events : List TracedEvent) :
    ScanState :=
  let s := scanFrom order rootProcess 0 .initial events
  { s with writersByPath := renameFixup order 0 s.renamePairs s.writersByPath }

end Repx.Slice
