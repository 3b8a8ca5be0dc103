import Repx.Operations.CanonicalOp
import Repx.Trace.FileIdentity
import Repx.Trace.PendingWrites

/-! # Canonicalization of a whole trace

The pass that turns traced events into canonical operations: tools and logical
indices by executable image, one write operation for each writable descriptor,
filled in when the descriptor is closed, and a second list for processes outside
the fork tree that touch a watched directory.
-/
namespace Repx.Canonical
open ByteString Std Trace HashTables Sha256

/-- The root process of a trace and the watched directories. -/
structure TraceScope where
  rootProcess : ProcessInstance
  watchPrefixes : List Str

namespace TraceScope

def isWatched (scope : TraceScope) (path : Str) : Bool := isWatchedPath path scope.watchPrefixes

end TraceScope

structure CanonState where
  ops : List CanonicalOp
  processToIndex : ExtTreeMap ProcessInstance UInt32
  nextIndex : UInt32
  pendingWrites : ExtTreeMap Descriptor ℕ
  externalOps : List CanonicalOp
  externalPendingWrites : ExtTreeMap Descriptor ℕ
  fallbackExternalProcesses : ExtTreeSet ProcessLifetime
  processToToolHash : ExtTreeMap ProcessInstance Str

namespace CanonState

/-- The root process owns index zero from the start. -/
def initial (scope : TraceScope) : CanonState where
  ops := []
  processToIndex := (∅ : ExtTreeMap ProcessInstance UInt32).insert scope.rootProcess 0
  nextIndex := 1
  pendingWrites := ∅
  externalOps := []
  externalPendingWrites := ∅
  fallbackExternalProcesses := ∅
  processToToolHash := ∅

def assignIndex (process : ProcessInstance) (s : CanonState) : CanonState :=
  if process ∈ s.processToIndex then s
  else
    { s with
      processToIndex := s.processToIndex.insert process s.nextIndex
      nextIndex := s.nextIndex + 1 }

def setToolHash (process : ProcessInstance) (toolHash : Str) (s : CanonState) : CanonState :=
  { s with processToToolHash := s.processToToolHash.insert process toolHash }

def markFallback (lifetime : ProcessLifetime) (s : CanonState) : CanonState :=
  { s with fallbackExternalProcesses := s.fallbackExternalProcesses.insert lifetime }

/-- An operation of a process of the fork tree, under its current tool. -/
def processOp (s : CanonState) (opType : OpType) (process : ProcessInstance)
    (args inputHashes outputHashes : List Str) : CanonicalOp where
  opType := opType
  processIndex := s.processToIndex.getD process 0
  toolHash := s.processToToolHash[process]?
  args := args
  inputHashes := inputHashes
  outputHashes := outputHashes

def push (s : CanonState) (op : CanonicalOp) : CanonState := { s with ops := s.ops ++ [op] }

/-- A write operation whose output is filled in when the descriptor is closed. -/
def pushWrite (s : CanonState) (descriptor : Descriptor) (op : CanonicalOp) : CanonState :=
  { s with
    ops := s.ops ++ [op]
    pendingWrites := s.pendingWrites.insert descriptor s.ops.length }

def pushExternal (s : CanonState) (op : CanonicalOp) : CanonState :=
  { s with externalOps := s.externalOps ++ [op] }

def pushExternalWrite (s : CanonState) (descriptor : Descriptor) (op : CanonicalOp) : CanonState :=
  { s with
    externalOps := s.externalOps ++ [op]
    externalPendingWrites := s.externalPendingWrites.insert descriptor s.externalOps.length }

end CanonState

/-- External operations have neither a tool nor a logical index. -/
def externalOp (opType : OpType) (args inputHashes outputHashes : List Str) : CanonicalOp where
  opType := opType
  processIndex := 4294967295
  toolHash := none
  args := args
  inputHashes := inputHashes
  outputHashes := outputHashes

def flagsArg (flags : UInt32) : Str := utf8 "flags:0x" ++ numeral 16 flags.toNat

def exitArg (exitCode : Int) : Str := utf8 "exit:" ++ decimal exitCode

def mmapArg : Str := utf8 "mmap"

/-- A process of the fork tree that touches a watched path counts as external
when it already did so before or when no executable is known for it. -/
def fallbackExternal (scope : TraceScope) (s : CanonState) (process : ProcessInstance)
    (external watched : Bool) : Bool :=
  !external && process.lifetime != scope.rootProcess.lifetime && watched &&
    (s.fallbackExternalProcesses.contains process.lifetime || !s.processToToolHash.contains process)

/-- Store the identity seen at close time in the operation of the descriptor. -/
def fillOutput (ops : List CanonicalOp) (index : ℕ) : Option FileObservation → List CanonicalOp
  | some observation => ops.modify index fun op => { op with outputHashes := [observation.identity] }
  | none => ops

open CanonState

def canonicalizeExec (s : CanonState) (process : ProcessInstance) (observation : FileObservation) :
    CanonState :=
  let s := (s.assignIndex process).setToolHash process observation.identity
  s.push (s.processOp .exec process [] [] [])

def canonicalizeFork (order : IterationOrder ℕ) (site : ℕ) (s : CanonState)
    (parent child : ProcessInstance) : CanonState :=
  let s := match s.processToToolHash[parent]? with
    | some toolHash => s.setToolHash child toolHash
    | none => s
  { s with pendingWrites := inheritWrites order site parent.lifetime child.lifetime s.pendingWrites }

def canonicalizeFileOpen (scope : TraceScope) (s : CanonState) (process : ProcessInstance) (path : Str)
    (flags : UInt32) (fd : Int) (external : Bool) (observation : FileObservation) : CanonState :=
  if external && !scope.isWatched path then s
  else if external || fallbackExternal scope s process external (scope.isWatched path) then
    let s := s.markFallback process.lifetime
    let s := if canRead flags then
        s.pushExternal (externalOp .externalFileRead [] [observation.identity] [])
      else s
    if canWrite flags then
      s.pushExternalWrite ⟨process.lifetime,fd⟩ (externalOp .externalFileWrite [] [] [])
    else s
  else
    let s := s.assignIndex process
    if isSystemState path then s.push (s.processOp .systemStateRead process [] [systemStateSentinel] [])
    else
      let s := if canRead flags then s.push (s.processOp .fileRead process [] [observation.identity] [])
        else s
      if canWrite flags then s.pushWrite ⟨process.lifetime,fd⟩ (s.processOp .fileWrite process [] [] [])
      else s

/-- A mapping of a file that is both named and observed. A writable descriptor
keeps the operation it already has. -/
def canonicalizeMapping (scope : TraceScope) (s : CanonState) (process : ProcessInstance) (fd : Int)
    (isWrite : Bool) (path : Str) (external : Bool) (observation : FileObservation) : CanonState :=
  if external || fallbackExternal scope s process external (scope.isWatched path) then
    let s := (s.markFallback process.lifetime).pushExternal
      (externalOp .externalFileRead [mmapArg] [observation.identity] [])
    if isWrite && !s.externalPendingWrites.contains ⟨process.lifetime,fd⟩ then
      s.pushExternalWrite ⟨process.lifetime,fd⟩ (externalOp .externalFileWrite [] [] [])
    else s
  else
    let s := s.assignIndex process
    if isSystemState path then s.push (s.processOp .systemStateRead process [] [systemStateSentinel] [])
    else
      let s := s.push (s.processOp .fileRead process [mmapArg] [observation.identity] [])
      if isWrite && !s.pendingWrites.contains ⟨process.lifetime,fd⟩ then
        s.pushWrite ⟨process.lifetime,fd⟩ (s.processOp .fileWrite process [] [] [])
      else s

def canonicalizeFileMmap (scope : TraceScope) (s : CanonState) (process : ProcessInstance) (fd : Int)
    (prot flags : UInt32) (path : Option Str) (external : Bool) (observation : Option FileObservation) :
    CanonState :=
  if external && !(path.any scope.isWatched) then s
  else
    match path, observation with
    | some path, some observation =>
      canonicalizeMapping scope s process fd (mapWrites prot flags) path external observation
    | _, _ => s

/-- A close without a path is ignored. Unlike the other events, it does not make
a process external on its own. -/
def canonicalizeFileClose (scope : TraceScope) (s : CanonState) (process : ProcessInstance) (fd : Int)
    (path : Option Str) (external : Bool) (observation : Option FileObservation) : CanonState :=
  match path with
  | none => s
  | some path =>
    let descriptor : Descriptor := ⟨process.lifetime,fd⟩
    let fallback := !external && process.lifetime != scope.rootProcess.lifetime &&
      s.fallbackExternalProcesses.contains process.lifetime && scope.isWatched path
    if external || fallback then
      match s.externalPendingWrites[descriptor]? with
      | some index =>
        { s with
          externalPendingWrites := s.externalPendingWrites.erase descriptor
          externalOps := fillOutput s.externalOps index observation }
      | none => s
    else
      match s.pendingWrites[descriptor]? with
      | some index =>
        { s with
          pendingWrites := s.pendingWrites.erase descriptor
          ops := fillOutput s.ops index observation }
      | none => s

/-- Renames and deletions: an event on paths of which one may be watched, that
becomes one operation with the flags as its argument. -/
def canonicalizePathEvent (scope : TraceScope) (s : CanonState) (opType externalType : OpType)
    (process : ProcessInstance) (watched : Bool) (flags : UInt32) (external : Bool)
    (inputHashes outputHashes : List Str) : CanonState :=
  if external || fallbackExternal scope s process external watched then
    (s.markFallback process.lifetime).pushExternal
      (externalOp externalType [flagsArg flags] inputHashes outputHashes)
  else
    let s := s.assignIndex process
    s.push (s.processOp opType process [flagsArg flags] inputHashes outputHashes)

def canonicalizeFileRename (scope : TraceScope) (s : CanonState) (process : ProcessInstance)
    (fromPath toPath : Str) (flags : UInt32) (external : Bool) (observation : FileObservation) : CanonState :=
  canonicalizePathEvent scope s .fileRename .externalFileRename process
    (scope.isWatched fromPath || scope.isWatched toPath) flags external [observation.identity]
    [observation.identity]

def canonicalizeFileUnlink (scope : TraceScope) (s : CanonState) (process : ProcessInstance) (path : Str)
    (flags : UInt32) (external : Bool) (observation : FileObservation) : CanonState :=
  canonicalizePathEvent scope s .fileDelete .externalFileDelete process (scope.isWatched path) flags external
    [observation.identity] []

/-- Only the root process has a trustworthy exit code. -/
def canonicalizeExit (scope : TraceScope) (s : CanonState) (process : ProcessInstance) (exitCode : Int) :
    CanonState :=
  if process ∈ s.processToIndex then
    let args := if process.lifetime = scope.rootProcess.lifetime then [exitArg exitCode] else []
    s.push (s.processOp .exit process args [] [])
  else s

/-- One turn of the event loop. -/
def canonicalizeEvent (scope : TraceScope) (order : IterationOrder ℕ) (site : ℕ) (s : CanonState) :
    TracedEvent → CanonState
  | .exec process observation => canonicalizeExec s process observation
  | .fork parent child => canonicalizeFork order site s parent child
  | .fileOpen process path flags fd external observation =>
    canonicalizeFileOpen scope s process path flags fd external observation
  | .fileMmap process fd prot flags path external observation =>
    canonicalizeFileMmap scope s process fd prot flags path external observation
  | .fileClose process fd path external observation =>
    canonicalizeFileClose scope s process fd path external observation
  | .fileRename process fromPath toPath flags external observation =>
    canonicalizeFileRename scope s process fromPath toPath flags external observation
  | .fileUnlink process path flags external observation =>
    canonicalizeFileUnlink scope s process path flags external observation
  | .exit process exitCode => canonicalizeExit scope s process exitCode

/-- The event loop; `site` numbers the events, so that every fork may list the
pending writes in an order of its own. -/
def canonicalizeFrom (scope : TraceScope) (order : IterationOrder ℕ) :
    ℕ → CanonState → List TracedEvent → CanonState
  | _, s, [] => s
  | site, s, event :: events =>
    canonicalizeFrom scope order (site + 1) (canonicalizeEvent scope order site s event) events

/-- The operations in the order in which they are recorded. -/
def recordedOps (scope : TraceScope) (order : IterationOrder ℕ) (events : List TracedEvent) :
    List CanonicalOp :=
  let s := canonicalizeFrom scope order 0 (initial scope) events
  s.ops ++ s.externalOps

def canonicalizeEvents (sha256 : Str → Digest) (scope : TraceScope) (order : IterationOrder ℕ)
    (events : List TracedEvent) : List CanonicalOp :=
  finalizeOps sha256 (recordedOps scope order events)

end Repx.Canonical
