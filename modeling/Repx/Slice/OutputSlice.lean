import Repx.Foundation.Worklist
import Repx.Operations.CanonicalizeEvents
import Repx.Slice.Scan

/-! # The output slice

From the writers of the selected output paths, a walk along content hashes
collects the processes an output depends on. Their operations on the collected
contents are emitted, and outputs whose content none of them wrote are attributed
to some process that did, or to none.
-/
namespace Repx.Slice
open ByteString Std Trace HashTables Worklist Canonical KeyedSort Sha256

structure OutputFile where
  path : Str
  hash : Str
deriving DecidableEq

def outputHashes (outputs : List OutputFile) : ExtTreeSet Str := .ofList (outputs.map OutputFile.hash)

abbrev WalkState := Worklist.State ProcessInstance Str

section Walk
variable (order : IterationOrder Traversal) (tables : ScanState)

def pathWriters (output : ℕ) (path : Str) : List ProcessInstance :=
  match tables.writersByPath[path]? with
  | some writers => order.visit (.outputWriters output) writers.toList
  | none => []

def readHashes (step : ℕ) (process : ProcessInstance) : List Str :=
  match tables.flows[process]? with
  | some flow => order.visit (.flowReads step) flow.reads.toList
  | none => []

def hashWriters (step : ℕ) (hash : Str) : List ProcessInstance :=
  match tables.writersByHash[hash]? with
  | some writers => order.visit (.hashWriters step hash) writers.toList
  | none => []

/-- The writers of the output paths are included first; the output hashes count
as relevant from the start. -/
def seedFrom : ℕ → List OutputFile → WalkState → WalkState
  | _, [], w => w
  | i, output :: outputs, w => seedFrom (i + 1) outputs (enqueueAll w (pathWriters order tables i output.path))

/-- Every process that can be included; each is taken from the queue once. -/
def allWriters : List ProcessInstance :=
  (tables.writersByPath.toList ++ tables.writersByHash.toList).flatMap fun e => e.2.toList

def sliceWalk (outputs : List OutputFile) : WalkState :=
  walk (readHashes order tables) (hashWriters order tables) (allWriters tables).length 0
    (seedFrom order tables 0 outputs ⟨∅,outputHashes outputs,[]⟩)

end Walk

structure IndexTable where
  processToIndex : ExtTreeMap ProcessInstance UInt32
  nextIndex : UInt32

namespace IndexTable

def assign (t : IndexTable) (process : ProcessInstance) : IndexTable :=
  if process ∈ t.processToIndex then t
  else ⟨t.processToIndex.insert process t.nextIndex,t.nextIndex + 1⟩

def indexOf (t : IndexTable) (process : ProcessInstance) : UInt32 := t.processToIndex.getD process 0

/-- The exit of the root gets an index without claiming it. -/
def reserve (t : IndexTable) : Option (ProcessInstance × Int) → IndexTable
  | some (process,_) =>
    if process ∈ t.processToIndex then t
    else { t with processToIndex := t.processToIndex.insert process t.nextIndex }
  | none => t

end IndexTable

def indexProcesses (rootProcess : ProcessInstance) (processes : List ProcessInstance)
    (rootExit : Option (ProcessInstance × Int)) : IndexTable :=
  (processes.foldl IndexTable.assign ⟨(∅ : ExtTreeMap ProcessInstance UInt32).insert rootProcess 0,1⟩).reserve
    rootExit

section Emission
variable (order : IterationOrder Traversal) (tables : ScanState)

def sortedHashes (site : Traversal) (hashes : ExtTreeSet Str) : List Str :=
  sortByKey (fun s => s) (order.visit site hashes.toList)

/-- The operations so far and the output hashes no operation accounts for. -/
structure EmitState where
  ops : List CanonicalOp
  outputHashes : ExtTreeSet Str

def flowOp (opType : OpType) (index : UInt32) (flow : ProcessFlow) (inputHashes outputHashes : List Str) :
    CanonicalOp :=
  ⟨opType,index,flow.toolHash,[],inputHashes,outputHashes⟩

def emitExec (index : UInt32) (flow : ProcessFlow) : List CanonicalOp :=
  match flow.hasExec, flow.toolHash with
  | true, some toolHash => [⟨.exec,index,some toolHash,[],[],[]⟩]
  | _, _ => []

def emitReads (relevant : ExtTreeSet Str) (index : UInt32) (flow : ProcessFlow) (hashes : List Str) :
    List CanonicalOp :=
  (hashes.filter relevant.contains).map fun hash => flowOp .fileRead index flow [hash] []

/-- A write or rename of a relevant content accounts for that output. -/
def emitOutput (relevant : ExtTreeSet Str) (op : Str → CanonicalOp) (e : EmitState) (hash : Str) : EmitState :=
  if relevant.contains hash || e.outputHashes.contains hash then
    ⟨e.ops ++ [op hash],e.outputHashes.erase hash⟩
  else e

def emitProcess (relevant : ExtTreeSet Str) (indices : IndexTable) (e : EmitState) (process : ProcessInstance) :
    EmitState :=
  match tables.flows[process]? with
  | none => e
  | some flow =>
    let index := indices.indexOf process
    let reads := emitReads relevant index flow (sortedHashes order (.sortedReads process) flow.reads)
    let e : EmitState := ⟨e.ops ++ (emitExec index flow ++ reads),e.outputHashes⟩
    let e := (sortedHashes order (.sortedWrites process) flow.writes).foldl
      (emitOutput relevant fun hash => flowOp .fileWrite index flow [] [hash]) e
    (sortedHashes order (.sortedRenames process) flow.renames).foldl
      (emitOutput relevant fun hash => flowOp .fileRename index flow [hash] [hash]) e

/-- The first process, in the order of the traversal, that wrote or renamed the
content. -/
def orphanWriter (hash : Str) : Option (ProcessInstance × ProcessFlow) :=
  match tables.writersByHash[hash]? with
  | some writers =>
    (order.visit (.orphanWriters hash) writers.toList).findSome? fun writer =>
      match tables.flows[writer]? with
      | some flow => if flow.writes.contains hash || flow.renames.contains hash then some (writer,flow) else none
      | none => none
  | none => none

def outputArg : Str := utf8 "output"

def emitOrphan (state : List CanonicalOp × IndexTable) (hash : Str) : List CanonicalOp × IndexTable :=
  match orphanWriter order tables hash with
  | some (writer,flow) =>
    let indices := state.2.assign writer
    (state.1 ++ [flowOp .fileWrite (indices.indexOf writer) flow [] [hash]],indices)
  | none => (state.1 ++ [⟨.fileWrite,4294967295,none,[outputArg],[],[hash]⟩],state.2)

def emitExit (indices : IndexTable) : List CanonicalOp :=
  match tables.rootExit with
  | some (process,exitCode) =>
    [⟨.exit,indices.indexOf process,tables.flows[process]?.bind ProcessFlow.toolHash,[exitArg exitCode],[],[]⟩]
  | none => []

/-- The operations of a finished walk. -/
def emit (rootProcess : ProcessInstance) (outputs : List OutputFile) (w : WalkState) : List CanonicalOp :=
  let processes := sortByKey (fun p => p) (order.visit .includedProcesses w.included.toList)
  let indices := indexProcesses rootProcess processes tables.rootExit
  let emitted := processes.foldl (emitProcess order tables w.relevant indices) ⟨[],outputHashes outputs⟩
  let orphans := (sortedHashes order .orphanHashes emitted.outputHashes).foldl (emitOrphan order tables)
    (emitted.ops,indices)
  orphans.1 ++ emitExit tables orphans.2

end Emission

/-- The recorded operations of a slice with at least one output. -/
def sliceOps (order : IterationOrder Traversal) (events : List TracedEvent) (rootProcess : ProcessInstance)
    (outputs : List OutputFile) : List CanonicalOp :=
  let tables := scan order rootProcess events
  emit order tables rootProcess outputs (sliceWalk order tables outputs)

def canonicalizeOutputSlice (sha256 : Str → Digest) (order : IterationOrder Traversal)
    (events : List TracedEvent) (rootProcess : ProcessInstance) (outputs : List OutputFile) :
    List CanonicalOp :=
  if (outputHashes outputs).isEmpty then []
  else finalizeOps sha256 (sliceOps order events rootProcess outputs)

/-- The processes the walk of a slice includes. -/
def includedProcesses (order : IterationOrder Traversal) (events : List TracedEvent)
    (rootProcess : ProcessInstance) (outputs : List OutputFile) : ExtTreeSet ProcessInstance :=
  (sliceWalk order (scan order rootProcess events) outputs).included

end Repx.Slice
