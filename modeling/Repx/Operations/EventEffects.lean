import Repx.Operations.CanonicalizeEvents

/-! # What one event does

Every turn of the event loop is a short sequence of primitive effects, chosen
from the event and from what is known about the process that acts: its tool, its
fallback mark, whether it has an index and which of its descriptors have a
pending write. Results about the loop are proved effect by effect.
-/
namespace Repx.Canonical
open ByteString Std Trace HashTables

/-- Operations of the fork tree and operations of external processes are
recorded in two separate lists. -/
inductive Side where
  | tree
  | outside
deriving DecidableEq

/-- The facts about the acting process an event is interpreted by. -/
structure ProcessView where
  toolHash : Option Str
  fallback : Bool
  indexed : Bool
  hasWrite : Side → Int → Bool

/-- Who acts in an event; for a fork, the parent. -/
def actor : TracedEvent → ProcessInstance
  | .exec process _ => process
  | .fork parent _ => parent
  | .fileOpen process _ _ _ _ _ => process
  | .fileClose process _ _ _ _ => process
  | .fileMmap process _ _ _ _ _ _ => process
  | .fileRename process _ _ _ _ _ => process
  | .fileUnlink process _ _ _ _ => process
  | .exit process _ => process

inductive Effect where
  | assignIndex (process : ProcessInstance)
  | setToolHash (process : ProcessInstance) (toolHash : Str)
  | markFallback (lifetime : ProcessLifetime)
  | inheritWrites (parent child : ProcessLifetime)
  | push (side : Side) (process : ProcessInstance) (op : CanonicalOp)
  | openWrite (side : Side) (process : ProcessInstance) (fd : Int) (op : CanonicalOp)
  | closeWrite (side : Side) (descriptor : Descriptor) (observation : Option FileObservation)

/-- Operations are described up to the logical index. -/
def unindexed (opType : OpType) (toolHash : Option Str) (args inputHashes outputHashes : List Str) :
    CanonicalOp :=
  ⟨opType,0,toolHash,args,inputHashes,outputHashes⟩

namespace CanonState

/-- The index an operation is recorded under. -/
def indexed (s : CanonState) (side : Side) (process : ProcessInstance) (op : CanonicalOp) : CanonicalOp :=
  match side with
  | .tree => { op with processIndex := s.processToIndex.getD process 0 }
  | .outside => { op with processIndex := 4294967295 }

def pending (s : CanonState) : Side → ExtTreeMap Descriptor ℕ
  | .tree => s.pendingWrites
  | .outside => s.externalPendingWrites

def recorded (s : CanonState) : Side → List CanonicalOp
  | .tree => s.ops
  | .outside => s.externalOps

def view (s : CanonState) (process : ProcessInstance) : ProcessView where
  toolHash := s.processToToolHash[process]?
  fallback := s.fallbackExternalProcesses.contains process.lifetime
  indexed := s.processToIndex.contains process
  hasWrite side fd := (s.pending side).contains ⟨process.lifetime,fd⟩

/-- Replace the operations and pending writes of one side. -/
def setSide (s : CanonState) (side : Side) (ops : List CanonicalOp) (pending : ExtTreeMap Descriptor ℕ) :
    CanonState :=
  match side with
  | .tree => { s with ops := ops, pendingWrites := pending }
  | .outside => { s with externalOps := ops, externalPendingWrites := pending }

def apply (s : CanonState) : Effect → CanonState
  | .assignIndex process => s.assignIndex process
  | .setToolHash process toolHash => s.setToolHash process toolHash
  | .markFallback lifetime => s.markFallback lifetime
  | .inheritWrites parent child =>
    { s with pendingWrites := Trace.inheritWrites (ι := Unit) .stored () parent child s.pendingWrites }
  | .push side process op => s.setSide side (s.recorded side ++ [s.indexed side process op]) (s.pending side)
  | .openWrite side process fd op =>
    s.setSide side (s.recorded side ++ [s.indexed side process op])
      ((s.pending side).insert ⟨process.lifetime,fd⟩ (s.recorded side).length)
  | .closeWrite side descriptor observation =>
    match (s.pending side)[descriptor]? with
    | some index =>
      s.setSide side (fillOutput (s.recorded side) index observation) ((s.pending side).erase descriptor)
    | none => s

end CanonState

section Effects
variable (scope : TraceScope) (view : ProcessView)

/-- Whether an event on a path is attributed to an external process. -/
def ProcessView.isOutside (process : ProcessInstance) (external watched : Bool) : Bool :=
  external || (process.lifetime != scope.rootProcess.lifetime && watched &&
    (view.fallback || view.toolHash.isNone))

def fileOpenEffects (process : ProcessInstance) (path : Str) (flags : UInt32) (fd : Int) (external : Bool)
    (identity : Str) : List Effect :=
  if external && !scope.isWatched path then []
  else if view.isOutside scope process external (scope.isWatched path) then
    .markFallback process.lifetime ::
      ((if canRead flags then [.push .outside process (unindexed .externalFileRead none [] [identity] [])]
          else []) ++
        (if canWrite flags then [.openWrite .outside process fd (unindexed .externalFileWrite none [] [] [])]
          else []))
  else
    .assignIndex process ::
      (if isSystemState path then
        [.push .tree process (unindexed .systemStateRead view.toolHash [] [systemStateSentinel] [])]
      else
        (if canRead flags then [.push .tree process (unindexed .fileRead view.toolHash [] [identity] [])]
          else []) ++
        (if canWrite flags then [.openWrite .tree process fd (unindexed .fileWrite view.toolHash [] [] [])]
          else []))

def mappingEffects (process : ProcessInstance) (fd : Int) (isWrite : Bool) (path : Str) (external : Bool)
    (identity : Str) : List Effect :=
  if view.isOutside scope process external (scope.isWatched path) then
    .markFallback process.lifetime ::
      .push .outside process (unindexed .externalFileRead none [mmapArg] [identity] []) ::
        (if isWrite && !view.hasWrite .outside fd then
          [.openWrite .outside process fd (unindexed .externalFileWrite none [] [] [])] else [])
  else
    .assignIndex process ::
      (if isSystemState path then
        [.push .tree process (unindexed .systemStateRead view.toolHash [] [systemStateSentinel] [])]
      else
        .push .tree process (unindexed .fileRead view.toolHash [mmapArg] [identity] []) ::
          (if isWrite && !view.hasWrite .tree fd then
            [.openWrite .tree process fd (unindexed .fileWrite view.toolHash [] [] [])] else []))

def fileCloseEffects (process : ProcessInstance) (fd : Int) (path : Option Str) (external : Bool)
    (observation : Option FileObservation) : List Effect :=
  match path with
  | none => []
  | some path =>
    let outside := external || (process.lifetime != scope.rootProcess.lifetime && view.fallback &&
      scope.isWatched path)
    [.closeWrite (if outside then .outside else .tree) ⟨process.lifetime,fd⟩ observation]

def pathEventEffects (opType externalType : OpType) (process : ProcessInstance) (watched : Bool)
    (flags : UInt32) (external : Bool) (inputHashes outputHashes : List Str) : List Effect :=
  if view.isOutside scope process external watched then
    [.markFallback process.lifetime,
      .push .outside process (unindexed externalType none [flagsArg flags] inputHashes outputHashes)]
  else
    [.assignIndex process,
      .push .tree process (unindexed opType view.toolHash [flagsArg flags] inputHashes outputHashes)]

def effects : TracedEvent → List Effect
  | .exec process observation =>
    [.assignIndex process,.setToolHash process observation.identity,
      .push .tree process (unindexed .exec (some observation.identity) [] [] [])]
  | .fork parent child =>
    .inheritWrites parent.lifetime child.lifetime :: (view.toolHash.map (Effect.setToolHash child)).toList
  | .fileOpen process path flags fd external observation =>
    fileOpenEffects scope view process path flags fd external observation.identity
  | .fileMmap process fd prot flags path external observation =>
    if external && !(path.any scope.isWatched) then []
    else
      match path, observation with
      | some path, some observation =>
        mappingEffects scope view process fd (mapWrites prot flags) path external observation.identity
      | _, _ => []
  | .fileClose process fd path external observation =>
    fileCloseEffects scope view process fd path external observation
  | .fileRename process fromPath toPath flags external observation =>
    pathEventEffects scope view .fileRename .externalFileRename process
      (scope.isWatched fromPath || scope.isWatched toPath) flags external [observation.identity]
      [observation.identity]
  | .fileUnlink process path flags external observation =>
    pathEventEffects scope view .fileDelete .externalFileDelete process (scope.isWatched path) flags external
      [observation.identity] []
  | .exit process exitCode =>
    if view.indexed then
      [.push .tree process (unindexed .exit view.toolHash
        (if process.lifetime = scope.rootProcess.lifetime then [exitArg exitCode] else []) [] [])]
    else []

end Effects

open CanonState

@[simp] theorem setSide_recorded (s : CanonState) (side : Side) (ops : List CanonicalOp)
    (table : ExtTreeMap Descriptor ℕ) :
    (s.setSide side ops table).recorded = Function.update s.recorded side ops := by
  funext side'
  cases side <;> cases side' <;> simp [setSide,recorded]

@[simp] theorem setSide_pending (s : CanonState) (side : Side) (ops : List CanonicalOp)
    (table : ExtTreeMap Descriptor ℕ) :
    (s.setSide side ops table).pending = Function.update s.pending side table := by
  funext side'
  cases side <;> cases side' <;> simp [setSide,pending]

section Turn
variable (scope : TraceScope) (s : CanonState)

@[simp] theorem assignIndex_toolHash (process : ProcessInstance) :
    (s.assignIndex process).processToToolHash = s.processToToolHash := by
  unfold assignIndex
  split_ifs <;> rfl

@[simp] theorem assignIndex_pendingWrites (process : ProcessInstance) :
    (s.assignIndex process).pendingWrites = s.pendingWrites := by
  unfold assignIndex
  split_ifs <;> rfl

theorem fallbackExternal_eq_isOutside (process : ProcessInstance) (external watched : Bool) :
    (external || fallbackExternal scope s process external watched) =
      (s.view process).isOutside scope process external watched := by
  have htool : (!s.processToToolHash.contains process) = s.processToToolHash[process]?.isNone := by
    rw [ExtTreeMap.contains_eq_isSome_getElem?,Option.not_isSome]
  cases external <;> simp only [fallbackExternal,ProcessView.isOutside,view,htool] <;> simp

theorem canonicalizeExec_eq (process : ProcessInstance) (observation : FileObservation) :
    canonicalizeExec s process observation =
      (effects scope (s.view process) (.exec process observation)).foldl apply s := by
  simp [canonicalizeExec,effects,apply,push,processOp,unindexed,setSide,recorded,pending,indexed,setToolHash]

theorem canonicalizeFork_eq (order : IterationOrder ℕ) (site : ℕ) (parent child : ProcessInstance) :
    canonicalizeFork order site s parent child =
      (effects scope (s.view parent) (.fork parent child)).foldl apply s := by
  have hinherit : Trace.inheritWrites order site parent.lifetime child.lifetime s.pendingWrites =
      Trace.inheritWrites (ι := Unit) .stored () parent.lifetime child.lifetime s.pendingWrites := by
    apply ExtTreeMap.ext_getElem?
    intro d
    rw [getElem?_inheritWrites,getElem?_inheritWrites]
  cases h : s.processToToolHash[parent]? <;>
    simp [canonicalizeFork,effects,view,apply,setToolHash,h,hinherit]

theorem canonicalizeFileOpen_eq (process : ProcessInstance) (path : Str) (flags : UInt32) (fd : Int)
    (external : Bool) (observation : FileObservation) :
    canonicalizeFileOpen scope s process path flags fd external observation =
      (fileOpenEffects scope (s.view process) process path flags fd external observation.identity).foldl
        apply s := by
  unfold canonicalizeFileOpen fileOpenEffects
  rw [fallbackExternal_eq_isOutside]
  split
  · rfl
  split
  · cases canRead flags <;> cases canWrite flags <;>
      simp [apply,markFallback,pushExternal,pushExternalWrite,externalOp,unindexed,setSide,recorded,pending,
        indexed]
  · split
    · simp [apply,push,processOp,unindexed,setSide,recorded,pending,indexed,view]
    · cases canRead flags <;> cases canWrite flags <;>
        simp [apply,push,pushWrite,processOp,unindexed,setSide,recorded,pending,indexed,view]

theorem canonicalizeMapping_eq (process : ProcessInstance) (fd : Int) (isWrite : Bool) (path : Str)
    (external : Bool) (observation : FileObservation) :
    canonicalizeMapping scope s process fd isWrite path external observation =
      (mappingEffects scope (s.view process) process fd isWrite path external observation.identity).foldl
        apply s := by
  unfold canonicalizeMapping mappingEffects
  rw [fallbackExternal_eq_isOutside]
  split
  · cases h : isWrite && !s.externalPendingWrites.contains ⟨process.lifetime,fd⟩ <;>
      simp [-ExtTreeMap.contains_iff_mem,apply,markFallback,pushExternal,pushExternalWrite,externalOp,
        unindexed,setSide,recorded,pending,indexed,view,h]
  · split
    · simp [apply,push,processOp,unindexed,setSide,recorded,pending,indexed,view]
    · cases h : isWrite && !s.pendingWrites.contains ⟨process.lifetime,fd⟩ <;>
        simp [-ExtTreeMap.contains_iff_mem,apply,push,pushWrite,processOp,unindexed,setSide,recorded,pending,
          indexed,view,h]

theorem canonicalizeFileClose_eq (process : ProcessInstance) (fd : Int) (path : Option Str) (external : Bool)
    (observation : Option FileObservation) :
    canonicalizeFileClose scope s process fd path external observation =
      (fileCloseEffects scope (s.view process) process fd path external observation).foldl apply s := by
  cases path with
  | none => rfl
  | some path =>
    have hside : (external || !external && process.lifetime != scope.rootProcess.lifetime &&
          s.fallbackExternalProcesses.contains process.lifetime && scope.isWatched path) =
        (external || (process.lifetime != scope.rootProcess.lifetime && (s.view process).fallback &&
          scope.isWatched path)) := by
      cases external <;> simp [view]
    simp only [canonicalizeFileClose,fileCloseEffects,hside]
    split <;> rfl

theorem canonicalizePathEvent_eq (opType externalType : OpType) (process : ProcessInstance) (watched : Bool)
    (flags : UInt32) (external : Bool) (inputHashes outputHashes : List Str) :
    canonicalizePathEvent scope s opType externalType process watched flags external inputHashes
        outputHashes =
      (pathEventEffects scope (s.view process) opType externalType process watched flags external inputHashes
        outputHashes).foldl apply s := by
  unfold canonicalizePathEvent pathEventEffects
  rw [fallbackExternal_eq_isOutside]
  split
  · simp [apply,markFallback,pushExternal,externalOp,unindexed,setSide,recorded,pending,indexed]
  · simp [apply,push,processOp,unindexed,setSide,recorded,pending,indexed,view]

/-- One turn of the loop is the sequence of its effects. -/
theorem canonicalizeEvent_eq (order : IterationOrder ℕ) (site : ℕ) (event : TracedEvent) :
    canonicalizeEvent scope order site s event =
      (effects scope (s.view (actor event)) event).foldl apply s := by
  cases event with
  | exec process observation => exact canonicalizeExec_eq scope s process observation
  | fork parent child => exact canonicalizeFork_eq scope s order site parent child
  | fileOpen process path flags fd external observation => exact canonicalizeFileOpen_eq scope s ..
  | fileClose process fd path external observation => exact canonicalizeFileClose_eq scope s ..
  | fileMmap process fd prot flags path external observation =>
    simp only [canonicalizeEvent,canonicalizeFileMmap,effects]
    split
    · rfl
    cases path with
    | none => rfl
    | some path =>
      cases observation with
      | none => rfl
      | some observation => exact canonicalizeMapping_eq scope s ..
  | fileRename process fromPath toPath flags external observation => exact canonicalizePathEvent_eq scope s ..
  | fileUnlink process path flags external observation => exact canonicalizePathEvent_eq scope s ..
  | exit process exitCode =>
    simp only [canonicalizeEvent,canonicalizeExit,effects,actor,view,ExtTreeMap.contains_iff_mem]
    split
    · simp [apply,push,processOp,unindexed,setSide,recorded,pending,indexed]
    · rfl

end Turn

/-- One turn, with the tables listed as they are stored. -/
def turn (scope : TraceScope) (s : CanonState) (event : TracedEvent) : CanonState :=
  (effects scope (s.view (actor event)) event).foldl apply s

/-- The loop is the same for every order in which forks list the pending writes. -/
theorem canonicalizeFrom_eq_foldl (scope : TraceScope) (order : IterationOrder ℕ) (site : ℕ) (s : CanonState)
    (events : List TracedEvent) :
    canonicalizeFrom scope order site s events = events.foldl (turn scope) s := by
  induction events generalizing site s with
  | nil => rfl
  | cons event events ih => rw [canonicalizeFrom,ih,canonicalizeEvent_eq,List.foldl_cons,turn]

end Repx.Canonical
