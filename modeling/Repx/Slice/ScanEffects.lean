import Repx.Slice.Scan

/-! # The effects of an event on the scanned tables

Every event of the scan amounts to a few primitive changes of the tables. Which
ones depends on the event and, for a close, on the write that is pending under its
descriptor. What the scan preserves follows from what the changes preserve.
-/
namespace Repx.Slice
open ByteString Std Trace HashTables

/-- A primitive change of the tables. -/
inductive ScanEffect where
  | exec (process : ProcessInstance) (observation : FileObservation)
  | inherit (parent child : ProcessInstance)
  | read (process : ProcessInstance) (hash : Str)
  | bind (descriptor : Descriptor) (write : PendingWrite)
  | release (descriptor : Descriptor)
  | author (path : Str) (process : ProcessInstance)
  | write (process : ProcessInstance) (hash : Str)
  | move (fromPath toPath : Str)
  | rename (process : ProcessInstance) (hash : Str)
  | exit (process : ProcessInstance) (exitCode : Int)

def ScanState.apply (order : IterationOrder Traversal) (site : ℕ) (s : ScanState) : ScanEffect → ScanState
  | .exec process observation => scanExec s process observation
  | .inherit parent child => scanFork order site s parent child
  | .read process hash => s.updateFlow process fun flow => { flow with reads := flow.reads.insert hash }
  | .bind descriptor write => { s with pendingWrites := s.pendingWrites.insert descriptor write }
  | .release descriptor => { s with pendingWrites := s.pendingWrites.erase descriptor }
  | .author path process => s.addPathWriter path process
  | .write process hash =>
    (s.updateFlow process fun flow => { flow with writes := flow.writes.insert hash }).addHashWriter hash process
  | .move fromPath toPath =>
    { s with
      pendingWrites := movePendingWrites order (.renamedWrites site) fromPath toPath s.pendingWrites
      writersByPath := aliasWriters order (.renameAliases site) (.renameMembers site) fromPath toPath
        s.writersByPath
      renamePairs := s.renamePairs ++ [(fromPath,toPath)] }
  | .rename process hash =>
    (s.updateFlow process fun flow =>
      { flow with reads := flow.reads.insert hash, renames := flow.renames.insert hash }).addHashWriter hash
        process
  | .exit process exitCode => { s with rootExit := some (process,exitCode) }

def readEffects (process : ProcessInstance) (path : Str) (observation : FileObservation) : List ScanEffect :=
  (readHash path observation).toList.map (.read process)

/-- The effects of a close on the write that was pending. -/
def settleEffects (path : Option Str) : Option PendingWrite → Option FileObservation → List ScanEffect
  | some write, some observation =>
    .author (path.getD write.path) write.process :: observation.contentHash.toList.map (.write write.process)
  | _, _ => []

def scanEffects (rootProcess : ProcessInstance) (pending : ExtTreeMap Descriptor PendingWrite) :
    TracedEvent → List ScanEffect
  | .exec process observation => [.exec process observation]
  | .fork parent child => [.inherit parent child]
  | .fileOpen process path flags fd false observation =>
    (if canRead flags then readEffects process path observation else []) ++
      if canWrite flags then [.bind ⟨process.lifetime,fd⟩ ⟨process,path⟩] else []
  | .fileMmap process fd prot flags (some path) false (some observation) =>
    readEffects process path observation ++
      if mapWrites prot flags then [.bind ⟨process.lifetime,fd⟩ ⟨process,path⟩] else []
  | .fileClose process fd path false observation =>
    .release ⟨process.lifetime,fd⟩ ::
      settleEffects path pending[(⟨process.lifetime,fd⟩ : Descriptor)]? observation
  | .fileRename process fromPath toPath _ false observation =>
    .move fromPath toPath :: .author toPath process :: observation.contentHash.toList.map (.rename process)
  | .exit process exitCode => if process.lifetime = rootProcess.lifetime then [.exit process exitCode] else []
  | _ => []

theorem mem_readEffects {process : ProcessInstance} {path : Str} {observation : FileObservation} {effect : ScanEffect} :
    effect ∈ readEffects process path observation ↔
      ∃ hash, readHash path observation = some hash ∧ effect = .read process hash := by
  simp [readEffects,eq_comm]

/-- A close settles a pending write that it observes, and by its opener. -/
theorem mem_settleEffects {path : Option Str} {write : Option PendingWrite} {observation : Option FileObservation}
    {effect : ScanEffect} (h : effect ∈ settleEffects path write observation) :
    ∃ opened seen, write = some opened ∧ observation = some seen ∧
      (effect = .author (path.getD opened.path) opened.process ∨
        ∃ hash, seen.contentHash = some hash ∧ effect = .write opened.process hash) := by
  unfold settleEffects at h
  split at h
  · next opened seen =>
    refine ⟨opened,seen,rfl,rfl,?_⟩
    rcases List.mem_cons.mp h with rfl | h
    · exact Or.inl rfl
    · obtain ⟨hash,hh,rfl⟩ := List.mem_map.mp h
      exact Or.inr ⟨hash,Option.mem_toList.mp hh,rfl⟩
  · cases h

section Events
variable (order : IterationOrder Traversal) (site : ℕ) (s : ScanState)

theorem foldl_readEffects (process : ProcessInstance) (path : Str) (observation : FileObservation) :
    (readEffects process path observation).foldl (ScanState.apply order site) s =
      s.addRead process (readHash path observation) := by
  unfold readEffects
  cases readHash path observation <;> rfl

theorem scanFileClose_eq (rootProcess process : ProcessInstance) (fd : Int) (path : Option Str) (external : Bool)
    (observation : Option FileObservation) :
    scanFileClose s process fd path external observation =
      (scanEffects rootProcess s.pendingWrites (.fileClose process fd path external observation)).foldl
        (ScanState.apply order site) s := by
  unfold scanFileClose
  cases external with
  | true => rfl
  | false =>
    simp only [Bool.false_eq_true,if_false,scanEffects]
    cases s.pendingWrites[(⟨process.lifetime,fd⟩ : Descriptor)]? with
    | none => cases observation <;> rfl
    | some write =>
      cases observation with
      | none => rfl
      | some observation =>
        simp only [settleWrite,settleEffects]
        cases observation.contentHash <;> rfl

/-- An event is its effects, one after the other. -/
theorem scanEvent_eq_foldl (rootProcess : ProcessInstance) (event : TracedEvent) :
    scanEvent order site s rootProcess event =
      (scanEffects rootProcess s.pendingWrites event).foldl (ScanState.apply order site) s := by
  cases event with
  | exec process observation => rfl
  | fork parent child => rfl
  | fileOpen process path flags fd external observation =>
    simp only [scanEvent,scanFileOpen]
    cases external with
    | true => rfl
    | false =>
      simp only [Bool.false_eq_true,if_false,scanEffects,List.foldl_append]
      cases canRead flags <;> cases canWrite flags <;> simp [foldl_readEffects,ScanState.apply]
  | fileMmap process fd prot flags path external observation =>
    simp only [scanEvent,scanFileMmap]
    cases external with
    | true => cases path <;> rfl
    | false =>
      cases path with
      | none => rfl
      | some path =>
        cases observation with
        | none => rfl
        | some observation =>
          simp only [Bool.false_eq_true,if_false,scanEffects,List.foldl_append,foldl_readEffects]
          cases mapWrites prot flags <;> rfl
  | fileClose process fd path external observation =>
    exact scanFileClose_eq order site s rootProcess process fd path external observation
  | fileRename process fromPath toPath flags external observation =>
    simp only [scanEvent,scanFileRename]
    cases external with
    | true => rfl
    | false =>
      simp only [Bool.false_eq_true,if_false,scanEffects]
      cases observation.contentHash <;> rfl
  | fileUnlink process path flags external observation => rfl
  | exit process exitCode =>
    simp only [scanEvent,scanExit,scanEffects]
    split_ifs <;> rfl

end Events

end Repx.Slice
