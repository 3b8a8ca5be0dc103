import Repx.Operations.OpOwners
import Repx.Slice.ScanTables

/-! # Who a write is credited to

Both passes remember under each descriptor whom the write through it belongs to, and a fork
hands these entries down. They differ in what a mapping does to an entry that is there
already, and in files of the system state. What each of them remembers is a table of its
own; a third one says who has opened the descriptor for writing last.
-/
namespace Repx.Trace
open ByteString Std HashTables Canonical CanonState Slice

abbrev CreditTable := Descriptor → Option ProcessInstance

namespace CreditTable

/-- The entries of the parent are handed down to the child. -/
def inherit (table : CreditTable) (parent child : ProcessLifetime) : CreditTable := fun d =>
  if d.lifetime = child then (table ⟨parent,d.fd⟩).or (table d) else table d

/-- An opening takes the descriptor over, unless it is of the system state; a mapping leaves an
entry alone; a close without a path is ignored. -/
def recorded (table : CreditTable) : TracedEvent → CreditTable
  | .fileOpen process path flags fd _ _ =>
    if canWrite flags && !isSystemState path then Function.update table ⟨process.lifetime,fd⟩ (some process)
    else table
  | .fileMmap process fd prot flags (some path) _ (some _) =>
    if mapWrites prot flags && !isSystemState path then
      Function.update table ⟨process.lifetime,fd⟩ ((table ⟨process.lifetime,fd⟩).or (some process))
    else table
  | .fileClose process fd (some _) _ _ => Function.update table ⟨process.lifetime,fd⟩ none
  | .fork parent child => table.inherit parent.lifetime child.lifetime
  | _ => table

/-- Openings and mappings take the descriptor over, and every close releases it. -/
def scanned (table : CreditTable) : TracedEvent → CreditTable
  | .fileOpen process _ flags fd _ _ =>
    if canWrite flags then Function.update table ⟨process.lifetime,fd⟩ (some process) else table
  | .fileMmap process fd prot flags (some _) _ (some _) =>
    if mapWrites prot flags then Function.update table ⟨process.lifetime,fd⟩ (some process) else table
  | .fileClose process fd _ _ _ => Function.update table ⟨process.lifetime,fd⟩ none
  | .fork parent child => table.inherit parent.lifetime child.lifetime
  | _ => table

/-- The instance that opened the descriptor, or the one it was inherited from, for writing last. -/
def opened (table : CreditTable) : TracedEvent → CreditTable
  | .fileOpen process _ flags fd _ _ =>
    if canWrite flags then Function.update table ⟨process.lifetime,fd⟩ (some process) else table
  | .fork parent child => table.inherit parent.lifetime child.lifetime
  | _ => table

end CreditTable

open CreditTable

def recordedCredit (events : List TracedEvent) : CreditTable := events.foldl recorded fun _ => none

def scannedCredit (events : List TracedEvent) : CreditTable := events.foldl scanned fun _ => none

def lastOpener (events : List TracedEvent) : CreditTable := events.foldl opened fun _ => none

/-- Events of processes inside the fork tree. -/
def TracedEvent.inside : TracedEvent → Bool
  | .fileOpen _ _ _ _ external _ => !external
  | .fileClose _ _ _ external _ => !external
  | .fileMmap _ _ _ _ _ external _ => !external
  | .fileRename _ _ _ _ external _ => !external
  | .fileUnlink _ _ _ external _ => !external
  | _ => true

section Recorded
variable {s : CanonState} {owners : List ProcessInstance} {table : CreditTable}

/-- The pending operations of a state belong to the instances of a table. -/
structure Credited (s : CanonState) (owners : List ProcessInstance) (table : CreditTable) : Prop where
  length : owners.length = s.ops.length
  pending : ∀ d : Descriptor, s.pendingWrites[d]?.map (fun i => owners[i]?) = (table d).map some

/-- What an effect of an acting instance does to the table. -/
def creditEffect (process : ProcessInstance) (table : CreditTable) : Effect → CreditTable
  | .openWrite .tree p fd _ => Function.update table ⟨p.lifetime,fd⟩ (some process)
  | .closeWrite .tree d _ => Function.update table d none
  | .inheritWrites parent child => table.inherit parent child
  | _ => table

/-- The owners of the operations an effect of an acting instance appends. -/
def effectOwners (process : ProcessInstance) : Effect → List ProcessInstance
  | .push .tree _ _ => [process]
  | .openWrite .tree _ _ _ => [process]
  | _ => []

theorem Credited.same {s' : CanonState} (h : Credited s owners table) (hops : s'.ops.length = s.ops.length)
    (hpending : s'.pendingWrites = s.pendingWrites) : Credited s' owners table :=
  ⟨h.length.trans hops.symm,fun d => by rw [hpending]; exact h.pending d⟩

theorem Credited.grow (h : Credited s owners table) (process : ProcessInstance) (d : Descriptor) :
    s.pendingWrites[d]?.map (fun i => (owners ++ [process])[i]?) = (table d).map some := by
  have hd := h.pending d
  cases hp : s.pendingWrites[d]? with
  | none =>
    rw [hp] at hd
    exact hd
  | some i =>
    rw [hp,Option.map_some] at hd
    rw [Option.map_some,← hd]
    cases ht : table d with
    | none =>
      rw [ht] at hd
      cases hd
    | some p =>
      rw [ht,Option.map_some] at hd
      have hi := Option.some.inj hd
      rw [List.getElem?_append_left (List.getElem?_eq_some_iff.mp hi).1]

theorem Credited.inheritWrites (h : Credited s owners table) (parent child : ProcessLifetime) :
    Credited (s.apply (.inheritWrites parent child)) owners (table.inherit parent child) := by
  refine ⟨h.length,fun d => ?_⟩
  simp only [CanonState.apply,getElem?_inheritWrites,CreditTable.inherit]
  split
  · have hparent := h.pending ⟨parent,d.fd⟩
    cases hp : s.pendingWrites[(⟨parent,d.fd⟩ : Descriptor)]? with
    | none =>
      rw [hp,Option.map_none] at hparent
      rw [Option.map_eq_none_iff.mp hparent.symm,Option.none_or,Option.none_or]
      exact h.pending d
    | some i =>
      rw [hp,Option.map_some] at hparent
      rw [Option.some_or,Option.map_some,hparent]
      cases ht : table ⟨parent,d.fd⟩ with
      | none =>
        rw [ht] at hparent
        cases hparent
      | some p => rfl
  · exact h.pending d

/-- The new operation belongs to the instance that opens the file. -/
theorem Credited.openWrite (h : Credited s owners table) (process p : ProcessInstance) (fd : Int)
    (op : CanonicalOp) :
    Credited (s.apply (.openWrite .tree p fd op)) (owners ++ [process])
      (Function.update table ⟨p.lifetime,fd⟩ (some process)) := by
  refine ⟨?_,fun d => ?_⟩
  · simp [CanonState.apply,setSide,CanonState.recorded,h.length]
  · simp only [CanonState.apply,setSide,CanonState.recorded,CanonState.pending,ExtTreeMap.getElem?_insert,
      Std.compare_eq_iff_eq]
    by_cases hd : ⟨p.lifetime,fd⟩ = d
    · subst hd
      rw [if_pos rfl,Function.update_self,Option.map_some,Option.map_some,← h.length]
      simp
    · rw [if_neg hd,Function.update_of_ne (Ne.symm hd)]
      exact h.grow process d

/-- Whether a write was pending or not, none is afterwards. -/
theorem Credited.closeWrite (h : Credited s owners table) (d : Descriptor)
    (observation : Option FileObservation) :
    Credited (s.apply (.closeWrite .tree d observation)) owners (Function.update table d none) := by
  simp only [CanonState.apply,CanonState.pending]
  cases hp : s.pendingWrites[d]? with
  | none =>
    refine ⟨h.length,fun d' => ?_⟩
    by_cases hne : d' = d
    · rw [hne,Function.update_self,hp]
      rfl
    · rw [Function.update_of_ne hne]
      exact h.pending d'
  | some i =>
    have hfill : (fillOutput s.ops i observation).length = s.ops.length := by
      cases observation with
      | none => rfl
      | some observation => exact List.length_modify _ _ _
    refine ⟨h.length.trans hfill.symm,fun d' => ?_⟩
    simp only [setSide,ExtTreeMap.getElem?_erase,Std.compare_eq_iff_eq]
    by_cases hne : d = d'
    · rw [if_pos hne,hne,Function.update_self]
      rfl
    · rw [if_neg hne,Function.update_of_ne (Ne.symm hne)]
      exact h.pending d'

theorem Credited.apply (h : Credited s owners table) (process : ProcessInstance) (effect : Effect) :
    Credited (s.apply effect) (owners ++ effectOwners process effect) (creditEffect process table effect) := by
  cases effect with
  | assignIndex p =>
    simp only [effectOwners,List.append_nil]
    exact h.same (by rw [CanonState.apply,assignIndex_ops]) (assignIndex_pendingWrites s p)
  | setToolHash p toolHash =>
    simp only [effectOwners,List.append_nil]
    exact h.same rfl rfl
  | markFallback lifetime =>
    simp only [effectOwners,List.append_nil]
    exact h.same rfl rfl
  | inheritWrites parent child =>
    simp only [effectOwners,List.append_nil]
    exact h.inheritWrites parent child
  | push side p op =>
    cases side with
    | outside =>
      simp only [effectOwners,List.append_nil]
      exact h.same rfl rfl
    | tree =>
      refine ⟨?_,h.grow process⟩
      simp [CanonState.apply,setSide,CanonState.recorded,effectOwners,h.length]
  | openWrite side p fd op =>
    cases side with
    | outside =>
      simp only [effectOwners,List.append_nil]
      exact h.same rfl rfl
    | tree => exact h.openWrite process p fd op
  | closeWrite side d observation =>
    simp only [effectOwners,List.append_nil]
    cases side with
    | outside =>
      have hsame : (s.apply (.closeWrite .outside d observation)).ops = s.ops ∧
          (s.apply (.closeWrite .outside d observation)).pendingWrites = s.pendingWrites := by
        unfold CanonState.apply
        dsimp only
        split <;> exact ⟨rfl,rfl⟩
      exact h.same (congrArg List.length hsame.1) hsame.2
    | tree => exact h.closeWrite d observation

theorem Credited.foldl (h : Credited s owners table) (process : ProcessInstance) (l : List Effect) :
    Credited (l.foldl CanonState.apply s) (owners ++ l.flatMap (effectOwners process))
      (l.foldl (creditEffect process) table) := by
  induction l generalizing s owners table with
  | nil => simpa using h
  | cons effect l ih =>
    have hrest := ih (h.apply process effect)
    rwa [List.append_assoc] at hrest

variable {scope : TraceScope} {event : TracedEvent}

theorem isOutside_of_inside (hscope : scope.watchPrefixes = []) (view : ProcessView) (process : ProcessInstance)
    (path : Str) : view.isOutside scope process false (scope.isWatched path) = false := by
  simp [ProcessView.isOutside,TraceScope.isWatched,isWatchedPath,hscope]

/-- Without external events and watched directories the pass keeps its table. -/
theorem foldl_creditEffect (hscope : scope.watchPrefixes = []) (hinside : event.inside = true) (view : ProcessView)
    (hview : ∀ fd, view.hasWrite .tree fd = (table ⟨(actor event).lifetime,fd⟩).isSome) :
    (effects scope view event).foldl (creditEffect (actor event)) table = table.recorded event := by
  have hwatched : ∀ path, scope.isWatched path = false := by
    intro path
    simp [TraceScope.isWatched,isWatchedPath,hscope]
  cases event with
  | exec process observation => rfl
  | fork parent child =>
    cases ht : view.toolHash <;> simp [effects,ht,creditEffect,CreditTable.recorded]
  | fileOpen process path flags fd external observation =>
    obtain rfl : external = false := by simpa [TracedEvent.inside] using hinside
    simp only [effects,fileOpenEffects,isOutside_of_inside hscope,CreditTable.recorded]
    cases isSystemState path <;> cases canRead flags <;> cases canWrite flags <;> simp [creditEffect,actor]
  | fileMmap process fd prot flags path external observation =>
    obtain rfl : external = false := by simpa [TracedEvent.inside] using hinside
    cases path with
    | none => simp [effects,CreditTable.recorded]
    | some path =>
      cases observation with
      | none => simp [effects,CreditTable.recorded]
      | some observation =>
        have hd := hview fd
        simp only [actor] at hd
        simp only [effects,mappingEffects,isOutside_of_inside hscope,CreditTable.recorded,hd]
        cases ht : table ⟨process.lifetime,fd⟩ with
        | none => cases isSystemState path <;> cases mapWrites prot flags <;> simp [creditEffect,actor]
        | some opener =>
          have hkeep : Function.update table ⟨process.lifetime,fd⟩ (some opener) = table := by
            rw [← ht,Function.update_eq_self]
          cases isSystemState path <;> cases mapWrites prot flags <;> simp [creditEffect,hkeep]
  | fileClose process fd path external observation =>
    obtain rfl : external = false := by simpa [TracedEvent.inside] using hinside
    cases path with
    | none => rfl
    | some path => simp [effects,fileCloseEffects,hwatched,creditEffect,CreditTable.recorded]
  | fileRename process fromPath toPath flags external observation =>
    obtain rfl : external = false := by simpa [TracedEvent.inside] using hinside
    simp only [effects,pathEventEffects,CreditTable.recorded]
    split <;> rfl
  | fileUnlink process path flags external observation =>
    simp only [effects,pathEventEffects,CreditTable.recorded]
    split <;> rfl
  | exit process exitCode =>
    simp only [effects,CreditTable.recorded]
    split <;> rfl

theorem flatMap_effectOwners (process : ProcessInstance) (l : List Effect) :
    l.flatMap (effectOwners process) = List.replicate (l.flatMap (effectOwners process)).length process := by
  refine List.eq_replicate_of_mem fun p hp => ?_
  obtain ⟨effect,-,hp⟩ := List.mem_flatMap.mp hp
  unfold effectOwners at hp
  split at hp
  · exact List.mem_singleton.mp hp
  · exact List.mem_singleton.mp hp
  · cases hp

theorem Credited.turn (h : Credited s owners table) (hscope : scope.watchPrefixes = []) (order : IterationOrder ℕ)
    (site : ℕ) (hinside : event.inside = true) :
    Credited (canonicalizeEvent scope order site s event)
      (owners ++
        List.replicate ((canonicalizeEvent scope order site s event).ops.length - s.ops.length) (actor event))
      (table.recorded event) := by
  have hview : ∀ fd, (s.view (actor event)).hasWrite .tree fd = (table ⟨(actor event).lifetime,fd⟩).isSome := by
    intro fd
    have hd := congrArg Option.isSome (h.pending ⟨(actor event).lifetime,fd⟩)
    rw [Option.isSome_map,Option.isSome_map] at hd
    rw [← hd]
    exact ExtTreeMap.contains_eq_isSome_getElem?
  have hfold := h.foldl (actor event) (effects scope (s.view (actor event)) event)
  rw [foldl_creditEffect hscope hinside _ hview,← canonicalizeEvent_eq scope s order site event] at hfold
  have hlength := hfold.length
  rw [List.length_append,h.length] at hlength
  have hcount : ((effects scope (s.view (actor event)) event).flatMap (effectOwners (actor event))).length =
      (canonicalizeEvent scope order site s event).ops.length - s.ops.length := by
    omega
  rwa [flatMap_effectOwners,hcount] at hfold

theorem Credited.run (h : Credited s owners table) (hscope : scope.watchPrefixes = []) (order : IterationOrder ℕ)
    (site : ℕ) {events : List TracedEvent} (hinside : ∀ event ∈ events, event.inside = true) :
    Credited (canonicalizeFrom scope order site s events) (owners ++ opOwnersFrom scope order site s events)
      (events.foldl CreditTable.recorded table) := by
  induction events generalizing site s owners table with
  | nil => simpa [canonicalizeFrom,opOwnersFrom] using h
  | cons event events ih =>
    have hrest := ih (h.turn hscope order site (hinside event List.mem_cons_self)) (site + 1)
      fun e he => hinside e (List.mem_cons_of_mem _ he)
    rwa [List.append_assoc] at hrest

variable (scope) in
/-- The pending operations of the pass that records eagerly. -/
theorem credited_canonicalizeFrom (hscope : scope.watchPrefixes = []) (order : IterationOrder ℕ)
    {events : List TracedEvent} (hinside : ∀ event ∈ events, event.inside = true) :
    Credited (canonicalizeFrom scope order 0 (initial scope) events) (opOwners scope order events)
      (recordedCredit events) := by
  have hinitial : Credited (initial scope) [] fun _ => none := ⟨rfl,fun d => by simp [initial]⟩
  exact hinitial.run hscope order 0 hinside

end Recorded

section Scanned
variable {traversal : IterationOrder Traversal} {rootProcess : ProcessInstance} {site : ℕ} {s : ScanState}
  {table : CreditTable} {event : TracedEvent}

theorem process_movePendingWrite (fromPath toPath : Str) (write : PendingWrite) :
    (movePendingWrite fromPath toPath write).process = write.process := by
  unfold movePendingWrite
  split <;> rfl

/-- The pending writes of the scan belong to the instances of a table. -/
def ScanCredited (s : ScanState) (table : CreditTable) : Prop :=
  ∀ d : Descriptor, s.pendingWrites[d]?.map PendingWrite.process = table d

/-- What an effect of the scan does to the table. -/
def creditScanEffect (table : CreditTable) : ScanEffect → CreditTable
  | .inherit parent child => table.inherit parent.lifetime child.lifetime
  | .bind d write => Function.update table d (some write.process)
  | .release d => Function.update table d none
  | _ => table

theorem ScanCredited.apply (h : ScanCredited s table) (effect : ScanEffect) :
    ScanCredited (s.apply traversal site effect) (creditScanEffect table effect) := by
  cases effect with
  | inherit parent child =>
    intro d
    change (inheritWrites traversal (.inheritedWrites site) parent.lifetime child.lifetime
      s.pendingWrites)[d]?.map _ = _
    rw [getElem?_inheritWrites]
    dsimp only [creditScanEffect,CreditTable.inherit]
    split
    · rw [← h ⟨parent.lifetime,d.fd⟩,← h d]
      cases s.pendingWrites[(⟨parent.lifetime,d.fd⟩ : Descriptor)]? <;> simp
    · exact h d
  | bind descriptor write =>
    intro d
    change (s.pendingWrites.insert descriptor write)[d]?.map _ = _
    simp only [ExtTreeMap.getElem?_insert,Std.compare_eq_iff_eq,creditScanEffect]
    by_cases hd : descriptor = d
    · simp [hd]
    · rw [if_neg hd,Function.update_of_ne (Ne.symm hd)]
      exact h d
  | release descriptor =>
    intro d
    change (s.pendingWrites.erase descriptor)[d]?.map _ = _
    simp only [ExtTreeMap.getElem?_erase,Std.compare_eq_iff_eq,creditScanEffect]
    by_cases hd : descriptor = d
    · simp [hd]
    · rw [if_neg hd,Function.update_of_ne (Ne.symm hd)]
      exact h d
  | move fromPath toPath =>
    intro d
    have hprocess : PendingWrite.process ∘ movePendingWrite fromPath toPath = PendingWrite.process := by
      funext write
      exact process_movePendingWrite fromPath toPath write
    change (movePendingWrites traversal _ fromPath toPath s.pendingWrites)[d]?.map _ = _
    rw [getElem?_movePendingWrites,Option.map_map,hprocess]
    exact h d
  | exec | read | author | write | rename | exit => exact h

theorem foldl_creditScanEffect_keep {l : List ScanEffect}
    (h : ∀ effect ∈ l, ∀ table, creditScanEffect table effect = table) (table : CreditTable) :
    l.foldl creditScanEffect table = table := by
  induction l with
  | nil => rfl
  | cons effect l ih =>
    rw [List.foldl_cons,h effect List.mem_cons_self]
    exact ih fun e he => h e (List.mem_cons_of_mem _ he)

theorem readEffects_keep (process : ProcessInstance) (path : Str) (observation : FileObservation)
    (table : CreditTable) :
    (readEffects process path observation).foldl creditScanEffect table = table := by
  refine foldl_creditScanEffect_keep (fun effect he table => ?_) table
  obtain ⟨hash,-,rfl⟩ := mem_readEffects.mp he
  rfl

theorem settleEffects_keep (path : Option Str) (write : Option PendingWrite) (observation : Option FileObservation)
    (table : CreditTable) : (settleEffects path write observation).foldl creditScanEffect table = table := by
  refine foldl_creditScanEffect_keep (fun effect he table => ?_) table
  obtain ⟨opened,seen,-,-,rfl | ⟨hash,-,rfl⟩⟩ := mem_settleEffects he
  · rfl
  · rfl

/-- Without external events the scan keeps its table. -/
theorem foldl_creditScanEffect (hinside : event.inside = true) (pending : ExtTreeMap Descriptor PendingWrite) :
    (scanEffects rootProcess pending event).foldl creditScanEffect table = table.scanned event := by
  cases event with
  | exec process observation => rfl
  | fork parent child => rfl
  | fileOpen process path flags fd external observation =>
    obtain rfl : external = false := by simpa [TracedEvent.inside] using hinside
    simp only [scanEffects,CreditTable.scanned,List.foldl_append]
    cases canRead flags <;> cases canWrite flags <;> simp [readEffects_keep,creditScanEffect]
  | fileMmap process fd prot flags path external observation =>
    obtain rfl : external = false := by simpa [TracedEvent.inside] using hinside
    cases path with
    | none => rfl
    | some path =>
      cases observation with
      | none => rfl
      | some observation =>
        simp only [scanEffects,CreditTable.scanned,List.foldl_append,readEffects_keep]
        cases mapWrites prot flags <;> rfl
  | fileClose process fd path external observation =>
    obtain rfl : external = false := by simpa [TracedEvent.inside] using hinside
    simp only [scanEffects,CreditTable.scanned,List.foldl_cons,settleEffects_keep,creditScanEffect]
  | fileRename process fromPath toPath flags external observation =>
    obtain rfl : external = false := by simpa [TracedEvent.inside] using hinside
    refine foldl_creditScanEffect_keep (fun effect he table => ?_) table
    simp only [scanEffects,List.mem_cons,List.mem_map] at he
    rcases he with rfl | rfl | ⟨hash,-,rfl⟩ <;> rfl
  | fileUnlink process path flags external observation => rfl
  | exit process exitCode =>
    simp only [scanEffects,CreditTable.scanned]
    split <;> rfl

theorem ScanCredited.turn (h : ScanCredited s table) (hinside : event.inside = true) :
    ScanCredited (scanEvent traversal site s rootProcess event) (table.scanned event) := by
  have hfold : ∀ (l : List ScanEffect) (s : ScanState) (table : CreditTable), ScanCredited s table →
      ScanCredited (l.foldl (ScanState.apply traversal site) s) (l.foldl creditScanEffect table) := by
    intro l
    induction l with
    | nil => exact fun _ _ h => h
    | cons effect l ih => exact fun _ _ h => ih _ _ (h.apply effect)
  rw [scanEvent_eq_foldl,← foldl_creditScanEffect hinside s.pendingWrites]
  exact hfold _ s table h

theorem ScanCredited.run (h : ScanCredited s table) {events : List TracedEvent}
    (hinside : ∀ event ∈ events, event.inside = true) :
    ScanCredited (scanFrom traversal rootProcess site s events) (events.foldl CreditTable.scanned table) := by
  induction events generalizing site s table with
  | nil => exact h
  | cons event events ih =>
    exact ih (h.turn (hinside event List.mem_cons_self)) fun e he => hinside e (List.mem_cons_of_mem _ he)

variable (traversal rootProcess) in
/-- The pending writes of the pass that scans first. -/
theorem scanCredited_scanFrom {events : List TracedEvent} (hinside : ∀ event ∈ events, event.inside = true) :
    ScanCredited (scanFrom traversal rootProcess 0 .initial events) (scannedCredit events) := by
  have hinitial : ScanCredited .initial fun _ => none := fun d => by simp [ScanState.initial]
  exact hinitial.run hinside

end Scanned

end Repx.Trace
