import Repx.Slice.Emission

/-! # Authorship of outputs

An open for writing is recorded under a descriptor, forks copy the record, and a
close with an observation makes the process that opened the file responsible for
its path. Responsibility for a path is never taken back, so the process is in the
slice of every output at that path, with its executable and all it read.
-/
namespace Repx.Slice
open ByteString Std Trace HashTables Canonical CanonicalOp Sha256

section Reads

/-- What an event adds to the reads of a process. -/
def readBy : TracedEvent → Option (ProcessInstance × Str)
  | .fileOpen process path flags _ false observation =>
    if canRead flags then (readHash path observation).map fun hash => (process,hash) else none
  | .fileMmap process _ _ _ (some path) false (some observation) =>
    (readHash path observation).map fun hash => (process,hash)
  | .fileRename process _ _ _ false observation => observation.contentHash.map fun hash => (process,hash)
  | _ => none

/-- What an effect adds to the reads of a process. -/
def ScanEffect.reads : ScanEffect → Option (ProcessInstance × Str)
  | .read process content => some (process,content)
  | .rename process content => some (process,content)
  | _ => none

/-- The effects of an event read what the event reads. -/
theorem filterMap_reads_scanEffects (rootProcess : ProcessInstance)
    (pending : ExtTreeMap Descriptor PendingWrite) (event : TracedEvent) :
    (scanEffects rootProcess pending event).filterMap ScanEffect.reads = (readBy event).toList := by
  have hread : ∀ process path o, (readEffects process path o).filterMap ScanEffect.reads =
      ((readHash path o).map fun hash => (process,hash)).toList := by
    intro process path o
    unfold readEffects
    cases readHash path o <;> rfl
  cases event with
  | exec process observation => rfl
  | fork parent child => rfl
  | fileOpen process path flags fd external observation =>
    cases external with
    | true => rfl
    | false =>
      simp only [scanEffects,readBy,List.filterMap_append]
      cases canRead flags <;> cases canWrite flags <;> simp [hread,ScanEffect.reads]
  | fileMmap process fd prot flags path external observation =>
    cases external <;> cases path <;> cases observation <;> try rfl
    simp only [scanEffects,readBy,List.filterMap_append,hread]
    cases mapWrites prot flags <;> simp [ScanEffect.reads]
  | fileClose process fd path external observation =>
    cases external with
    | true => rfl
    | false =>
      simp only [scanEffects,readBy,settleEffects]
      split
      · next write o _ => cases o.contentHash <;> simp [ScanEffect.reads]
      · rfl
  | fileRename process fromPath toPath flags external observation =>
    cases external with
    | true => rfl
    | false =>
      simp only [scanEffects,readBy]
      cases observation.contentHash <;> rfl
  | fileUnlink process path flags external observation => rfl
  | exit process exitCode =>
    simp only [scanEffects,readBy]
    split_ifs <;> rfl

theorem exec_mem_scanEffects {rootProcess process : ProcessInstance}
    {pending : ExtTreeMap Descriptor PendingWrite} {event : TracedEvent} {o : FileObservation} :
    .exec process o ∈ scanEffects rootProcess pending event ↔ event = .exec process o := by
  unfold scanEffects settleEffects readEffects
  split <;> grind

theorem mem_reads_onFlow (s : ScanState) (effect : ScanEffect) (process : ProcessInstance) (flow : ProcessFlow)
    (hash : Str) :
    hash ∈ (effect.onFlow s process flow).reads ↔ hash ∈ flow.reads ∨ effect.reads = some (process,hash) := by
  cases effect with
  | exec | inherit | write =>
    simp only [ScanEffect.onFlow,ScanEffect.reads]
    split_ifs <;> simp
  | read p content | rename p content =>
    simp only [ScanEffect.onFlow,ScanEffect.reads]
    split_ifs with hp <;> simp [hp,or_comm]
  | bind | release | author | move | exit => simp [ScanEffect.onFlow,ScanEffect.reads]

theorem hasExec_onFlow (s : ScanState) (effect : ScanEffect) (process : ProcessInstance) (flow : ProcessFlow) :
    (effect.onFlow s process flow).hasExec = true ↔
      flow.hasExec = true ∨ ∃ o, effect = .exec process o := by
  cases effect with
  | exec p o =>
    simp only [ScanEffect.onFlow]
    split_ifs with hp <;> simp [hp]
  | inherit | read | write | rename =>
    simp only [ScanEffect.onFlow]
    split_ifs <;> simp
  | bind | release | author | move | exit => simp [ScanEffect.onFlow]

theorem flowOf_foldl (order : IterationOrder Traversal) (site : ℕ) (effects : List ScanEffect) (s : ScanState)
    (process : ProcessInstance) :
    (∀ hash, hash ∈ (flowOf (effects.foldl (ScanState.apply order site) s) process).reads ↔
      hash ∈ (flowOf s process).reads ∨ (process,hash) ∈ effects.filterMap ScanEffect.reads) ∧
    ((flowOf (effects.foldl (ScanState.apply order site) s) process).hasExec = true ↔
      (flowOf s process).hasExec = true ∨ ∃ o, .exec process o ∈ effects) := by
  induction effects generalizing s with
  | nil => simp
  | cons effect effects ih =>
    obtain ⟨hreads,hexec⟩ := ih (s.apply order site effect)
    constructor
    · intro hash
      rw [List.foldl_cons,hreads,flowOf_apply,mem_reads_onFlow]
      simp only [List.mem_filterMap,List.mem_cons,exists_eq_or_imp,or_assoc]
    · rw [List.foldl_cons,hexec,flowOf_apply,hasExec_onFlow]
      simp only [List.mem_cons,exists_or,or_assoc,eq_comm]

theorem flowOf_scanFrom (order : IterationOrder Traversal) (rootProcess : ProcessInstance)
    (events : List TracedEvent) (site : ℕ) (s : ScanState) (process : ProcessInstance) :
    (∀ hash, hash ∈ (flowOf (scanFrom order rootProcess site s events) process).reads ↔
      hash ∈ (flowOf s process).reads ∨ ∃ event ∈ events, readBy event = some (process,hash)) ∧
    ((flowOf (scanFrom order rootProcess site s events) process).hasExec = true ↔
      (flowOf s process).hasExec = true ∨ ∃ o, .exec process o ∈ events) := by
  induction events generalizing site s with
  | nil => simp [scanFrom]
  | cons event events ih =>
    obtain ⟨hreads,hexec⟩ := ih (site + 1) (scanEvent order site s rootProcess event)
    obtain ⟨hstep,hstepExec⟩ := flowOf_foldl order site (scanEffects rootProcess s.pendingWrites event) s process
    rw [← scanEvent_eq_foldl] at hstep hstepExec
    constructor
    · intro hash
      rw [scanFrom,hreads,hstep,filterMap_reads_scanEffects,Option.mem_toList]
      simp only [List.mem_cons,exists_eq_or_imp,or_assoc]
    · rw [scanFrom,hexec,hstepExec]
      simp only [exec_mem_scanEffects,List.mem_cons,exists_or,or_assoc,eq_comm]

/-- The reads of a process are those of its events. -/
theorem mem_reads_scan {order : IterationOrder Traversal} {rootProcess : ProcessInstance}
    {events : List TracedEvent} {process : ProcessInstance} {hash : Str} :
    hash ∈ (flowOf (scan order rootProcess events) process).reads ↔
      ∃ event ∈ events, readBy event = some (process,hash) := by
  refine ((flowOf_scanFrom order rootProcess events 0 .initial process).1 hash).trans ?_
  simp [flowOf,ScanState.initial,ProcessFlow.default]

theorem hasExec_scan {order : IterationOrder Traversal} {rootProcess : ProcessInstance}
    {events : List TracedEvent} {process : ProcessInstance} :
    (flowOf (scan order rootProcess events) process).hasExec = true ↔ ∃ o, .exec process o ∈ events := by
  refine (flowOf_scanFrom order rootProcess events 0 .initial process).2.trans ?_
  simp [flowOf,ScanState.initial,ProcessFlow.default]

end Reads

section Descriptors

/-- An event gives a descriptor another meaning, or none. -/
def rebinds (d : Descriptor) : TracedEvent → Bool
  | .fork _ child => child.lifetime = d.lifetime
  | .fileOpen process _ flags fd false _ => canWrite flags && ⟨process.lifetime,fd⟩ = d
  | .fileMmap process fd prot flags (some _) false (some _) =>
    mapWrites prot flags && ⟨process.lifetime,fd⟩ = d
  | .fileClose process fd _ false _ => ⟨process.lifetime,fd⟩ = d
  | _ => false

/-- The descriptor of a child that a fork makes refer to the same open file. -/
def inherited (d : Descriptor) : TracedEvent → Option Descriptor
  | .fork parent child => if d.lifetime = parent.lifetime then some ⟨child.lifetime,d.fd⟩ else none
  | _ => none

def carryEvent (descriptors : List Descriptor) (event : TracedEvent) : List Descriptor :=
  descriptors.filter (fun d => !rebinds d event) ++ descriptors.filterMap fun d => inherited d event

/-- The descriptors that still refer to an open file after some events. -/
def carriers (opened : Descriptor) (events : List TracedEvent) : List Descriptor :=
  events.foldl carryEvent [opened]

/-- An event renames the path or a directory above it. -/
def moves (path : Str) : TracedEvent → Bool
  | .fileRename _ fromPath toPath _ false _ => (rewritePathPrefix path fromPath toPath).isSome
  | _ => false

/-- A descriptor holds a write of a process, of the given path if any. -/
def Carries (s : ScanState) (process : ProcessInstance) (path : Option Str) (d : Descriptor) : Prop :=
  ∃ write, s.pendingWrites[d]? = some write ∧ write.process = process ∧ ∀ p ∈ path, write.path = p

variable {s : ScanState} {process : ProcessInstance} {path : Option Str} {d : Descriptor}

theorem Carries.of_getElem? (h : Carries s process path d) {s' : ScanState} {d' : Descriptor}
    (hd : s'.pendingWrites[d']? = s.pendingWrites[d]?) : Carries s' process path d' := by
  unfold Carries
  rw [hd]
  exact h

/-- An effect leaves the write under a descriptor where it is. -/
def ScanEffect.Keeps (d : Descriptor) (path : Option Str) : ScanEffect → Prop
  | .inherit _ child => child.lifetime ≠ d.lifetime
  | .bind d' _ => d' ≠ d
  | .release d' => d' ≠ d
  | .move fromPath toPath => ∀ p ∈ path, (rewritePathPrefix p fromPath toPath).isSome = false
  | _ => True

theorem Carries.move (h : Carries s process path d) (order : IterationOrder Traversal) (site : ℕ)
    {fromPath toPath : Str} (hm : ∀ p ∈ path, (rewritePathPrefix p fromPath toPath).isSome = false) :
    Carries (s.apply order site (.move fromPath toPath)) process path d := by
  obtain ⟨write,hwrite,hprocess,hpath⟩ := h
  refine ⟨movePendingWrite fromPath toPath write,?_,?_,?_⟩
  · simp only [ScanState.apply]
    rw [getElem?_movePendingWrites,hwrite]
    rfl
  · unfold movePendingWrite
    split <;> exact hprocess
  · intro p hpp
    have hnone := hm p hpp
    rw [← hpath p hpp] at hnone ⊢
    rw [Option.isSome_eq_false_iff,Option.isNone_iff_eq_none] at hnone
    simp only [movePendingWrite,hnone]

theorem Carries.apply (h : Carries s process path d) (order : IterationOrder Traversal) (site : ℕ)
    {effect : ScanEffect} (hk : effect.Keeps d path) : Carries (s.apply order site effect) process path d := by
  cases effect with
  | inherit parent child =>
    refine h.of_getElem? ?_
    simp only [ScanState.apply,scanFork]
    rw [getElem?_inheritWrites,if_neg (Ne.symm hk)]
    rfl
  | bind d' write =>
    refine h.of_getElem? ?_
    simp only [ScanState.apply]
    rw [ExtTreeMap.getElem?_insert,if_neg (by simpa [ScanEffect.Keeps] using hk)]
  | release d' =>
    refine h.of_getElem? ?_
    simp only [ScanState.apply]
    rw [ExtTreeMap.getElem?_erase,if_neg (by simpa [ScanEffect.Keeps] using hk)]
  | move fromPath toPath => exact h.move order site hk
  | exec | read | author | write | rename | exit => exact h.of_getElem? rfl

/-- The effects of an event that does not rebind a descriptor leave its write alone. -/
theorem scanEffects_keeps {rootProcess : ProcessInstance} {pending : ExtTreeMap Descriptor PendingWrite}
    {event : TracedEvent} (hr : rebinds d event = false) (hm : ∀ p ∈ path, moves p event = false) :
    ∀ effect ∈ scanEffects rootProcess pending event, effect.Keeps d path := by
  intro effect he
  unfold scanEffects settleEffects readEffects at he
  split at he <;> grind [rebinds,moves,ScanEffect.Keeps]

/-- A write stays under its descriptor as long as no event rebinds it. -/
theorem Carries.scanEvent (h : Carries s process path d) (order : IterationOrder Traversal) (site : ℕ)
    (rootProcess : ProcessInstance) {event : TracedEvent} (hr : rebinds d event = false)
    (hm : ∀ p ∈ path, moves p event = false) :
    Carries (scanEvent order site s rootProcess event) process path d := by
  rw [scanEvent_eq_foldl]
  exact List.foldlRecOn (motive := fun s => Carries s process path d) _ _ h
    fun _ hs effect he => hs.apply order site (scanEffects_keeps hr hm effect he)

/-- A fork gives the child a descriptor with the same write. -/
theorem Carries.inherit (h : Carries s process path d) (order : IterationOrder Traversal) (site : ℕ)
    (rootProcess : ProcessInstance) {event : TracedEvent} {d' : Descriptor} (hd : inherited d event = some d') :
    Carries (Slice.scanEvent order site s rootProcess event) process path d' := by
  cases event with
  | fork parent child =>
    simp only [inherited] at hd
    split_ifs at hd with hp
    rw [← Option.some_inj.mp hd]
    refine h.of_getElem? ?_
    simp only [Slice.scanEvent,scanFork]
    rw [getElem?_inheritWrites,if_pos rfl,← hp]
    obtain ⟨write,hwrite,-⟩ := h
    change (s.pendingWrites[d]?).or _ = s.pendingWrites[d]?
    rw [hwrite,Option.some_or]
  | _ => cases hd

/-- Every carrier of an open file holds the write of the process that opened it. -/
theorem carries_scanFrom (order : IterationOrder Traversal) (rootProcess : ProcessInstance)
    (events : List TracedEvent) (hm : ∀ event ∈ events, ∀ p ∈ path, moves p event = false) (site : ℕ)
    (s : ScanState) (descriptors : List Descriptor) (h : ∀ d ∈ descriptors, Carries s process path d) :
    ∀ d ∈ events.foldl carryEvent descriptors,
      Carries (scanFrom order rootProcess site s events) process path d := by
  induction events generalizing site s descriptors with
  | nil => exact h
  | cons event events ih =>
    refine ih (fun e he => hm e (List.mem_cons_of_mem _ he)) (site + 1) _ _ fun d hd => ?_
    rcases List.mem_append.mp hd with hd | hd
    · obtain ⟨hd,hr⟩ := List.mem_filter.mp hd
      exact (h d hd).scanEvent order site rootProcess (by simpa using hr) (hm event List.mem_cons_self)
    · obtain ⟨d',hd',hi⟩ := List.mem_filterMap.mp hd
      exact (h d' hd').inherit order site rootProcess hi

end Descriptors

section Paths
variable {process : ProcessInstance} {path : Str}

theorem pathWriter_apply (order : IterationOrder Traversal) (site : ℕ) {s : ScanState} (effect : ScanEffect)
    (h : process ∈ membersAt s.writersByPath path) :
    process ∈ membersAt (s.apply order site effect).writersByPath path := by
  cases effect with
  | author p q => exact mem_membersAt_addMembers.mpr (Or.inl h)
  | move fromPath toPath =>
    exact (mem_membersAt_aliasWriters order _ _ fromPath toPath s.writersByPath path process).mpr (Or.inl h)
  | exec | inherit | read | bind | release | write | rename | exit => exact h

/-- No event takes the responsibility for a path back. -/
theorem pathWriter_scanEvent (order : IterationOrder Traversal) (site : ℕ) {s : ScanState}
    (rootProcess : ProcessInstance) (event : TracedEvent) (h : process ∈ membersAt s.writersByPath path) :
    process ∈ membersAt (scanEvent order site s rootProcess event).writersByPath path := by
  rw [scanEvent_eq_foldl]
  exact List.foldlRecOn (motive := fun s : ScanState => process ∈ membersAt s.writersByPath path) _ _ h
    fun _ hs effect _ => pathWriter_apply order site effect hs

theorem pathWriter_scanFrom (order : IterationOrder Traversal) (rootProcess : ProcessInstance)
    (events : List TracedEvent) (site : ℕ) {s : ScanState} (h : process ∈ membersAt s.writersByPath path) :
    process ∈ membersAt (scanFrom order rootProcess site s events).writersByPath path := by
  induction events generalizing site s with
  | nil => exact h
  | cons event events ih => exact ih (site + 1) (pathWriter_scanEvent order site rootProcess event h)

theorem pathWriter_renameFixup (order : IterationOrder Traversal) (pairs : List (Str × Str)) (pair : ℕ)
    {writers : Writers} (h : process ∈ membersAt writers path) :
    process ∈ membersAt (renameFixup order pair pairs writers) path := by
  induction pairs generalizing pair writers with
  | nil => exact h
  | cons p pairs ih =>
    exact ih (pair + 1) ((mem_membersAt_aliasWriters order _ _ p.1 p.2 writers path process).mpr (Or.inl h))

/-- A close with an observation settles the path of the write it ends. -/
theorem pathWriter_fileClose {order : IterationOrder Traversal} {site : ℕ} {s : ScanState}
    {rootProcess closer : ProcessInstance} {fd : Int} {located : Option Str} {closePath : Option Str}
    {observation : FileObservation} (h : Carries s process located ⟨closer.lifetime,fd⟩)
    (hp : closePath = some path ∨ closePath = none ∧ located = some path) :
    process ∈ membersAt (scanEvent order site s rootProcess
      (.fileClose closer fd closePath false (some observation))).writersByPath path := by
  obtain ⟨write,hwrite,rfl,hlocated⟩ := h
  have hpath : closePath.getD write.path = path := by
    rcases hp with rfl | ⟨rfl,rfl⟩
    · rfl
    · exact hlocated path rfl
  have hadd : ∀ s : ScanState, write.process ∈
      membersAt (s.addPathWriter (closePath.getD write.path) write.process).writersByPath path := by
    intro s
    exact mem_membersAt_addMembers.mpr (Or.inr ⟨hpath,List.mem_singleton_self _⟩)
  simp only [scanEvent,scanFileClose,hwrite,Bool.false_eq_true,if_false,settleWrite]
  split <;> exact hadd _

theorem scanFrom_append (order : IterationOrder Traversal) (rootProcess : ProcessInstance)
    (events events' : List TracedEvent) (site : ℕ) (s : ScanState) :
    scanFrom order rootProcess site s (events ++ events') =
      scanFrom order rootProcess (site + events.length) (scanFrom order rootProcess site s events) events' := by
  induction events generalizing site s with
  | nil => rfl
  | cons event events ih =>
    rw [List.cons_append,scanFrom,scanFrom,ih,List.length_cons,Nat.add_assoc,Nat.add_comm 1]

end Paths

/-- An open of a path for writing that a later close settles: the close has an
observation, its descriptor still carries the open file, and it names the path, or
names none and the file was not renamed. -/
inductive SettledWrite (process : ProcessInstance) (path : Str) : List TracedEvent → Prop
  | intro {before between after : List TracedEvent} {flags : UInt32} {fd closeFd : Int}
      {opened closed : FileObservation} {closer : ProcessInstance} {closePath : Option Str} :
      canWrite flags = true → ⟨closer.lifetime,closeFd⟩ ∈ carriers ⟨process.lifetime,fd⟩ between →
      (closePath = some path ∨ closePath = none ∧ ∀ event ∈ between, moves path event = false) →
      SettledWrite process path (before ++ .fileOpen process path flags fd false opened :: (between ++
        .fileClose closer closeFd closePath false (some closed) :: after))

theorem SettledWrite.pathWriter {process : ProcessInstance} {path : Str} {events : List TracedEvent}
    (h : SettledWrite process path events) (order : IterationOrder Traversal) (rootProcess : ProcessInstance) :
    process ∈ membersAt (scan order rootProcess events).writersByPath path := by
  cases h with
  | @intro before between after flags fd closeFd opened closed closer closePath hwrite hcarry hpath =>
    apply pathWriter_renameFixup
    rw [scanFrom_append,scanFrom,scanFrom_append,scanFrom]
    apply pathWriter_scanFrom
    generalize scanFrom order rootProcess 0 .initial before = s
    generalize 0 + before.length = site
    have hopened : ∀ located : Option Str, (∀ p ∈ located, p = path) →
        ∀ d ∈ [(⟨process.lifetime,fd⟩ : Descriptor)],
          Carries (scanEvent order site s rootProcess (.fileOpen process path flags fd false opened)) process
            located d := by
      intro located hlocated d hd
      obtain rfl := List.mem_singleton.mp hd
      refine ⟨⟨process,path⟩,?_,rfl,fun p hp => (hlocated p hp).symm⟩
      simp [scanEvent,scanFileOpen,hwrite]
    rcases hpath with rfl | ⟨rfl,hmoves⟩
    · have hcarries := carries_scanFrom order rootProcess between (by simp) (site + 1) _ _ (hopened none (by simp))
      exact pathWriter_fileClose (hcarries _ hcarry) (Or.inl rfl)
    · have hcarries := carries_scanFrom order rootProcess between (by simpa using hmoves) (site + 1) _ _
        (hopened (some path) (by simp))
      exact pathWriter_fileClose (hcarries _ hcarry) (Or.inr ⟨rfl,rfl⟩)

theorem reads_iff {tables : ScanState} {process : ProcessInstance} {hash : Str} :
    Reads tables process hash ↔ hash ∈ (flowOf tables process).reads := by
  rw [Reads,flowOf,ExtTreeMap.getD_eq_getD_getElem?]
  cases tables.flows[process]? <;> simp [ProcessFlow.default]

theorem FlowOp.normalize {tables : ScanState} {outputs : List OutputFile} {flow : ProcessFlow} {op : CanonicalOp}
    (h : FlowOp tables outputs flow op) : op.normalize = op := by
  cases h <;> exact normalize_eq_self (by simp) (by simp) (by simp)

/-- What the slice records about a reached process is among the leaves. -/
theorem mem_sliceLeaves_of_reached {order : IterationOrder Traversal} {events : List TracedEvent}
    {rootProcess process : ProcessInstance} {outputs : List OutputFile} (sha256 : Str → Digest) {hash : Str}
    (ho : IsOutputHash outputs hash) (h : Reached (scan .stored rootProcess events) outputs process)
    {op : CanonicalOp} (hop : FlowOp (scan .stored rootProcess events) outputs
      (flowOf (scan .stored rootProcess events) process) op) :
    op.hash sha256 ∈ sliceLeaves sha256 order events rootProcess outputs := by
  cases hflow : (scan .stored rootProcess events).flows[process]? with
  | none =>
    rw [flowOf,ExtTreeMap.getD_eq_getD_getElem?,hflow,Option.getD_none] at hop
    cases hop <;> simp_all [ProcessFlow.default]
  | some flow =>
    rw [flowOf_eq hflow] at hop
    exact (mem_sliceLeaves ho).mpr ⟨op,.flow h hflow hop,by rw [hop.normalize]⟩

/-- A process that opened the path of an output for writing is in the slice as
soon as a close settles the write, and its executable and its reads are committed. -/
theorem settledWrite_committed (sha256 : Str → Digest) (order : IterationOrder Traversal)
    (events : List TracedEvent) (rootProcess process : ProcessInstance) (outputs : List OutputFile)
    (output : OutputFile) (ho : output ∈ outputs) (h : SettledWrite process output.path events) :
    process ∈ includedProcesses order events rootProcess outputs ∧
    (∀ observation tool, .exec process observation ∈ events →
      toolOf (scan .stored rootProcess events) process = some tool →
      (⟨.exec,0,some tool,[],[],[]⟩ : CanonicalOp).hash sha256 ∈
        sliceLeaves sha256 order events rootProcess outputs) ∧
    ∀ event ∈ events, ∀ hash, readBy event = some (process,hash) →
      (⟨.fileRead,0,toolOf (scan .stored rootProcess events) process,[],[hash],[]⟩ : CanonicalOp).hash sha256 ∈
        sliceLeaves sha256 order events rootProcess outputs := by
  have hout : IsOutputHash outputs output.hash := ⟨output,ho,rfl⟩
  have hreached : ∀ order : IterationOrder Traversal,
      Reached (scan order rootProcess events) outputs process :=
    fun order => .start ⟨output,ho,h.pathWriter order rootProcess⟩
  refine ⟨mem_included.mpr (hreached order),?_,?_⟩
  · intro observation tool hexec htool
    have hop : FlowOp (scan .stored rootProcess events) outputs
        (flowOf (scan .stored rootProcess events) process) ⟨.exec,0,some tool,[],[],[]⟩ :=
      .exec (hasExec_scan.mpr ⟨observation,hexec⟩) htool
    exact mem_sliceLeaves_of_reached sha256 hout (hreached .stored) hop
  · intro event hevent hash hread
    have hmem : hash ∈ (flowOf (scan .stored rootProcess events) process).reads :=
      mem_reads_scan.mpr ⟨event,hevent,hread⟩
    have hrelevant : Relevant (scan .stored rootProcess events) outputs hash :=
      Or.inr ⟨process,hreached .stored,reads_iff.mpr hmem⟩
    exact mem_sliceLeaves_of_reached sha256 hout (hreached .stored) (.read hmem hrelevant)

section Exits

def writerProcess : ProcessInstance := ⟨⟨1,0⟩,0⟩

def helperProcess : ProcessInstance := ⟨⟨2,0⟩,0⟩

def writtenContent : Str := digestText (Vector.replicate 32 1)

def writerTool : Str := digestText (Vector.replicate 32 2)

def writerInput : Str := digestText (Vector.replicate 32 3)

def writtenOutput : OutputFile := ⟨utf8 "/o",writtenContent⟩

/-- The writer reads an input, opens the output and forks; its child inherits the
descriptor and is the one to close it. -/
def helperCloses : List TracedEvent :=
  [.exec writerProcess (.content writerTool),
    .fileOpen writerProcess (utf8 "/i") 0 3 false (.content writerInput),
    .fileOpen writerProcess (utf8 "/o") 1 4 false (.missing writtenContent),.fork writerProcess helperProcess,
    .exit writerProcess 0,.fileClose helperProcess 4 none false (some (.content writtenContent))]

theorem settledWrite_helperCloses : SettledWrite writerProcess (utf8 "/o") helperCloses :=
  @SettledWrite.intro writerProcess (utf8 "/o")
    [.exec writerProcess (.content writerTool),
      .fileOpen writerProcess (utf8 "/i") 0 3 false (.content writerInput)]
    [.fork writerProcess helperProcess,.exit writerProcess 0] [] 1 4 4 (.missing writtenContent)
    (.content writtenContent) helperProcess none (by decide) (by decide) (Or.inr ⟨rfl,by decide⟩)

theorem settledWrite_committed_sample :
    writerProcess ∈ includedProcesses .stored helperCloses writerProcess [writtenOutput] ∧
    (⟨.exec,0,some writerTool,[],[],[]⟩ : CanonicalOp).hash (fun _ => Vector.replicate 32 0) ∈
      sliceLeaves (fun _ => Vector.replicate 32 0) .stored helperCloses writerProcess [writtenOutput] := by
  obtain ⟨hincluded,hexec,-⟩ := settledWrite_committed (fun _ => Vector.replicate 32 0) .stored helperCloses
    writerProcess writerProcess [writtenOutput] writtenOutput (List.mem_singleton_self _)
    settledWrite_helperCloses
  exact ⟨hincluded,hexec (.content writerTool) writerTool List.mem_cons_self (by decide)⟩

/-- An event removes or renames the path. -/
def displaces (path : Str) : TracedEvent → Bool
  | .fileUnlink _ p _ _ _ => p = path
  | event => moves path event

/-- A descriptor that is still open when its process exits leaves no author. -/
theorem unclosed_output_omits_writer :
    ¬ ∀ (order : IterationOrder Traversal) (before after : List TracedEvent)
      (process rootProcess : ProcessInstance) (flags : UInt32) (fd : Int) (observation : FileObservation)
      (outputs : List OutputFile), ∀ output ∈ outputs, canWrite flags = true →
      (∀ event ∈ after, displaces output.path event = false) →
      process ∈ includedProcesses order
        (before ++ .fileOpen process output.path flags fd false observation :: after) rootProcess outputs := by
  intro h
  have hincluded := h .stored [] [.exit writerProcess 0] writerProcess writerProcess 1 4 (.missing writtenContent)
    [writtenOutput] writtenOutput (List.mem_singleton_self _) (by decide) (by decide)
  exact absurd hincluded (by decide)

end Exits

end Repx.Slice
