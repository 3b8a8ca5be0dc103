import Repx.Slice.OutputSlice
import Repx.Slice.ScanTables

/-! # The processes a slice includes

The walk includes exactly the processes that are reached from the writers of the
output paths through contents other than those of the outputs. It is closed under
content dependency when the contents of the outputs add no process to these.
-/
namespace Repx.Slice
open ByteString Std Trace HashTables Worklist Sha256

section Walk
variable (tables : ScanState) (outputs : List OutputFile)

/-- A process is responsible for the path of a selected output. -/
def IsPathWriter (process : ProcessInstance) : Prop :=
  ∃ output ∈ outputs, process ∈ membersAt tables.writersByPath output.path

def IsOutputHash (hash : Str) : Prop := ∃ output ∈ outputs, output.hash = hash

def Reads (process : ProcessInstance) (hash : Str) : Prop :=
  ∃ flow, tables.flows[process]? = some flow ∧ hash ∈ flow.reads

/-- A process closed a write of the content or renamed a file with it. -/
def Wrote (hash : Str) (process : ProcessInstance) : Prop := process ∈ membersAt tables.writersByHash hash

/-- Reached from the output paths through contents that are not outputs. -/
def Reached : ProcessInstance → Prop :=
  Reach (IsPathWriter tables outputs) (IsOutputHash outputs) (Reads tables) (Wrote tables)

variable {tables outputs}

theorem mem_outputHashes {hash : Str} : hash ∈ outputHashes outputs ↔ IsOutputHash outputs hash := by
  simp [outputHashes,IsOutputHash,ExtTreeSet.mem_ofList]

theorem outputHashes_nonempty {hash : Str} (h : IsOutputHash outputs hash) :
    ¬ (outputHashes outputs).isEmpty = true := by
  rw [ExtTreeSet.isEmpty_iff]
  intro hempty
  have hmem := mem_outputHashes.mpr h
  rw [hempty] at hmem
  exact absurd hmem ExtTreeSet.not_mem_empty

theorem mem_pathWriters {order : IterationOrder Traversal} {i : ℕ} {path : Str} {process : ProcessInstance} :
    process ∈ pathWriters order tables i path ↔ process ∈ membersAt tables.writersByPath path := by
  rw [pathWriters,mem_membersAt_iff]
  cases tables.writersByPath[path]? <;> simp

theorem mem_readHashes {order : IterationOrder Traversal} {step : ℕ} {process : ProcessInstance} {hash : Str} :
    hash ∈ readHashes order tables step process ↔ Reads tables process hash := by
  rw [readHashes,Reads]
  cases tables.flows[process]? <;> simp

theorem mem_hashWriters {order : IterationOrder Traversal} {step : ℕ} {hash : Str} {process : ProcessInstance} :
    process ∈ hashWriters order tables step hash ↔ Wrote tables hash process := by
  rw [hashWriters,Wrote,mem_membersAt_iff]
  cases tables.writersByHash[hash]? <;> simp

/-- What the seeding adds to a walk state. -/
structure Seeded (seeds : ProcessInstance → Prop) (hashes : ExtTreeSet Str) (w : WalkState) : Prop where
  included : ∀ p, p ∈ w.included ↔ seeds p
  queued : ∀ p, p ∈ w.queue ↔ p ∈ w.included
  relevant : w.relevant = hashes
  size : w.queue.length = w.included.size

theorem Seeded.seedFrom {seeds : ProcessInstance → Prop} {hashes : ExtTreeSet Str} {w : WalkState}
    (h : Seeded seeds hashes w) (order : IterationOrder Traversal) (i : ℕ) :
    Seeded (fun p => seeds p ∨ IsPathWriter tables outputs p) hashes
      (seedFrom order tables i outputs w) := by
  induction outputs generalizing i w seeds with
  | nil =>
    refine ⟨fun p => ?_,h.queued,h.relevant,h.size⟩
    simp [Slice.seedFrom,h.included,IsPathWriter]
  | cons output outputs ih =>
    have hstep : Seeded (fun p => seeds p ∨ p ∈ membersAt tables.writersByPath output.path) hashes
        (enqueueAll w (pathWriters order tables i output.path)) := by
      constructor
      · intro p
        rw [mem_included_enqueueAll,h.included,mem_pathWriters]
      · intro p
        rw [mem_queue_enqueueAll,mem_included_enqueueAll,h.queued]
        by_cases hp : p ∈ w.included <;> simp [hp]
      · rw [enqueueAll_relevant,h.relevant]
      · have hs := size_enqueueAll (w := w) (l := pathWriters order tables i output.path)
        have hw := h.size
        omega
    have hrest := ih hstep (i + 1)
    refine ⟨fun p => ?_,hrest.queued,hrest.relevant,hrest.size⟩
    rw [Slice.seedFrom,hrest.included]
    simp only [IsPathWriter,List.mem_cons,exists_eq_or_imp,or_assoc]

theorem mem_allWriters {process : ProcessInstance} (h : Reached tables outputs process) :
    process ∈ allWriters tables := by
  have hmem : ∀ {writers : Writers} {key : Str}, process ∈ membersAt writers key →
      ∃ e ∈ writers.toList, process ∈ e.2.toList := by
    intro writers key hp
    obtain ⟨set,hset,hp⟩ := mem_membersAt_iff.mp hp
    exact ⟨(key,set),ExtTreeMap.mem_toList_iff_getElem?_eq_some.mpr hset,ExtTreeSet.mem_toList.mpr hp⟩
  rw [allWriters,List.mem_flatMap]
  cases h with
  | start hs =>
    obtain ⟨output,-,hp⟩ := hs
    obtain ⟨e,he,hp⟩ := hmem hp
    exact ⟨e,List.mem_append_left _ he,hp⟩
  | next _ _ _ hw =>
    obtain ⟨e,he,hp⟩ := hmem hw
    exact ⟨e,List.mem_append_right _ he,hp⟩

private theorem sliceWalk_spec (order : IterationOrder Traversal) :
    ((∀ p, p ∈ (sliceWalk order tables outputs).included ↔ Reached tables outputs p) ∧
      ∀ h, h ∈ (sliceWalk order tables outputs).relevant ↔
        IsOutputHash outputs h ∨ ∃ p, Reached tables outputs p ∧ Reads tables p h) ∧
      (sliceWalk order tables outputs).queue = [] := by
  have hstart : Seeded (fun _ => False) (outputHashes outputs) ⟨∅,outputHashes outputs,[]⟩ :=
    ⟨by simp,by simp,rfl,rfl⟩
  have hseed : Seeded (fun p => False ∨ IsPathWriter tables outputs p) (outputHashes outputs)
      (seedFrom order tables 0 outputs ⟨∅,outputHashes outputs,[]⟩) := hstart.seedFrom order 0
  have hinv : Invariant (IsPathWriter tables outputs) (IsOutputHash outputs) (Reads tables) (Wrote tables)
      (fun _ => False) (seedFrom order tables 0 outputs ⟨∅,outputHashes outputs,[]⟩) := by
    constructor
    · intro p hp
      rw [hseed.included] at hp
      exact .start (hp.resolve_left id)
    · intro h hh
      rw [hseed.relevant,mem_outputHashes] at hh
      exact Or.inl hh
    · intro p hp
      rw [hseed.included]
      exact Or.inr hp
    · intro h hh
      rw [hseed.relevant,mem_outputHashes]
      exact hh
    · exact fun p hp => (hseed.queued p).mp hp
    · exact fun p hp => Or.inr (Or.inl ((hseed.queued p).mpr hp))
    · intro h hh
      rw [hseed.relevant,mem_outputHashes] at hh
      exact Or.inl hh
  have hnodes : ∀ p, Reach (IsPathWriter tables outputs) (IsOutputHash outputs) (Reads tables) (Wrote tables) p →
      p ∈ allWriters tables := fun _ hp => mem_allWriters hp
  have hfuel : (seedFrom order tables 0 outputs ⟨∅,outputHashes outputs,[]⟩).queue.length +
      (allWriters tables).length ≤ (allWriters tables).length +
        (seedFrom order tables 0 outputs ⟨∅,outputHashes outputs,[]⟩).included.size := by
    rw [hseed.size]
    omega
  have hlabels : ∀ step p h, h ∈ readHashes order tables step p ↔ Reads tables p h :=
    fun _ _ _ => mem_readHashes
  have hmembers : ∀ step h p, p ∈ hashWriters order tables step h ↔ Wrote tables h p :=
    fun _ _ _ => mem_hashWriters
  exact ⟨walk_spec hlabels hmembers hnodes hinv hfuel,(hinv.walk hlabels hmembers hnodes hfuel).2⟩

theorem mem_included {order : IterationOrder Traversal} {process : ProcessInstance} :
    process ∈ (sliceWalk order tables outputs).included ↔ Reached tables outputs process :=
  (sliceWalk_spec order).1.1 process

theorem mem_relevant {order : IterationOrder Traversal} {hash : Str} :
    hash ∈ (sliceWalk order tables outputs).relevant ↔
      IsOutputHash outputs hash ∨ ∃ p, Reached tables outputs p ∧ Reads tables p hash :=
  (sliceWalk_spec order).1.2 hash

/-- The contents of the outputs are relevant from the start. -/
theorem relevant_of_mem_outputHashes {order : IterationOrder Traversal} {hash : Str}
    (h : hash ∈ outputHashes outputs) : hash ∈ (sliceWalk order tables outputs).relevant :=
  mem_relevant.mpr (Or.inl (mem_outputHashes.mp h))

end Walk

/-- The included processes contain the writers of the output paths and, with a
process that read some content, every process that wrote it. -/
def DependencyClosed (order : IterationOrder Traversal) (events : List TracedEvent)
    (rootProcess : ProcessInstance) (outputs : List OutputFile) : Prop :=
  (∀ output ∈ outputs, ∀ p ∈ membersAt (scan order rootProcess events).writersByPath output.path,
      p ∈ includedProcesses order events rootProcess outputs) ∧
    ∀ p ∈ includedProcesses order events rootProcess outputs, ∀ hash,
      Reads (scan order rootProcess events) p hash → ∀ q, Wrote (scan order rootProcess events) hash q →
      q ∈ includedProcesses order events rootProcess outputs

/-- The contents of the outputs, wherever a reached process reads them, were
written by reached processes only. -/
def OutputReadsReached (tables : ScanState) (outputs : List OutputFile) : Prop :=
  ∀ p, Reached tables outputs p → ∀ output ∈ outputs, Reads tables p output.hash →
    ∀ q, Wrote tables output.hash q → Reached tables outputs q

/-- A slice is closed under content dependency exactly when reading the contents
of an output leads to no process that is not reached otherwise. -/
theorem includedProcesses_closed_iff (order : IterationOrder Traversal) (events : List TracedEvent)
    (rootProcess : ProcessInstance) (outputs : List OutputFile) :
    DependencyClosed order events rootProcess outputs ↔
      OutputReadsReached (scan order rootProcess events) outputs := by
  simp only [DependencyClosed,includedProcesses,mem_included]
  constructor
  · rintro ⟨-,hclosed⟩ p hp output ho hr q hq
    exact hclosed p hp output.hash hr q hq
  · intro hreached
    refine ⟨fun output ho p hp => .start ⟨output,ho,hp⟩,?_⟩
    intro p hp hash hr q hq
    by_cases hout : IsOutputHash outputs hash
    · obtain ⟨output,ho,rfl⟩ := hout
      exact hreached p hp output ho hr q hq
    · exact .next hp hr hout hq

section Copy

def generatorProcess : ProcessInstance := ⟨⟨2,0⟩,0⟩

def copyProcess : ProcessInstance := ⟨⟨1,0⟩,0⟩

def copiedContent : Str := digestText (Vector.replicate 32 1)

/-- A file is generated and then copied to the output path. -/
def copiedOutput : List TracedEvent :=
  [.fileOpen generatorProcess (utf8 "/tmp/x") 1 3 false (.missing copiedContent),
    .fileClose generatorProcess 3 (some (utf8 "/tmp/x")) false (some (.content copiedContent)),
    .fileOpen copyProcess (utf8 "/tmp/x") 0 3 false (.content copiedContent),
    .fileOpen copyProcess (utf8 "/o") 1 4 false (.missing copiedContent),
    .fileClose copyProcess 4 (some (utf8 "/o")) false (some (.content copiedContent))]

/-- The copied content is the content of the output, which the walk does not
expand, so the process that generated it is left out. -/
theorem copied_output_omits_generator :
    ¬ ∃ order : IterationOrder Traversal,
      DependencyClosed order copiedOutput copyProcess [⟨utf8 "/o",copiedContent⟩] := by
  rintro ⟨order,-,hclosed⟩
  have hincluded : ∀ p, p ∈ includedProcesses order copiedOutput copyProcess [⟨utf8 "/o",copiedContent⟩] ↔
      p ∈ includedProcesses .stored copiedOutput copyProcess [⟨utf8 "/o",copiedContent⟩] := by
    intro p
    rw [includedProcesses,includedProcesses,scan_eq order .stored,mem_included,mem_included]
  rw [scan_eq order .stored] at hclosed
  have h := hclosed copyProcess ((hincluded copyProcess).mpr (by decide)) copiedContent
    ⟨_,rfl,by decide⟩ generatorProcess (by unfold Wrote; decide)
  rw [hincluded] at h
  exact absurd h (by decide)

end Copy

end Repx.Slice
