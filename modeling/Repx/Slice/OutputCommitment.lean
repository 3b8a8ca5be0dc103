import Repx.Slice.OrderIndependence
import Repx.Slice.RenameChains

/-! # Every output is committed

A reached process that wrote or renamed the content of an output accounts for it;
what is left over is attributed to a recorded writer, and only an output whose
content no close and no rename of the trace shows is committed without one.
-/
namespace Repx.Slice
open ByteString Std Trace HashTables Canonical CanonicalOp Sha256

section Contents
variable {order : IterationOrder Traversal} {rootProcess process : ProcessInstance} {content : Str}

/-- A recorded writer of a content stays recorded. -/
theorem wrote_apply (order : IterationOrder Traversal) (site : ℕ) {s : ScanState} (effect : ScanEffect)
    (h : Wrote s content process) : Wrote (s.apply order site effect) content process := by
  cases effect with
  | write p c | rename p c => exact mem_membersAt_addMembers.mpr (Or.inl h)
  | exec | inherit | read | bind | release | author | move | exit => exact h

theorem wrote_foldl (order : IterationOrder Traversal) (site : ℕ) {s : ScanState} (effects : List ScanEffect)
    (h : Wrote s content process) : Wrote (effects.foldl (ScanState.apply order site) s) content process :=
  List.foldlRecOn (motive := fun s => Wrote s content process) _ _ h fun _ hs effect _ =>
    wrote_apply order site effect hs

/-- An effect that records a write or a rename of the content. -/
theorem wrote_of_mem (order : IterationOrder Traversal) (site : ℕ) {effects : List ScanEffect}
    {effect : ScanEffect} (he : effect ∈ effects) (s : ScanState)
    (hw : effect = .write process content ∨ effect = .rename process content) :
    Wrote (effects.foldl (ScanState.apply order site) s) content process := by
  obtain ⟨before,after,rfl⟩ := List.append_of_mem he
  rw [List.foldl_append,List.foldl_cons]
  apply wrote_foldl
  rcases hw with rfl | rfl <;>
    exact mem_membersAt_addMembers.mpr (Or.inr ⟨rfl,List.mem_singleton_self _⟩)

theorem wrote_scanFrom (order : IterationOrder Traversal) (rootProcess : ProcessInstance)
    (events : List TracedEvent) (site : ℕ) {s : ScanState} (h : Wrote s content process) :
    Wrote (scanFrom order rootProcess site s events) content process := by
  induction events generalizing site s with
  | nil => exact h
  | cons event events ih =>
    apply ih
    rw [scanEvent_eq_foldl]
    exact wrote_foldl order site _ h

/-- The effects of an event in the middle of a trace are recorded in the tables. -/
theorem wrote_scan_of_effect {before after : List TracedEvent} {event : TracedEvent} {effect : ScanEffect}
    (he : effect ∈ scanEffects rootProcess (scanFrom order rootProcess 0 .initial before).pendingWrites event)
    (hw : effect = .write process content ∨ effect = .rename process content) :
    Wrote (scan order rootProcess (before ++ event :: after)) content process := by
  have hrun : Wrote (scanFrom order rootProcess 0 .initial (before ++ event :: after)) content process := by
    rw [scanFrom_append,scanFrom]
    apply wrote_scanFrom
    rw [scanEvent_eq_foldl]
    exact wrote_of_mem order _ he _ hw
  exact hrun

theorem ResolvesWrite.wrote {observation : FileObservation} {path : Str} {events : List TracedEvent}
    (h : ResolvesWrite order rootProcess observation process path events)
    (hc : observation.contentHash = some content) : Wrote (scan order rootProcess events) content process := by
  cases h with
  | intro hpending =>
    refine wrote_scan_of_effect ?_ (Or.inl rfl)
    simp [scanEffects,hpending,settleEffects,hc]

theorem wrote_of_fileRename {fromPath toPath : Str} {flags : UInt32} {observation : FileObservation}
    {events : List TracedEvent} (h : .fileRename process fromPath toPath flags false observation ∈ events)
    (hc : observation.contentHash = some content) : Wrote (scan order rootProcess events) content process := by
  obtain ⟨before,after,rfl⟩ := List.append_of_mem h
  refine wrote_scan_of_effect ?_ (Or.inr rfl)
  simp [scanEffects,hc]

end Contents

/-- Operations with the same leaf have the same content. -/
def LeavesSeparate (sha256 : Str → Digest) (ops : List CanonicalOp) : Prop :=
  ∀ a ∈ ops, ∀ b ∈ ops, a.normalize.hash sha256 = b.normalize.hash sha256 →
    SameContent a.normalize b.normalize

section Slices
variable {order : IterationOrder Traversal} {tables : ScanState} {outputs : List OutputFile}

theorem SliceOp.normalize {op : CanonicalOp} (h : SliceOp order tables outputs op) : op.normalize = op := by
  cases h with
  | flow _ _ hop => exact hop.normalize
  | orphan _ =>
    unfold orphanOp
    split <;> exact normalize_eq_self (by simp) (by simp) (by simp)
  | exit _ => exact normalize_eq_self (by simp) (by simp) (by simp)

/-- On a well-formed trace the leaves are separate unless two of the hashed byte
strings collide. -/
theorem leavesSeparate_of_not_collision {sha256 : Str → Digest} {events : List TracedEvent}
    {rootProcess : ProcessInstance} (hw : ∀ event ∈ events, event.WellFormed)
    (ho : ∀ output ∈ outputs, IsIdentity output.hash)
    (hc : ¬ Collision sha256 (sliceInputs order events rootProcess outputs)) :
    LeavesSeparate sha256 (sliceOps order events rootProcess outputs) := by
  intro a ha b hb hash_eq
  obtain ⟨a',ha',hsa⟩ := (emit_refines order (scan order rootProcess events) rootProcess outputs).1 a ha
  obtain ⟨b',hb',hsb⟩ := (emit_refines order (scan order rootProcess events) rootProcess outputs).1 b hb
  have hpre : a.normalize.preimage = b.normalize.preimage := by
    by_contra hdiff
    exact hc ⟨_,List.mem_map.mpr ⟨a,ha,rfl⟩,_,List.mem_map.mpr ⟨b,hb,rfl⟩,hdiff,digestText_injective hash_eq⟩
  have hpre' : a'.preimage = b'.preimage := by
    rw [← ha'.normalize,← hb'.normalize,← hsa.normalize.preimage_eq,← hsb.normalize.preimage_eq,hpre]
  have hshapes := sameContent_iff_not_ambiguous (ha'.wellShaped (flowSound_scan hw) ho)
    (hb'.wellShaped (flowSound_scan hw) ho)
  have hsame : SameContent a' b' := by
    refine hshapes.mpr ?_ hpre'
    rintro (hab | hba)
    · exact hb'.write_output hab.writes.2 hab.noOutput
    · exact ha'.write_output hba.writes.2 hba.noOutput
  exact (hsa.trans (hsame.trans hsb.symm)).normalize

/-- Some operation of the slice writes or renames the content of the output. -/
theorem exists_sliceOp_of_output (order : IterationOrder Traversal) (tables : ScanState) {hash : Str}
    (h : IsOutputHash outputs hash) :
    ∃ op, SliceOp order tables outputs op ∧ (op.opType = .fileWrite ∨ op.opType = .fileRename) ∧
      hash ∈ op.outputHashes := by
  by_cases horphan : Orphan tables outputs hash
  · refine ⟨_,.orphan horphan,?_⟩
    unfold orphanOp
    split <;> simp
  · have hwriter : ∃ process flow, Reached tables outputs process ∧ tables.flows[process]? = some flow ∧
        (hash ∈ flow.writes ∨ hash ∈ flow.renames) := by
      by_contra hnone
      refine horphan ⟨h,fun process flow hp hflow hm => ?_⟩
      exact hnone ⟨process,flow,hp,hflow,hm⟩
    obtain ⟨process,flow,hp,hflow,hm | hm⟩ := hwriter
    · exact ⟨_,.flow hp hflow (.write hm (Or.inl h)),Or.inl rfl,List.mem_singleton_self _⟩
    · exact ⟨_,.flow hp hflow (.rename hm (Or.inl h)),Or.inr rfl,List.mem_singleton_self _⟩

/-- An operation of the slice without a tool, with the argument that marks outputs,
stands for a content that no process wrote. -/
theorem SliceOp.unattributed (hmatch : WritersMatch tables) {op : CanonicalOp}
    (h : SliceOp order tables outputs op) (hargs : op.args = [outputArg]) {hash : Str}
    (hout : hash ∈ op.outputHashes) : ∀ process, ¬ Wrote tables hash process := by
  cases h with
  | flow _ _ hop => cases hop <;> simp at hargs
  | @orphan hash' _ =>
    rcases orphanOp_cases hmatch order hash' with ⟨hnone,heq⟩ | ⟨p,-,heq⟩
    · rw [heq] at hout
      obtain rfl := List.mem_singleton.mp hout
      exact hnone
    · simp [heq] at hargs
  | exit _ => simp at hout

end Slices

/-- Every operation that was emitted survives the deduplication up to its content. -/
theorem exists_mem_finalizeOps {sha256 : Str → Digest} {ops : List CanonicalOp} (h : LeavesSeparate sha256 ops)
    {op : CanonicalOp} (hop : op ∈ ops) : ∃ op' ∈ finalizeOps sha256 ops, SameContent op.normalize op' := by
  have hleaf : op.normalize.hash sha256 ∈ leafHashes sha256 ops := mem_leafHashes.mpr ⟨op,hop,rfl⟩
  obtain ⟨op',hop',heq⟩ := List.mem_map.mp hleaf
  obtain ⟨raw,hraw,rfl⟩ := mem_finalizeOps hop'
  exact ⟨_,hop',h op hop raw hraw heq.symm⟩

/-- The slice commits every output through a write or a rename of its content, and
an operation without author stands only for a content that no resolved close and no
rename of the trace shows. -/
theorem output_committed (sha256 : Str → Digest) (order : IterationOrder Traversal) (events : List TracedEvent)
    (rootProcess : ProcessInstance) (outputs : List OutputFile)
    (hsep : LeavesSeparate sha256 (sliceOps order events rootProcess outputs)) (output : OutputFile)
    (ho : output ∈ outputs) :
    (∃ op ∈ canonicalizeOutputSlice sha256 order events rootProcess outputs,
      (op.opType = .fileWrite ∨ op.opType = .fileRename) ∧ output.hash ∈ op.outputHashes) ∧
    ∀ op ∈ canonicalizeOutputSlice sha256 order events rootProcess outputs,
      op.toolHash = none → op.args = [outputArg] → output.hash ∈ op.outputHashes →
      (∀ observation process path, ResolvesWrite order rootProcess observation process path events →
        observation.contentHash ≠ some output.hash) ∧
      ∀ process fromPath toPath flags observation,
        .fileRename process fromPath toPath flags false observation ∈ events →
        observation.contentHash ≠ some output.hash := by
  have hout : IsOutputHash outputs output.hash := ⟨output,ho,rfl⟩
  obtain ⟨hof,hto⟩ := emit_refines order (scan order rootProcess events) rootProcess outputs
  rw [canonicalizeOutputSlice,if_neg (outputHashes_nonempty hout)]
  constructor
  · obtain ⟨spec,hspec,htype,hmem⟩ := exists_sliceOp_of_output order (scan order rootProcess events) hout
    obtain ⟨raw,hraw,hs⟩ := hto spec hspec
    obtain ⟨op,hop,hs'⟩ := exists_mem_finalizeOps hsep hraw
    have hsame : SameContent spec op := by
      rw [← hspec.normalize]
      exact hs.normalize.trans hs'
    refine ⟨op,hop,?_,?_⟩
    · rw [← hsame.1]
      exact htype
    · rw [← hsame.2.2.2.2]
      exact hmem
  · intro op hop _ hargs hmem
    obtain ⟨raw,hraw,rfl⟩ := mem_finalizeOps hop
    obtain ⟨spec,hspec,hs⟩ := hof raw hraw
    have hsame : SameContent raw.normalize spec := by
      rw [← hspec.normalize]
      exact hs.normalize
    rw [hsame.2.2.1] at hargs
    rw [hsame.2.2.2.2] at hmem
    have hnone := hspec.unattributed (writersMatch_scan order rootProcess events) hargs hmem
    constructor
    · intro observation process path hresolves hc
      exact hnone process (hresolves.wrote hc)
    · intro process fromPath toPath flags observation hrename hc
      exact hnone process (wrote_of_fileRename hrename hc)

section Found

def foundOutput : OutputFile := ⟨utf8 "/p",writerInput⟩

theorem leavesSeparate_lateClose :
    LeavesSeparate lengthDigest (sliceOps .stored lateClose writerProcess [writtenOutput,foundOutput]) := by
  unfold LeavesSeparate SameContent
  decide

/-- The renamed output is written by its author; the output that was there before
the trace began has none. -/
theorem output_committed_sample :
    (∃ op ∈ canonicalizeOutputSlice lengthDigest .stored lateClose writerProcess [writtenOutput,foundOutput],
      (op.opType = .fileWrite ∨ op.opType = .fileRename) ∧ writtenContent ∈ op.outputHashes) ∧
    (⟨.fileWrite,4294967295,none,[outputArg],[],[writerInput]⟩ : CanonicalOp) ∈
      canonicalizeOutputSlice lengthDigest .stored lateClose writerProcess [writtenOutput,foundOutput] ∧
    ∀ observation process path,
      ResolvesWrite .stored writerProcess observation process path lateClose →
      observation.contentHash ≠ some writerInput := by
  have hwritten := output_committed lengthDigest .stored lateClose writerProcess [writtenOutput,foundOutput]
    leavesSeparate_lateClose writtenOutput List.mem_cons_self
  have hfound := output_committed lengthDigest .stored lateClose writerProcess [writtenOutput,foundOutput]
    leavesSeparate_lateClose foundOutput (List.mem_cons_of_mem _ List.mem_cons_self)
  have hop : (⟨.fileWrite,4294967295,none,[outputArg],[],[writerInput]⟩ : CanonicalOp) ∈
      canonicalizeOutputSlice lengthDigest .stored lateClose writerProcess [writtenOutput,foundOutput] := by
    decide +kernel
  exact ⟨hwritten.1,hop,(hfound.2 _ hop rfl rfl (List.mem_singleton_self _)).1⟩

end Found

end Repx.Slice
