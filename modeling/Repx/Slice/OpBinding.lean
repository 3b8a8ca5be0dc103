import Repx.Operations.OpShapes
import Repx.Slice.Emission

/-! # What the hashed bytes of an emitted operation determine

Every operation of a canonicalized trace or of an output slice is well shaped,
so its hashed bytes determine its content, except that a write without a tool and
a write without an output can be taken for one another.
-/
namespace Repx.Slice
open ByteString Std Trace HashTables Canonical CanonicalOp Sha256

/-- Tools and contents of every flow are file identities. -/
def FlowSound (s : ScanState) : Prop :=
  ∀ process, (∀ t ∈ (flowOf s process).toolHash, IsIdentity t) ∧
    (∀ h ∈ (flowOf s process).reads, IsIdentity h) ∧
    ∀ h, h ∈ (flowOf s process).writes ∨ h ∈ (flowOf s process).renames → IsIdentity h

theorem FlowSound.updateFlow {s : ScanState} (h : FlowSound s) {process : ProcessInstance}
    {f : ProcessFlow → ProcessFlow}
    (hf : (∀ t ∈ (f (flowOf s process)).toolHash, IsIdentity t) ∧
      (∀ x ∈ (f (flowOf s process)).reads, IsIdentity x) ∧
      ∀ x, x ∈ (f (flowOf s process)).writes ∨ x ∈ (f (flowOf s process)).renames → IsIdentity x) :
    FlowSound (s.updateFlow process f) := by
  intro q
  rw [flowOf_updateFlow]
  split_ifs with hq
  · exact hf
  · exact h q

theorem isIdentity_of_contentHash {o : FileObservation} (ho : o.WellFormed) {hash : Str}
    (h : o.contentHash = some hash) : IsIdentity hash := by
  cases o with
  | content x =>
    obtain rfl : x = hash := Option.some_inj.mp h
    exact isIdentity_of_isDigestText ho
  | _ => simp [FileObservation.contentHash] at h

theorem isIdentity_of_readHash {o : FileObservation} (ho : o.WellFormed) {path hash : Str}
    (h : readHash path o = some hash) : IsIdentity hash := by
  unfold readHash at h
  split_ifs at h
  · rw [← Option.some_inj.mp h]
    exact isIdentity_sentinel
  · exact isIdentity_of_contentHash ho h

theorem mem_insert_imp {hashes : ExtTreeSet Str} {hash : Str} (hi : IsIdentity hash)
    (hs : ∀ x ∈ hashes, IsIdentity x) : ∀ x ∈ hashes.insert hash, IsIdentity x := by
  intro x hx
  rw [Worklist.mem_insert_iff] at hx
  rcases hx with rfl | hx
  · exact hi
  · exact hs x hx

theorem flowInvariant_flowSound : FlowInvariant FileObservation.WellFormed FlowSound where
  congr := by
    intro s s' h hf _ process
    have hflow : flowOf s' process = flowOf s process := by rw [flowOf,flowOf,hf]
    rw [hflow]
    exact h process
  exec := by
    intro s process o ho h
    refine h.updateFlow ⟨?_,(h process).2.1,(h process).2.2⟩
    intro t ht
    rw [← Option.some_inj.mp ht]
    exact isIdentity_identity ho
  inherit := by
    intro s parent child h
    refine h.updateFlow ⟨?_,(h child).2.1,(h child).2.2⟩
    intro t ht
    obtain ⟨flow,hflow,ht⟩ := Option.bind_eq_some_iff.mp ht
    exact (h parent).1 t (by rw [flowOf_eq hflow]; exact ht)
  read := by
    intro s process path o hash ho hr h
    exact h.updateFlow ⟨(h process).1,mem_insert_imp (isIdentity_of_readHash ho hr) (h process).2.1,
      (h process).2.2⟩
  write := by
    intro s process o hash ho hc h
    change FlowSound (s.updateFlow process fun flow => { flow with writes := flow.writes.insert hash })
    refine h.updateFlow ⟨(h process).1,(h process).2.1,?_⟩
    rintro x (hx | hx)
    · exact mem_insert_imp (isIdentity_of_contentHash ho hc) (fun y hy => (h process).2.2 y (Or.inl hy)) x hx
    · exact (h process).2.2 x (Or.inr hx)
  rename := by
    intro s process o hash ho hc h
    have hi := isIdentity_of_contentHash ho hc
    change FlowSound (s.updateFlow process fun flow =>
      { flow with reads := flow.reads.insert hash, renames := flow.renames.insert hash })
    refine h.updateFlow ⟨(h process).1,mem_insert_imp hi (h process).2.1,?_⟩
    rintro x (hx | hx)
    · exact (h process).2.2 x (Or.inl hx)
    · exact mem_insert_imp hi (fun y hy => (h process).2.2 y (Or.inr hy)) x hx

theorem flowSound_scan {order : IterationOrder Traversal} {rootProcess : ProcessInstance}
    {events : List TracedEvent} (hw : ∀ event ∈ events, event.WellFormed) :
    FlowSound (scan order rootProcess events) := by
  refine flowInvariant_flowSound.scan ?_ order rootProcess hw
  intro process
  simp [ScanState.initial,flowOf,ProcessFlow.default]

section Shapes
variable {order : IterationOrder Traversal} {tables : ScanState} {outputs : List OutputFile}

theorem FlowSound.wellShaped (h : FlowSound tables) {process : ProcessInstance} {flow : ProcessFlow}
    (hflow : tables.flows[process]? = some flow) {op : CanonicalOp} (hop : FlowOp tables outputs flow op) :
    WellShaped op := by
  have hs := h process
  rw [flowOf_eq hflow] at hs
  obtain ⟨ht,hr,hw⟩ := hs
  cases hop with
  | exec he htool =>
    rw [htool] at ht
    exact ⟨⟨ht,by simp,by simp⟩,by simp,⟨rfl,rfl,rfl⟩⟩
  | read hm _ => exact ⟨⟨ht,by simp,by simpa using hr _ hm⟩,by simp,⟨rfl,rfl⟩⟩
  | write hm _ => exact ⟨⟨ht,by simp,by simpa using hw _ (Or.inl hm)⟩,by simp,⟨rfl,by simp,Or.inl rfl⟩⟩
  | rename hm _ => exact ⟨⟨ht,by simp,by simpa using hw _ (Or.inr hm)⟩,by simp,⟨rfl,rfl⟩⟩

theorem isArg_outputArg : IsArg outputArg := ⟨by decide,by decide⟩

theorem orphanWriter_flow {hash : Str} {writer : ProcessInstance} {flow : ProcessFlow}
    (h : orphanWriter order tables hash = some (writer,flow)) :
    tables.flows[writer]? = some flow ∧ writer ∈ membersAt tables.writersByHash hash := by
  unfold orphanWriter at h
  split at h
  · rename_i writers hwriters
    obtain ⟨p,hp,hsome⟩ := List.exists_of_findSome?_eq_some h
    rw [IterationOrder.mem_visit,ExtTreeSet.mem_toList] at hp
    split at hsome
    · rename_i flow' hflow
      split_ifs at hsome
      obtain ⟨rfl,rfl⟩ := Prod.mk.inj (Option.some_inj.mp hsome)
      exact ⟨hflow,mem_membersAt_iff.mpr ⟨writers,hwriters,hp⟩⟩
    · cases hsome
  · cases h

/-- The operations of a slice of a well-formed trace are well shaped. -/
theorem SliceOp.wellShaped (h : FlowSound tables) (ho : ∀ output ∈ outputs, IsIdentity output.hash)
    {op : CanonicalOp} (hop : SliceOp order tables outputs op) : WellShaped op := by
  cases hop with
  | flow _ hflow hop => exact h.wellShaped hflow hop
  | @orphan hash horphan =>
    obtain ⟨output,hout,rfl⟩ := horphan.1
    have hid := ho output hout
    unfold orphanOp
    split
    · rename_i writer flow hw
      have ht := (h writer).1
      rw [flowOf_eq (orphanWriter_flow hw).1] at ht
      exact ⟨⟨ht,by simp,by simpa using hid⟩,by simp,⟨rfl,by simp,Or.inl rfl⟩⟩
    · exact ⟨⟨by simp,by simpa using isArg_outputArg,by simpa using hid⟩,by simp,⟨rfl,by simp,Or.inr rfl⟩⟩
  | @exit process exitCode _ =>
    refine ⟨⟨?_,by simpa using isArg_exitArg exitCode,by simp⟩,by simp,⟨rfl,rfl⟩⟩
    intro t ht
    obtain ⟨flow,hflow,ht⟩ := Option.bind_eq_some_iff.mp ht
    exact (h process).1 t (by rw [flowOf_eq hflow]; exact ht)

end Shapes

theorem WellShaped.of_sameContent {a b : CanonicalOp} (h : SameContent a b) (hb : WellShaped b) : WellShaped a := by
  rcases a with ⟨t,i,tool,args,ins,outs⟩
  rcases b with ⟨t',i',tool',args',ins',outs'⟩
  obtain ⟨rfl,rfl,rfl,rfl,rfl⟩ := h
  exact hb.withIndex i

theorem wellShaped_of_mem_canonicalizeOutputSlice {sha256 : Str → Digest} {order : IterationOrder Traversal}
    {events : List TracedEvent} {rootProcess : ProcessInstance} {outputs : List OutputFile}
    (hw : ∀ event ∈ events, event.WellFormed) (ho : ∀ output ∈ outputs, IsIdentity output.hash) {op : CanonicalOp}
    (h : op ∈ canonicalizeOutputSlice sha256 order events rootProcess outputs) : WellShaped op := by
  unfold canonicalizeOutputSlice at h
  split_ifs at h
  · cases h
  obtain ⟨raw,hraw,rfl⟩ := mem_finalizeOps h
  obtain ⟨op',hop',hs⟩ := (emit_refines order (scan order rootProcess events) rootProcess outputs).1 raw hraw
  have hraw := WellShaped.of_sameContent hs (hop'.wellShaped (flowSound_scan hw) ho)
  rw [hraw.normalize]
  exact hraw

/-- The operations the two passes can emit from well-formed traces. -/
inductive Emitted : CanonicalOp → Prop
  | events {sha256 : Str → Digest} {scope : TraceScope} {order : IterationOrder ℕ} {events : List TracedEvent}
      {op : CanonicalOp} : (∀ event ∈ events, event.WellFormed) →
      op ∈ canonicalizeEvents sha256 scope order events → Emitted op
  | slice {sha256 : Str → Digest} {order : IterationOrder Traversal} {events : List TracedEvent}
      {rootProcess : ProcessInstance} {outputs : List OutputFile} {op : CanonicalOp} :
      (∀ event ∈ events, event.WellFormed) → (∀ output ∈ outputs, IsIdentity output.hash) →
      op ∈ canonicalizeOutputSlice sha256 order events rootProcess outputs → Emitted op

theorem Emitted.wellShaped {op : CanonicalOp} (h : Emitted op) : WellShaped op := by
  cases h with
  | events hw hop => exact wellShaped_of_mem_canonicalizeEvents hw hop
  | slice hw ho hop => exact wellShaped_of_mem_canonicalizeOutputSlice hw ho hop

/-- Two emitted operations with the same hashed bytes have the same content,
unless one is a write of an unknown tool and the other a write of that content
as a tool, with no output seen. -/
theorem emitted_preimage_binds_iff (a b : CanonicalOp) (ha : Emitted a) (hb : Emitted b) :
    (a.preimage = b.preimage → SameContent a b) ↔ ¬ (AmbiguousPair a b ∨ AmbiguousPair b a) :=
  sameContent_iff_not_ambiguous ha.wellShaped hb.wellShaped

section Exchange

def exchangedContent : Str := digestText (Vector.replicate 32 1)

def lonelyProcess : ProcessInstance := ⟨⟨1,0⟩,0⟩

/-- A write by a process whose executable was not seen. -/
def unknownToolTrace : List TracedEvent :=
  [.fileOpen lonelyProcess (utf8 "/o") 1 3 false (.missing exchangedContent),
    .fileClose lonelyProcess 3 (some (utf8 "/o")) false (some (.content exchangedContent))]

/-- A write that is never closed, by a process that executes the same content. -/
def unclosedTrace : List TracedEvent :=
  [.exec lonelyProcess (.content exchangedContent),
    .fileOpen lonelyProcess (utf8 "/o") 1 3 false (.missing exchangedContent)]

/-- A digest that tells byte strings of different lengths apart. -/
def lengthDigest (s : Str) : Digest := Vector.replicate 32 s.length.toUInt8

def unknownToolOp : CanonicalOp := ⟨.fileWrite,0,none,[],[],[exchangedContent]⟩

def unclosedOp : CanonicalOp := ⟨.fileWrite,0,some exchangedContent,[],[],[]⟩

theorem isDigestText_exchangedContent : IsDigestText exchangedContent := isDigestText_digestText _

theorem emitted_unknownToolOp : Emitted unknownToolOp := by
  refine @Emitted.events lengthDigest ⟨lonelyProcess,[]⟩ .stored unknownToolTrace unknownToolOp ?_ (by decide)
  simp [unknownToolTrace,TracedEvent.WellFormed,TracedEvent.observations,FileObservation.WellFormed,
    isDigestText_exchangedContent]

theorem emitted_unclosedOp : Emitted unclosedOp := by
  refine @Emitted.events lengthDigest ⟨lonelyProcess,[]⟩ .stored unclosedTrace unclosedOp ?_ (by decide)
  simp [unclosedTrace,TracedEvent.WellFormed,TracedEvent.observations,FileObservation.WellFormed,
    isDigestText_exchangedContent]

theorem emitted_preimage_binds_sample :
    Emitted unknownToolOp ∧ Emitted unclosedOp ∧
      ((unknownToolOp.preimage = unclosedOp.preimage → SameContent unknownToolOp unclosedOp) ↔
        ¬ (AmbiguousPair unknownToolOp unclosedOp ∨ AmbiguousPair unclosedOp unknownToolOp)) :=
  ⟨emitted_unknownToolOp,emitted_unclosedOp,
    emitted_preimage_binds_iff _ _ emitted_unknownToolOp emitted_unclosedOp⟩

/-- A lone content is hashed alike as an output and as a tool. -/
theorem tool_and_output_exchanged :
    ¬ ∀ a b : CanonicalOp, Emitted a → Emitted b → a.preimage = b.preimage → SameContent a b := by
  intro h
  have hs := h unknownToolOp unclosedOp emitted_unknownToolOp emitted_unclosedOp (by decide)
  exact absurd hs.2.1 (by decide)

end Exchange

end Repx.Slice
