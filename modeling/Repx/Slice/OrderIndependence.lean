import Mathlib.Data.List.Rotate
import Repx.Slice.OpBinding

/-! # Independence of the iteration order

The only traversal of an unordered table that can be seen in the leaves is the
search for a writer of an orphaned output, which stops at the first one. The
leaves are independent of all orders exactly when the writers of each orphaned
output run the same tool.
-/
namespace Repx.Slice
open ByteString Std Trace HashTables Canonical CanonicalOp Sha256

/-- All writers of an output that no reached process wrote run the same tool. -/
def OrphanToolsAgree (tables : ScanState) (outputs : List OutputFile) : Prop :=
  ∀ hash, Orphan tables outputs hash → ∀ p q, Wrote tables hash p → Wrote tables hash q →
    toolOf tables p = toolOf tables q

section Orphans
variable {tables : ScanState} {outputs : List OutputFile}

/-- The flow of a recorded writer exists and names the content. -/
theorem WritersMatch.exists_flow (h : WritersMatch tables) {hash : Str} {process : ProcessInstance}
    (hp : Wrote tables hash process) :
    ∃ flow, tables.flows[process]? = some flow ∧ (hash ∈ flow.writes ∨ hash ∈ flow.renames) := by
  have hflow := (h hash process).mp hp
  cases hs : tables.flows[process]? with
  | some flow =>
    rw [flowOf_eq hs] at hflow
    exact ⟨flow,rfl,hflow⟩
  | none =>
    rw [flowOf,ExtTreeMap.getD_eq_getD_getElem?,hs] at hflow
    simp [ProcessFlow.default] at hflow

/-- The search for an orphan's writer takes the first one of the traversal. -/
theorem orphanWriter_of_head (h : WritersMatch tables) {order : IterationOrder Traversal} {hash : Str}
    {writers : ExtTreeSet ProcessInstance} (hw : tables.writersByHash[hash]? = some writers)
    {process : ProcessInstance} {rest : List ProcessInstance}
    (hvisit : order.visit (.orphanWriters hash) writers.toList = process :: rest) :
    ∃ flow, orphanWriter order tables hash = some (process,flow) ∧ tables.flows[process]? = some flow := by
  have hp : process ∈ writers := by
    rw [← ExtTreeSet.mem_toList,← IterationOrder.mem_visit order (.orphanWriters hash),hvisit]
    exact List.mem_cons_self
  obtain ⟨flow,hflow,hm⟩ := h.exists_flow (mem_membersAt_iff.mpr ⟨writers,hw,hp⟩)
  refine ⟨flow,?_,hflow⟩
  have hcond : (flow.writes.contains hash || flow.renames.contains hash) = true := by
    simpa only [Bool.or_eq_true,ExtTreeSet.contains_iff_mem] using hm
  simp only [orphanWriter,hw,hvisit,List.findSome?_cons,hflow,hcond,if_true]

/-- An orphan is attributed to some writer, if it has one. -/
theorem orphanOp_cases (h : WritersMatch tables) (order : IterationOrder Traversal) (hash : Str) :
    ((∀ p, ¬ Wrote tables hash p) ∧
      orphanOp order tables hash = ⟨.fileWrite,0,none,[outputArg],[],[hash]⟩) ∨
    ∃ p, Wrote tables hash p ∧ orphanOp order tables hash = ⟨.fileWrite,0,toolOf tables p,[],[],[hash]⟩ := by
  cases hw : tables.writersByHash[hash]? with
  | none =>
    refine Or.inl ⟨?_,?_⟩
    · intro p hp
      obtain ⟨set,hset,-⟩ := mem_membersAt_iff.mp hp
      rw [hw] at hset
      cases hset
    · simp only [orphanOp,orphanWriter,hw]
  | some writers =>
    cases hv : order.visit (.orphanWriters hash) writers.toList with
    | nil =>
      refine Or.inl ⟨?_,?_⟩
      · intro p hp
        obtain ⟨set,hset,hp⟩ := mem_membersAt_iff.mp hp
        obtain rfl := Option.some_inj.mp (hw.symm.trans hset)
        rw [← ExtTreeSet.mem_toList,← IterationOrder.mem_visit order (.orphanWriters hash),hv] at hp
        cases hp
      · simp only [orphanOp,orphanWriter,hw,hv,List.findSome?_nil]
    | cons p rest =>
      obtain ⟨flow,ho,hflow⟩ := orphanWriter_of_head h hw hv
      refine Or.inr ⟨p,(orphanWriter_flow ho).2,?_⟩
      simp only [orphanOp,ho,toolOf,flowOf_eq hflow]

theorem SliceOp.of_order (h : WritersMatch tables) (hagree : OrphanToolsAgree tables outputs)
    {order : IterationOrder Traversal} (order' : IterationOrder Traversal) {op : CanonicalOp}
    (hop : SliceOp order tables outputs op) : SliceOp order' tables outputs op := by
  cases hop with
  | flow hp hflow hop => exact .flow hp hflow hop
  | exit he => exact .exit he
  | @orphan hash ho =>
    have heq : orphanOp order tables hash = orphanOp order' tables hash := by
      rcases orphanOp_cases h order hash with ⟨hn,he⟩ | ⟨p,hp,he⟩
      · rcases orphanOp_cases h order' hash with ⟨-,he'⟩ | ⟨q,hq,-⟩
        · rw [he,he']
        · exact absurd hq (hn q)
      · rcases orphanOp_cases h order' hash with ⟨hn',-⟩ | ⟨q,hq,he'⟩
        · exact absurd hp (hn' p)
        · rw [he,he',hagree hash ho p q hp hq]
    rw [heq]
    exact .orphan ho

end Orphans

theorem sliceLeaves_eq_of_agree {events : List TracedEvent} {rootProcess : ProcessInstance}
    {outputs : List OutputFile} (sha256 : Str → Digest) (order order' : IterationOrder Traversal)
    (hagree : OrphanToolsAgree (scan .stored rootProcess events) outputs) :
    sliceLeaves sha256 order events rootProcess outputs = sliceLeaves sha256 order' events rootProcess outputs := by
  have hmatch := writersMatch_scan .stored rootProcess events
  have hmutual : ∀ order order' : IterationOrder Traversal, ∀ op ∈ sliceOps order events rootProcess outputs,
      ∃ op' ∈ sliceOps order' events rootProcess outputs, SameContent op op' := by
    intro order order' op hop
    obtain ⟨x,hx,hs⟩ := (emit_refines order (scan order rootProcess events) rootProcess outputs).1 op hop
    rw [scan_eq order .stored] at hx
    have hx' := hx.of_order hmatch hagree order'
    rw [← scan_eq order' .stored] at hx'
    obtain ⟨op',hop',hs'⟩ := (emit_refines order' (scan order' rootProcess events) rootProcess outputs).2 x hx'
    exact ⟨op',hop',hs.trans hs'⟩
  unfold sliceLeaves canonicalizeOutputSlice
  split_ifs
  · rfl
  · exact leafHashes_eq_of_sameContent (hmutual order order') (hmutual order' order)

section Necessity

/-- The stored order, except that one traversal is rotated. -/
def rotatedAt (site : Traversal) (n : ℕ) : IterationOrder Traversal where
  visit i l := if i = site then l.rotate n else l
  perm i l := by
    split_ifs
    · exact l.rotate_perm n
    · exact .refl l

/-- Every writer of a content is the first one in some order. -/
theorem exists_order_orphanWriter {tables : ScanState} (h : WritersMatch tables) {hash : Str} {p : ProcessInstance}
    (hp : Wrote tables hash p) :
    ∃ (order : IterationOrder Traversal) (flow : ProcessFlow),
      orphanWriter order tables hash = some (p,flow) ∧ tables.flows[p]? = some flow := by
  obtain ⟨writers,hw,hp⟩ := mem_membersAt_iff.mp hp
  rw [← ExtTreeSet.mem_toList] at hp
  obtain ⟨i,hi,hpi⟩ := List.mem_iff_getElem.mp hp
  have hvisit : (rotatedAt (.orphanWriters hash) i).visit (.orphanWriters hash) writers.toList =
      p :: (writers.toList.drop (i + 1) ++ writers.toList.take i) := by
    simp only [rotatedAt,if_true]
    rw [List.rotate_eq_drop_append_take (by omega),List.drop_eq_getElem_cons hi,hpi,List.cons_append]
  exact ⟨rotatedAt (.orphanWriters hash) i,orphanWriter_of_head h hw hvisit⟩

theorem exists_order_orphanOp {tables : ScanState} (h : WritersMatch tables) {hash : Str} {p : ProcessInstance}
    (hp : Wrote tables hash p) :
    ∃ order : IterationOrder Traversal, orphanOp order tables hash = ⟨.fileWrite,0,toolOf tables p,[],[],[hash]⟩ := by
  obtain ⟨order,flow,ho,hflow⟩ := exists_order_orphanWriter h hp
  refine ⟨order,?_⟩
  simp only [orphanOp,ho,toolOf,flowOf_eq hflow]

/-- Every write of a slice names the content it wrote. -/
theorem SliceOp.write_output {order : IterationOrder Traversal} {tables : ScanState} {outputs : List OutputFile}
    {op : CanonicalOp} (hop : SliceOp order tables outputs op) (ht : op.opType = .fileWrite) :
    op.outputHashes ≠ [] := by
  cases hop with
  | flow _ _ hop => cases hop <;> simp_all
  | orphan _ =>
    unfold orphanOp
    split <;> simp
  | exit _ => simp at ht

/-- The byte strings hashed for the operations of a slice. -/
def sliceInputs (order : IterationOrder Traversal) (events : List TracedEvent) (rootProcess : ProcessInstance)
    (outputs : List OutputFile) : List Str :=
  (sliceOps order events rootProcess outputs).map fun op => op.normalize.preimage

section Leaves
variable {events : List TracedEvent} {rootProcess : ProcessInstance} {outputs : List OutputFile}

theorem preimage_mem_sliceInputs {order : IterationOrder Traversal} {op : CanonicalOp}
    (hop : SliceOp order (scan .stored rootProcess events) outputs op) :
    op.normalize.preimage ∈ sliceInputs order events rootProcess outputs := by
  rw [scan_eq .stored order] at hop
  obtain ⟨op',hop',hs⟩ := (emit_refines order (scan order rootProcess events) rootProcess outputs).2 op hop
  exact List.mem_map.mpr ⟨op',hop',hs.normalize.preimage_eq.symm⟩

/-- A slice operation that hashes the same bytes as the write of an orphan is that
write. -/
theorem SliceOp.eq_orphanOp {tables : ScanState} (hsound : FlowSound tables)
    (ho : ∀ output ∈ outputs, IsIdentity output.hash) {order order' : IterationOrder Traversal} {hash : Str}
    (horphan : Orphan tables outputs hash) {op : CanonicalOp} (hop : SliceOp order' tables outputs op)
    (hpre : op.preimage = (orphanOp order tables hash).preimage) :
    SameContent (orphanOp order' tables hash) (orphanOp order tables hash) := by
  have horph : SliceOp order tables outputs (orphanOp order tables hash) := .orphan horphan
  have hs : SameContent op (orphanOp order tables hash) := by
    refine (sameContent_iff_not_ambiguous (hop.wellShaped hsound ho) (horph.wellShaped hsound ho)).mpr ?_ hpre
    rintro (hab | hba)
    · exact horph.write_output hab.writes.2 hab.noOutput
    · exact hop.write_output hba.writes.2 hba.noOutput
  have hwrite : (orphanOp order tables hash).opType = .fileWrite := by
    unfold orphanOp
    split <;> rfl
  have houtput : ∀ order : IterationOrder Traversal, ∀ h, (orphanOp order tables h).outputHashes = [h] := by
    intro order h
    unfold orphanOp
    split <;> rfl
  obtain ⟨htype,-,-,-,hout⟩ := id hs
  rw [hwrite] at htype
  rw [houtput] at hout
  cases hop with
  | @flow process flow _ hp hflow hop =>
    cases hop with
    | write hm _ =>
      obtain rfl := List.singleton_inj.mp hout
      exact absurd (Or.inl hm) (horphan.2 process flow hp hflow)
    | _ => simp at htype
  | @orphan h _ =>
    rw [houtput] at hout
    obtain rfl := List.singleton_inj.mp hout
    exact hs
  | exit _ => simp at htype

theorem agree_of_sliceLeaves_eq {sha256 : Str → Digest} (hw : ∀ event ∈ events, event.WellFormed)
    (ho : ∀ output ∈ outputs, IsIdentity output.hash)
    (heq : ∀ order order' : IterationOrder Traversal, sliceLeaves sha256 order events rootProcess outputs =
      sliceLeaves sha256 order' events rootProcess outputs) :
    OrphanToolsAgree (scan .stored rootProcess events) outputs ∨ ∃ order order' : IterationOrder Traversal,
      Collision sha256 (sliceInputs order events rootProcess outputs ++
        sliceInputs order' events rootProcess outputs) := by
  by_cases hc : ∃ order order' : IterationOrder Traversal, Collision sha256
      (sliceInputs order events rootProcess outputs ++ sliceInputs order' events rootProcess outputs)
  · exact Or.inr hc
  refine Or.inl fun h horphan p q hp hq => ?_
  have hmatch := writersMatch_scan .stored rootProcess events
  have hsound : FlowSound (scan .stored rootProcess events) := flowSound_scan hw
  obtain ⟨order,hfirst⟩ := exists_order_orphanOp hmatch hp
  obtain ⟨order',hfirst'⟩ := exists_order_orphanOp hmatch hq
  have horph : SliceOp order (scan .stored rootProcess events) outputs
      (orphanOp order (scan .stored rootProcess events) h) := .orphan horphan
  have hleaf : (orphanOp order (scan .stored rootProcess events) h).normalize.hash sha256 ∈
      sliceLeaves sha256 order' events rootProcess outputs := by
    rw [← heq order order']
    exact (mem_sliceLeaves horphan.1).mpr ⟨_,horph,rfl⟩
  obtain ⟨op,hop,hhash⟩ := (mem_sliceLeaves horphan.1).mp hleaf
  have hpre : op.normalize.preimage = (orphanOp order (scan .stored rootProcess events) h).normalize.preimage := by
    by_contra hdiff
    exact hc ⟨order',order,_,List.mem_append_left _ (preimage_mem_sliceInputs hop),_,
      List.mem_append_right _ (preimage_mem_sliceInputs horph),hdiff,digestText_injective hhash⟩
  rw [(hop.wellShaped hsound ho).normalize,(horph.wellShaped hsound ho).normalize] at hpre
  obtain ⟨-,htool,-⟩ := hop.eq_orphanOp hsound ho horphan hpre
  rw [hfirst,hfirst'] at htool
  exact htool.symm

end Leaves

/-- The leaves are the same for all orders of traversal if the writers of every
orphaned output run the same tool; they are not otherwise, on a well-formed trace
whose operations do not collide. -/
theorem sliceLeaves_order_independent_iff (sha256 : Str → Digest) (events : List TracedEvent)
    (rootProcess : ProcessInstance) (outputs : List OutputFile) :
    (OrphanToolsAgree (scan .stored rootProcess events) outputs → ∀ order order' : IterationOrder Traversal,
      sliceLeaves sha256 order events rootProcess outputs =
        sliceLeaves sha256 order' events rootProcess outputs) ∧
    ((∀ event ∈ events, event.WellFormed) → (∀ output ∈ outputs, IsIdentity output.hash) →
      (∀ order order' : IterationOrder Traversal, sliceLeaves sha256 order events rootProcess outputs =
        sliceLeaves sha256 order' events rootProcess outputs) →
      OrphanToolsAgree (scan .stored rootProcess events) outputs ∨ ∃ order order' : IterationOrder Traversal,
        Collision sha256 (sliceInputs order events rootProcess outputs ++
          sliceInputs order' events rootProcess outputs)) :=
  ⟨fun hagree order order' => sliceLeaves_eq_of_agree sha256 order order' hagree,
    fun hw ho heq => agree_of_sliceLeaves_eq hw ho heq⟩

end Necessity

section TwoTools

def sharedContent : Str := digestText (Vector.replicate 32 1)

def toolContent (process : ProcessInstance) : Str := digestText (Vector.replicate 32 process.lifetime.pid.toUInt8)

/-- A process that executes a tool of its own and writes the shared content. -/
def writeSharedContent (process : ProcessInstance) (path : Str) : List TracedEvent :=
  [.exec process (.content (toolContent process)),.fileOpen process path 1 3 false (.missing sharedContent),
    .fileClose process 3 (some path) false (some (.content sharedContent))]

def firstWriter : ProcessInstance := ⟨⟨2,0⟩,0⟩

def secondWriter : ProcessInstance := ⟨⟨3,0⟩,0⟩

/-- Two tools write the same content, and neither writes the path of the output. -/
def twoToolsTrace : List TracedEvent :=
  writeSharedContent firstWriter (utf8 "/a") ++ writeSharedContent secondWriter (utf8 "/b")

def linkedOutput : List OutputFile := [⟨utf8 "/o",sharedContent⟩]

def writeBy (index : UInt32) (process : ProcessInstance) : CanonicalOp :=
  ⟨.fileWrite,index,some (toolContent process),[],[],[sharedContent]⟩

theorem sliceOps_twoTools_stored :
    sliceOps .stored twoToolsTrace firstWriter linkedOutput = [writeBy 0 firstWriter] := by
  decide

theorem sliceOps_twoTools_reversed :
    sliceOps .reversed twoToolsTrace firstWriter linkedOutput = [writeBy 1 secondWriter] := by
  decide

/-- One tool writes the content twice. -/
def oneToolTrace : List TracedEvent :=
  writeSharedContent firstWriter (utf8 "/a") ++ writeSharedContent firstWriter (utf8 "/b")

theorem orphanToolsAgree_oneTool : OrphanToolsAgree (scan .stored firstWriter oneToolTrace) linkedOutput := by
  have htable : (scan .stored firstWriter oneToolTrace).writersByHash.toList.flatMap (fun e => e.2.toList) =
      [firstWriter] := by
    decide
  have honly : ∀ h p, Wrote (scan .stored firstWriter oneToolTrace) h p → p = firstWriter := by
    intro h p hp
    obtain ⟨writers,hw,hp⟩ := mem_membersAt_iff.mp hp
    rw [← List.mem_singleton,← htable,List.mem_flatMap]
    exact ⟨(h,writers),ExtTreeMap.mem_toList_iff_getElem?_eq_some.mpr hw,ExtTreeSet.mem_toList.mpr hp⟩
  intro h _ p q hp hq
  rw [honly h p hp,honly h q hq]

theorem sliceLeaves_order_independent_sample : ∀ order order' : IterationOrder Traversal,
    sliceLeaves lengthDigest order oneToolTrace firstWriter linkedOutput =
      sliceLeaves lengthDigest order' oneToolTrace firstWriter linkedOutput :=
  (sliceLeaves_order_independent_iff lengthDigest oneToolTrace firstWriter linkedOutput).1
    orphanToolsAgree_oneTool

/-- Whatever digest tells the two writes apart, the orders of traversal show. -/
theorem orphan_writer_depends_on_order :
    ¬ ∃ sha256 : Str → Digest,
      sha256 (writeBy 0 firstWriter).preimage ≠ sha256 (writeBy 1 secondWriter).preimage ∧
      ∀ (events : List TracedEvent) (rootProcess : ProcessInstance) (outputs : List OutputFile)
        (order order' : IterationOrder Traversal),
        sliceLeaves sha256 order events rootProcess outputs =
          sliceLeaves sha256 order' events rootProcess outputs := by
  rintro ⟨sha256,hne,hall⟩
  have heq := hall twoToolsTrace firstWriter linkedOutput .stored .reversed
  have hout : IsOutputHash linkedOutput sharedContent := ⟨_,List.mem_singleton_self _,rfl⟩
  rw [sliceLeaves_eq sha256 .stored hout,sliceLeaves_eq sha256 .reversed hout,sliceOps_twoTools_stored,
    sliceOps_twoTools_reversed] at heq
  have hmem : (writeBy 0 firstWriter).hash sha256 ∈ leafHashes sha256 [writeBy 1 secondWriter] := by
    rw [← heq,mem_leafHashes]
    exact ⟨_,List.mem_singleton_self _,rfl⟩
  obtain ⟨op,hop,hhash⟩ := mem_leafHashes.mp hmem
  obtain rfl := List.mem_singleton.mp hop
  exact hne (digestText_injective hhash).symm

end TwoTools

end Repx.Slice
