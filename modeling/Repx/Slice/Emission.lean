import Repx.Slice.Closure

/-! # The operations a slice commits

A specification of the emitted operations by the tables and the reached
processes alone, without indices, queues or running sets. The emission records
these operations and no others, up to the process index.
-/
namespace Repx.Slice
open ByteString Std Trace HashTables Worklist Canonical KeyedSort CanonicalOp Sha256

section Spec
variable (order : IterationOrder Traversal) (tables : ScanState) (outputs : List OutputFile)

/-- An output whose content no reached process wrote or renamed. -/
def Orphan (hash : Str) : Prop :=
  IsOutputHash outputs hash ∧ ∀ process flow, Reached tables outputs process →
    tables.flows[process]? = some flow → ¬ (hash ∈ flow.writes ∨ hash ∈ flow.renames)

/-- Contents of outputs and contents read by reached processes. -/
def Relevant (hash : Str) : Prop :=
  IsOutputHash outputs hash ∨ ∃ process, Reached tables outputs process ∧ Reads tables process hash

/-- What the slice records about one reached process. -/
inductive FlowOp (flow : ProcessFlow) : CanonicalOp → Prop
  | exec {toolHash : Str} : flow.hasExec = true → flow.toolHash = some toolHash →
      FlowOp flow ⟨.exec,0,some toolHash,[],[],[]⟩
  | read {hash : Str} : hash ∈ flow.reads → Relevant tables outputs hash →
      FlowOp flow ⟨.fileRead,0,flow.toolHash,[],[hash],[]⟩
  | write {hash : Str} : hash ∈ flow.writes → Relevant tables outputs hash →
      FlowOp flow ⟨.fileWrite,0,flow.toolHash,[],[],[hash]⟩
  | rename {hash : Str} : hash ∈ flow.renames → Relevant tables outputs hash →
      FlowOp flow ⟨.fileRename,0,flow.toolHash,[],[hash],[hash]⟩

/-- The operation an orphaned output is attributed by. -/
def orphanOp (hash : Str) : CanonicalOp :=
  match orphanWriter order tables hash with
  | some (_,flow) => ⟨.fileWrite,0,flow.toolHash,[],[],[hash]⟩
  | none => ⟨.fileWrite,0,none,[outputArg],[],[hash]⟩

/-- The operations of the slice up to the process index. -/
inductive SliceOp : CanonicalOp → Prop
  | flow {process : ProcessInstance} {flow : ProcessFlow} {op : CanonicalOp} :
      Reached tables outputs process → tables.flows[process]? = some flow →
      FlowOp tables outputs flow op → SliceOp op
  | orphan {hash : Str} : Orphan tables outputs hash → SliceOp (orphanOp order tables hash)
  | exit {process : ProcessInstance} {exitCode : Int} : tables.rootExit = some (process,exitCode) →
      SliceOp ⟨.exit,0,tables.flows[process]?.bind ProcessFlow.toolHash,[exitArg exitCode],[],[]⟩

end Spec

section Outputs
variable {relevant : ExtTreeSet Str} (op : Str → CanonicalOp)

theorem mem_sortedHashes {order : IterationOrder Traversal} {site : Traversal} {hashes : ExtTreeSet Str}
    {hash : Str} : hash ∈ sortedHashes order site hashes ↔ hash ∈ hashes := by
  simp [sortedHashes]

/-- While the open outputs are relevant, exactly the relevant hashes are emitted. -/
theorem foldl_emitOutput (hashes : List Str) (e : EmitState) (he : ∀ h ∈ e.outputHashes, h ∈ relevant) :
    (hashes.foldl (emitOutput relevant op) e).ops = e.ops ++ (hashes.filter relevant.contains).map op ∧
      ∀ h, h ∈ (hashes.foldl (emitOutput relevant op) e).outputHashes ↔ h ∈ e.outputHashes ∧ h ∉ hashes := by
  induction hashes generalizing e with
  | nil => simp
  | cons hash hashes ih =>
    rw [List.foldl_cons]
    by_cases hr : hash ∈ relevant
    · have hstep : emitOutput relevant op e hash = ⟨e.ops ++ [op hash],e.outputHashes.erase hash⟩ := by
        rw [emitOutput,if_pos (by simp [hr])]
      have herase : ∀ h, h ∈ e.outputHashes.erase hash ↔ h ∈ e.outputHashes ∧ h ≠ hash := by
        intro h
        rw [ExtTreeSet.mem_erase,ne_eq,Std.compare_eq_iff_eq,and_comm,eq_comm]
      obtain ⟨hops,hout⟩ := ih ⟨e.ops ++ [op hash],e.outputHashes.erase hash⟩
        fun h hh => he h ((herase h).mp hh).1
      rw [hstep]
      refine ⟨?_,fun h => ?_⟩
      · rw [hops,List.filter_cons_of_pos (by simpa using hr)]
        simp
      · rw [hout,herase,List.mem_cons,not_or,and_assoc]
    · have hstep : emitOutput relevant op e hash = e := by
        rw [emitOutput,if_neg]
        simp only [Bool.or_eq_true,ExtTreeSet.contains_iff_mem,not_or]
        exact ⟨hr,fun hh => hr (he hash hh)⟩
      obtain ⟨hops,hout⟩ := ih e he
      rw [hstep]
      refine ⟨?_,fun h => ?_⟩
      · rw [hops,List.filter_cons_of_neg (by simpa using hr)]
      · rw [hout,List.mem_cons,not_or]
        constructor
        · rintro ⟨hh,hn⟩
          exact ⟨hh,fun heq => hr (heq ▸ he h hh),hn⟩
        · rintro ⟨hh,-,hn⟩
          exact ⟨hh,hn⟩

end Outputs

section Processes
variable {order : IterationOrder Traversal} {tables : ScanState} {outputs : List OutputFile}

/-- The operations of one process under its index. -/
def flowOps (order : IterationOrder Traversal) (relevant : ExtTreeSet Str) (index : UInt32)
    (process : ProcessInstance) (flow : ProcessFlow) : List CanonicalOp :=
  emitExec index flow ++ (emitReads relevant index flow (sortedHashes order (.sortedReads process) flow.reads) ++
    (((sortedHashes order (.sortedWrites process) flow.writes).filter relevant.contains).map
        (fun hash => flowOp .fileWrite index flow [] [hash]) ++
      ((sortedHashes order (.sortedRenames process) flow.renames).filter relevant.contains).map
        (fun hash => flowOp .fileRename index flow [hash] [hash])))

theorem emitProcess_of_no_flow (order : IterationOrder Traversal) (relevant : ExtTreeSet Str) (indices : IndexTable)
    (e : EmitState) {process : ProcessInstance} (hflow : tables.flows[process]? = none) :
    emitProcess order tables relevant indices e process = e := by
  simp only [emitProcess,hflow]

theorem emitProcess_of_flow (order : IterationOrder Traversal) (indices : IndexTable)
    {relevant : ExtTreeSet Str} {e : EmitState}
    {process : ProcessInstance} {flow : ProcessFlow} (hflow : tables.flows[process]? = some flow)
    (he : ∀ h ∈ e.outputHashes, h ∈ relevant) :
    (emitProcess order tables relevant indices e process).ops =
        e.ops ++ flowOps order relevant (indices.indexOf process) process flow ∧
      ∀ h, h ∈ (emitProcess order tables relevant indices e process).outputHashes ↔
        h ∈ e.outputHashes ∧ ¬ (h ∈ flow.writes ∨ h ∈ flow.renames) := by
  simp only [emitProcess,hflow]
  obtain ⟨hw,hwout⟩ := foldl_emitOutput
    (fun hash => flowOp .fileWrite (indices.indexOf process) flow [] [hash])
    (sortedHashes order (.sortedWrites process) flow.writes)
    ⟨e.ops ++ (emitExec (indices.indexOf process) flow ++ emitReads relevant (indices.indexOf process) flow
      (sortedHashes order (.sortedReads process) flow.reads)),e.outputHashes⟩ he
  obtain ⟨hr,hrout⟩ := foldl_emitOutput
    (fun hash => flowOp .fileRename (indices.indexOf process) flow [hash] [hash])
    (sortedHashes order (.sortedRenames process) flow.renames) _ fun h hh => he h ((hwout h).mp hh).1
  refine ⟨?_,fun h => ?_⟩
  · rw [hr,hw,flowOps]
    simp only [List.append_assoc]
  · rw [hrout,hwout,mem_sortedHashes,mem_sortedHashes,not_or,and_assoc]

/-- The operations emitted for the included processes, and the outputs left. -/
theorem foldl_emitProcess (order : IterationOrder Traversal) (tables : ScanState) (relevant : ExtTreeSet Str)
    (indices : IndexTable) (processes : List ProcessInstance) (e : EmitState) (he : ∀ h ∈ e.outputHashes, h ∈ relevant) :
    (∀ op, op ∈ (processes.foldl (emitProcess order tables relevant indices) e).ops ↔ op ∈ e.ops ∨
      ∃ process ∈ processes, ∃ flow, tables.flows[process]? = some flow ∧
        op ∈ flowOps order relevant (indices.indexOf process) process flow) ∧
      ∀ h, h ∈ (processes.foldl (emitProcess order tables relevant indices) e).outputHashes ↔
        h ∈ e.outputHashes ∧ ∀ process ∈ processes, ∀ flow, tables.flows[process]? = some flow →
          ¬ (h ∈ flow.writes ∨ h ∈ flow.renames) := by
  induction processes generalizing e with
  | nil => simp
  | cons process processes ih =>
    rw [List.foldl_cons]
    cases hflow : tables.flows[process]? with
    | none =>
      rw [emitProcess_of_no_flow order relevant indices e hflow]
      simpa [hflow] using ih e he
    | some flow =>
      obtain ⟨hops,hout⟩ := emitProcess_of_flow order indices hflow he
      obtain ⟨ihops,ihout⟩ := ih (emitProcess order tables relevant indices e process)
        fun h hh => he h ((hout h).mp hh).1
      refine ⟨fun op => ?_,fun h => ?_⟩
      · rw [ihops,hops]
        simp [hflow,or_assoc]
      · rw [ihout,hout]
        simp [hflow,and_assoc]

theorem mem_flowOps {relevant : ExtTreeSet Str} (hr : ∀ h, h ∈ relevant ↔ Relevant tables outputs h)
    (order : IterationOrder Traversal) (index : UInt32) (process : ProcessInstance) (flow : ProcessFlow) :
    (∀ op ∈ flowOps order relevant index process flow, ∃ op', FlowOp tables outputs flow op' ∧ SameContent op op') ∧
      ∀ op', FlowOp tables outputs flow op' → ∃ op ∈ flowOps order relevant index process flow, SameContent op' op := by
  constructor
  · intro op hop
    simp only [flowOps,emitReads,List.mem_append,List.mem_map,List.mem_filter,mem_sortedHashes,
      ExtTreeSet.contains_iff_mem,hr] at hop
    rcases hop with hop | ⟨hash,⟨hm,hrel⟩,rfl⟩ | ⟨hash,⟨hm,hrel⟩,rfl⟩ | ⟨hash,⟨hm,hrel⟩,rfl⟩
    · unfold emitExec at hop
      split at hop
      · rename_i toolHash he ht
        rw [List.mem_singleton.mp hop]
        exact ⟨_,.exec he ht,rfl,rfl,rfl,rfl,rfl⟩
      · cases hop
    · exact ⟨_,.read hm hrel,rfl,rfl,rfl,rfl,rfl⟩
    · exact ⟨_,.write hm hrel,rfl,rfl,rfl,rfl,rfl⟩
    · exact ⟨_,.rename hm hrel,rfl,rfl,rfl,rfl,rfl⟩
  · intro op' hop
    simp only [flowOps,emitReads,List.mem_append,List.mem_map,List.mem_filter,mem_sortedHashes,
      ExtTreeSet.contains_iff_mem,hr]
    cases hop with
    | @exec toolHash he ht =>
      refine ⟨⟨.exec,index,some toolHash,[],[],[]⟩,Or.inl ?_,rfl,rfl,rfl,rfl,rfl⟩
      simp [emitExec,he,ht]
    | read hm hrel => exact ⟨_,Or.inr (Or.inl ⟨_,⟨hm,hrel⟩,rfl⟩),rfl,rfl,rfl,rfl,rfl⟩
    | write hm hrel => exact ⟨_,Or.inr (Or.inr (Or.inl ⟨_,⟨hm,hrel⟩,rfl⟩)),rfl,rfl,rfl,rfl,rfl⟩
    | rename hm hrel => exact ⟨_,Or.inr (Or.inr (Or.inr ⟨_,⟨hm,hrel⟩,rfl⟩)),rfl,rfl,rfl,rfl,rfl⟩

end Processes

section Refinement
variable (order : IterationOrder Traversal) (tables : ScanState) (rootProcess : ProcessInstance)
variable (outputs : List OutputFile)

private theorem exists_of_forall₂ {ops ops' : List CanonicalOp} (h : List.Forall₂ SameContent ops ops') :
    (∀ op ∈ ops, ∃ op' ∈ ops', SameContent op op') ∧ ∀ op' ∈ ops', ∃ op ∈ ops, SameContent op op' := by
  induction h with
  | nil => simp
  | cons hs _ ih =>
    simp only [List.mem_cons,exists_eq_or_imp,forall_eq_or_imp]
    exact ⟨⟨Or.inl hs,fun op hop => Or.inr (ih.1 op hop)⟩,Or.inl hs,fun op hop => Or.inr (ih.2 op hop)⟩

theorem foldl_emitOrphan (hashes : List Str) (state : List CanonicalOp × IndexTable) :
    ∃ ops, (hashes.foldl (emitOrphan order tables) state).1 = state.1 ++ ops ∧
      List.Forall₂ SameContent ops (hashes.map (orphanOp order tables)) := by
  induction hashes generalizing state with
  | nil => exact ⟨[],by simp,.nil⟩
  | cons hash hashes ih =>
    obtain ⟨op,hstep,hsame⟩ : ∃ op, (emitOrphan order tables state hash).1 = state.1 ++ [op] ∧
        SameContent op (orphanOp order tables hash) := by
      unfold emitOrphan orphanOp
      cases orphanWriter order tables hash with
      | none => exact ⟨_,rfl,rfl,rfl,rfl,rfl,rfl⟩
      | some w => exact ⟨_,rfl,rfl,rfl,rfl,rfl,rfl⟩
    obtain ⟨ops,hops,hall⟩ := ih (emitOrphan order tables state hash)
    refine ⟨op :: ops,?_,.cons hsame hall⟩
    rw [List.foldl_cons,hops,hstep]
    simp

omit rootProcess in
/-- The included processes, sorted. -/
theorem mem_sortedIncluded {process : ProcessInstance} :
    process ∈ sortByKey (fun p => p) (order.visit .includedProcesses
      (sliceWalk order tables outputs).included.toList) ↔ Reached tables outputs process := by
  rw [mem_sortByKey,IterationOrder.mem_visit,ExtTreeSet.mem_toList,mem_included]

omit rootProcess in
/-- What the included processes leave open are the orphans. -/
theorem mem_openOutputs (indices : IndexTable) {hash : Str} :
    hash ∈ ((sortByKey (fun p => p) (order.visit .includedProcesses
        (sliceWalk order tables outputs).included.toList)).foldl
          (emitProcess order tables (sliceWalk order tables outputs).relevant indices)
          ⟨[],outputHashes outputs⟩).outputHashes ↔ Orphan tables outputs hash := by
  rw [(foldl_emitProcess order tables _ indices _ ⟨[],outputHashes outputs⟩ fun _ =>
    relevant_of_mem_outputHashes).2]
  simp only [mem_outputHashes,Orphan,mem_sortedIncluded]
  refine and_congr_right fun _ => forall_congr' fun process => ?_
  exact ⟨fun h flow hr => h hr flow,fun h hr flow => h flow hr⟩

/-- The emission records the operations of the slice and no others. -/
theorem emit_refines :
    (∀ op ∈ emit order tables rootProcess outputs (sliceWalk order tables outputs),
      ∃ op', SliceOp order tables outputs op' ∧ SameContent op op') ∧
    ∀ op', SliceOp order tables outputs op' →
      ∃ op ∈ emit order tables rootProcess outputs (sliceWalk order tables outputs), SameContent op' op := by
  have hrel : ∀ h, h ∈ (sliceWalk order tables outputs).relevant ↔ Relevant tables outputs h :=
    fun _ => mem_relevant
  have hmem : ∀ p, p ∈ sortByKey (fun p => p) (order.visit .includedProcesses
      (sliceWalk order tables outputs).included.toList) ↔ Reached tables outputs p :=
    fun _ => mem_sortedIncluded order tables outputs
  have horphan := fun indices hash => @mem_openOutputs order tables outputs indices hash
  generalize hproc : sortByKey (fun p => p)
    (order.visit .includedProcesses (sliceWalk order tables outputs).included.toList) = processes at hmem horphan
  generalize hidx : indexProcesses rootProcess processes tables.rootExit = indices
  obtain ⟨hops,-⟩ := foldl_emitProcess order tables (sliceWalk order tables outputs).relevant indices
    processes ⟨[],outputHashes outputs⟩ fun _ => relevant_of_mem_outputHashes
  replace horphan := horphan indices
  generalize hem : processes.foldl (emitProcess order tables (sliceWalk order tables outputs).relevant indices)
    ⟨[],outputHashes outputs⟩ = emitted at hops horphan
  obtain ⟨orphans,horphans,hall⟩ := foldl_emitOrphan order tables
    (sortedHashes order .orphanHashes emitted.outputHashes) (emitted.ops,indices)
  have hemit : emit order tables rootProcess outputs (sliceWalk order tables outputs) =
      emitted.ops ++ orphans ++ emitExit tables ((sortedHashes order .orphanHashes emitted.outputHashes).foldl
        (emitOrphan order tables) (emitted.ops,indices)).2 := by
    simp only [emit,hproc,hidx,hem,horphans]
  obtain ⟨horphanOf,hofOrphan⟩ := exists_of_forall₂ hall
  rw [hemit]
  constructor
  · intro op hop
    simp only [List.mem_append] at hop
    rcases hop with (hop | hop) | hop
    · rcases (hops op).mp hop with hnil | ⟨process,hp,flow,hflow,hop⟩
      · cases hnil
      · obtain ⟨op',hop',hs⟩ := (mem_flowOps hrel order _ process flow).1 op hop
        exact ⟨op',.flow ((hmem process).mp hp) hflow hop',hs⟩
    · obtain ⟨op',hop',hs⟩ := horphanOf op hop
      obtain ⟨hash,hh,rfl⟩ := List.mem_map.mp hop'
      exact ⟨_,.orphan ((horphan hash).mp (mem_sortedHashes.mp hh)),hs⟩
    · unfold emitExit at hop
      split at hop
      · rename_i process exitCode he
        rw [List.mem_singleton.mp hop]
        exact ⟨_,.exit he,rfl,rfl,rfl,rfl,rfl⟩
      · cases hop
  · intro op' hop'
    simp only [List.mem_append]
    cases hop' with
    | @flow process flow _ hp hflow hop =>
      obtain ⟨op,hop,hs⟩ := (mem_flowOps hrel order (indices.indexOf process) process flow).2 op' hop
      exact ⟨op,Or.inl (Or.inl ((hops op).mpr (Or.inr ⟨process,(hmem process).mpr hp,flow,hflow,hop⟩))),hs⟩
    | @orphan hash ho =>
      obtain ⟨op,hop,hs⟩ := hofOrphan (orphanOp order tables hash)
        (List.mem_map.mpr ⟨hash,mem_sortedHashes.mpr ((horphan hash).mpr ho),rfl⟩)
      exact ⟨op,Or.inl (Or.inr hop),hs.symm⟩
    | @exit process exitCode he =>
      have hexit : ∀ indices : IndexTable, emitExit tables indices = [⟨.exit,indices.indexOf process,
          tables.flows[process]?.bind ProcessFlow.toolHash,[exitArg exitCode],[],[]⟩] := by
        intro indices
        simp only [emitExit,he]
      rw [hexit]
      exact ⟨_,Or.inr (List.mem_singleton_self _),rfl,rfl,rfl,rfl,rfl⟩

/-- A leaf of the slice is the hash of one of its operations. -/
theorem mem_leafHashes_sliceOps {sha256 : Str → Digest} {events : List TracedEvent} {leaf : Str} :
    leaf ∈ leafHashes sha256 (sliceOps order events rootProcess outputs) ↔
      ∃ op, SliceOp order (scan order rootProcess events) outputs op ∧ op.normalize.hash sha256 = leaf := by
  obtain ⟨hof,hto⟩ := emit_refines order (scan order rootProcess events) rootProcess outputs
  rw [mem_leafHashes]
  constructor
  · rintro ⟨op,hop,rfl⟩
    obtain ⟨op',hop',hs⟩ := hof op hop
    exact ⟨op',hop',(hs.normalize.hash_eq sha256).symm⟩
  · rintro ⟨op',hop',rfl⟩
    obtain ⟨op,hop,hs⟩ := hto op' hop'
    exact ⟨op,hop,(hs.normalize.hash_eq sha256).symm⟩

end Refinement

/-- The leaves of a slice. -/
def sliceLeaves (sha256 : Str → Digest) (order : IterationOrder Traversal) (events : List TracedEvent)
    (rootProcess : ProcessInstance) (outputs : List OutputFile) : List Str :=
  (canonicalizeOutputSlice sha256 order events rootProcess outputs).map (hash sha256)

section Leaves
variable {events : List TracedEvent} {rootProcess : ProcessInstance} {outputs : List OutputFile}

theorem sliceLeaves_eq (sha256 : Str → Digest) (order : IterationOrder Traversal) {hash : Str}
    (h : IsOutputHash outputs hash) :
    sliceLeaves sha256 order events rootProcess outputs =
      leafHashes sha256 (sliceOps order events rootProcess outputs) := by
  rw [sliceLeaves,canonicalizeOutputSlice,if_neg (outputHashes_nonempty h)]
  rfl

/-- The leaves of a slice with an output are the hashes of its operations. -/
theorem mem_sliceLeaves {sha256 : Str → Digest} {order : IterationOrder Traversal} {leaf hash : Str}
    (h : IsOutputHash outputs hash) :
    leaf ∈ sliceLeaves sha256 order events rootProcess outputs ↔
      ∃ op, SliceOp order (scan .stored rootProcess events) outputs op ∧ op.normalize.hash sha256 = leaf := by
  rw [sliceLeaves_eq sha256 order h,mem_leafHashes_sliceOps,scan_eq order .stored]

end Leaves

end Repx.Slice
