import Repx.Slice.OpBinding

/-! # Who the operations of a slice belong to

The slice emits the operations of one included process after the other, then attributes
the outputs that are left, then adds the exit of the root. Every operation carries the tool that
the scan recorded last for its process; an output nobody wrote has neither.
-/
namespace Repx.Slice
open ByteString Std Trace HashTables Worklist Canonical KeyedSort

section Log
variable (order : IterationOrder Traversal) (tables : ScanState)

/-- The processes of the operations that the loop over the included processes emits. -/
def emittedOwners (relevant : ExtTreeSet Str) (indices : IndexTable) : EmitState → List ProcessInstance →
    List ProcessInstance
  | _, [] => []
  | e, process :: processes =>
    let next := emitProcess order tables relevant indices e process
    List.replicate (next.ops.length - e.ops.length) process ++ emittedOwners relevant indices next processes

/-- The processes of all operations of a finished walk; `none` for an output nobody wrote. -/
def emitOwners (rootProcess : ProcessInstance) (outputs : List OutputFile) (w : WalkState) :
    List (Option ProcessInstance) :=
  let processes := sortByKey (fun p => p) (order.visit .includedProcesses w.included.toList)
  let indices := indexProcesses rootProcess processes tables.rootExit
  let emitted := processes.foldl (emitProcess order tables w.relevant indices) ⟨[],outputHashes outputs⟩
  (emittedOwners order tables w.relevant indices ⟨[],outputHashes outputs⟩ processes).map some ++
    ((sortedHashes order .orphanHashes emitted.outputHashes).map fun hash =>
      (orphanWriter order tables hash).map Prod.fst) ++
    (tables.rootExit.map fun exit => some exit.1).toList

def sliceOwners (events : List TracedEvent) (rootProcess : ProcessInstance) (outputs : List OutputFile) :
    List (Option ProcessInstance) :=
  let tables := scan order rootProcess events
  emitOwners order tables rootProcess outputs (sliceWalk order tables outputs)

end Log

section Emission
variable {order : IterationOrder Traversal} {tables : ScanState}

theorem toolOf_eq {process : ProcessInstance} {flow : ProcessFlow} (h : tables.flows[process]? = some flow) :
    toolOf tables process = flow.toolHash := by rw [toolOf,flowOf_eq h]

theorem bind_toolHash_eq_toolOf (s : ScanState) (process : ProcessInstance) :
    s.flows[process]?.bind ProcessFlow.toolHash = toolOf s process := by
  rw [toolOf,flowOf,ExtTreeMap.getD_eq_getD_getElem?]
  cases s.flows[process]? <;> rfl

theorem map_toolHash_foldl_emitOutput (relevant : ExtTreeSet Str) (op : Str → CanonicalOp) {tool : Option Str}
    (hop : ∀ hash, (op hash).toolHash = tool) (hashes : List Str) (e : EmitState) :
    ∃ k, (hashes.foldl (emitOutput relevant op) e).ops.map CanonicalOp.toolHash =
      e.ops.map CanonicalOp.toolHash ++ List.replicate k tool := by
  induction hashes generalizing e with
  | nil => exact ⟨0,by simp⟩
  | cons hash hashes ih =>
    obtain ⟨k,hk⟩ := ih (emitOutput relevant op e hash)
    rw [List.foldl_cons,hk]
    by_cases hr : (relevant.contains hash || e.outputHashes.contains hash) = true
    · refine ⟨k + 1,?_⟩
      rw [emitOutput,if_pos hr,List.map_append,List.append_assoc,List.replicate_succ,List.map_singleton,hop]
      rfl
    · exact ⟨k,by rw [emitOutput,if_neg hr]⟩

/-- Everything that is emitted for a process carries its tool. -/
theorem map_toolHash_emitProcess (relevant : ExtTreeSet Str) (indices : IndexTable) (e : EmitState)
    (process : ProcessInstance) :
    (emitProcess order tables relevant indices e process).ops.map CanonicalOp.toolHash =
      e.ops.map CanonicalOp.toolHash ++
        List.replicate ((emitProcess order tables relevant indices e process).ops.length - e.ops.length)
          (toolOf tables process) := by
  have hcount : ∀ k, (emitProcess order tables relevant indices e process).ops.map CanonicalOp.toolHash =
      e.ops.map CanonicalOp.toolHash ++ List.replicate k (toolOf tables process) →
      (emitProcess order tables relevant indices e process).ops.length - e.ops.length = k := by
    intro k hk
    have hlength := congrArg List.length hk
    simp only [List.length_map,List.length_append,List.length_replicate] at hlength
    omega
  suffices h : ∃ k, (emitProcess order tables relevant indices e process).ops.map CanonicalOp.toolHash =
      e.ops.map CanonicalOp.toolHash ++ List.replicate k (toolOf tables process) by
    obtain ⟨k,hk⟩ := h
    rw [hcount k hk,hk]
  unfold emitProcess
  cases hflow : tables.flows[process]? with
  | none => exact ⟨0,by simp⟩
  | some flow =>
    dsimp only
    rw [toolOf_eq hflow]
    obtain ⟨k₂,hk₂⟩ := map_toolHash_foldl_emitOutput relevant
      (fun hash => flowOp .fileRename (indices.indexOf process) flow [hash] [hash]) (fun _ => rfl)
      (sortedHashes order (.sortedRenames process) flow.renames) _
    obtain ⟨k₁,hk₁⟩ := map_toolHash_foldl_emitOutput relevant
      (fun hash => flowOp .fileWrite (indices.indexOf process) flow [] [hash]) (fun _ => rfl)
      (sortedHashes order (.sortedWrites process) flow.writes) _
    rw [hk₂,hk₁]
    have hreads : ∃ k, (emitExec (indices.indexOf process) flow ++ emitReads relevant (indices.indexOf process) flow
        (sortedHashes order (.sortedReads process) flow.reads)).map CanonicalOp.toolHash =
          List.replicate k flow.toolHash := by
      refine ⟨_,List.eq_replicate_iff.mpr ⟨rfl,fun tool htool => ?_⟩⟩
      simp only [List.map_append,List.mem_append,List.mem_map] at htool
      rcases htool with ⟨op,hop,rfl⟩ | ⟨op,hop,rfl⟩
      · unfold emitExec at hop
        split at hop
        · next ht => rw [List.mem_singleton.mp hop,ht]
        · cases hop
      · obtain ⟨hash,-,rfl⟩ := List.mem_map.mp hop
        rfl
    obtain ⟨k,hk⟩ := hreads
    exact ⟨k + k₁ + k₂,by rw [List.map_append,hk]; simp⟩

theorem map_toolHash_foldl_emitProcess (relevant : ExtTreeSet Str) (indices : IndexTable)
    (processes : List ProcessInstance) (e : EmitState) :
    (processes.foldl (emitProcess order tables relevant indices) e).ops.map CanonicalOp.toolHash =
      e.ops.map CanonicalOp.toolHash ++
        (emittedOwners order tables relevant indices e processes).map (toolOf tables) := by
  induction processes generalizing e with
  | nil => simp [emittedOwners]
  | cons process processes ih =>
    rw [List.foldl_cons,ih,map_toolHash_emitProcess,emittedOwners,List.map_append,List.map_replicate,
      List.append_assoc]

theorem map_toolHash_foldl_emitOrphan (hashes : List Str) (state : List CanonicalOp × IndexTable) :
    (hashes.foldl (emitOrphan order tables) state).1.map CanonicalOp.toolHash =
      state.1.map CanonicalOp.toolHash ++ (hashes.map fun hash =>
        ((orphanWriter order tables hash).map Prod.fst).bind (toolOf tables)) := by
  induction hashes generalizing state with
  | nil => simp
  | cons hash hashes ih =>
    rw [List.foldl_cons,ih,List.map_cons]
    cases hw : orphanWriter order tables hash with
    | none => simp [emitOrphan,hw]
    | some writer =>
      obtain ⟨p,flow⟩ := writer
      simp [emitOrphan,hw,flowOp,toolOf_eq (orphanWriter_flow hw).1]

theorem mem_emittedOwners {relevant : ExtTreeSet Str} {indices : IndexTable} {processes : List ProcessInstance}
    {e : EmitState} {process : ProcessInstance}
    (h : process ∈ emittedOwners order tables relevant indices e processes) :
    ∃ flow, tables.flows[process]? = some flow := by
  induction processes generalizing e with
  | nil => cases h
  | cons next processes ih =>
    rw [emittedOwners,List.mem_append] at h
    rcases h with h | h
    · obtain ⟨hcount,rfl⟩ := List.mem_replicate.mp h
      cases hflow : tables.flows[process]? with
      | some flow => exact ⟨flow,rfl⟩
      | none => simp [emitProcess,hflow] at hcount
    · exact ih h

/-- Processes of the slice have a flow, or are the root that exits. -/
theorem mem_emitOwners {rootProcess : ProcessInstance} {outputs : List OutputFile} {w : WalkState}
    {process : ProcessInstance} (h : some process ∈ emitOwners order tables rootProcess outputs w) :
    (∃ flow, tables.flows[process]? = some flow) ∨ ∃ exitCode, tables.rootExit = some (process,exitCode) := by
  simp only [emitOwners,List.mem_append,List.mem_map,Option.mem_toList,Option.map_eq_some_iff] at h
  rcases h with (⟨p,hp,heq⟩ | ⟨hash,-,⟨⟨writer,flow⟩,hw,rfl⟩⟩) | ⟨⟨p,exitCode⟩,hexit,heq⟩
  · obtain rfl := Option.some.inj heq
    exact Or.inl (mem_emittedOwners hp)
  · exact Or.inl ⟨flow,(orphanWriter_flow hw).1⟩
  · obtain rfl : p = process := Option.some.inj heq
    exact Or.inr ⟨exitCode,hexit⟩

variable (order) in
/-- The tools of the operations of a slice, in the order in which they are recorded. -/
theorem map_toolHash_sliceOps (events : List TracedEvent) (rootProcess : ProcessInstance)
    (outputs : List OutputFile) :
    (sliceOps order events rootProcess outputs).map CanonicalOp.toolHash =
      (sliceOwners order events rootProcess outputs).map fun owner =>
        owner.bind (toolOf (scan order rootProcess events)) := by
  have hexit : ∀ (tables : ScanState) (indices : IndexTable), (emitExit tables indices).map CanonicalOp.toolHash =
      (tables.rootExit.map fun exit => some exit.1).toList.map fun owner => owner.bind (toolOf tables) := by
    intro tables indices
    rcases hroot : tables.rootExit with _ | ⟨process,exitCode⟩
    · simp [emitExit,hroot]
    · simp [emitExit,hroot,bind_toolHash_eq_toolOf]
  simp only [sliceOps,emit,sliceOwners,emitOwners,List.map_append,map_toolHash_foldl_emitOrphan,
    map_toolHash_foldl_emitProcess,hexit,List.map_map,List.map_nil,List.nil_append]
  rfl

end Emission

end Repx.Slice
