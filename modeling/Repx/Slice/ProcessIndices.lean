import Mathlib.Data.Finset.Card
import Repx.Slice.Authorship
import Repx.Slice.OrderIndependence
import Repx.Slice.ScanProcesses

/-! # The indices of a slice

Three places of the emission give out process indices: the included processes get the next
free ones, the exit of the root is entered under the next free one, and a process that an
orphaned output is attributed to gets the next free one. The second place does not move the
counter, so that the third may give out the same index again.
-/
namespace Repx.Slice
open ByteString Std Trace HashTables Canonical KeyedSort Sha256

namespace IndexTable
variable {t : IndexTable} {p q : ProcessInstance} {i : UInt32}

theorem mem_assign : q ∈ (t.assign p).processToIndex ↔ q ∈ t.processToIndex ∨ q = p := by
  unfold assign
  split_ifs with hp
  · exact ⟨Or.inl,fun h => h.elim id fun hq => hq ▸ hp⟩
  · rw [ExtTreeMap.mem_insert,Std.compare_eq_iff_eq,or_comm,eq_comm]

theorem getElem?_assign_of_some (h : t.processToIndex[q]? = some i) : (t.assign p).processToIndex[q]? = some i := by
  unfold assign
  split_ifs with hp
  · exact h
  · rw [ExtTreeMap.getElem?_insert,if_neg]
    · exact h
    · rw [Std.compare_eq_iff_eq]
      rintro rfl
      rw [ExtTreeMap.mem_iff_isSome_getElem?,h] at hp
      exact hp rfl

theorem mem_foldl_assign {processes : List ProcessInstance} :
    q ∈ (processes.foldl assign t).processToIndex ↔ q ∈ t.processToIndex ∨ q ∈ processes := by
  induction processes generalizing t with
  | nil => simp
  | cons p processes ih => rw [List.foldl_cons,ih,mem_assign,List.mem_cons,or_assoc]

/-- Nobody loses an index. -/
theorem getElem?_foldl_assign_of_some {processes : List ProcessInstance} (h : t.processToIndex[q]? = some i) :
    (processes.foldl assign t).processToIndex[q]? = some i := by
  induction processes generalizing t with
  | nil => exact h
  | cons p processes ih => exact ih (getElem?_assign_of_some h)

theorem foldl_assign_of_mem {processes : List ProcessInstance} (h : ∀ p ∈ processes, p ∈ t.processToIndex) :
    processes.foldl assign t = t := by
  induction processes with
  | nil => rfl
  | cons p processes ih =>
    obtain ⟨hp,hrest⟩ := List.forall_mem_cons.mp h
    rw [List.foldl_cons,assign,if_pos hp,ih hrest]

/-- The indices given out are those below the counter, one for each process. -/
structure Dense (t : IndexTable) : Prop where
  distinct : ∀ (p q : ProcessInstance) i, t.processToIndex[p]? = some i → t.processToIndex[q]? = some i → p = q
  below : ∀ (p : ProcessInstance) i, t.processToIndex[p]? = some i → i < t.nextIndex
  count : t.nextIndex.toNat = t.processToIndex.size

theorem size_le_card {S : Finset ProcessInstance} (h : ∀ p ∈ t.processToIndex, p ∈ S) :
    t.processToIndex.size ≤ S.card := by
  rw [← ExtTreeMap.length_keys,← List.toFinset_card_of_nodup ExtTreeMap.nodup_keys]
  exact Finset.card_le_card fun p hp => h p (ExtTreeMap.mem_keys.mp (List.mem_toFinset.mp hp))

theorem size_insert (h : p ∉ t.processToIndex) :
    (t.processToIndex.insert p i).size = t.processToIndex.size + 1 := by
  rw [ExtTreeMap.size_insert,if_neg fun hc => h (ExtTreeMap.mem_iff_contains.mpr hc)]

/-- A process without an index leaves the table smaller than the set. -/
theorem size_lt_card {S : Finset ProcessInstance} (h : ∀ p ∈ t.processToIndex, p ∈ S) (hp : p ∈ S)
    (hnew : p ∉ t.processToIndex) : t.processToIndex.size < S.card := by
  have hsize := @size_le_card (t.assign p) S fun q hq => (mem_assign.mp hq).elim (h q) fun hqp => hqp ▸ hp
  rw [assign,if_neg hnew] at hsize
  rwa [size_insert hnew] at hsize

theorem Dense.assign (h : t.Dense) (hsize : p ∉ t.processToIndex → t.processToIndex.size + 1 < 2 ^ 32) :
    (t.assign p).Dense := by
  by_cases hp : p ∈ t.processToIndex
  · rw [IndexTable.assign,if_pos hp]
    exact h
  · have hnext : (t.nextIndex + 1).toNat = t.nextIndex.toNat + 1 := by
      rw [UInt32.toNat_add,h.count]
      exact Nat.mod_eq_of_lt (hsize hp)
    have hlt : t.nextIndex < t.nextIndex + 1 := by
      rw [UInt32.lt_iff_toNat_lt,hnext]
      omega
    rw [IndexTable.assign,if_neg hp]
    refine ⟨fun a b i ha hb => ?_,fun a i ha => ?_,?_⟩
    · rw [ExtTreeMap.getElem?_insert] at ha hb
      simp only [Std.compare_eq_iff_eq] at ha hb
      split_ifs at ha hb with hpa hpb hpb
      · exact hpa.symm.trans hpb
      · obtain rfl := Option.some.inj ha
        exact absurd (h.below b _ hb) (UInt32.lt_irrefl _)
      · obtain rfl := Option.some.inj hb
        exact absurd (h.below a _ ha) (UInt32.lt_irrefl _)
      · exact h.distinct a b i ha hb
    · rw [ExtTreeMap.getElem?_insert] at ha
      split_ifs at ha
      · rwa [← Option.some.inj ha]
      · exact UInt32.lt_trans (h.below a i ha) hlt
    · show (t.nextIndex + 1).toNat = (t.processToIndex.insert p t.nextIndex).size
      rw [hnext,size_insert hp,h.count]

theorem Dense.foldl_assign {S : Finset ProcessInstance} (hS : S.card < 2 ^ 32) {processes : List ProcessInstance}
    (h : t.Dense) (ht : ∀ p ∈ t.processToIndex, p ∈ S) (hp : ∀ p ∈ processes, p ∈ S) :
    (processes.foldl IndexTable.assign t).Dense := by
  induction processes generalizing t with
  | nil => exact h
  | cons p processes ih =>
    obtain ⟨hp,hrest⟩ := List.forall_mem_cons.mp hp
    refine ih (h.assign fun hnew => ?_) (fun q hq => ?_) hrest
    · have hsize := size_lt_card ht hp hnew
      omega
    · rcases mem_assign.mp hq with hq | rfl
      · exact ht q hq
      · exact hp

/-- The index of a process that does not have one yet is given out a second time. -/
theorem foldl_assign_collides {processes : List ProcessInstance} (hp : t.processToIndex[p]? = some t.nextIndex)
    (hq : q ∈ processes) (hnew : q ∉ t.processToIndex) :
    ∃ r, r ≠ p ∧ (processes.foldl assign t).processToIndex[r]? = some t.nextIndex ∧
      (processes.foldl assign t).processToIndex[p]? = some t.nextIndex := by
  induction processes with
  | nil => cases hq
  | cons a processes ih =>
    rw [List.foldl_cons]
    by_cases ha : a ∈ t.processToIndex
    · rw [assign,if_pos ha]
      rcases List.mem_cons.mp hq with rfl | hq
      · exact absurd ha hnew
      · exact ih hq
    · refine ⟨a,?_,?_,getElem?_foldl_assign_of_some (getElem?_assign_of_some hp)⟩
      · rintro rfl
        rw [ExtTreeMap.mem_iff_isSome_getElem?,hp] at ha
        exact ha rfl
      · refine getElem?_foldl_assign_of_some ?_
        rw [assign,if_neg ha]
        exact ExtTreeMap.getElem?_insert_self

/-- The exit of the root is entered as if it had been given an index. -/
theorem reserve_processToIndex (t : IndexTable) (p : ProcessInstance) (exitCode : Int) :
    (t.reserve (some (p,exitCode))).processToIndex = (t.assign p).processToIndex := by
  unfold reserve assign
  dsimp only
  split_ifs <;> rfl

theorem mem_reserve {exitCode : Int} :
    q ∈ (t.reserve (some (p,exitCode))).processToIndex ↔ q ∈ t.processToIndex ∨ q = p := by
  rw [reserve_processToIndex,mem_assign]

/-- The index under which the exit is entered stays the next free one. -/
theorem getElem?_reserve (h : p ∉ t.processToIndex) (exitCode : Int) :
    (t.reserve (some (p,exitCode))).processToIndex[p]? = some (t.reserve (some (p,exitCode))).nextIndex := by
  rw [reserve,if_neg h]
  exact ExtTreeMap.getElem?_insert_self

end IndexTable

/-- Different processes have different indices, the root has 0, and none has the index that
stands for no process. -/
structure DistinctIndices (rootProcess : ProcessInstance) (indices : ExtTreeMap ProcessInstance UInt32) : Prop where
  distinct : ∀ (p q : ProcessInstance) i, indices[p]? = some i → indices[q]? = some i → p = q
  root : indices[rootProcess]? = some 0
  attributed : ∀ p : ProcessInstance, indices[p]? ≠ some 4294967295

theorem IndexTable.Dense.distinctIndices {t : IndexTable} {S : Finset ProcessInstance} {rootProcess : ProcessInstance}
    (h : t.Dense) (hS : S.card < 2 ^ 32 - 1) (ht : ∀ p ∈ t.processToIndex, p ∈ S)
    (hroot : t.processToIndex[rootProcess]? = some 0) : DistinctIndices rootProcess t.processToIndex := by
  refine ⟨h.distinct,hroot,fun p hp => ?_⟩
  have hbelow := UInt32.lt_iff_toNat_lt.mp (h.below p _ hp)
  have hsize := size_le_card ht
  rw [h.count] at hbelow
  have hmax : (4294967295 : UInt32).toNat = 2 ^ 32 - 1 := rfl
  omega

section Tables
variable (order : IterationOrder Traversal) (tables : ScanState) (rootProcess : ProcessInstance)
  (outputs : List OutputFile)

/-- The table of indices at the end of an emission. -/
def emitIndices (w : WalkState) : IndexTable :=
  let processes := sortByKey (fun p => p) (order.visit .includedProcesses w.included.toList)
  let indices := indexProcesses rootProcess processes tables.rootExit
  let emitted := processes.foldl (emitProcess order tables w.relevant indices) ⟨[],outputHashes outputs⟩
  ((sortedHashes order .orphanHashes emitted.outputHashes).foldl (emitOrphan order tables) (emitted.ops,indices)).2

/-- It is the table that the exit of the root is looked up in. -/
theorem emit_eq_append_emitExit (w : WalkState) : ∃ ops, emit order tables rootProcess outputs w =
    ops ++ emitExit tables (emitIndices order tables rootProcess outputs w) := ⟨_,rfl⟩

/-- The processes that orphaned outputs are attributed to. -/
def attributedTo (hashes : List Str) : List ProcessInstance :=
  hashes.filterMap fun hash => (orphanWriter order tables hash).map Prod.fst

theorem foldl_emitOrphan_indices (hashes : List Str) (state : List CanonicalOp × IndexTable) :
    (hashes.foldl (emitOrphan order tables) state).2 =
      (attributedTo order tables hashes).foldl IndexTable.assign state.2 := by
  induction hashes generalizing state with
  | nil => rfl
  | cons hash hashes ih =>
    rw [List.foldl_cons,ih]
    cases ho : orphanWriter order tables hash <;> simp [attributedTo,emitOrphan,ho]

/-- The indices of the root and of the included processes. -/
def includedIndices : IndexTable :=
  (sortByKey (fun p => p) (order.visit .includedProcesses (sliceWalk order tables outputs).included.toList)).foldl
    IndexTable.assign ⟨(∅ : ExtTreeMap ProcessInstance UInt32).insert rootProcess 0,1⟩

theorem mem_includedIndices {p : ProcessInstance} :
    p ∈ (includedIndices order tables rootProcess outputs).processToIndex ↔
      p = rootProcess ∨ Reached tables outputs p := by
  rw [includedIndices,IndexTable.mem_foldl_assign,mem_sortedIncluded,ExtTreeMap.mem_insert,Std.compare_eq_iff_eq,
    eq_comm]
  simp

/-- The table at the end gives further indices to the processes of the orphans. -/
theorem emitIndices_eq : ∃ hashes : List Str, (∀ hash, hash ∈ hashes ↔ Orphan tables outputs hash) ∧
    emitIndices order tables rootProcess outputs (sliceWalk order tables outputs) =
      (attributedTo order tables hashes).foldl IndexTable.assign
        ((includedIndices order tables rootProcess outputs).reserve tables.rootExit) := by
  refine ⟨_,fun hash => ?_,foldl_emitOrphan_indices order tables _ _⟩
  rw [mem_sortedHashes]
  exact mem_openOutputs order tables outputs _

end Tables

section Known
variable {order : IterationOrder Traversal} {tables : ScanState} {rootProcess : ProcessInstance}
  {outputs : List OutputFile} {S : Finset ProcessInstance}

theorem dense_includedIndices (hS : S.card < 2 ^ 32) (hroot : rootProcess ∈ S) (h : Known (· ∈ S) tables) :
    (includedIndices order tables rootProcess outputs).Dense := by
  refine IndexTable.Dense.foldl_assign hS ⟨fun a b i ha hb => ?_,fun a i ha => ?_,?_⟩ (fun p hp => ?_) fun p hp => ?_
  · simp only [ExtTreeMap.getElem?_insert,Std.compare_eq_iff_eq,ExtTreeMap.getElem?_empty] at ha hb
    split_ifs at ha hb with hra hrb
    exact hra.symm.trans hrb
  · simp only [ExtTreeMap.getElem?_insert,Std.compare_eq_iff_eq,ExtTreeMap.getElem?_empty] at ha
    split_ifs at ha
    have hone : (0 : UInt32) < 1 := by decide
    exact Option.some.inj ha ▸ hone
  · rw [ExtTreeMap.size_insert]
    simp
  · rw [ExtTreeMap.mem_insert,Std.compare_eq_iff_eq] at hp
    rcases hp with rfl | hp
    · exact hroot
    · exact absurd hp ExtTreeMap.not_mem_empty
  · exact h.reached ((mem_sortedIncluded order tables outputs).mp hp)

theorem includedIndices_mem (hroot : rootProcess ∈ S) (h : Known (· ∈ S) tables) {p : ProcessInstance}
    (hp : p ∈ (includedIndices order tables rootProcess outputs).processToIndex) : p ∈ S := by
  rcases (mem_includedIndices order tables rootProcess outputs).mp hp with rfl | hp
  · exact hroot
  · exact h.reached hp

theorem includedIndices_root :
    (includedIndices order tables rootProcess outputs).processToIndex[rootProcess]? = some 0 :=
  IndexTable.getElem?_foldl_assign_of_some ExtTreeMap.getElem?_insert_self

theorem mem_attributedTo {hashes : List Str} (hhashes : ∀ hash, hash ∈ hashes ↔ Orphan tables outputs hash)
    {p : ProcessInstance} (hp : p ∈ attributedTo order tables hashes) :
    ∃ hash, Orphan tables outputs hash ∧ Wrote tables hash p := by
  obtain ⟨hash,hm,hw⟩ := List.mem_filterMap.mp hp
  obtain ⟨⟨writer,flow⟩,ho,rfl⟩ := Option.map_eq_some_iff.mp hw
  exact ⟨hash,(hhashes hash).mp hm,(orphanWriter_flow ho).2⟩

/-- The exit of the root belongs to a process that has an index anyway, or no orphaned output
has a writer that still needs one. -/
def ExitIndexFree (tables : ScanState) (rootProcess : ProcessInstance) (outputs : List OutputFile) : Prop :=
  ∀ exitProcess exitCode, tables.rootExit = some (exitProcess,exitCode) →
    (exitProcess = rootProcess ∨ Reached tables outputs exitProcess) ∨
      ∀ hash p, Orphan tables outputs hash → Wrote tables hash p →
        p = rootProcess ∨ Reached tables outputs p ∨ p = exitProcess

theorem distinctIndices_emitIndices (hS : S.card < 2 ^ 32 - 1) (hroot : rootProcess ∈ S)
    (h : Known (· ∈ S) tables) (hfree : ExitIndexFree tables rootProcess outputs) :
    DistinctIndices rootProcess
      (emitIndices order tables rootProcess outputs (sliceWalk order tables outputs)).processToIndex := by
  obtain ⟨hashes,hhashes,hemit⟩ := emitIndices_eq order tables rootProcess outputs
  have hdense := @dense_includedIndices order tables rootProcess outputs S (by omega) hroot h
  have hmem := fun p => @includedIndices_mem order tables rootProcess outputs S hroot h p
  have hzero := @includedIndices_root order tables rootProcess outputs
  have hwriters : ∀ p ∈ attributedTo order tables hashes, p ∈ S := by
    intro p hp
    obtain ⟨hash,-,hw⟩ := mem_attributedTo hhashes hp
    exact h.writersByHash hash p hw
  rw [hemit]
  have hcounted (t : IndexTable) (ht : t.Dense) (hts : ∀ p ∈ t.processToIndex, p ∈ S)
      (htz : t.processToIndex[rootProcess]? = some 0) :
      DistinctIndices rootProcess ((attributedTo order tables hashes).foldl IndexTable.assign t).processToIndex := by
    refine (ht.foldl_assign (by omega) hts hwriters).distinctIndices hS (fun p hp => ?_)
      (IndexTable.getElem?_foldl_assign_of_some htz)
    exact (IndexTable.mem_foldl_assign.mp hp).elim (hts p) (hwriters p)
  rcases hexit : tables.rootExit with _ | ⟨exitProcess,exitCode⟩
  · exact hcounted _ hdense hmem hzero
  · by_cases hin : exitProcess ∈ (includedIndices order tables rootProcess outputs).processToIndex
    · rw [IndexTable.reserve,if_pos hin]
      exact hcounted _ hdense hmem hzero
    · have hout := fun hp => hin ((mem_includedIndices order tables rootProcess outputs).mpr hp)
      have hall := (hfree exitProcess exitCode hexit).resolve_left hout
      have hexitS := h.rootExit exitProcess exitCode hexit
      have hreserved : ∀ p, p ∈ ((includedIndices order tables rootProcess outputs).reserve
          (some (exitProcess,exitCode))).processToIndex ↔
            (p = rootProcess ∨ Reached tables outputs p) ∨ p = exitProcess := by
        intro p
        rw [IndexTable.mem_reserve,mem_includedIndices]
      rw [IndexTable.foldl_assign_of_mem,IndexTable.reserve_processToIndex]
      · refine (hdense.assign fun hnew => ?_).distinctIndices hS (fun p hp => ?_)
          (IndexTable.getElem?_assign_of_some hzero)
        · have hsize := IndexTable.size_lt_card hmem hexitS hnew
          omega
        · exact (IndexTable.mem_assign.mp hp).elim (hmem p) fun hpe => hpe ▸ hexitS
      · intro p hp
        obtain ⟨hash,ho,hw⟩ := mem_attributedTo hhashes hp
        exact (hreserved p).mpr (or_assoc.mpr (hall hash p ho hw))

/-- A writer that still needs an index can come to share that of the exit. -/
theorem exitIndexFree_of_distinct (hmatch : WritersMatch tables)
    (h : ∀ order : IterationOrder Traversal, DistinctIndices rootProcess
      (emitIndices order tables rootProcess outputs (sliceWalk order tables outputs)).processToIndex) :
    ExitIndexFree tables rootProcess outputs := by
  intro exitProcess exitCode hexit
  by_contra hnot
  rw [not_or] at hnot
  obtain ⟨hout,hall⟩ := hnot
  simp only [not_forall] at hall
  obtain ⟨hash,p,horphan,hwrote,hp⟩ := hall
  obtain ⟨order,flow,hwriter,-⟩ := exists_order_orphanWriter hmatch hwrote
  obtain ⟨hashes,hhashes,hemit⟩ := emitIndices_eq order tables rootProcess outputs
  have hunindexed : exitProcess ∉ (includedIndices order tables rootProcess outputs).processToIndex :=
    fun hm => hout ((mem_includedIndices order tables rootProcess outputs).mp hm)
  have hattributed : p ∈ attributedTo order tables hashes :=
    List.mem_filterMap.mpr ⟨hash,(hhashes hash).mpr horphan,by rw [hwriter]; rfl⟩
  rw [hexit] at hemit
  have hnew : p ∉ ((includedIndices order tables rootProcess outputs).reserve
      (some (exitProcess,exitCode))).processToIndex := by
    rw [IndexTable.mem_reserve,mem_includedIndices,or_assoc]
    exact hp
  obtain ⟨q,hq,hshared,hexitIndex⟩ := IndexTable.foldl_assign_collides
    (IndexTable.getElem?_reserve hunindexed exitCode) hattributed hnew
  have hdistinct := h order
  rw [hemit] at hdistinct
  exact hq (hdistinct.distinct q exitProcess _ hshared hexitIndex)

end Known

section Slices

/-- The table of indices of a slice. -/
def sliceIndices (order : IterationOrder Traversal) (events : List TracedEvent) (rootProcess : ProcessInstance)
    (outputs : List OutputFile) : IndexTable :=
  let tables := scan order rootProcess events
  emitIndices order tables rootProcess outputs (sliceWalk order tables outputs)

/-- The process instances of a trace. -/
def traceProcesses (events : List TracedEvent) : Finset ProcessInstance :=
  (events.flatMap eventProcesses).toFinset

/-- Equal indices mean the same process in every order of traversal exactly when the exit of
the root does not take an index that an orphaned output may be given as well. -/
theorem distinctIndices_iff (events : List TracedEvent) (rootProcess : ProcessInstance) (outputs : List OutputFile)
    (hcount : (traceProcesses events).card < 2 ^ 32 - 2) :
    (∀ order : IterationOrder Traversal,
      DistinctIndices rootProcess (sliceIndices order events rootProcess outputs).processToIndex) ↔
      ExitIndexFree (scan .stored rootProcess events) rootProcess outputs := by
  have htables (order : IterationOrder Traversal) : sliceIndices order events rootProcess outputs =
      emitIndices order (scan .stored rootProcess events) rootProcess outputs
        (sliceWalk order (scan .stored rootProcess events) outputs) := by
    rw [sliceIndices,scan_eq order .stored]
  simp only [htables]
  refine ⟨exitIndexFree_of_distinct (writersMatch_scan .stored rootProcess events),fun hfree order => ?_⟩
  have hcard : (insert rootProcess (traceProcesses events)).card < 2 ^ 32 - 1 := by
    have hinsert := Finset.card_insert_le rootProcess (traceProcesses events)
    omega
  have hknown : Known (· ∈ insert rootProcess (traceProcesses events)) (scan .stored rootProcess events) := by
    refine known_scan .stored rootProcess fun event he p hp => Finset.mem_insert_of_mem ?_
    exact List.mem_toFinset.mpr (List.mem_flatMap.mpr ⟨event,he,hp⟩)
  exact distinctIndices_emitIndices hcard (Finset.mem_insert_self _ _) hknown hfree

def launchedRoot : ProcessInstance := ⟨⟨1,0⟩,0⟩

/-- The root after it has executed another program. -/
def executedRoot : ProcessInstance := ⟨⟨1,0⟩,1⟩

/-- The root executes another program, a child writes a file, and the root exits. -/
def executedTrace : List TracedEvent :=
  [.exec executedRoot (.content writerTool),
    .fork executedRoot helperProcess,
    .fileOpen helperProcess (utf8 "/t") 1 3 false (.missing writerInput),
    .fileClose helperProcess 3 (some (utf8 "/t")) false (some (.content writtenContent)),
    .exit helperProcess 0,
    .exit executedRoot 0]

theorem distinctIndices_iff_sample :
    (∀ order : IterationOrder Traversal, DistinctIndices launchedRoot
      (sliceIndices order executedTrace launchedRoot [writtenOutput]).processToIndex) ↔
      ExitIndexFree (scan .stored launchedRoot executedTrace) launchedRoot [writtenOutput] :=
  distinctIndices_iff executedTrace launchedRoot [writtenOutput] (by decide +kernel)

/-- The file is linked to the path of an output, which no event shows. Its writer and the exit
of the root share an index. -/
theorem exit_index_shared :
    ¬ ∀ (order : IterationOrder Traversal) (events : List TracedEvent) (rootProcess : ProcessInstance)
      (outputs : List OutputFile), (traceProcesses events).card < 2 ^ 32 - 2 →
        DistinctIndices rootProcess (sliceIndices order events rootProcess outputs).processToIndex := by
  intro h
  have hdistinct := h .stored executedTrace launchedRoot [writtenOutput] (by decide +kernel)
  have hshared := hdistinct.distinct executedRoot helperProcess 1 (by decide +kernel) (by decide +kernel)
  exact absurd hshared (by decide)

end Slices

end Repx.Slice
