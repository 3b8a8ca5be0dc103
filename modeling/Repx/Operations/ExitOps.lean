import Repx.Operations.OpOwners
import Repx.Operations.OpShapes

/-! # Exit operations of the fork tree

An exit is recorded when its process has an index, which an exec gives it for good. Once
recorded, its type and arguments stay, and no other event records an exit operation.
-/
namespace Repx.Canonical
open ByteString Std Trace HashTables CanonState CanonicalOp Sha256

/-- Type and arguments of an operation, which a later close leaves alone. -/
def header (op : CanonicalOp) : OpType × List Str := (op.opType,op.args)

/-- The effects of events other than exits. -/
def Effect.NoExit : Effect → Prop
  | .push _ _ op => op.opType ≠ .exit
  | .openWrite _ _ _ op => op.opType ≠ .exit
  | _ => True

section Effects
variable {s : CanonState}

theorem setSide_processToIndex (side : Side) (ops : List CanonicalOp) (table : ExtTreeMap Descriptor ℕ) :
    (s.setSide side ops table).processToIndex = s.processToIndex := by
  cases side <;> rfl

theorem mem_index_apply {process : ProcessInstance} (h : process ∈ s.processToIndex) (effect : Effect) :
    process ∈ (s.apply effect).processToIndex := by
  cases effect with
  | assignIndex p =>
    simp only [CanonState.apply,assignIndex]
    split
    · exact h
    · exact ExtTreeMap.mem_insert.mpr (Or.inr h)
  | setToolHash | markFallback | inheritWrites => exact h
  | push | openWrite => rwa [CanonState.apply,setSide_processToIndex]
  | closeWrite side descriptor observation =>
    unfold CanonState.apply
    dsimp only
    split
    · rwa [setSide_processToIndex]
    · exact h

/-- The headers that an effect adds to a side. -/
def addedHeaders (side : Side) : Effect → List (OpType × List Str)
  | .push side' _ op => if side' = side then [header op] else []
  | .openWrite side' _ _ op => if side' = side then [header op] else []
  | _ => []

theorem recorded_setSide (side side' : Side) (ops : List CanonicalOp) (table : ExtTreeMap Descriptor ℕ) :
    (s.setSide side' ops table).recorded side = if side' = side then ops else s.recorded side := by
  rw [setSide_recorded]
  by_cases hs : side' = side
  · rw [hs,Function.update_self,if_pos rfl]
  · rw [Function.update_of_ne (Ne.symm hs),if_neg hs]

theorem header_indexed (side : Side) (process : ProcessInstance) (op : CanonicalOp) :
    header (s.indexed side process op) = header op := by
  cases side <;> rfl

theorem map_header_record (side side' : Side) (process : ProcessInstance) (op : CanonicalOp)
    (table : ExtTreeMap Descriptor ℕ) :
    ((s.setSide side' (s.recorded side' ++ [s.indexed side' process op]) table).recorded side).map header =
      (s.recorded side).map header ++ if side' = side then [header op] else [] := by
  rw [recorded_setSide]
  by_cases hs : side' = side
  · subst hs
    simp [header_indexed]
  · simp [hs]

theorem map_header_apply (side : Side) (effect : Effect) :
    ((s.apply effect).recorded side).map header = (s.recorded side).map header ++ addedHeaders side effect := by
  cases effect with
  | assignIndex process =>
    have hkeep : (s.assignIndex process).recorded side = s.recorded side := by
      unfold assignIndex
      split_ifs <;> cases side <;> rfl
    simp [CanonState.apply,hkeep,addedHeaders]
  | setToolHash process toolHash => cases side <;> simp [CanonState.apply,setToolHash,recorded,addedHeaders]
  | markFallback lifetime => cases side <;> simp [CanonState.apply,markFallback,recorded,addedHeaders]
  | inheritWrites parent child => cases side <;> simp [CanonState.apply,recorded,addedHeaders]
  | push side' process op => exact map_header_record side side' process op _
  | openWrite side' process fd op => exact map_header_record side side' process op _
  | closeWrite side' descriptor observation =>
    have hfill : ∀ (ops : List CanonicalOp) (index : ℕ),
        (fillOutput ops index observation).map header = ops.map header :=
      fun ops index => map_fillOutput (fun _ _ => rfl) ops index observation
    unfold CanonState.apply
    dsimp only
    split
    · rw [recorded_setSide]
      by_cases hs : side' = side
      · subst hs
        simp [hfill,addedHeaders]
      · simp [hs,addedHeaders]
    · simp [addedHeaders]

theorem map_header_foldl (side : Side) (l : List Effect) :
    ((l.foldl CanonState.apply s).recorded side).map header =
      (s.recorded side).map header ++ l.flatMap (addedHeaders side) := by
  induction l generalizing s with
  | nil => simp
  | cons effect l ih => rw [List.foldl_cons,ih,map_header_apply,List.flatMap_cons,List.append_assoc]

theorem mem_index_foldl {process : ProcessInstance} (h : process ∈ s.processToIndex) (l : List Effect) :
    process ∈ (l.foldl CanonState.apply s).processToIndex :=
  List.foldlRecOn (motive := fun s : CanonState => process ∈ s.processToIndex) _ _ h
    fun _ hs effect _ => mem_index_apply hs effect

end Effects

section Turn
variable {scope : TraceScope} {s : CanonState} {event : TracedEvent}

/-- Only an exit event records an exit operation. -/
theorem effects_noExit (view : ProcessView) (h : ∀ process exitCode, event ≠ .exit process exitCode) :
    ∀ effect ∈ effects scope view event, effect.NoExit := by
  intro effect he
  cases event with
  | exec process observation =>
    unfold effects at he
    grind [Effect.NoExit,unindexed]
  | fork parent child =>
    rcases List.mem_cons.mp he with rfl | he
    · trivial
    · obtain ⟨toolHash,-,rfl⟩ := Option.map_eq_some_iff.mp (Option.mem_toList.mp he)
      trivial
  | fileOpen process path flags fd external observation =>
    unfold effects fileOpenEffects at he
    grind [Effect.NoExit,unindexed]
  | fileClose process fd path external observation =>
    unfold effects fileCloseEffects at he
    grind [Effect.NoExit]
  | fileMmap process fd prot flags path external observation =>
    unfold effects mappingEffects at he
    grind [Effect.NoExit,unindexed]
  | fileRename process fromPath toPath flags external observation =>
    unfold effects pathEventEffects at he
    grind [Effect.NoExit,unindexed]
  | fileUnlink process path flags external observation =>
    unfold effects pathEventEffects at he
    grind [Effect.NoExit,unindexed]
  | exit process exitCode => exact absurd rfl (h process exitCode)

theorem not_exit_of_noExit {effect : Effect} (h : effect.NoExit) {side : Side} {args : List Str} :
    (OpType.exit,args) ∉ addedHeaders side effect := by
  cases effect with
  | push side' process op =>
    simp only [addedHeaders]
    split
    · exact fun hm => h (congrArg Prod.fst (List.mem_singleton.mp hm)).symm
    · exact List.not_mem_nil
  | openWrite side' process fd op =>
    simp only [addedHeaders]
    split
    · exact fun hm => h (congrArg Prod.fst (List.mem_singleton.mp hm)).symm
    · exact List.not_mem_nil
  | _ => exact List.not_mem_nil

/-- The argument of an exit of the root. -/
def exitArgs (scope : TraceScope) (process : ProcessInstance) (exitCode : Int) : List Str :=
  if process.lifetime = scope.rootProcess.lifetime then [exitArg exitCode] else []

/-- An exit operation that is new after a turn is that of an exit event. -/
theorem exit_of_turn {side : Side} {args : List Str}
    (h : (OpType.exit,args) ∈ ((turn scope s event).recorded side).map header) :
    (OpType.exit,args) ∈ (s.recorded side).map header ∨
      ∃ process exitCode, event = .exit process exitCode ∧ args = exitArgs scope process exitCode := by
  rw [turn,map_header_foldl,List.mem_append] at h
  refine h.imp_right fun h => ?_
  obtain ⟨effect,he,hadded⟩ := List.mem_flatMap.mp h
  by_cases hexit : ∃ process exitCode, event = .exit process exitCode
  · obtain ⟨process,exitCode,rfl⟩ := hexit
    refine ⟨process,exitCode,rfl,?_⟩
    rw [effects] at he
    split at he
    · obtain rfl := List.mem_singleton.mp he
      simp only [addedHeaders] at hadded
      split at hadded
      · exact congrArg Prod.snd (List.mem_singleton.mp hadded)
      · cases hadded
    · cases he
  · exact absurd hadded (not_exit_of_noExit
      (effects_noExit _ (fun process exitCode heq => hexit ⟨process,exitCode,heq⟩) effect he))

theorem mem_header_turn {side : Side} {x : OpType × List Str} (h : x ∈ (s.recorded side).map header) :
    x ∈ ((turn scope s event).recorded side).map header := by
  rw [turn,map_header_foldl]
  exact List.mem_append_left _ h

/-- An exec gives its process an index. -/
theorem mem_index_turn_exec (process : ProcessInstance) (observation : FileObservation) :
    process ∈ (turn scope s (.exec process observation)).processToIndex := by
  have hfirst : process ∈ (s.apply (.assignIndex process)).processToIndex := by
    simp only [CanonState.apply,assignIndex]
    split
    · assumption
    · exact ExtTreeMap.mem_insert.mpr (Or.inl ReflCmp.compare_self)
  exact mem_index_foldl hfirst [_,_]

/-- The exit of a process with an index is recorded. -/
theorem mem_header_turn_exit {process : ProcessInstance} (h : process ∈ s.processToIndex) (exitCode : Int) :
    (OpType.exit,exitArgs scope process exitCode) ∈
      ((turn scope s (.exit process exitCode)).recorded .tree).map header := by
  have hindexed : (s.view process).indexed = true := ExtTreeMap.contains_iff_mem.mpr h
  rw [turn,map_header_foldl,effects,actor,if_pos hindexed]
  exact List.mem_append_right _ (by simp [addedHeaders,header,unindexed,exitArgs])

end Turn

section Run
variable {scope : TraceScope} {s : CanonState} {events : List TracedEvent}

theorem mem_index_run {process : ProcessInstance} (h : process ∈ s.processToIndex) :
    process ∈ (events.foldl (turn scope) s).processToIndex :=
  List.foldlRecOn (motive := fun s : CanonState => process ∈ s.processToIndex) _ _ h
    fun _ hs _ _ => mem_index_foldl hs _

theorem mem_index_run_of_exec {process : ProcessInstance} {observation : FileObservation}
    (h : .exec process observation ∈ events) : process ∈ (events.foldl (turn scope) s).processToIndex := by
  obtain ⟨before,after,rfl⟩ := List.append_of_mem h
  rw [List.foldl_append,List.foldl_cons]
  exact mem_index_run (mem_index_turn_exec process observation)

theorem mem_header_run {side : Side} {x : OpType × List Str} (h : x ∈ (s.recorded side).map header) :
    x ∈ ((events.foldl (turn scope) s).recorded side).map header :=
  List.foldlRecOn (motive := fun s : CanonState => x ∈ (s.recorded side).map header) _ _ h
    fun _ hs _ _ => mem_header_turn hs

theorem exit_of_run {side : Side} {args : List Str}
    (h : (OpType.exit,args) ∈ ((events.foldl (turn scope) s).recorded side).map header) :
    (OpType.exit,args) ∈ (s.recorded side).map header ∨
      ∃ process exitCode, .exit process exitCode ∈ events ∧ args = exitArgs scope process exitCode := by
  induction events using List.reverseRecOn with
  | nil => exact Or.inl h
  | append_singleton events event ih =>
    rw [List.foldl_append] at h
    rcases exit_of_turn h with h | ⟨process,exitCode,rfl,hargs⟩
    · exact (ih h).imp_right fun ⟨process,exitCode,hmem,hargs⟩ =>
        ⟨process,exitCode,List.mem_append_left _ hmem,hargs⟩
    · exact Or.inr ⟨process,exitCode,by simp,hargs⟩

variable (order : IterationOrder ℕ)

theorem mem_recordedOps_headers {x : OpType × List Str} :
    x ∈ (recordedOps scope order events).map header ↔
      ∃ side, x ∈ ((events.foldl (turn scope) (initial scope)).recorded side).map header := by
  rw [recordedOps,canonicalizeFrom_eq_foldl,List.map_append,List.mem_append]
  constructor
  · rintro (h | h)
    · exact ⟨.tree,h⟩
    · exact ⟨.outside,h⟩
  · rintro ⟨_ | _,h⟩
    · exact Or.inl h
    · exact Or.inr h

/-- An exit that follows an exec of its process is recorded. -/
theorem exit_recorded {before after : List TracedEvent} {process : ProcessInstance} {observation : FileObservation}
    (hexec : .exec process observation ∈ before) (exitCode : Int) :
    ∃ op ∈ recordedOps scope order (before ++ .exit process exitCode :: after),
      op.opType = .exit ∧ op.args = exitArgs scope process exitCode := by
  have hheader : (OpType.exit,exitArgs scope process exitCode) ∈
      (recordedOps scope order (before ++ .exit process exitCode :: after)).map header := by
    refine (mem_recordedOps_headers order).mpr ⟨.tree,?_⟩
    rw [List.foldl_append,List.foldl_cons]
    exact mem_header_run (mem_header_turn_exit (mem_index_run_of_exec hexec) exitCode)
  obtain ⟨op,hop,heq⟩ := List.mem_map.mp hheader
  exact ⟨op,hop,congrArg Prod.fst heq,congrArg Prod.snd heq⟩

/-- Every exit operation is that of an exit event. -/
theorem exit_of_recordedOps {op : CanonicalOp} (hop : op ∈ recordedOps scope order events)
    (htype : op.opType = .exit) :
    ∃ process exitCode, .exit process exitCode ∈ events ∧ op.args = exitArgs scope process exitCode := by
  have hheader : (OpType.exit,op.args) ∈ (recordedOps scope order events).map header :=
    List.mem_map.mpr ⟨op,hop,by rw [header,htype]⟩
  obtain ⟨side,hside⟩ := (mem_recordedOps_headers order).mp hheader
  rcases exit_of_run hside with h | h
  · cases side <;> simp [initial,recorded] at h
  · exact h

end Run

section Finalized
variable {sha256 : Str → Digest} {ops : List CanonicalOp}

/-- No operation of other content has the leaf of an exit operation. -/
def ExitLeavesSeparate (sha256 : Str → Digest) (ops : List CanonicalOp) : Prop :=
  ∀ a ∈ ops, ∀ b ∈ ops, a.opType = .exit → a.normalize.hash sha256 = b.normalize.hash sha256 →
    SameContent a.normalize b.normalize

/-- An exit code is recorded and committed, and it is emitted if the leaf of the
operation stands for that operation alone. -/
structure ReportsExit (sha256 : Str → Digest) (exitCode : Int) (recorded emitted : List CanonicalOp) : Prop where
  committed : ∃ op ∈ recorded, op.opType = .exit ∧ op.args = [exitArg exitCode] ∧
    op.normalize.hash sha256 ∈ emitted.map (hash sha256)
  emitted : ExitLeavesSeparate sha256 recorded → ∃ op ∈ emitted, op.opType = .exit ∧ op.args = [exitArg exitCode]

theorem reportsExit_of_recorded {exitCode : Int}
    (h : ∃ op ∈ ops, op.opType = .exit ∧ op.args = [exitArg exitCode]) :
    ReportsExit sha256 exitCode ops (finalizeOps sha256 ops) := by
  obtain ⟨op,hop,htype,hargs⟩ := h
  have hleaf : op.normalize.hash sha256 ∈ leafHashes sha256 ops := mem_leafHashes.mpr ⟨op,hop,rfl⟩
  refine ⟨⟨op,hop,htype,hargs,hleaf⟩,fun hsep => ?_⟩
  obtain ⟨op',hop',heq⟩ := List.mem_map.mp hleaf
  obtain ⟨raw,hraw,rfl⟩ := mem_finalizeOps hop'
  have hsame := hsep op hop raw hraw htype heq.symm
  have hsorted : op.normalize.args = [exitArg exitCode] := by simp [CanonicalOp.normalize,hargs]
  exact ⟨_,hop',hsame.1.symm.trans htype,hsame.2.2.1.symm.trans hsorted⟩

/-- On a well-formed trace an exit operation shares its leaf only if two of the hashed
byte strings collide. -/
theorem exitLeavesSeparate_of_not_collision {scope : TraceScope} {order : IterationOrder ℕ}
    {events : List TracedEvent}
    (hw : ∀ event ∈ events, event.WellFormed)
    (hc : ¬ Collision sha256 ((recordedOps scope order events).map fun op => op.normalize.preimage)) :
    ExitLeavesSeparate sha256 (recordedOps scope order events) := by
  have hs := (shapedState_initial scope).run scope hw
  have hshape : ∀ op ∈ recordedOps scope order events, WellShaped op := by
    intro op hop
    rw [recordedOps,canonicalizeFrom_eq_foldl] at hop
    rcases List.mem_append.mp hop with hop | hop
    · exact hs.ops .tree op hop
    · exact hs.ops .outside op hop
  intro a ha b hb htype hleaf
  have hpre : a.normalize.preimage = b.normalize.preimage := by
    by_contra hdiff
    exact hc ⟨_,List.mem_map.mpr ⟨a,ha,rfl⟩,_,List.mem_map.mpr ⟨b,hb,rfl⟩,hdiff,digestText_injective hleaf⟩
  rw [(hshape a ha).normalize,(hshape b hb).normalize] at hpre ⊢
  refine (sameContent_iff_not_ambiguous (hshape a ha) (hshape b hb)).mpr ?_ hpre
  rintro (hab | hba)
  · exact absurd (htype.symm.trans hab.writes.1) (by decide)
  · exact absurd (htype.symm.trans hba.writes.2) (by decide)

end Finalized

end Repx.Canonical
