import Repx.Attribution.Introductions
import Repx.Operations.OpOwners
import Repx.Slice.EmissionOwners

/-! # Both passes record an instance under the same tool

One pass looks the tool up when it records an operation, the other one when all events have
been scanned. In a trace of the collector the tool of an instance is settled before its first
operation, so that both find what its executions and forks say.
-/
namespace Repx.Trace
open ByteString Utf8 Std HashTables Probe Canonical CanonState Slice

section Eager
variable {scope : TraceScope} {events : List TracedEvent} {event : TracedEvent} {s : CanonState}

/-- The table of the pass is the table of known tools. -/
def ToolsKnown (events : List TracedEvent) (s : CanonState) : Prop :=
  ∀ p, s.processToToolHash[p]? = knownTools events p

variable (scope) in
theorem ToolsKnown.turn (h : ToolsKnown events s) (hfresh : Fresh events event) :
    ToolsKnown (events ++ [event]) (turn scope s event) ∧
      ∃ k, (turn scope s event).ops.map CanonicalOp.toolHash = s.ops.map CanonicalOp.toolHash ++
        List.replicate k (knownTools (events ++ [event]) (actor event)) := by
  by_cases hexec : ∃ process observation, event = .exec process observation
  · obtain ⟨process,observation,rfl⟩ := hexec
    obtain ⟨htools,hops⟩ := turn_exec scope s process observation
    have hknown : knownTools (events ++ [.exec process observation]) process = some observation.identity := by
      rw [knownTools_snoc,assignTool,Function.update_self]
    refine ⟨fun p => ?_,1,by rw [hops,actor,hknown]; rfl⟩
    simp only [htools,ExtTreeMap.getElem?_insert,knownTools_snoc,assignTool,Std.compare_eq_iff_eq,h p]
    by_cases hp : process = p
    · rw [if_pos hp,hp,Function.update_self]
    · rw [if_neg hp,Function.update_of_ne (Ne.symm hp)]
  by_cases hfork : ∃ parent child, event = .fork parent child
  · obtain ⟨parent,child,rfl⟩ := hfork
    obtain ⟨hops,htools⟩ := turn_fork scope s parent child
    refine ⟨fun p => ?_,0,by rw [hops]; simp⟩
    have hchild : s.processToToolHash[child]? = none := by
      rw [h child]
      exact knownTools_of_not_mentioned fun hmem => (hfresh.fork _ _ rfl).2.2 child hmem rfl
    rw [htools,knownTools_snoc,assignTool,h parent]
    by_cases hp : child = p
    · subst hp
      rw [Function.update_self]
      cases knownTools events parent with
      | none => exact hchild
      | some toolHash => simp
    · rw [Function.update_of_ne (Ne.symm hp)]
      cases knownTools events parent with
      | none => exact h p
      | some toolHash => simp [ExtTreeMap.getElem?_insert,hp,h p]
  have hplain := turn_of_plain scope s
    (fun process observation heq => hexec ⟨process,observation,heq⟩) fun parent child heq => hfork ⟨parent,child,heq⟩
  have hknown : ∀ p, knownTools (events ++ [event]) p = knownTools events p := by
    intro p
    rw [knownTools_snoc,assignTool_of_plain (fun observation heq => hexec ⟨p,observation,heq⟩)
      fun parent heq => hfork ⟨parent,p,heq⟩]
  refine ⟨fun p => ?_,?_⟩
  · rw [hplain.tools,h p,hknown p]
  · rw [hknown,← h]
    exact hplain.ops

variable (scope) in
/-- The operations of a run, together with their processes. -/
theorem map_toolHash_canonicalizeFrom (order : IterationOrder ℕ) (site : ℕ) (before rest : List TracedEvent)
    (h : Introduced (before ++ rest)) (hs : ToolsKnown before s) :
    (canonicalizeFrom scope order site s rest).ops.map CanonicalOp.toolHash =
      s.ops.map CanonicalOp.toolHash ++ (opOwnersFrom scope order site s rest).map (knownTools (before ++ rest)) := by
  induction rest generalizing site before s with
  | nil => simp [canonicalizeFrom,opOwnersFrom]
  | cons event rest ih =>
    have hfresh := h.fresh
    have hsettled : knownTools (before ++ event :: rest) (actor event) =
        knownTools (before ++ [event]) (actor event) := by
      rw [List.append_cons] at h ⊢
      exact h.knownTools_append (mem_mentioned_of_mem (List.mem_append_right _ (List.mem_singleton_self _))
        (actor_mem_mentions event))
    obtain ⟨hknown,k,hops⟩ := hs.turn scope hfresh
    rw [Canonical.turn,← canonicalizeEvent_eq scope s order site event] at hknown hops
    have hcount : (canonicalizeEvent scope order site s event).ops.length - s.ops.length = k := by
      have hlength := congrArg List.length hops
      simp only [List.length_map,List.length_append,List.length_replicate] at hlength
      omega
    have hrest := ih (site + 1) (before ++ [event]) (by rwa [← List.append_cons]) hknown
    rw [← List.append_cons] at hrest
    rw [canonicalizeFrom,hrest,hops,opOwnersFrom,hcount,List.map_append,List.map_replicate,hsettled,List.append_assoc]

end Eager

section Late
variable {order : IterationOrder Traversal} {site : ℕ} {s : ScanState} {rootProcess : ProcessInstance}

/-- The instances the scanned tables speak of. -/
structure Within (instances : List ProcessInstance) (s : ScanState) : Prop where
  flows : ∀ (p : ProcessInstance) (flow : ProcessFlow), s.flows[p]? = some flow → p ∈ instances
  pending : ∀ (d : Descriptor) (write : PendingWrite), s.pendingWrites[d]? = some write → write.process ∈ instances
  rootExit : ∀ exit, s.rootExit = some exit → exit.1 ∈ instances

/-- The instance an effect enters into a table. -/
def entered : ScanEffect → Option ProcessInstance
  | .exec process _ => some process
  | .inherit _ child => some child
  | .read process _ => some process
  | .bind _ write => some write.process
  | .release _ => none
  | .author _ _ => none
  | .write process _ => some process
  | .move _ _ => none
  | .rename process _ => some process
  | .exit process _ => some process

theorem Within.updateFlow {instances : List ProcessInstance} (h : Within instances s) {process : ProcessInstance}
    (hp : process ∈ instances) (f : ProcessFlow → ProcessFlow) : Within instances (s.updateFlow process f) where
  flows p flow hflow := by
    simp only [ScanState.updateFlow,ExtTreeMap.getElem?_insert,Std.compare_eq_iff_eq] at hflow
    split at hflow
    · next heq => exact heq ▸ hp
    · exact h.flows p flow hflow
  pending := h.pending
  rootExit := h.rootExit

theorem Within.apply {instances : List ProcessInstance} (h : Within instances s) {effect : ScanEffect}
    (he : ∀ p, entered effect = some p → p ∈ instances) : Within instances (s.apply order site effect) := by
  cases effect with
  | exec process observation =>
    exact h.updateFlow (he process rfl) fun flow =>
      { flow with toolHash := some observation.identity, hasExec := true }
  | inherit parent child =>
    have hflow := h.updateFlow (he child rfl) fun flow =>
      { flow with toolHash := s.flows[parent]?.bind ProcessFlow.toolHash }
    refine ⟨hflow.flows,fun d write hd => ?_,hflow.rootExit⟩
    change (inheritWrites order (.inheritedWrites site) parent.lifetime child.lifetime s.pendingWrites)[d]? = _ at hd
    rw [getElem?_inheritWrites] at hd
    split at hd
    · rcases Option.or_eq_some_iff.mp hd with hd | ⟨-,hd⟩
      · exact h.pending _ write hd
      · exact h.pending _ write hd
    · exact h.pending _ write hd
  | read process hash =>
    exact h.updateFlow (he process rfl) fun flow => { flow with reads := flow.reads.insert hash }
  | bind descriptor write =>
    refine ⟨h.flows,fun d write' hd => ?_,h.rootExit⟩
    change (s.pendingWrites.insert descriptor write)[d]? = _ at hd
    rw [ExtTreeMap.getElem?_insert] at hd
    split at hd
    · exact Option.some.inj hd ▸ he write.process rfl
    · exact h.pending d write' hd
  | release descriptor =>
    refine ⟨h.flows,fun d write hd => ?_,h.rootExit⟩
    change (s.pendingWrites.erase descriptor)[d]? = _ at hd
    rw [ExtTreeMap.getElem?_erase] at hd
    split at hd
    · cases hd
    · exact h.pending d write hd
  | author path process => exact ⟨h.flows,h.pending,h.rootExit⟩
  | write process hash =>
    have hflow := h.updateFlow (he process rfl) fun flow => { flow with writes := flow.writes.insert hash }
    exact ⟨hflow.flows,hflow.pending,hflow.rootExit⟩
  | move fromPath toPath =>
    refine ⟨h.flows,fun d write hd => ?_,h.rootExit⟩
    change (movePendingWrites order _ fromPath toPath s.pendingWrites)[d]? = _ at hd
    rw [getElem?_movePendingWrites] at hd
    obtain ⟨old,hold,rfl⟩ := Option.map_eq_some_iff.mp hd
    have hprocess : (movePendingWrite fromPath toPath old).process = old.process := by
      unfold movePendingWrite
      split <;> rfl
    exact hprocess ▸ h.pending d old hold
  | rename process hash =>
    have hflow := h.updateFlow (he process rfl) fun flow =>
      { flow with reads := flow.reads.insert hash, renames := flow.renames.insert hash }
    exact ⟨hflow.flows,hflow.pending,hflow.rootExit⟩
  | exit process exitCode =>
    refine ⟨h.flows,h.pending,fun exit hexit => ?_⟩
    exact Option.some.inj hexit ▸ he process rfl

theorem readEffects_entered {p process : ProcessInstance} {path : Str} {observation : FileObservation}
    {effect : ScanEffect} (he : effect ∈ readEffects process path observation) (hp : entered effect = some p) :
    p = process := by
  obtain ⟨hash,-,rfl⟩ := mem_readEffects.mp he
  exact (Option.some.inj hp).symm

variable (rootProcess) in
/-- An event enters its actor, its child, or the opener of a write it settles. -/
theorem Within.entered {instances : List ProcessInstance} (h : Within instances s) {event : TracedEvent}
    (hm : ∀ p ∈ mentions event, p ∈ instances) : ∀ effect ∈ scanEffects rootProcess s.pendingWrites event, ∀ p,
      Trace.entered effect = some p → p ∈ instances := by
  have hactor := hm (actor event) (actor_mem_mentions event)
  intro effect he p hp
  unfold scanEffects at he
  split at he
  · obtain rfl := List.mem_singleton.mp he
    exact Option.some.inj hp ▸ hactor
  · obtain rfl := List.mem_singleton.mp he
    exact Option.some.inj hp ▸ hm _ (by simp [mentions])
  · rcases List.mem_append.mp he with he | he
    · split at he
      · exact readEffects_entered he hp ▸ hactor
      · cases he
    · split at he
      · obtain rfl := List.mem_singleton.mp he
        exact Option.some.inj hp ▸ hactor
      · cases he
  · rcases List.mem_append.mp he with he | he
    · exact readEffects_entered he hp ▸ hactor
    · split at he
      · obtain rfl := List.mem_singleton.mp he
        exact Option.some.inj hp ▸ hactor
      · cases he
  · rcases List.mem_cons.mp he with rfl | he
    · cases hp
    · obtain ⟨opened,seen,hopened,-,rfl | ⟨hash,-,rfl⟩⟩ := mem_settleEffects he
      · cases hp
      · exact Option.some.inj hp ▸ h.pending _ opened hopened
  · rcases List.mem_cons.mp he with rfl | he
    · cases hp
    · rcases List.mem_cons.mp he with rfl | he
      · cases hp
      · obtain ⟨hash,-,rfl⟩ := List.mem_map.mp he
        exact Option.some.inj hp ▸ hactor
  · split at he
    · obtain rfl := List.mem_singleton.mp he
      exact Option.some.inj hp ▸ hactor
    · cases he
  · cases he

variable (order site) in
theorem toolOf_apply (effect : ScanEffect) :
    toolOf (s.apply order site effect) =
      match effect with
      | .exec process observation => Function.update (toolOf s) process (some observation.identity)
      | .inherit parent child => Function.update (toolOf s) child (toolOf s parent)
      | _ => toolOf s := by
  funext q
  rw [toolOf,flowOf_apply]
  cases effect with
  | exec process observation =>
    by_cases hq : process = q
    · simp [ScanEffect.onFlow,hq]
    · simp [ScanEffect.onFlow,hq,Function.update_of_ne (Ne.symm hq),toolOf]
  | inherit parent child =>
    by_cases hq : child = q
    · simp [ScanEffect.onFlow,hq,bind_toolHash_eq_toolOf]
    · simp [ScanEffect.onFlow,hq,Function.update_of_ne (Ne.symm hq),toolOf]
  | read process hash => simp only [ScanEffect.onFlow]; split <;> rfl
  | write process hash => simp only [ScanEffect.onFlow]; split <;> rfl
  | rename process hash => simp only [ScanEffect.onFlow]; split <;> rfl
  | bind | release | author | move | exit => rfl

/-- Effects that assign no tool. -/
def keepsTools : ScanEffect → Bool
  | .exec _ _ => false
  | .inherit _ _ => false
  | _ => true

theorem toolOf_foldl {effects : List ScanEffect} (h : ∀ effect ∈ effects, keepsTools effect = true) :
    toolOf (effects.foldl (ScanState.apply order site) s) = toolOf s := by
  induction effects generalizing s with
  | nil => rfl
  | cons effect effects ih =>
    rw [List.foldl_cons,ih fun e he => h e (List.mem_cons_of_mem _ he),toolOf_apply]
    have hkeeps := h effect List.mem_cons_self
    cases effect with
    | exec | inherit => cases hkeeps
    | _ => rfl

theorem readEffects_keepsTools {process : ProcessInstance} {path : Str} {observation : FileObservation} :
    ∀ effect ∈ readEffects process path observation, keepsTools effect = true := by
  intro effect he
  obtain ⟨hash,-,rfl⟩ := mem_readEffects.mp he
  rfl

theorem settleEffects_keepsTools {path : Option Str} {write : Option PendingWrite}
    {observation : Option FileObservation} :
    ∀ effect ∈ settleEffects path write observation, keepsTools effect = true := by
  intro effect he
  obtain ⟨opened,seen,-,-,rfl | ⟨hash,-,rfl⟩⟩ := mem_settleEffects he
  · rfl
  · rfl

/-- The scan assigns tools as the events say. -/
theorem toolOf_scanEvent (event : TracedEvent) :
    toolOf (scanEvent order site s rootProcess event) = assignTool (toolOf s) event := by
  rw [scanEvent_eq_foldl]
  cases event with
  | exec process observation => exact toolOf_apply order site (.exec process observation)
  | fork parent child => exact toolOf_apply order site (.inherit parent child)
  | _ =>
    refine toolOf_foldl fun effect he => ?_
    unfold scanEffects at he
    split at he <;> grind [keepsTools,readEffects_keepsTools,settleEffects_keepsTools]

theorem toolOf_scanFrom (before rest : List TracedEvent) (hs : toolOf s = knownTools before) :
    toolOf (scanFrom order rootProcess site s rest) = knownTools (before ++ rest) := by
  induction rest generalizing site s before with
  | nil => rw [List.append_nil,← hs,scanFrom]
  | cons event rest ih =>
    rw [scanFrom,List.append_cons]
    exact ih (before ++ [event]) (by rw [toolOf_scanEvent,hs,knownTools_snoc])

theorem within_scanFrom {instances : List ProcessInstance} {events : List TracedEvent} (h : Within instances s)
    (hm : ∀ p ∈ mentioned events, p ∈ instances) : Within instances (scanFrom order rootProcess site s events) := by
  induction events generalizing site s with
  | nil => exact h
  | cons event events ih =>
    refine ih ?_ fun p hp => hm p (List.mem_flatMap.mpr ?_)
    · rw [scanEvent_eq_foldl]
      have hentered := h.entered rootProcess fun p hp =>
        hm p (mem_mentioned_of_mem (List.mem_cons_self (a := event)) hp)
      exact List.foldlRecOn _ _ h fun s hs effect he => hs.apply (hentered effect he)
    · obtain ⟨e,he,hp⟩ := List.mem_flatMap.mp hp
      exact ⟨e,List.mem_cons_of_mem _ he,hp⟩

theorem within_scan (order : IterationOrder Traversal) (rootProcess : ProcessInstance) (events : List TracedEvent) :
    Within (mentioned events) (scan order rootProcess events) := by
  have hinitial : Within (mentioned events) .initial :=
    ⟨by simp [ScanState.initial],by simp [ScanState.initial],by simp [ScanState.initial]⟩
  have hrun : Within (mentioned events) (scanFrom order rootProcess 0 .initial events) :=
    within_scanFrom hinitial fun _ hp => hp
  exact ⟨hrun.flows,hrun.pending,hrun.rootExit⟩

theorem toolOf_scan (order : IterationOrder Traversal) (rootProcess : ProcessInstance) (events : List TracedEvent) :
    toolOf (scan order rootProcess events) = knownTools events :=
  toolOf_scanFrom [] events rfl

end Late

section Agreement
variable {H : Type} (order : IterationOrder ℕ) (view : ℕ → World H) (watchPrefixes : List Str)

theorem map_getElem?_of_map_eq {owners : List (Option ProcessInstance)} {ops : List CanonicalOp}
    {tools : ProcessInstance → Option Str} (h : ops.map CanonicalOp.toolHash = owners.map fun o => o.bind tools)
    {i : ℕ} {p : ProcessInstance} (hi : owners[i]? = some (some p)) : ops[i]?.map CanonicalOp.toolHash = some (tools p) := by
  rw [← List.getElem?_map,h,List.getElem?_map,hi]
  rfl

/-- In a trace of the collector every instance has one tool, which is what it executed or what it
inherited along the forks, and none only if they lead back to a lifetime without either. Both passes record
all its operations under that tool. -/
theorem tools_agree (rootPid : UInt32) (rootCwd : Str) (malformed : UInt64) (observation : FileObservation)
    (raws : List RawEvent) (hlength : raws.length < 2 ^ 32 - 1) (scopePrefixes : List Str) (forks : IterationOrder ℕ)
    (traversal : IterationOrder Traversal) (outputs : List OutputFile) :
    let events := rootExec rootPid observation ::
      (processBufferedEvents order view watchPrefixes 0 raws (.initial rootPid rootCwd malformed)).events
    let scope : TraceScope := ⟨⟨⟨rootPid,0⟩,0⟩,scopePrefixes⟩
    let ops := (canonicalizeFrom scope forks 0 (initial scope) events).ops
    let sliced := sliceOps traversal events scope.rootProcess outputs
    (∀ p ∈ mentioned events, ∃ tool, (∀ t, ToolOf events p t ↔ t = tool) ∧ (tool = none ↔ Untracked events p) ∧
      (∀ i : ℕ, (opOwners scope forks events)[i]? = some p → ops[i]?.map CanonicalOp.toolHash = some tool) ∧
      ∀ i : ℕ, (sliceOwners traversal events scope.rootProcess outputs)[i]? = some (some p) →
        sliced[i]?.map CanonicalOp.toolHash = some tool) ∧
    ((opOwners scope forks events).length = ops.length ∧ ∀ p ∈ opOwners scope forks events, p ∈ mentioned events) ∧
    (sliceOwners traversal events scope.rootProcess outputs).length = sliced.length ∧
      ∀ p, some p ∈ sliceOwners traversal events scope.rootProcess outputs → p ∈ mentioned events := by
  intro events scope ops sliced
  have hintroduced : Introduced events :=
    (tracked_run order view watchPrefixes rootPid rootCwd malformed observation raws hlength).introduced
  have hops : ops.map CanonicalOp.toolHash = ((opOwners scope forks events).map some).map fun owner =>
      owner.bind (knownTools events) := by
    have hknown : ToolsKnown [] (initial scope) := fun p => by simp [initial,knownTools]
    have hrun := map_toolHash_canonicalizeFrom scope forks 0 [] events hintroduced hknown
    rw [List.map_map]
    exact hrun
  have hsliced := map_toolHash_sliceOps traversal events scope.rootProcess outputs
  rw [toolOf_scan] at hsliced
  refine ⟨fun p hp => ?_,⟨length_opOwners scope forks events,fun p hp => ?_⟩,?_,fun p hp => ?_⟩
  · have htool := hintroduced.toolOf_knownTools hp
    refine ⟨knownTools events p,fun t => ⟨fun ht => hintroduced.toolOf_unique ht htool,fun ht => ht ▸ htool⟩,
      ⟨untracked_of_toolOf htool,fun h => hintroduced.toolOf_unique htool h.toolOf⟩,fun i hi => ?_,fun i hi => ?_⟩
    · exact map_getElem?_of_map_eq hops (by rw [List.getElem?_map,hi]; rfl)
    · exact map_getElem?_of_map_eq hsliced hi
  · obtain ⟨event,he,rfl⟩ := mem_opOwnersFrom scope forks hp
    exact mem_mentioned_of_mem he (actor_mem_mentions event)
  · have hcount := congrArg List.length hsliced
    rw [List.length_map,List.length_map] at hcount
    exact hcount.symm
  · have hwithin := within_scan traversal scope.rootProcess events
    rcases mem_emitOwners hp with ⟨flow,hflow⟩ | ⟨exitCode,hexit⟩
    · exact hwithin.flows p flow hflow
    · exact hwithin.rootExit _ hexit

end Agreement

/-- The trace of one fork by the root. -/
def sampleForkTrace : List TracedEvent :=
  rootExec 10 (.content copiedContent) ::
    (processBufferedEvents .stored (fun _ => bareWorld) [] 0 [sampleFork 1] (.initial 10 [slash] 0)).events

theorem tools_agree_sample : ToolOf sampleForkTrace ⟨⟨11,0⟩,0⟩ (some copiedContent) ∧
    ∀ tool, ToolOf sampleForkTrace ⟨⟨11,0⟩,0⟩ tool → tool = some copiedContent := by
  obtain ⟨known,hknown,-⟩ := (tools_agree .stored (fun _ => bareWorld) [] 10 [slash] 0 (.content copiedContent)
    [sampleFork 1] (by decide) [] .stored .stored []).1 ⟨⟨11,0⟩,0⟩ (by decide)
  have hroot : ToolOf sampleForkTrace ⟨⟨10,0⟩,0⟩ (some copiedContent) := .exec List.mem_cons_self
  have hevents : sampleForkTrace = [rootExec 10 (.content copiedContent),.fork ⟨⟨10,0⟩,0⟩ ⟨⟨11,0⟩,0⟩] := by decide
  have htool : ToolOf sampleForkTrace ⟨⟨11,0⟩,0⟩ (some copiedContent) :=
    .fork (fun observation h => by simp [hevents,rootExec] at h) (by decide) rfl hroot
  refine ⟨htool,fun tool h => ?_⟩
  rw [(hknown tool).mp h,(hknown _).mp htool]

end Repx.Trace
