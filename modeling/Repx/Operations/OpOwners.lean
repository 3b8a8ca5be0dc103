import Repx.Operations.EventEffects

/-! # Who the operations of the fork tree belong to

Operations carry a logical index only. The loop appends them event by event, so the
process of an operation is the one that acts in the event that appended it, and the tool
it is recorded under is what was known of that process then.
-/
namespace Repx.Canonical
open ByteString Std Trace HashTables CanonState

section Log
variable (scope : TraceScope) (order : IterationOrder ℕ)

/-- The processes of the operations that the loop appends. -/
def opOwnersFrom : ℕ → CanonState → List TracedEvent → List ProcessInstance
  | _, _, [] => []
  | site, s, event :: events =>
    let next := canonicalizeEvent scope order site s event
    List.replicate (next.ops.length - s.ops.length) (actor event) ++ opOwnersFrom (site + 1) next events

def opOwners (events : List TracedEvent) : List ProcessInstance := opOwnersFrom scope order 0 (initial scope) events

end Log

/-- An effect that sets no tool and records nothing under another one. -/
def Effect.Under (tool : Option Str) : Effect → Prop
  | .setToolHash _ _ => False
  | .push .tree _ op => op.toolHash = tool
  | .openWrite .tree _ _ op => op.toolHash = tool
  | _ => True

section Effects
variable {s : CanonState} {tool : Option Str}

/-- A close changes the outputs of an operation and nothing else of it. -/
theorem map_fillOutput {β : Type} {f : CanonicalOp → β}
    (hf : ∀ (op : CanonicalOp) (outputs : List Str), f { op with outputHashes := outputs } = f op)
    (ops : List CanonicalOp) (index : ℕ) (observation : Option FileObservation) :
    (fillOutput ops index observation).map f = ops.map f := by
  cases observation with
  | none => rfl
  | some observation =>
    apply List.ext_getElem?
    intro i
    rw [fillOutput,List.getElem?_map,List.getElem?_map,List.getElem?_modify]
    cases ops[i]? with
    | none => rfl
    | some op => by_cases hi : index = i <;> simp [hi,hf]

/-- What effects append under a tool, and that they leave the tools alone. -/
structure AppendsUnder (tool : Option Str) (s s' : CanonState) : Prop where
  tools : s'.processToToolHash = s.processToToolHash
  ops : ∃ k, s'.ops.map CanonicalOp.toolHash = s.ops.map CanonicalOp.toolHash ++ List.replicate k tool

theorem AppendsUnder.of_ops {s' : CanonState} (ht : s'.processToToolHash = s.processToToolHash)
    (ho : s'.ops.map CanonicalOp.toolHash = s.ops.map CanonicalOp.toolHash) : AppendsUnder tool s s' :=
  ⟨ht,0,by simp [ho]⟩

theorem AppendsUnder.trans {s' s'' : CanonState} (h : AppendsUnder tool s s') (h' : AppendsUnder tool s' s'') :
    AppendsUnder tool s s'' := by
  obtain ⟨k,hk⟩ := h.ops
  obtain ⟨k',hk'⟩ := h'.ops
  refine ⟨h'.tools.trans h.tools,k + k',?_⟩
  rw [hk',hk,List.append_assoc,List.replicate_append_replicate]

theorem assignIndex_ops (process : ProcessInstance) : (s.assignIndex process).ops = s.ops := by
  unfold assignIndex
  split_ifs <;> rfl

theorem appendsUnder_record {side : Side} {op : CanonicalOp} (process : ProcessInstance)
    (table : ExtTreeMap Descriptor ℕ) (h : side = .tree → op.toolHash = tool) :
    AppendsUnder tool s (s.setSide side (s.recorded side ++ [s.indexed side process op]) table) := by
  cases side with
  | outside => exact .of_ops rfl rfl
  | tree =>
    refine ⟨rfl,1,?_⟩
    simp [setSide,recorded,indexed,h rfl]

theorem Effect.Under.apply {effect : Effect} (h : effect.Under tool) : AppendsUnder tool s (s.apply effect) := by
  cases effect with
  | assignIndex process => exact .of_ops (assignIndex_toolHash s process) (by rw [CanonState.apply,assignIndex_ops])
  | setToolHash process toolHash => exact h.elim
  | markFallback lifetime => exact .of_ops rfl rfl
  | inheritWrites parent child => exact .of_ops rfl rfl
  | push side process op =>
    refine appendsUnder_record process _ fun hside => ?_
    subst hside
    exact h
  | openWrite side process fd op =>
    refine appendsUnder_record process _ fun hside => ?_
    subst hside
    exact h
  | closeWrite side descriptor observation =>
    unfold CanonState.apply
    dsimp only
    split
    · cases side with
      | outside => exact .of_ops rfl rfl
      | tree => exact .of_ops rfl (map_fillOutput (fun _ _ => rfl) _ _ _)
    · exact .of_ops rfl rfl

theorem appendsUnder_foldl {l : List Effect} (h : ∀ effect ∈ l, effect.Under tool) :
    AppendsUnder tool s (l.foldl CanonState.apply s) := by
  induction l generalizing s with
  | nil => exact .of_ops rfl rfl
  | cons effect l ih =>
    exact (h effect List.mem_cons_self).apply.trans (ih fun e he => h e (List.mem_cons_of_mem _ he))

end Effects

section Turn
variable {scope : TraceScope} {s : CanonState} {event : TracedEvent}

/-- Events that introduce no image record under the tool that is known. -/
theorem effects_under (view : ProcessView) (hexec : ∀ process observation, event ≠ .exec process observation)
    (hfork : ∀ parent child, event ≠ .fork parent child) :
    ∀ effect ∈ effects scope view event, effect.Under view.toolHash := by
  intro effect he
  cases event with
  | exec process observation => exact absurd rfl (hexec process observation)
  | fork parent child => exact absurd rfl (hfork parent child)
  | fileOpen process path flags fd external observation =>
    unfold effects fileOpenEffects at he
    grind [Effect.Under,unindexed]
  | fileClose process fd path external observation =>
    unfold effects fileCloseEffects at he
    grind [Effect.Under]
  | fileMmap process fd prot flags path external observation =>
    unfold effects mappingEffects at he
    grind [Effect.Under,unindexed]
  | fileRename process fromPath toPath flags external observation =>
    unfold effects pathEventEffects at he
    grind [Effect.Under,unindexed]
  | fileUnlink process path flags external observation =>
    unfold effects pathEventEffects at he
    grind [Effect.Under,unindexed]
  | exit process exitCode =>
    unfold effects at he
    grind [Effect.Under,unindexed]

variable (scope s) in
theorem turn_of_plain (hexec : ∀ process observation, event ≠ .exec process observation)
    (hfork : ∀ parent child, event ≠ .fork parent child) :
    AppendsUnder s.processToToolHash[actor event]? s (turn scope s event) :=
  appendsUnder_foldl (effects_under (s.view (actor event)) hexec hfork)

variable (scope s) in
theorem turn_exec (process : ProcessInstance) (observation : FileObservation) :
    (turn scope s (.exec process observation)).processToToolHash =
        s.processToToolHash.insert process observation.identity ∧
      (turn scope s (.exec process observation)).ops.map CanonicalOp.toolHash =
        s.ops.map CanonicalOp.toolHash ++ [some observation.identity] := by
  have hops := assignIndex_ops (s := s) process
  constructor
  · simp [turn,effects,CanonState.apply,setSide,setToolHash]
  · simp [turn,effects,CanonState.apply,setSide,recorded,indexed,unindexed,setToolHash,hops]

variable (scope s) in
theorem turn_fork (parent child : ProcessInstance) :
    (turn scope s (.fork parent child)).ops = s.ops ∧
      (turn scope s (.fork parent child)).processToToolHash =
        match s.processToToolHash[parent]? with
        | some toolHash => s.processToToolHash.insert child toolHash
        | none => s.processToToolHash := by
  cases ht : s.processToToolHash[parent]? <;>
    simp [turn,effects,actor,view,ht,CanonState.apply,setToolHash]

variable (scope s event) in
/-- Operations are only ever appended. -/
theorem length_ops_turn : s.ops.length ≤ (turn scope s event).ops.length := by
  have hplain : ∀ tool, AppendsUnder tool s (turn scope s event) →
      s.ops.length ≤ (turn scope s event).ops.length := by
    rintro tool ⟨-,k,hk⟩
    have hlength := congrArg List.length hk
    simp only [List.length_map,List.length_append] at hlength
    omega
  by_cases hexec : ∃ process observation, event = .exec process observation
  · obtain ⟨process,observation,rfl⟩ := hexec
    have hlength := congrArg List.length (turn_exec scope s process observation).2
    simp only [List.length_map,List.length_append] at hlength
    omega
  by_cases hfork : ∃ parent child, event = .fork parent child
  · obtain ⟨parent,child,rfl⟩ := hfork
    rw [(turn_fork scope s parent child).1]
  exact hplain _ (turn_of_plain scope s (fun process observation heq => hexec ⟨process,observation,heq⟩)
    fun parent child heq => hfork ⟨parent,child,heq⟩)

end Turn

section Run
variable (scope : TraceScope) (order : IterationOrder ℕ)

theorem length_opOwnersFrom (site : ℕ) (s : CanonState) (events : List TracedEvent) :
    s.ops.length + (opOwnersFrom scope order site s events).length =
      (canonicalizeFrom scope order site s events).ops.length := by
  induction events generalizing site s with
  | nil => rfl
  | cons event events ih =>
    have hle := length_ops_turn scope s event
    have hrest := ih (site + 1) (canonicalizeEvent scope order site s event)
    rw [canonicalizeFrom,← hrest,opOwnersFrom,List.length_append,List.length_replicate]
    rw [turn,← canonicalizeEvent_eq scope s order site event] at hle
    omega

/-- Every operation has its process. -/
theorem length_opOwners (events : List TracedEvent) :
    (opOwners scope order events).length = (canonicalizeFrom scope order 0 (initial scope) events).ops.length := by
  have h := length_opOwnersFrom scope order 0 (initial scope) events
  rw [← h]
  exact (Nat.zero_add _).symm

theorem mem_opOwnersFrom {site : ℕ} {s : CanonState} {events : List TracedEvent} {process : ProcessInstance}
    (h : process ∈ opOwnersFrom scope order site s events) : ∃ event ∈ events, actor event = process := by
  induction events generalizing site s with
  | nil => cases h
  | cons event events ih =>
    rw [opOwnersFrom,List.mem_append] at h
    rcases h with h | h
    · exact ⟨event,List.mem_cons_self,(List.eq_of_mem_replicate h).symm⟩
    · obtain ⟨e,he,hactor⟩ := ih h
      exact ⟨e,List.mem_cons_of_mem _ he,hactor⟩

end Run

end Repx.Canonical
