import Repx.Operations.OpOwners

/-! # What an event does to the pending writes

An event opens a write on one of the two sides, closes one, hands the writes of a process
down, or leaves the tables of pending writes alone. Which of these it is follows from the
view of the acting process; everything about the tables is proved from the four cases.
-/
namespace Repx.Canonical
open ByteString Std Trace HashTables CanonState

inductive WriteAction where
  | opens (side : Side) (descriptor : Descriptor)
  | closes (side : Side) (descriptor : Descriptor) (observation : Option FileObservation)
  | hands (parent child : ProcessLifetime)
  | other

section Actions
variable (scope : TraceScope) (view : ProcessView)

def openAction (process : ProcessInstance) (path : Str) (flags : UInt32) (fd : Int) (external : Bool) :
    WriteAction :=
  if (external && !scope.isWatched path) || !canWrite flags then .other
  else if view.isOutside scope process external (scope.isWatched path) then
    .opens .outside ⟨process.lifetime,fd⟩
  else if isSystemState path then .other
  else .opens .tree ⟨process.lifetime,fd⟩

def mappingAction (process : ProcessInstance) (fd : Int) (isWrite : Bool) (path : Str) (external : Bool) :
    WriteAction :=
  if view.isOutside scope process external (scope.isWatched path) then
    if isWrite && !view.hasWrite .outside fd then .opens .outside ⟨process.lifetime,fd⟩ else .other
  else if !isSystemState path && isWrite && !view.hasWrite .tree fd then .opens .tree ⟨process.lifetime,fd⟩
  else .other

/-- The side on which a close looks for its operation. -/
def closeSide (process : ProcessInstance) (path : Str) (external : Bool) : Side :=
  if external || (process.lifetime != scope.rootProcess.lifetime && view.fallback && scope.isWatched path) then
    .outside
  else .tree

def writeAction : TracedEvent → WriteAction
  | .fork parent child => .hands parent.lifetime child.lifetime
  | .fileOpen process path flags fd external _ => openAction scope view process path flags fd external
  | .fileMmap process fd prot flags path external observation =>
    if external && !(path.any scope.isWatched) then .other
    else
      match path, observation with
      | some path, some _ => mappingAction scope view process fd (mapWrites prot flags) path external
      | _, _ => .other
  | .fileClose process fd (some path) external observation =>
    .closes (closeSide scope view process path external) ⟨process.lifetime,fd⟩ observation
  | _ => .other

end Actions

/-- The type of the operations that wait for a close. -/
def Side.writeType : Side → OpType
  | tree => .fileWrite
  | outside => .externalFileWrite

def CanonicalOp.IsWrite (op : CanonicalOp) : Prop := ∃ side : Side, op.opType = side.writeType

/-- An effect that leaves the tables of pending writes alone and records no write. -/
def Effect.Quiet : Effect → Prop
  | .inheritWrites _ _ => False
  | .openWrite _ _ _ _ => False
  | .closeWrite _ _ _ => False
  | .push _ _ op => ¬ op.IsWrite
  | _ => True

theorem not_isWrite {op : CanonicalOp} (h : op.opType ≠ .fileWrite) (h' : op.opType ≠ .externalFileWrite) :
    ¬ op.IsWrite := by
  rintro ⟨side,hside⟩
  cases side with
  | tree => exact h hside
  | outside => exact h' hside

section Effects
variable {scope : TraceScope} {view : ProcessView} {event : TracedEvent}

theorem quiet_push {side : Side} {process : ProcessInstance} {opType : OpType} {toolHash : Option Str}
    {args inputHashes outputHashes : List Str} (h : opType ≠ .fileWrite ∧ opType ≠ .externalFileWrite) :
    (Effect.push side process (unindexed opType toolHash args inputHashes outputHashes)).Quiet :=
  not_isWrite h.1 h.2

theorem effects_other (h : writeAction scope view event = .other) :
    ∀ effect ∈ effects scope view event, effect.Quiet := by
  have hassign : ∀ process, (Effect.assignIndex process).Quiet := fun _ => trivial
  have htool : ∀ process tool, (Effect.setToolHash process tool).Quiet := fun _ _ => trivial
  have hmark : ∀ lifetime, (Effect.markFallback lifetime).Quiet := fun _ => trivial
  have hpush := @quiet_push
  intro effect he
  cases event with
  | exec process observation =>
    simp only [effects] at he
    grind
  | fork parent child => cases h
  | fileOpen process path flags fd external observation =>
    simp only [writeAction,openAction] at h
    unfold effects fileOpenEffects at he
    grind
  | fileClose process fd path external observation =>
    cases path with
    | none => cases he
    | some path => cases h
  | fileMmap process fd prot flags path external observation =>
    simp only [writeAction,mappingAction] at h
    unfold effects mappingEffects at he
    grind
  | fileRename process fromPath toPath flags external observation =>
    unfold effects pathEventEffects at he
    grind
  | fileUnlink process path flags external observation =>
    unfold effects pathEventEffects at he
    grind
  | exit process exitCode =>
    unfold effects at he
    grind

/-- The operation of a write is recorded last. -/
theorem effects_opens {side : Side} {d : Descriptor} (h : writeAction scope view event = .opens side d) :
    ∃ l process fd op, effects scope view event = l ++ [.openWrite side process fd op] ∧
      (∀ effect ∈ l, effect.Quiet) ∧ d = ⟨process.lifetime,fd⟩ ∧ op.opType = side.writeType ∧
      op.outputHashes = [] := by
  have hpush := @quiet_push
  cases event with
  | exec process observation => cases h
  | fork parent child => cases h
  | fileOpen process path flags fd external observation =>
    simp only [writeAction,openAction] at h
    split_ifs at h with hskip hout hsystem
    · obtain ⟨rfl,rfl⟩ := WriteAction.opens.inj h
      simp only [Bool.or_eq_true,not_or,Bool.not_eq_true,Bool.not_eq_false'] at hskip
      refine ⟨.markFallback process.lifetime :: (if canRead flags then
        [.push .outside process (unindexed .externalFileRead none [] [observation.identity] [])] else []),
        process,fd,unindexed .externalFileWrite none [] [] [],?_,?_,rfl,rfl,rfl⟩
      · simp [effects,fileOpenEffects,hskip.1,hskip.2,hout]
      · grind [Effect.Quiet]
    · obtain ⟨rfl,rfl⟩ := WriteAction.opens.inj h
      simp only [Bool.or_eq_true,not_or,Bool.not_eq_true,Bool.not_eq_false'] at hskip
      refine ⟨.assignIndex process :: (if canRead flags then
        [.push .tree process (unindexed .fileRead view.toolHash [] [observation.identity] [])] else []),
        process,fd,unindexed .fileWrite view.toolHash [] [] [],?_,?_,rfl,rfl,rfl⟩
      · simp [effects,fileOpenEffects,hskip.1,hskip.2,hout,hsystem]
      · grind [Effect.Quiet]
  | fileClose process fd path external observation => cases path <;> cases h
  | fileMmap process fd prot flags path external observation =>
    simp only [writeAction] at h
    split_ifs at h with hskip
    cases path with
    | none => cases h
    | some path =>
      cases observation with
      | none => cases h
      | some observation =>
        simp only [mappingAction] at h
        split_ifs at h with hout hwrite hwrite
        · obtain ⟨rfl,rfl⟩ := WriteAction.opens.inj h
          refine ⟨[.markFallback process.lifetime,
            .push .outside process (unindexed .externalFileRead none [mmapArg] [observation.identity] [])],
            process,fd,unindexed .externalFileWrite none [] [] [],?_,?_,rfl,rfl,rfl⟩
          · simp only [effects]
            rw [if_neg hskip]
            simp [mappingEffects,hout,hwrite]
          · grind [Effect.Quiet]
        · obtain ⟨rfl,rfl⟩ := WriteAction.opens.inj h
          simp only [Bool.and_eq_true,Bool.not_eq_true'] at hwrite
          refine ⟨[.assignIndex process,
            .push .tree process (unindexed .fileRead view.toolHash [mmapArg] [observation.identity] [])],
            process,fd,unindexed .fileWrite view.toolHash [] [] [],?_,?_,rfl,rfl,rfl⟩
          · simp only [effects]
            rw [if_neg hskip]
            simp [mappingEffects,hout,hwrite]
          · grind [Effect.Quiet]
  | fileRename process fromPath toPath flags external observation => cases h
  | fileUnlink process path flags external observation => cases h
  | exit process exitCode => cases h

/-- Only closes with a path close a write. -/
theorem event_of_closes {side : Side} {d : Descriptor} {observation : Option FileObservation}
    (h : writeAction scope view event = .closes side d observation) :
    ∃ process fd path external, event = .fileClose process fd (some path) external observation ∧
      side = closeSide scope view process path external ∧ d = ⟨process.lifetime,fd⟩ := by
  cases event with
  | fileClose process fd path external observation =>
    cases path with
    | none => cases h
    | some path =>
      obtain ⟨hside,hd,rfl⟩ := WriteAction.closes.inj h
      exact ⟨process,fd,path,external,rfl,hside.symm,hd.symm⟩
  | fileOpen process path flags fd external observation =>
    simp only [writeAction,openAction] at h
    split_ifs at h
  | fileMmap process fd prot flags path external observation =>
    simp only [writeAction,mappingAction] at h
    grind
  | exec | fork | fileRename | fileUnlink | exit => cases h

theorem effects_closes {side : Side} {d : Descriptor} {observation : Option FileObservation}
    (h : writeAction scope view event = .closes side d observation) :
    effects scope view event = [.closeWrite side d observation] := by
  obtain ⟨process,fd,path,external,rfl,rfl,rfl⟩ := event_of_closes h
  rfl

theorem effects_hands {parent child : ProcessLifetime} (h : writeAction scope view event = .hands parent child) :
    ∃ p c, event = .fork p c ∧ p.lifetime = parent ∧ c.lifetime = child := by
  cases event with
  | fork p c =>
    obtain ⟨rfl,rfl⟩ := WriteAction.hands.inj h
    exact ⟨p,c,rfl,rfl,rfl⟩
  | fileClose process fd path external observation => cases path <;> cases h
  | fileOpen process path flags fd external observation =>
    simp only [writeAction,openAction] at h
    split_ifs at h
  | fileMmap process fd prot flags path external observation =>
    simp only [writeAction,mappingAction] at h
    grind
  | exec | fileRename | fileUnlink | exit => cases h

end Effects

/-- Between two states nothing but operations that are no writes has been recorded. -/
structure Grown (s s' : CanonState) : Prop where
  pending : s'.pending = s.pending
  recorded : ∀ side, ∃ reads, s'.recorded side = s.recorded side ++ reads ∧ ∀ op ∈ reads, ¬ op.IsWrite

section Turn
variable {scope : TraceScope} {s : CanonState} {event : TracedEvent}

theorem Grown.refl (s : CanonState) : Grown s s := ⟨rfl,fun _ => ⟨[],by simp,by simp⟩⟩

theorem Grown.trans {s' s'' : CanonState} (h : Grown s s') (h' : Grown s' s'') : Grown s s'' := by
  refine ⟨h'.pending.trans h.pending,fun side => ?_⟩
  obtain ⟨reads,hr,hw⟩ := h.recorded side
  obtain ⟨reads',hr',hw'⟩ := h'.recorded side
  refine ⟨reads ++ reads',by rw [hr',hr,List.append_assoc],fun op hop => ?_⟩
  rcases List.mem_append.mp hop with hop | hop
  · exact hw op hop
  · exact hw' op hop

theorem Grown.of_same {s' : CanonState} (hp : s'.pending = s.pending) (hr : s'.recorded = s.recorded) : Grown s s' :=
  ⟨hp,fun side => ⟨[],by rw [hr,List.append_nil],by simp⟩⟩

theorem Effect.Quiet.grown {effect : Effect} (h : effect.Quiet) : Grown s (s.apply effect) := by
  cases effect with
  | assignIndex process =>
    unfold CanonState.apply CanonState.assignIndex
    refine .of_same (funext fun side => ?_) (funext fun side => ?_)
    · cases side <;> dsimp only [CanonState.pending] <;> split_ifs <;> rfl
    · cases side <;> dsimp only [CanonState.recorded] <;> split_ifs <;> rfl
  | setToolHash process toolHash =>
    exact .of_same (by funext side; cases side <;> rfl) (by funext side; cases side <;> rfl)
  | markFallback lifetime =>
    exact .of_same (by funext side; cases side <;> rfl) (by funext side; cases side <;> rfl)
  | inheritWrites parent child => exact h.elim
  | openWrite side process fd op => exact h.elim
  | closeWrite side d observation => exact h.elim
  | push side process op =>
    refine ⟨by rw [CanonState.apply,setSide_pending,Function.update_eq_self],fun side' => ?_⟩
    rw [CanonState.apply,setSide_recorded]
    by_cases hs : side' = side
    · subst hs
      rw [Function.update_self]
      refine ⟨[s.indexed side' process op],rfl,fun op' hop => ?_⟩
      rw [List.mem_singleton.mp hop]
      cases side' <;> exact h
    · rw [Function.update_of_ne hs]
      exact ⟨[],by simp,by simp⟩

theorem grown_foldl {l : List Effect} (h : ∀ effect ∈ l, effect.Quiet) :
    Grown s (l.foldl CanonState.apply s) := by
  induction l generalizing s with
  | nil => exact .refl s
  | cons effect l ih =>
    exact (h effect List.mem_cons_self).grown.trans (ih fun e he => h e (List.mem_cons_of_mem _ he))

theorem turn_other (h : writeAction scope (s.view (actor event)) event = .other) : Grown s (turn scope s event) :=
  grown_foldl (effects_other h)

theorem turn_opens {side : Side} {d : Descriptor}
    (h : writeAction scope (s.view (actor event)) event = .opens side d) :
    ∃ s' op, Grown s s' ∧ op.opType = side.writeType ∧ op.outputHashes = [] ∧
      turn scope s event =
        s'.setSide side (s'.recorded side ++ [op]) ((s'.pending side).insert d (s'.recorded side).length) := by
  obtain ⟨l,process,fd,op,he,hq,rfl,ht,ho⟩ := effects_opens h
  refine ⟨l.foldl CanonState.apply s,(l.foldl CanonState.apply s).indexed side process op,grown_foldl hq,?_,?_,?_⟩
  · cases side <;> exact ht
  · cases side <;> exact ho
  · rw [turn,he,List.foldl_append]
    rfl

theorem turn_closes {side : Side} {d : Descriptor} {observation : Option FileObservation}
    (h : writeAction scope (s.view (actor event)) event = .closes side d observation) :
    turn scope s event = s.apply (.closeWrite side d observation) := by
  rw [turn,effects_closes h]
  rfl

theorem turn_hands {parent child : ProcessLifetime}
    (h : writeAction scope (s.view (actor event)) event = .hands parent child) :
    (turn scope s event).recorded = s.recorded ∧
      (turn scope s event).pending .outside = s.pending .outside ∧
      (turn scope s event).pending .tree =
        Trace.inheritWrites (ι := Unit) .stored () parent child s.pendingWrites := by
  obtain ⟨p,c,rfl,rfl,rfl⟩ := effects_hands h
  have hside : ∀ side, (turn scope s (.fork p c)).recorded side = s.recorded side := by
    intro side
    cases side <;> cases ht : s.processToToolHash[p]? <;>
      simp [turn,effects,actor,view,ht,CanonState.apply,setToolHash,CanonState.recorded]
  refine ⟨funext hside,?_,?_⟩ <;> cases ht : s.processToToolHash[p]? <;>
    simp [turn,effects,actor,view,ht,CanonState.apply,setToolHash,CanonState.pending]

end Turn

section Closing
variable {s : CanonState} {side : Side}

theorem length_fillOutput (ops : List CanonicalOp) (i : ℕ) (observation : Option FileObservation) :
    (fillOutput ops i observation).length = ops.length := by
  cases observation with
  | none => rfl
  | some observation => exact List.length_modify _ _ _

/-- Nothing is pending on a closed descriptor, whether something was or not. -/
theorem closeWrite_pending (s : CanonState) (side : Side) (d : Descriptor) (observation : Option FileObservation) :
    (s.apply (.closeWrite side d observation)).pending side = (s.pending side).erase d := by
  simp only [CanonState.apply]
  cases hd : (s.pending side)[d]? with
  | none =>
    apply ExtTreeMap.ext_getElem?
    intro d'
    rw [ExtTreeMap.getElem?_erase]
    by_cases he : d = d'
    · subst he
      simp [hd]
    · simp [he]
  | some i => simp

theorem closeWrite_recorded (s : CanonState) (side : Side) (d : Descriptor) (observation : Option FileObservation) :
    (s.apply (.closeWrite side d observation)).recorded side =
      ((s.pending side)[d]?.elim (s.recorded side) fun i => fillOutput (s.recorded side) i observation) := by
  simp only [CanonState.apply]
  cases (s.pending side)[d]? <;> simp

theorem length_closeWrite (s : CanonState) (side : Side) (d : Descriptor) (observation : Option FileObservation) :
    ((s.apply (.closeWrite side d observation)).recorded side).length = (s.recorded side).length := by
  rw [closeWrite_recorded]
  cases (s.pending side)[d]? with
  | none => rfl
  | some i => exact length_fillOutput _ i observation

theorem closeWrite_unobserved (s : CanonState) (side : Side) (d : Descriptor) :
    (s.apply (.closeWrite side d none)).recorded side = s.recorded side := by
  rw [closeWrite_recorded]
  cases (s.pending side)[d]? <;> rfl

/-- Only the operation that is pending on the descriptor is filled in. -/
theorem getElem?_closeWrite_ne {d : Descriptor} {observation : Option FileObservation} {k : ℕ}
    (hk : (s.pending side)[d]? ≠ some k) :
    ((s.apply (.closeWrite side d observation)).recorded side)[k]? = (s.recorded side)[k]? := by
  cases observation with
  | none => rw [closeWrite_unobserved]
  | some observation =>
    rw [closeWrite_recorded]
    cases hd : (s.pending side)[d]? with
    | none => rfl
    | some i =>
      have hne : i ≠ k := fun he => hk (by rw [hd,he])
      simp [fillOutput,hne]

theorem closeWrite_other {side' : Side} (hs : side' ≠ side) (d : Descriptor)
    (observation : Option FileObservation) :
    (s.apply (.closeWrite side' d observation)).pending side = s.pending side ∧
      (s.apply (.closeWrite side' d observation)).recorded side = s.recorded side := by
  simp only [CanonState.apply]
  split
  · rw [setSide_pending,setSide_recorded,Function.update_of_ne hs.symm,Function.update_of_ne hs.symm]
    exact ⟨rfl,rfl⟩
  · exact ⟨rfl,rfl⟩

end Closing

def stateAfter (scope : TraceScope) (events : List TracedEvent) : CanonState :=
  events.foldl (turn scope) (initial scope)

section Run
variable (scope : TraceScope)

theorem canonicalizeFrom_initial (order : IterationOrder ℕ) (events : List TracedEvent) :
    canonicalizeFrom scope order 0 (initial scope) events = stateAfter scope events :=
  canonicalizeFrom_eq_foldl scope order 0 (initial scope) events

theorem stateAfter_append (events events' : List TracedEvent) :
    stateAfter scope (events ++ events') = events'.foldl (turn scope) (stateAfter scope events) :=
  List.foldl_append

theorem stateAfter_concat (events : List TracedEvent) (event : TracedEvent) :
    stateAfter scope (events ++ [event]) = turn scope (stateAfter scope events) event :=
  stateAfter_append scope events [event]

theorem length_ops_take_mono (events : List TracedEvent) {i j : ℕ} (h : i ≤ j) :
    (stateAfter scope (events.take i)).ops.length ≤ (stateAfter scope (events.take j)).ops.length := by
  induction j, h using Nat.le_induction with
  | base => exact le_rfl
  | succ j _ ih =>
    refine ih.trans ?_
    rw [List.take_add_one]
    cases events[j]? with
    | none => simp
    | some event =>
      rw [Option.toList_some,stateAfter_concat]
      exact length_ops_turn scope _ event

end Run

end Repx.Canonical
