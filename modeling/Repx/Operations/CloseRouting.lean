import Repx.Operations.WriteActions

/-! # Closes against the sides of their openings

With watched directories a write is recorded in one of two lists, by what is known when the
file is opened, and its close looks in one of two tables, by what is known when it is closed.
The output is filled in when both come to the same side, which the close alone does not
ensure: its path may have been moved across a watched directory, and its process may have been
taken for an external one in the meantime.
-/
namespace Repx.Canonical
open ByteString Std Trace HashTables CanonState

/-- What a turn makes of one side. -/
inductive SideTurn (side : Side) (s s' : CanonState) : WriteAction → Prop where
  | grown (action : WriteAction) (reads : List CanonicalOp) (hp : s'.pending side = s.pending side)
    (hr : s'.recorded side = s.recorded side ++ reads) (hw : ∀ op ∈ reads, ¬ op.IsWrite)
    (ha : ∀ d observation, action ≠ .closes side d observation) : SideTurn side s s' action
  | opened (d : Descriptor) (reads : List CanonicalOp) (op : CanonicalOp) (hw : ∀ op ∈ reads, ¬ op.IsWrite)
    (hr : s'.recorded side = s.recorded side ++ reads ++ [op])
    (hp : s'.pending side = (s.pending side).insert d (s.recorded side ++ reads).length) :
    SideTurn side s s' (.opens side d)
  | closed (d : Descriptor) (observation : Option FileObservation)
    (hs : s' = s.apply (.closeWrite side d observation)) : SideTurn side s s' (.closes side d observation)
  | handed (parent child : ProcessLifetime) (hside : side = .tree) (hr : s'.recorded side = s.recorded side)
    (hp : s'.pending side = inheritWrites (ι := Unit) .stored () parent child (s.pending side)) :
    SideTurn side s s' (.hands parent child)

section Turn
variable (scope : TraceScope) (s : CanonState) (event : TracedEvent) (side : Side)

theorem sideTurn : SideTurn side s (turn scope s event) (writeAction scope (s.view (actor event)) event) := by
  cases ha : writeAction scope (s.view (actor event)) event with
  | other =>
    obtain ⟨hp,hr⟩ := turn_other ha
    obtain ⟨reads,hr,hw⟩ := hr side
    exact .grown _ reads (congrFun hp side) hr hw fun _ _ h => by cases h
  | opens side' d =>
    obtain ⟨mid,op,⟨hp,hr⟩,-,-,hturn⟩ := turn_opens ha
    obtain ⟨reads,hreads,hw⟩ := hr side
    by_cases hs : side = side'
    · subst hs
      refine .opened d reads op hw ?_ ?_
      · rw [hturn,setSide_recorded,Function.update_self,hreads]
      · rw [hturn,setSide_pending,Function.update_self,hreads,hp]
    · refine .grown _ reads ?_ ?_ hw fun _ _ h => by cases h
      · rw [hturn,setSide_pending,Function.update_of_ne hs,hp]
      · rw [hturn,setSide_recorded,Function.update_of_ne hs,hreads]
  | closes side' d observation =>
    by_cases hs : side' = side
    · subst hs
      exact .closed d observation (turn_closes ha)
    · obtain ⟨hp,hr⟩ := closeWrite_other hs d observation
      rw [turn_closes ha]
      exact .grown _ [] hp (by rw [hr,List.append_nil]) (by simp) fun _ _ h => hs (WriteAction.closes.inj h).1
  | hands parent child =>
    obtain ⟨hr,hout,htree⟩ := turn_hands ha
    cases side with
    | tree => exact .handed parent child rfl (congrFun hr .tree) htree
    | outside => exact .grown _ [] hout (by rw [hr,List.append_nil]) (by simp) fun _ _ h => by cases h

end Turn

/-- The output recorded in an operation. -/
def outputsAt (s : CanonState) (side : Side) (k : ℕ) : Option (List Str) :=
  (s.recorded side)[k]?.map CanonicalOp.outputHashes

namespace SideTurn
variable {side : Side} {s s' : CanonState} {action : WriteAction} {d : Descriptor} {k : ℕ}

theorem length_le (h : SideTurn side s s' action) : (s.recorded side).length ≤ (s'.recorded side).length := by
  cases h with
  | grown _ reads hp hr hw ha => simp [hr]
  | opened d reads op hw hr hp => simp [hr]
  | closed d observation hs => rw [hs,length_closeWrite]
  | handed parent child hside hr hp => rw [hr]

/-- An operation that is not closed keeps its output. -/
theorem outputs_kept (h : SideTurn side s s' action) (hk : k < (s.recorded side).length)
    (hc : ∀ d observation, action = .closes side d (some observation) → (s.pending side)[d]? ≠ some k) :
    outputsAt s' side k = outputsAt s side k := by
  cases h with
  | grown _ reads hp hr hw ha => rw [outputsAt,hr,List.getElem?_append_left hk,outputsAt]
  | opened d reads op hw hr hp =>
    rw [outputsAt,hr,List.append_assoc,List.getElem?_append_left hk,outputsAt]
  | closed d observation hs =>
    cases observation with
    | none => rw [outputsAt,hs,closeWrite_unobserved,outputsAt]
    | some observation => rw [outputsAt,hs,getElem?_closeWrite_ne (hc d observation rfl),outputsAt]
  | handed parent child hside hr hp => rw [outputsAt,hr,outputsAt]

/-- Pending writes are found in the list. -/
def Bounded (side : Side) (s : CanonState) : Prop :=
  ∀ (d : Descriptor) (i : ℕ), (s.pending side)[d]? = some i → i < (s.recorded side).length

theorem bounded (h : SideTurn side s s' action) (hb : Bounded side s) : Bounded side s' := by
  have hle := h.length_le
  intro d i hi
  cases h with
  | grown _ reads hp hr hw ha =>
    rw [hp] at hi
    exact (hb d i hi).trans_le hle
  | opened d' reads op hw hr hp =>
    rw [hp,ExtTreeMap.getElem?_insert] at hi
    split_ifs at hi
    · rw [hr,← Option.some.inj hi]
      simp
    · exact (hb d i hi).trans_le hle
  | closed d' observation hs =>
    rw [hs,closeWrite_pending,ExtTreeMap.getElem?_erase] at hi
    split_ifs at hi
    exact (hb d i hi).trans_le hle
  | handed parent child hside hr hp =>
    rw [hp,getElem?_inheritWrites] at hi
    rw [hr]
    split_ifs at hi
    · rcases Option.or_eq_some_iff.mp hi with hi | ⟨-,hi⟩
      · exact hb _ i hi
      · exact hb d i hi
    · exact hb d i hi

/-- Outside the fork tree nobody comes by a write that is recorded already. -/
theorem held_before (h : SideTurn .outside s s' action) (hk : k < (s.recorded .outside).length)
    (hd : (s'.pending .outside)[d]? = some k) : (s.pending .outside)[d]? = some k := by
  cases h with
  | grown _ reads hp hr hw ha => rwa [hp] at hd
  | opened d' reads op hw hr hp =>
    rw [hp,ExtTreeMap.getElem?_insert] at hd
    split_ifs at hd
    · have he := Option.some.inj hd
      rw [List.length_append] at he
      omega
    · exact hd
  | closed d' observation hs =>
    rw [hs,closeWrite_pending,ExtTreeMap.getElem?_erase] at hd
    split_ifs at hd
    exact hd
  | handed parent child hside hr hp => cases hside

/-- A write outside the fork tree stays pending until its descriptor is opened again or closed. -/
theorem held_after (h : SideTurn .outside s s' action) (hd : (s.pending .outside)[d]? = some k)
    (ho : action ≠ .opens .outside d) (hc : ∀ observation, action ≠ .closes .outside d observation) :
    (s'.pending .outside)[d]? = some k := by
  cases h with
  | grown _ reads hp hr hw ha => rwa [hp]
  | opened d' reads op hw hr hp =>
    have hne : d' ≠ d := fun he => ho (by rw [he])
    rw [hp,ExtTreeMap.getElem?_insert,if_neg (by simpa using hne)]
    exact hd
  | closed d' observation hs =>
    have hne : d' ≠ d := fun he => hc observation (by rw [he])
    rw [hs,closeWrite_pending,ExtTreeMap.getElem?_erase,if_neg (by simpa using hne)]
    exact hd
  | handed parent child hside hr hp => cases hside

end SideTurn

section Run
variable (scope : TraceScope) {s : CanonState} {side : Side} {d : Descriptor} {k : ℕ}

theorem length_recorded_run (s : CanonState) (side : Side) (events : List TracedEvent) :
    (s.recorded side).length ≤ ((events.foldl (turn scope) s).recorded side).length := by
  induction events generalizing s with
  | nil => exact le_rfl
  | cons event events ih => exact (sideTurn scope s event side).length_le.trans (ih (turn scope s event))

theorem bounded_stateAfter (side : Side) (events : List TracedEvent) :
    SideTurn.Bounded side (stateAfter scope events) := by
  have hrun : ∀ s, SideTurn.Bounded side s → SideTurn.Bounded side (events.foldl (turn scope) s) := by
    induction events with
    | nil => exact fun _ h => h
    | cons event events ih => exact fun s h => ih _ ((sideTurn scope s event side).bounded h)
  refine hrun _ fun d i hi => ?_
  cases side <;> simp [initial,CanonState.pending] at hi

theorem held_before_run {events : List TracedEvent} (hk : k < (s.recorded .outside).length)
    (hd : ((events.foldl (turn scope) s).pending .outside)[d]? = some k) : (s.pending .outside)[d]? = some k := by
  induction events generalizing s with
  | nil => exact hd
  | cons event events ih =>
    have hturn := sideTurn scope s event .outside
    exact hturn.held_before hk (ih (hk.trans_le hturn.length_le) hd)

/-- An event on a descriptor. -/
def Touches (d : Descriptor) : TracedEvent → Prop
  | .fileOpen process _ _ fd _ _ => d = ⟨process.lifetime,fd⟩
  | .fileMmap process fd _ _ _ _ _ => d = ⟨process.lifetime,fd⟩
  | .fileClose process fd _ _ _ => d = ⟨process.lifetime,fd⟩
  | _ => False

theorem touches_of_opens {view : ProcessView} {event : TracedEvent}
    (h : writeAction scope view event = .opens side d) : Touches d event := by
  cases event with
  | fileOpen process path flags fd external observation =>
    simp only [writeAction,openAction] at h
    split_ifs at h <;> exact (WriteAction.opens.inj h).2.symm
  | fileMmap process fd prot flags path external observation =>
    simp only [writeAction,mappingAction] at h
    have hd : d = ⟨process.lifetime,fd⟩ := by grind
    exact hd
  | fileClose process fd path external observation => cases path <;> cases h
  | exec | fork | fileRename | fileUnlink | exit => cases h

theorem touches_of_closes {view : ProcessView} {event : TracedEvent} {observation : Option FileObservation}
    (h : writeAction scope view event = .closes side d observation) : Touches d event := by
  obtain ⟨process,fd,path,external,rfl,-,rfl⟩ := event_of_closes h
  rfl

theorem held_after_run {events : List TracedEvent} (hd : (s.pending .outside)[d]? = some k)
    (ht : ∀ event ∈ events, ¬ Touches d event) :
    ((events.foldl (turn scope) s).pending .outside)[d]? = some k := by
  induction events generalizing s with
  | nil => exact hd
  | cons event events ih =>
    have hno := ht event List.mem_cons_self
    exact ih ((sideTurn scope s event .outside).held_after hd (fun ho => hno (touches_of_opens scope ho))
      fun observation hc => hno (touches_of_closes scope hc)) fun e he => ht e (List.mem_cons_of_mem _ he)

theorem mem_fallback_apply {lifetime : ProcessLifetime} (h : lifetime ∈ s.fallbackExternalProcesses)
    (effect : Effect) : lifetime ∈ (s.apply effect).fallbackExternalProcesses := by
  have hside : ∀ side ops table, (s.setSide side ops table).fallbackExternalProcesses =
      s.fallbackExternalProcesses := fun side _ _ => by cases side <;> rfl
  cases effect with
  | assignIndex process =>
    unfold CanonState.apply CanonState.assignIndex
    dsimp only
    split_ifs <;> exact h
  | markFallback other =>
    simp only [CanonState.apply,CanonState.markFallback,ExtTreeSet.mem_insert]
    exact Or.inr h
  | setToolHash process toolHash => exact h
  | inheritWrites parent child => exact h
  | push side process op =>
    rw [CanonState.apply,hside]
    exact h
  | openWrite side process fd op =>
    rw [CanonState.apply,hside]
    exact h
  | closeWrite side descriptor observation =>
    simp only [CanonState.apply]
    split
    · rw [hside]
      exact h
    · exact h

theorem mem_fallback_foldl {lifetime : ProcessLifetime} (l : List Effect)
    (h : lifetime ∈ s.fallbackExternalProcesses) :
    lifetime ∈ (l.foldl CanonState.apply s).fallbackExternalProcesses := by
  induction l generalizing s with
  | nil => exact h
  | cons effect l ih => exact ih (mem_fallback_apply h effect)

/-- A process that was taken for an external one stays one. -/
theorem mem_fallback_run {lifetime : ProcessLifetime} (events : List TracedEvent)
    (h : lifetime ∈ s.fallbackExternalProcesses) :
    lifetime ∈ (events.foldl (turn scope) s).fallbackExternalProcesses := by
  induction events generalizing s with
  | nil => exact h
  | cons event events ih => exact ih (mem_fallback_foldl _ h)

theorem effects_open_outside {view : ProcessView} {process : ProcessInstance} {path : Str} {flags : UInt32}
    {fd : Int} {external : Bool} {observation : FileObservation}
    (h : writeAction scope view (.fileOpen process path flags fd external observation) = .opens .outside d) :
    ∃ rest, effects scope view (.fileOpen process path flags fd external observation) =
      .markFallback process.lifetime :: rest := by
  simp only [writeAction,openAction] at h
  split_ifs at h with hskip hout hsystem
  · rw [Bool.or_eq_true,not_or] at hskip
    simp only [effects,fileOpenEffects]
    rw [if_neg hskip.1,if_pos hout]
    exact ⟨_,rfl⟩
  · cases h

theorem mem_fallback_open {process : ProcessInstance} {path : Str} {flags : UInt32} {fd : Int} {external : Bool}
    {observation : FileObservation}
    (h : writeAction scope (s.view process) (.fileOpen process path flags fd external observation) =
      .opens .outside d) :
    process.lifetime ∈
      (turn scope s (.fileOpen process path flags fd external observation)).fallbackExternalProcesses := by
  obtain ⟨rest,hrest⟩ := effects_open_outside scope h
  rw [turn,actor,hrest,List.foldl_cons]
  apply mem_fallback_foldl
  simp [CanonState.apply,CanonState.markFallback]

/-- Events that close none of the descriptors on which it is pending leave an operation alone. -/
theorem outputs_kept_run {events : List TracedEvent} (hk : k < (s.recorded side).length)
    (hc : ∀ front event back, events = front ++ event :: back → ∀ d observation,
      writeAction scope ((front.foldl (turn scope) s).view (actor event)) event =
        .closes side d (some observation) → ((front.foldl (turn scope) s).pending side)[d]? ≠ some k) :
    outputsAt (events.foldl (turn scope) s) side k = outputsAt s side k := by
  induction events generalizing s with
  | nil => rfl
  | cons event events ih =>
    have hturn := sideTurn scope s event side
    rw [List.foldl_cons,ih (hk.trans_le hturn.length_le) ?_]
    · exact hturn.outputs_kept hk (hc [] event events rfl)
    · rintro front e back rfl
      exact hc (event :: front) e back rfl

end Run

/-- Where the close of a descriptor finds the operation that its opening has recorded. Outside the
fork tree the close must be external as well, or concern a watched path in another lifetime than
the root's. In the fork tree it must not be external, nor concern a watched path of a lifetime that
has been taken for an external one by now, and no fork may have put another write on the descriptor. -/
def RoutedAlike (scope : TraceScope) (s : CanonState) (side : Side) (k : ℕ) (lifetime : ProcessLifetime) (fd : Int)
    (path : Str) (external : Bool) : Prop :=
  match side with
  | .outside => external = true ∨ (lifetime ≠ scope.rootProcess.lifetime ∧ scope.isWatched path = true)
  | .tree =>
    (external = false ∧ (lifetime = scope.rootProcess.lifetime ∨ scope.isWatched path = false ∨
      lifetime ∉ s.fallbackExternalProcesses)) ∧ s.pendingWrites[(⟨lifetime,fd⟩ : Descriptor)]? = some k

/-- A close that fills an operation of the fork tree in again, through another copy of its descriptor. -/
def ClosesAgain (scope : TraceScope) (s : CanonState) (k : ℕ) (event : TracedEvent) : Prop :=
  ∃ d observation, writeAction scope (s.view (actor event)) event = .closes .tree d (some observation) ∧
    s.pendingWrites[d]? = some k

section Closing
variable {scope : TraceScope} {s : CanonState} {side : Side} {k : ℕ}

theorem routedAlike_iff {process : ProcessInstance} {fd : Int} {path : Str} {external : Bool}
    (hout : side = .outside → process.lifetime ∈ s.fallbackExternalProcesses ∧
      (s.pending .outside)[(⟨process.lifetime,fd⟩ : Descriptor)]? = some k) :
    RoutedAlike scope s side k process.lifetime fd path external ↔
      closeSide scope (s.view process) process path external = side ∧
        (s.pending side)[(⟨process.lifetime,fd⟩ : Descriptor)]? = some k := by
  have hview : (s.view process).fallback = true ↔ process.lifetime ∈ s.fallbackExternalProcesses :=
    ExtTreeSet.contains_iff_mem
  cases side with
  | outside =>
    obtain ⟨hfallback,hpending⟩ := hout rfl
    rw [← hview] at hfallback
    simp only [RoutedAlike,closeSide,hfallback,hpending,and_true]
    cases external <;> simp
  | tree =>
    have hmem : process.lifetime ∉ s.fallbackExternalProcesses ↔ (s.view process).fallback = false := by
      rw [← hview,Bool.not_eq_true]
    simp only [RoutedAlike,closeSide,CanonState.pending,hmem]
    apply and_congr_left'
    cases external with
    | true => simp
    | false =>
      cases (s.view process).fallback <;> cases scope.isWatched path <;> simp

theorem outputs_closed {d : Descriptor} (hk : k < (s.recorded side).length) (hd : (s.pending side)[d]? = some k)
    (observation : FileObservation) :
    outputsAt (s.apply (.closeWrite side d (some observation))) side k = some [observation.identity] := by
  rw [outputsAt,closeWrite_recorded,hd]
  simp [fillOutput,hk]

/-- An event that records a write has opened it, on one descriptor. -/
theorem opened_of_pushed {event : TracedEvent} {op : CanonicalOp} (hb : SideTurn.Bounded side s)
    (hk : (s.recorded side).length ≤ k) (hop : ((turn scope s event).recorded side)[k]? = some op)
    (hw : op.IsWrite) :
    ∃ d, writeAction scope (s.view (actor event)) event = .opens side d ∧
      ∀ d', ((turn scope s event).pending side)[d']? = some k ↔ d' = d := by
  have hlt := (List.getElem?_eq_some_iff.mp hop).1
  have hturn := sideTurn scope s event side
  generalize writeAction scope (s.view (actor event)) event = action at hturn
  cases hturn with
  | grown _ reads hp hr hreads ha =>
    rw [hr,List.getElem?_append_right hk] at hop
    exact absurd hw (hreads op (List.mem_of_getElem? hop))
  | opened d reads new hreads hr hp =>
    have hlast : k = (s.recorded side ++ reads).length := by
      by_contra hne
      rw [hr,List.length_append,List.length_singleton] at hlt
      rw [hr,List.getElem?_append_left (by omega),List.getElem?_append_right hk] at hop
      exact hreads op (List.mem_of_getElem? hop) hw
    refine ⟨d,rfl,fun d' => ?_⟩
    simp only [hp,ExtTreeMap.getElem?_insert,Std.compare_eq_iff_eq,hlast]
    by_cases hd : d = d'
    · simp [hd]
    · rw [if_neg hd]
      refine ⟨fun hold => ?_,fun he => absurd he.symm hd⟩
      have hbound := hb d' _ hold
      rw [List.length_append] at hbound
      omega
  | closed d observation hs =>
    rw [hs,length_closeWrite] at hlt
    omega
  | handed parent child hside hr hp =>
    rw [hr] at hlt
    omega

/-- What is known of the descriptor and of the operation when its next event comes. -/
structure Waiting (scope : TraceScope) (s : CanonState) (side : Side) (k : ℕ) (d : Descriptor) : Prop where
  recorded : k < (s.recorded side).length
  fallback : side = .outside → d.lifetime ∈ s.fallbackExternalProcesses
  pending : side = .outside → ∀ d', (s.pending .outside)[d']? = some k ↔ d' = d

theorem waiting_run {process : ProcessInstance} {path : Str} {flags : UInt32} {fd : Int} {external : Bool}
    {observation : FileObservation} {op : CanonicalOp} {between : List TracedEvent}
    (hb : SideTurn.Bounded side s) (hk : (s.recorded side).length ≤ k)
    (hop : ((turn scope s (.fileOpen process path flags fd external observation)).recorded side)[k]? = some op)
    (hw : op.IsWrite) (hbetween : ∀ event ∈ between, ¬ Touches ⟨process.lifetime,fd⟩ event) :
    Waiting scope (between.foldl (turn scope) (turn scope s (.fileOpen process path flags fd external observation)))
      side k ⟨process.lifetime,fd⟩ := by
  obtain ⟨d,ha,hd⟩ := opened_of_pushed hb hk hop hw
  obtain rfl : d = ⟨process.lifetime,fd⟩ := touches_of_opens scope ha
  have hlt := (List.getElem?_eq_some_iff.mp hop).1
  refine ⟨hlt.trans_le (length_recorded_run scope _ side between),?_,?_⟩
  · rintro rfl
    exact mem_fallback_run scope between (mem_fallback_open scope ha)
  · rintro rfl d'
    constructor
    · exact fun h => (hd d').mp (held_before_run scope hlt h)
    · rintro rfl
      exact held_after_run scope ((hd _).mpr rfl) hbetween

/-- An operation of the other side, or one that is not pending here, is left alone. -/
theorem outputs_elsewhere {side' : Side} {d : Descriptor} (hk : k < (s.recorded side).length)
    (hno : ¬ (side' = side ∧ (s.pending side)[d]? = some k)) (observation : FileObservation) :
    outputsAt (s.apply (.closeWrite side' d (some observation))) side k = outputsAt s side k := by
  by_cases hs : side' = side
  · subst hs
    refine (SideTurn.closed d (some observation) rfl).outputs_kept hk fun d' observation' he => ?_
    rw [← (WriteAction.closes.inj he).2.1]
    exact fun hd => hno ⟨rfl,hd⟩
  · rw [outputsAt,(closeWrite_other hs d (some observation)).2,outputsAt]

theorem turn_close (process : ProcessInstance) (fd : Int) (path : Str) (external : Bool)
    (observation : Option FileObservation) :
    turn scope s (.fileClose process fd (some path) external observation) =
      s.apply (.closeWrite (closeSide scope (s.view process) process path external) ⟨process.lifetime,fd⟩
        observation) :=
  turn_closes rfl

/-- The close fills the operation in, whatever it observes, exactly when it is routed like the opening. -/
theorem Waiting.closed_iff {fd : Int} (process : ProcessInstance)
    (h : Waiting scope s side k ⟨process.lifetime,fd⟩) (path : Str) (external : Bool) :
    (∀ observation, outputsAt (turn scope s (.fileClose process fd (some path) external (some observation)))
      side k = some [observation.identity]) ↔ RoutedAlike scope s side k process.lifetime fd path external := by
  rw [routedAlike_iff fun hs => ⟨h.fallback hs,(h.pending hs _).mpr rfl⟩]
  simp only [turn_close]
  constructor
  · intro hall
    by_contra hno
    have h0 := hall (.content [])
    have h1 := hall (.content [0])
    rw [outputs_elsewhere h.recorded hno] at h0 h1
    rw [h0] at h1
    simp [FileObservation.identity] at h1
  · rintro ⟨hs,hd⟩ observation
    rw [hs]
    exact outputs_closed h.recorded hd observation

/-- Outside the fork tree a closed operation is not pending anywhere. -/
theorem Waiting.closed_outside {fd : Int} {path : Str} {external : Bool} (process : ProcessInstance)
    (h : Waiting scope s .outside k ⟨process.lifetime,fd⟩)
    (hr : RoutedAlike scope s .outside k process.lifetime fd path external) (observation : FileObservation)
    (d : Descriptor) :
    ((turn scope s (.fileClose process fd (some path) external (some observation))).pending .outside)[d]? ≠
      some k := by
  have hpending := (h.pending rfl ⟨process.lifetime,fd⟩).mpr rfl
  obtain ⟨hs,-⟩ := (routedAlike_iff fun _ => ⟨h.fallback rfl,hpending⟩).mp hr
  intro hd
  rw [turn_close,hs,closeWrite_pending] at hd
  simp only [ExtTreeMap.getElem?_erase,Std.compare_eq_iff_eq] at hd
  split_ifs at hd with hne
  exact hne ((h.pending rfl d).mp hd).symm

end Closing

/-- A writable opening and the next event on its descriptor, when this is a close: the operation is
filled in with whatever the close observes exactly when the close is routed like the opening, and
then the output stays, unless another copy of the descriptor is closed later on. -/
theorem closed_as_opened_iff (scope : TraceScope) (order : IterationOrder ℕ) {before between : List TracedEvent}
    {process : ProcessInstance} {path : Str} {flags : UInt32} {fd : Int} {external : Bool}
    {observation : FileObservation} {side : Side} {k : ℕ} {op : CanonicalOp}
    (hk : ((canonicalizeFrom scope order 0 (initial scope) before).recorded side).length ≤ k)
    (hop : ((canonicalizeFrom scope order 0 (initial scope)
      (before ++ [.fileOpen process path flags fd external observation])).recorded side)[k]? = some op)
    (hw : op.IsWrite) (hbetween : ∀ event ∈ between, ¬ Touches ⟨process.lifetime,fd⟩ event)
    (epoch : UInt32) (closePath : Str) (closeExternal : Bool) :
    ((∀ closing, outputsAt (canonicalizeFrom scope order 0 (initial scope)
        (before ++ .fileOpen process path flags fd external observation :: between ++
          [.fileClose ⟨process.lifetime,epoch⟩ fd (some closePath) closeExternal (some closing)])) side k =
            some [closing.identity]) ↔
      RoutedAlike scope (canonicalizeFrom scope order 0 (initial scope)
        (before ++ .fileOpen process path flags fd external observation :: between)) side k process.lifetime fd
          closePath closeExternal) ∧
    ∀ closing after, RoutedAlike scope (canonicalizeFrom scope order 0 (initial scope)
        (before ++ .fileOpen process path flags fd external observation :: between)) side k process.lifetime fd
          closePath closeExternal →
      (side = .tree → ∀ front event back, after = front ++ event :: back →
        ¬ ClosesAgain scope (canonicalizeFrom scope order 0 (initial scope)
          (before ++ .fileOpen process path flags fd external observation :: between ++
            .fileClose ⟨process.lifetime,epoch⟩ fd (some closePath) closeExternal (some closing) :: front))
          k event) →
      outputsAt (canonicalizeFrom scope order 0 (initial scope)
        (before ++ .fileOpen process path flags fd external observation :: between ++
          .fileClose ⟨process.lifetime,epoch⟩ fd (some closePath) closeExternal (some closing) :: after)) side k =
            some [closing.identity] := by
  simp only [canonicalizeFrom_initial,stateAfter_append,List.foldl_cons,List.foldl_nil] at hk hop ⊢
  have hb := bounded_stateAfter scope side before
  generalize stateAfter scope before = s at hk hop hb ⊢
  have hwait := waiting_run hb hk hop hw hbetween
  generalize between.foldl (turn scope) (turn scope s (.fileOpen process path flags fd external observation)) = s'
    at hwait ⊢
  have hiff := hwait.closed_iff ⟨process.lifetime,epoch⟩ closePath closeExternal
  refine ⟨hiff,fun closing after hr hagain => ?_⟩
  rw [outputs_kept_run]
  · exact hiff.mpr hr closing
  · exact hwait.recorded.trans_le (sideTurn scope s' _ side).length_le
  · intro front event back he d observation' ha
    cases side with
    | tree => exact fun hd => hagain rfl front event back he ⟨d,observation',ha,hd⟩
    | outside =>
      have hnone := hwait.closed_outside ⟨process.lifetime,epoch⟩ hr closing
      refine fun hd => hnone d (held_before_run scope ?_ hd)
      exact hwait.recorded.trans_le (sideTurn scope s' _ .outside).length_le

/-- A process without a known tool stays external after an execution, and its close with it. -/
theorem closed_as_opened_iff_fallback :
    outputsAt (canonicalizeFrom ⟨⟨⟨1,0⟩,0⟩,[utf8 "/watched"]⟩ .stored 0 (initial ⟨⟨⟨1,0⟩,0⟩,[utf8 "/watched"]⟩)
      ([] ++ .fileOpen ⟨⟨2,0⟩,0⟩ (utf8 "/watched/artifact") 1 3 false (.content (utf8 "old")) ::
        [.exec ⟨⟨2,0⟩,0⟩ (.content (utf8 "true")),
          .fileMmap ⟨⟨2,0⟩,0⟩ 4 0 2 (some (utf8 "/watched/input")) false (some (.content (utf8 "input")))] ++
        .fileClose ⟨⟨2,0⟩,0⟩ 3 (some (utf8 "/watched/artifact")) false (some (.content (utf8 "artifact"))) ::
          [])) .outside 0 = some [utf8 "artifact"] :=
  (closed_as_opened_iff ⟨⟨⟨1,0⟩,0⟩,[utf8 "/watched"]⟩ .stored (by decide +kernel)
    (show _ = some ⟨.externalFileWrite,4294967295,none,[],[],[]⟩ by decide +kernel) ⟨.outside,rfl⟩
    (by simp [Touches]) 0 (utf8 "/watched/artifact") false).2 (.content (utf8 "artifact")) []
      (Or.inr ⟨by decide,by decide +kernel⟩) nofun

/-- The path of an open file after an event. -/
def carriedPath (path : Str) : TracedEvent → Str
  | .fileRename _ fromPath toPath _ _ _ => (rewritePathPrefix path fromPath toPath).getD path
  | _ => path

/-- A file that is moved out of a watched directory while it is open loses its output. So does a
watched file of the fork tree when another image of its process, with no known tool, reads a
second one. -/
theorem moved_write_unfilled :
    ([.fileRename ⟨⟨2,0⟩,0⟩ (utf8 "/watched/a") (utf8 "/out/a") 0 false (.content (utf8 "new"))].foldl carriedPath
      (utf8 "/watched/a") = utf8 "/out/a" ∧
    (canonicalizeFrom ⟨⟨⟨1,0⟩,0⟩,[utf8 "/watched"]⟩ .stored 0 (initial ⟨⟨⟨1,0⟩,0⟩,[utf8 "/watched"]⟩)
      [.fileOpen ⟨⟨2,0⟩,0⟩ (utf8 "/watched/a") 1 3 false (.content (utf8 "old")),
        .fileRename ⟨⟨2,0⟩,0⟩ (utf8 "/watched/a") (utf8 "/out/a") 0 false (.content (utf8 "new")),
        .fileClose ⟨⟨2,0⟩,0⟩ 3 (some (utf8 "/out/a")) false (some (.content (utf8 "new")))]).externalOps[0]? =
      some ⟨.externalFileWrite,4294967295,none,[],[],[]⟩) ∧
    (canonicalizeFrom ⟨⟨⟨1,0⟩,0⟩,[utf8 "/watched"]⟩ .stored 0 (initial ⟨⟨⟨1,0⟩,0⟩,[utf8 "/watched"]⟩)
      [.exec ⟨⟨2,0⟩,0⟩ (.content (utf8 "tool")),
        .fileOpen ⟨⟨2,0⟩,0⟩ (utf8 "/watched/a") 1 3 false (.content (utf8 "old")),
        .fileOpen ⟨⟨2,0⟩,1⟩ (utf8 "/watched/b") 0 4 false (.content (utf8 "b")),
        .fileClose ⟨⟨2,0⟩,1⟩ 3 (some (utf8 "/watched/a")) false (some (.content (utf8 "new")))]).ops[1]? =
      some ⟨.fileWrite,1,some (utf8 "tool"),[],[],[]⟩ := by
  decide +kernel

end Repx.Canonical
