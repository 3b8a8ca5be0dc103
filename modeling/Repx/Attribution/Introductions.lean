import Repx.Attribution.Lifetimes
import Repx.Attribution.ToolChains

/-! # The collector introduces the instances it speaks of

The first image of the root is introduced by the exec event that is put in front of the trace. From
then on the collector reports an exec with every image it moves on to, and a fork takes a
lifetime nothing has been reported of.
-/
namespace Repx.Trace
open ByteString Utf8 Std HashTables Probe Canonical

section Step
variable {H : Type} {w : World H} {s s' : EventCollectorState H} {events emitted : List TracedEvent}
  {started : List ProcessLifetime} {exec : Option ProcessInstance} {b : ℕ} {pid : UInt32} {p q : ProcessInstance}

/-- An image that was executed has been reported. -/
def Reported (events : List TracedEvent) (p : ProcessInstance) : Prop := p.execEpoch ≠ 0 → p ∈ mentioned events

/-- What the collector knows of the events it has reported. -/
structure Tracked (events : List TracedEvent) (s : EventCollectorState H) : Prop where
  introduced : Introduced events
  seen : ∀ p ∈ mentioned events, Seen s p
  current : ∀ (pid : UInt32) (p : ProcessInstance), s.currentProcesses[pid]? = some p → Reported events p
  waiting : ∀ (key : RenameKey) (pending : PendingRename), s.pendingRenames[key]? = some pending →
    Reported events pending.process

theorem Reported.append (h : Reported events p) (emitted : List TracedEvent) : Reported (events ++ emitted) p :=
  fun hne => by rw [mentioned_append]; exact List.mem_append_left _ (h hne)

theorem reported_of_zero (h : p.execEpoch = 0) : Reported events p := fun hne => absurd h hne

theorem mentions_of_plain {event : TracedEvent} (h : event.introduces = false) : mentions event = [actor event] := by
  cases event <;> first | rfl | cases h

/-- Events that bring in nobody continue a trace if their actor has been reported. -/
theorem Introduced.append_plain (hi : Introduced events) (hp : Reported events p)
    (h : ∀ e ∈ emitted, actor e = p ∧ e.introduces = false) : Introduced (events ++ emitted) := by
  induction emitted generalizing events with
  | nil => rwa [List.append_nil]
  | cons e emitted ih =>
    obtain ⟨hactor,hplain⟩ := h e List.mem_cons_self
    have hfresh : Fresh events e := by
      refine ⟨?_,?_,fun _ hne => ?_⟩
      · rintro process observation rfl
        cases hplain
      · rintro parent child rfl
        cases hplain
      · rw [hactor] at hne ⊢
        exact hp hne
    have hrest := ih (.snoc hi hfresh) (hp.append [e]) fun e' he' => h e' (List.mem_cons_of_mem _ he')
    rwa [List.append_assoc] at hrest

variable (s pid) in
theorem currentProcess_image :
    (s.currentProcesses[pid]? = some (s.currentProcess pid).1 ∨ (s.currentProcess pid).1.execEpoch = 0) ∧
      ∀ (key : UInt32) (p : ProcessInstance), (s.currentProcess pid).2.currentProcesses[key]? = some p →
        s.currentProcesses[key]? = some p ∨ p.execEpoch = 0 := by
  unfold EventCollectorState.currentProcess
  cases hp : s.currentProcesses[pid]? with
  | some p => exact ⟨Or.inl rfl,fun _ _ hkey => Or.inl hkey⟩
  | none =>
    refine ⟨Or.inr rfl,fun key p hkey => ?_⟩
    rw [startProcess_current] at hkey
    split at hkey
    · obtain rfl := Option.some.inj hkey
      exact Or.inr rfl
    · exact Or.inl hkey

theorem Tracked.reported_current (h : Tracked events s) (pid : UInt32) :
    Reported events (s.currentProcess pid).1 ∧
      ∀ (key : UInt32) (p : ProcessInstance), (s.currentProcess pid).2.currentProcesses[key]? = some p →
        Reported events p := by
  obtain ⟨hown,hall⟩ := currentProcess_image s pid
  refine ⟨hown.elim (h.current pid _) reported_of_zero,fun key p hkey => ?_⟩
  exact (hall key p hkey).elim (h.current key p) reported_of_zero

/-- What is pending after a record was pending before or belongs to the process that acts. -/
theorem Confined.reported {s₁ : EventCollectorState H} (hc : Confined p s₁ s')
    (hold : ∀ (key : RenameKey) (pending : PendingRename), s₁.pendingRenames[key]? = some pending →
      Reported events pending.process) (hp : Reported events p) (key : RenameKey) (pending : PendingRename)
    (h : s'.pendingRenames[key]? = some pending) : Reported events pending.process := by
  rcases hc.renames key pending h with h | h
  · exact hold key pending h
  · exact h ▸ hp

/-- Whoever is mentioned behind a record was mentioned before it or is in its events. -/
theorem Tracked.seen_append (h : Tracked events s) (ha : Advanced s s' emitted started exec)
    (hnew : ∀ p ∈ mentioned emitted, Seen s' p) : ∀ p ∈ mentioned (events ++ emitted), Seen s' p := by
  intro p hp
  rw [mentioned_append,List.mem_append] at hp
  exact hp.elim (fun hp => ha.seen p (h.seen p hp)) (hnew p)

/-- Without an exec or a fork, only the reported instances have to be looked after. -/
theorem Tracked.plain {s₁ : EventCollectorState H} (h : Tracked events s) (ha : Advanced s s' emitted started exec)
    (hc : Confined p s₁ s') (hp : Reported events p)
    (hcurrent : ∀ (key : UInt32) (q : ProcessInstance), s₁.currentProcesses[key]? = some q → Reported events q)
    (hrenames : s₁.pendingRenames = s.pendingRenames)
    (hplain : ∀ e ∈ emitted, actor e = p ∧ e.introduces = false) : Tracked (events ++ emitted) s' where
  introduced := h.introduced.append_plain hp hplain
  seen := by
    refine h.seen_append ha fun q hq => ?_
    obtain ⟨e,he,hq⟩ := List.mem_flatMap.mp hq
    rw [mentions_of_plain (hplain e he).2,List.mem_singleton] at hq
    exact hq ▸ ha.actors e he
  current key q hq := (hcurrent key q (hc.currentProcesses ▸ hq)).append emitted
  waiting key pending hq :=
    (hc.reported (fun key pending hw => h.waiting key pending (hrenames ▸ hw)) hp key pending hq).append emitted

/-- An executed instance is new to the trace. -/
theorem Tracked.snocExec {process : ProcessInstance} {s₁ : EventCollectorState H} {observation : FileObservation}
    (h : Tracked events s) (ha : Advanced s s' [.exec process observation] started (some process))
    (next : s.execProcess pid = (some process,s₁)) (state : Confined process s₁ s') :
    Tracked (events ++ [.exec process observation]) s' := by
  obtain ⟨-,hreplaced⟩ := execProcess_eq_some next
  obtain ⟨hnew,hseen⟩ := ha.execFresh process rfl
  have hprocess : process ∈ mentioned (events ++ [.exec process observation]) :=
    mem_mentioned_of_mem (List.mem_append_right _ (List.mem_singleton_self _)) (actor_mem_mentions _)
  refine ⟨?_,h.seen_append ha fun q hq => ?_,fun key q hq => ?_,fun key pending hq => ?_⟩
  · refine .snoc h.introduced ⟨?_,by simp,fun hne => absurd rfl (hne process observation)⟩
    intro q o heq
    rw [← (TracedEvent.exec.inj heq).1]
    exact fun hp => hnew (h.seen process hp)
  · rw [mentioned_singleton] at hq
    rw [List.mem_singleton.mp hq]
    exact hseen
  · rw [state.currentProcesses,hreplaced.currentProcesses] at hq
    split at hq
    · exact fun _ => Option.some.inj hq ▸ hprocess
    · exact ((h.reported_current pid).2 key q hq).append _
  · rcases state.renames key pending hq with hw | hw
    · rw [hreplaced.pendingRenames,(currentProcess_rest s pid).2.2.1] at hw
      exact (h.waiting key pending hw).append _
    · exact fun _ => hw ▸ hprocess

/-- A forked instance is new to the trace and has the first image of its lifetime. -/
theorem Tracked.snocFork {parentPid childPid : UInt32} {parent child : ProcessInstance}
    (h : Tracked events s) (ha : Advanced s s' [.fork parent child] started exec)
    (hfork : (s.forkProcess w parentPid childPid).1 = (parent,child))
    (state : Confined child (s.forkProcess w parentPid childPid).2 s') :
    Tracked (events ++ [.fork parent child]) s' := by
  obtain ⟨hp,hcurrent⟩ := h.reported_current parentPid
  obtain ⟨hnew,hne,hepoch,hchild⟩ := ha.emittedFork _ _ (List.mem_singleton_self _)
  rw [forkProcess_processes,Prod.mk.injEq] at hfork
  obtain ⟨rfl,rfl⟩ := hfork
  refine ⟨?_,h.seen_append ha fun q hq => ?_,fun key q hq => ?_,fun key pending hq => ?_⟩
  · refine .snoc h.introduced ⟨by simp,?_,fun _ => hp⟩
    intro parent child heq
    obtain ⟨rfl,rfl⟩ := TracedEvent.fork.inj heq
    exact ⟨hepoch,hne,fun q hq => hnew q (h.seen q hq)⟩
  · rw [mentioned_singleton] at hq
    rcases List.mem_cons.mp hq with rfl | hq
    · exact ha.actors _ (List.mem_singleton_self _)
    · rw [List.mem_singleton.mp hq]
      exact hchild
  · rw [state.currentProcesses,(confined_forkProcess w s parentPid childPid).currentProcesses,
      startProcess_current] at hq
    split at hq
    · exact reported_of_zero (Option.some.inj hq ▸ rfl)
    · exact (hcurrent key q hq).append _
  · have hold := (confined_forkProcess w s parentPid childPid).trans state
    rcases hold.renames key pending hq with hw | hw
    · refine (h.waiting key pending ?_).append _
      rw [← (currentProcess_rest s parentPid).2.2.1]
      exact hw
    · exact reported_of_zero (hw ▸ hepoch)

theorem RecordStep.tracked (hstep : RecordStep w s s' emitted started exec) (h : Tracked events s)
    (hn : Numbered b s) (hh : Holdings s) (hpos : 1 ≤ b) (hb : b < 4294967295) : Tracked (events ++ emitted) s' := by
  obtain ⟨-,-,ha⟩ := hstep.advanced hn hh hpos hb
  cases hstep with
  | idle state nothing =>
    subst nothing
    exact h.plain ha (state ⟨s.rootProcess.lifetime,0⟩) (reported_of_zero rfl) h.current rfl (by simp)
  | acts pid state plain =>
    obtain ⟨hp,hcurrent⟩ := h.reported_current pid
    exact h.plain ha state hp hcurrent (currentProcess_rest s pid).2.2.1 plain
  | late key pending waiting state plain =>
    exact h.plain ha state (h.waiting key pending waiting) h.current rfl plain
  | skips pid s₁ first state nothing =>
    subst nothing
    obtain rfl := execProcess_eq_none first
    exact h.plain ha (state ⟨s.rootProcess.lifetime,0⟩) (reported_of_zero rfl) h.current rfl (by simp)
  | execs pid process s₁ observation next state reported =>
    subst reported
    exact h.snocExec ha next state
  | forks parentPid childPid state reported =>
    subst reported
    exact h.snocFork ha rfl state

end Step

section Run
variable {H : Type} (order : IterationOrder ℕ) (view : ℕ → World H) (watchPrefixes : List Str)

/-- The front of the trace and the events collected so far. -/
theorem tracked_processBufferedEvents (front : List TracedEvent) (rest : List RawEvent) (b site : ℕ) (c : Collected H)
    (h : Tracked (front ++ c.events) c.state) (hn : Numbered b c.state) (hh : Holdings c.state) (hpos : 1 ≤ b)
    (hb : b + rest.length ≤ 4294967295) :
    Tracked (front ++ (processBufferedEvents order view watchPrefixes site rest c).events)
      (processBufferedEvents order view watchPrefixes site rest c).state := by
  induction rest generalizing b site c with
  | nil => exact h
  | cons raw rest ih =>
    rw [List.length_cons] at hb
    obtain ⟨emitted,hevents,hstep⟩ := recordStep_processRawEvent order view watchPrefixes site raw c
    obtain ⟨hn',hh',-⟩ := hstep.advanced hn hh hpos (by omega)
    refine ih (b + 1) (site + 1) _ ?_ hn' hh' (by omega) (by omega)
    rw [hevents,← List.append_assoc]
    exact hstep.tracked h hn hh hpos (by omega)

/-- The exec event of the root that is put in front of a trace. -/
def rootExec (rootPid : UInt32) (observation : FileObservation) : TracedEvent := .exec ⟨⟨rootPid,0⟩,0⟩ observation

theorem tracked_initial (rootPid : UInt32) (rootCwd : Str) (malformed : UInt64) (observation : FileObservation) :
    Tracked ([rootExec rootPid observation] ++ (Collected.initial (H := H) rootPid rootCwd malformed).events)
      (Collected.initial (H := H) rootPid rootCwd malformed).state where
  introduced := .snoc .nil ⟨by simp [mentioned],by simp [rootExec],fun hne => absurd rfl (hne _ _)⟩
  seen p hp := by
    have hroot : p ∈ mentions (rootExec rootPid observation) := by simpa [Collected.initial] using hp
    rw [List.mem_singleton.mp hroot]
    exact seen_initial rootPid rootCwd malformed
  current pid p hp := by
    rw [initial_current] at hp
    split at hp
    · exact reported_of_zero (Option.some.inj hp ▸ rfl)
    · cases hp
  waiting key pending hp := by simp [Collected.initial,EventCollectorState.new] at hp

/-- The events of a trace, the exec of the root in front. -/
theorem tracked_run (rootPid : UInt32) (rootCwd : Str) (malformed : UInt64) (observation : FileObservation)
    (raws : List RawEvent) (hlength : raws.length < 2 ^ 32 - 1) :
    Tracked (rootExec rootPid observation ::
        (processBufferedEvents order view watchPrefixes 0 raws (.initial rootPid rootCwd malformed)).events)
      (processBufferedEvents order view watchPrefixes 0 raws (.initial rootPid rootCwd malformed)).state :=
  tracked_processBufferedEvents order view watchPrefixes [rootExec rootPid observation] raws 1 0 _
    (tracked_initial rootPid rootCwd malformed observation) (numbered_initial rootPid rootCwd malformed)
    (holdings_initial rootPid rootCwd malformed) (Nat.le_refl 1) (by omega)

end Run

end Repx.Trace
