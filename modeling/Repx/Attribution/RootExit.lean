import Repx.Attribution.Introductions
import Repx.Operations.ExitOps
import Repx.Slice.OutputCommitment

/-! # The exit code of the root

The exit code is known only after the buffer has been processed. It replaces the one in the
last exit of the root, or is reported in an exit of its own. The pid of the root stays with
its first lifetime as long as nobody is forked under it, and every image of that lifetime is
introduced by an exec, so that the exit is recorded.
-/
namespace Repx.Trace
open ByteString Utf8 Std HashTables Probe Canonical CanonState Slice Sha256

/-- A fork record whose child has the pid. -/
def RawEvent.forksInto (pid : UInt32) (raw : RawEvent) : Bool :=
  match raw.event.map Event.payload with
  | some (.processFork payload) => payload.childPid = pid
  | _ => false

/-- An exit record of the pid. -/
def RawEvent.exits (pid : UInt32) (raw : RawEvent) : Bool :=
  match raw.event.map Event.payload with
  | some (.processExit payload) => payload.tgid = pid
  | _ => false

/-- An exit event of the pid. -/
def isExitOf (pid : UInt32) : TracedEvent → Bool
  | .exit process _ => process.lifetime.pid = pid
  | _ => false

/-- Exits under the pid of the root are exits of executed images of its first lifetime. -/
inductive ExitsExecuted (rootPid : UInt32) : List TracedEvent → Prop
  | nil : ExitsExecuted rootPid []
  | snoc {events : List TracedEvent} {event : TracedEvent} (before : ExitsExecuted rootPid events)
      (executed : ∀ p exitCode, event = .exit p exitCode → p.lifetime.pid = rootPid →
        p.lifetime = ⟨rootPid,0⟩ ∧ ∃ observation, .exec p observation ∈ events) :
      ExitsExecuted rootPid (events ++ [event])

section Exits
variable {rootPid : UInt32} {events events' emitted : List TracedEvent}

theorem ExitsExecuted.append (h : ExitsExecuted rootPid events)
    (hexits : ∀ p exitCode, .exit p exitCode ∈ emitted → p.lifetime.pid = rootPid →
      p.lifetime = ⟨rootPid,0⟩ ∧ ∃ observation, .exec p observation ∈ events) :
    ExitsExecuted rootPid (events ++ emitted) := by
  induction emitted generalizing events with
  | nil => rwa [List.append_nil]
  | cons e emitted ih =>
    rw [List.append_cons]
    refine ih (.snoc h fun p exitCode heq => hexits p exitCode (heq ▸ List.mem_cons_self))
      fun p exitCode hmem hp => ?_
    obtain ⟨hl,observation,hexec⟩ := hexits p exitCode (List.mem_cons_of_mem _ hmem) hp
    exact ⟨hl,observation,List.mem_append_left _ hexec⟩

theorem exitsExecuted_snoc {event : TracedEvent} : ExitsExecuted rootPid (events ++ [event]) ↔
    ExitsExecuted rootPid events ∧ ∀ p exitCode, event = .exit p exitCode → p.lifetime.pid = rootPid →
      p.lifetime = ⟨rootPid,0⟩ ∧ ∃ observation, .exec p observation ∈ events := by
  refine ⟨fun h => ?_,fun h => .snoc h.1 h.2⟩
  generalize hall : events ++ [event] = all at h
  cases h with
  | nil => simp at hall
  | snoc before executed =>
    obtain ⟨rfl,hlast⟩ := List.append_inj' hall rfl
    obtain rfl := List.singleton_inj.mp hlast
    exact ⟨before,executed⟩

theorem ExitsExecuted.of_append (h : ExitsExecuted rootPid (events ++ events')) : ExitsExecuted rootPid events := by
  induction events' generalizing events with
  | nil => rwa [List.append_nil] at h
  | cons event events' ih =>
    rw [List.append_cons] at h
    exact (exitsExecuted_snoc.mp (ih h)).1

theorem ExitsExecuted.executed {p : ProcessInstance} {exitCode : Int}
    (h : ExitsExecuted rootPid (events ++ .exit p exitCode :: events')) (hp : p.lifetime.pid = rootPid) :
    p.lifetime = ⟨rootPid,0⟩ ∧ ∃ observation, .exec p observation ∈ events := by
  rw [List.append_cons] at h
  exact (exitsExecuted_snoc.mp h.of_append).2 p exitCode rfl hp

theorem setLastExit_eq_none {pid : UInt32} {exitCode : Int} {events : List TracedEvent}
    (h : setLastExit pid exitCode events = none) : events.countP (isExitOf pid) = 0 := by
  induction events with
  | nil => rfl
  | cons event rest ih =>
    simp only [setLastExit] at h
    split at h
    · cases h
    · next hrest =>
      rw [List.countP_cons,ih hrest]
      split at h
      · next process old =>
        split at h
        · cases h
        · next hp => simp [isExitOf,hp]
      · next hexit =>
        cases event with
        | exit process old => exact absurd rfl (hexit process old)
        | _ => rfl

/-- The code goes to the last exit of the pid. -/
theorem setLastExit_eq_some {pid : UInt32} {exitCode : Int} {events patched : List TracedEvent}
    (h : setLastExit pid exitCode events = some patched) : ∃ before p old after,
      events = before ++ .exit p old :: after ∧ patched = before ++ .exit p exitCode :: after ∧
        p.lifetime.pid = pid ∧ after.countP (isExitOf pid) = 0 := by
  induction events generalizing patched with
  | nil => cases h
  | cons event rest ih =>
    simp only [setLastExit] at h
    split at h
    · next patched' hrest =>
      obtain rfl := Option.some.inj h
      obtain ⟨before,p,old,after,rfl,rfl,hp,hafter⟩ := ih hrest
      exact ⟨event :: before,p,old,after,rfl,rfl,hp,hafter⟩
    · next hrest =>
      split at h
      · next process old =>
        split at h
        · next hp =>
          obtain rfl := Option.some.inj h
          exact ⟨[],process,old,rest,rfl,rfl,hp,setLastExit_eq_none hrest⟩
        · cases h
      · cases h

end Exits

section Step
variable {H : Type} {w : World H} {s s' : EventCollectorState H} {events emitted : List TracedEvent}
  {started : List ProcessLifetime} {exec : Option ProcessInstance} {rootPid pid : UInt32} {p : ProcessInstance}

/-- The pid of the root belongs to an executed image of its first lifetime. -/
structure RootHeld (rootPid : UInt32) (events : List TracedEvent) (s : EventCollectorState H) : Prop where
  own : ∀ (pid : UInt32) (p : ProcessInstance), s.currentProcesses[pid]? = some p → p.lifetime.pid = pid
  root : ∃ p, s.currentProcesses[rootPid]? = some p ∧ p.lifetime = ⟨rootPid,0⟩ ∧
    ∃ observation, .exec p observation ∈ events
  exits : ExitsExecuted rootPid events

/-- Looking up a process, or starting one under another pid, leaves the root where it is. -/
structure RootKept (rootPid : UInt32) (s s' : EventCollectorState H) : Prop where
  own : ∀ (pid : UInt32) (p : ProcessInstance), s'.currentProcesses[pid]? = some p → p.lifetime.pid = pid
  root : s'.currentProcesses[rootPid]? = s.currentProcesses[rootPid]?

theorem RootHeld.startProcess (h : RootHeld rootPid events s) (hpid : pid ≠ rootPid) :
    RootKept rootPid s (s.startProcess pid).2 := by
  refine ⟨fun key p hp => ?_,by rw [startProcess_current,if_neg hpid]⟩
  exact startProcess_own h.own hp

theorem RootHeld.currentProcess (h : RootHeld rootPid events s) (pid : UInt32) :
    RootKept rootPid s (s.currentProcess pid).2 ∧ (s.currentProcess pid).1.lifetime.pid = pid ∧
      (s.currentProcess pid).2.currentProcesses[pid]? = some (s.currentProcess pid).1 := by
  obtain ⟨root,hroot,-⟩ := h.root
  unfold EventCollectorState.currentProcess
  cases hp : s.currentProcesses[pid]? with
  | some p => exact ⟨⟨h.own,rfl⟩,h.own pid p hp,hp⟩
  | none =>
    have hne : pid ≠ rootPid := by
      rintro rfl
      rw [hp] at hroot
      cases hroot
    exact ⟨h.startProcess hne,rfl,by rw [startProcess_current,if_pos rfl]⟩

/-- The process that exits under the pid of the root is its current image. -/
theorem RootHeld.executed (h : RootHeld rootPid events s) (hp : (s.currentProcess pid).1.lifetime.pid = rootPid) :
    (s.currentProcess pid).1.lifetime = ⟨rootPid,0⟩ ∧
      ∃ observation, .exec (s.currentProcess pid).1 observation ∈ events := by
  obtain ⟨hkept,hown,hcurrent⟩ := h.currentProcess pid
  obtain rfl := hown.symm.trans hp
  obtain ⟨root,hroot,hl,hexec⟩ := h.root
  rw [hkept.root,hroot] at hcurrent
  obtain rfl := Option.some.inj hcurrent
  exact ⟨hl,hexec⟩

theorem RootHeld.kept (h : RootHeld rootPid events s) (hk : RootKept rootPid s s')
    (hexits : ∀ p exitCode, .exit p exitCode ∈ emitted → ∃ pid, p = (s.currentProcess pid).1) :
    RootHeld rootPid (events ++ emitted) s' where
  own := hk.own
  root := by
    obtain ⟨root,hroot,hl,observation,hexec⟩ := h.root
    exact ⟨root,hk.root.trans hroot,hl,observation,List.mem_append_left _ hexec⟩
  exits := h.exits.append fun p exitCode hmem hp => by
    obtain ⟨pid,rfl⟩ := hexits p exitCode hmem
    exact h.executed hp

theorem RootKept.confined (h : RootKept rootPid s s') {s'' : EventCollectorState H} (hc : Confined p s' s'') :
    RootKept rootPid s s'' where
  own pid p hp := h.own pid p (hc.currentProcesses ▸ hp)
  root := by rw [hc.currentProcesses,h.root]

theorem RecordStep.rootHeld (hstep : RecordStep w s s' emitted started exec) (h : RootHeld rootPid events s)
    (hforks : ∀ parent child, .fork parent child ∈ emitted → child.lifetime.pid ≠ rootPid)
    (hexits : ∀ p exitCode, .exit p exitCode ∈ emitted → ∃ pid, p = (s.currentProcess pid).1) :
    RootHeld rootPid (events ++ emitted) s' := by
  have hself : RootKept rootPid s s := ⟨h.own,rfl⟩
  cases hstep with
  | idle state nothing => exact h.kept (hself.confined (state s.rootProcess)) hexits
  | acts pid state plain => exact h.kept ((h.currentProcess pid).1.confined state) hexits
  | late key pending waiting state plain => exact h.kept (hself.confined state) hexits
  | skips pid s₁ first state nothing =>
    obtain rfl := execProcess_eq_none first
    have hkept : RootKept rootPid s { s with rootInitialExecPending := false } := ⟨h.own,rfl⟩
    exact h.kept (hkept.confined (state s.rootProcess)) hexits
  | execs pid process s₁ observation next state reported =>
    obtain ⟨hprocess,hreplaced⟩ := execProcess_eq_some next
    obtain ⟨hkept,hown,hcurrent⟩ := h.currentProcess pid
    have hlifetime : process.lifetime = (s.currentProcess pid).1.lifetime := by rw [hprocess]
    subst reported
    refine ⟨fun key q hq => ?_,?_,h.exits.append (by simp)⟩
    · rw [state.currentProcesses,hreplaced.currentProcesses] at hq
      split at hq
      · next hkey =>
        obtain rfl := Option.some.inj hq
        rw [hlifetime,hown,hkey]
      · exact hkept.own key q hq
    · rw [state.currentProcesses,hreplaced.currentProcesses]
      obtain ⟨root,hroot,hl,observation',hexec⟩ := h.root
      by_cases hpid : pid = rootPid
      · refine ⟨process,if_pos hpid,?_,observation,by simp⟩
        rw [hlifetime]
        exact (h.executed (hown.trans hpid)).1
      · exact ⟨root,by rw [if_neg hpid,hkept.root,hroot],hl,observation',List.mem_append_left _ hexec⟩
  | forks parentPid childPid state reported =>
    obtain ⟨hkept,-,-⟩ := h.currentProcess parentPid
    have hparent : RootHeld rootPid events (s.currentProcess parentPid).2 := by
      obtain ⟨root,hroot,hrest⟩ := h.root
      exact ⟨hkept.own,⟨root,hkept.root.trans hroot,hrest⟩,h.exits⟩
    have hchild : childPid ≠ rootPid := hforks _ _ (reported ▸ List.mem_singleton_self _)
    have hstart := hparent.startProcess hchild
    have hall : RootKept rootPid s ((s.currentProcess parentPid).2.startProcess childPid).2 :=
      ⟨hstart.own,hstart.root.trans hkept.root⟩
    exact h.kept ((hall.confined (confined_forkProcess w s parentPid childPid)).confined state) hexits

end Step

section Records
variable {H : Type} {order : IterationOrder ℕ} {view : ℕ → World H} {watchPrefixes : List Str} {site : ℕ}

theorem renameEvents_plain {process : ProcessInstance} {fromPath toPath : Str} {flags : UInt32} {external : Bool}
    {observation reverse : FileObservation} :
    ∀ e ∈ renameEvents process fromPath toPath flags external observation reverse,
      ∃ source target seen, e = .fileRename process source target flags external seen := by
  intro e he
  unfold renameEvents at he
  split at he <;> simp only [List.mem_cons,List.not_mem_nil,or_false] at he
  · rcases he with rfl | rfl
    · exact ⟨_,_,_,rfl⟩
    · exact ⟨_,_,_,rfl⟩
  · exact ⟨_,_,_,he⟩

/-- The events by which a record can fork or exit. -/
theorem emitted_cases (event : Event) (s : EventCollectorState H) :
    (∃ payload, event.payload = .processFork payload ∧ ∃ parent child, child.lifetime.pid = payload.childPid ∧
      (processEvent order view watchPrefixes site event s).emitted = [.fork parent child]) ∨
    (∃ payload, event.payload = .processExit payload ∧
      (processEvent order view watchPrefixes site event s).emitted =
        [.exit (s.currentProcess payload.tgid).1 payload.exitCode.toInt]) ∨
    ((∀ payload, event.payload ≠ .processExit payload) ∧
      ∀ e ∈ (processEvent order view watchPrefixes site event s).emitted,
      (∀ parent child, e ≠ .fork parent child) ∧ ∀ p exitCode, e ≠ .exit p exitCode) := by
  obtain ⟨source,timestampNs,payload⟩ := event
  cases payload with
  | processFork payload => exact Or.inl ⟨payload,rfl,_,_,rfl,rfl⟩
  | processExit payload => exact Or.inr (Or.inl ⟨payload,rfl,rfl⟩)
  | fileOpen payload =>
    refine Or.inr (Or.inr ⟨by simp,?_⟩)
    simp only [processEvent,processFileOpen]
    split <;> simp
  | fileClose payload =>
    refine Or.inr (Or.inr ⟨by simp,?_⟩)
    simp only [processEvent,processFileClose]
    split <;> simp
  | fileMmap payload =>
    refine Or.inr (Or.inr ⟨by simp,?_⟩)
    simp only [processEvent,processFileMmap]
    split
    · simp
    · split <;> simp
  | fileRenameSource payload =>
    refine Or.inr (Or.inr ⟨by simp,?_⟩)
    simp only [processEvent,processFileRenameSource]
    split <;> simp
  | fileRenameDestination payload =>
    refine Or.inr (Or.inr ⟨by simp,?_⟩)
    simp only [processEvent,processFileRenameDestination]
    split
    · simp
    · split
      · simp
      · split
        · simp
        · intro e he
          obtain ⟨_,_,_,rfl⟩ := renameEvents_plain e he
          simp
  | fileUnlink payload =>
    refine Or.inr (Or.inr ⟨by simp,?_⟩)
    simp only [processEvent,processFileUnlink]
    split
    · simp
    · split <;> simp
  | processExec payload =>
    refine Or.inr (Or.inr ⟨by simp,?_⟩)
    simp only [processEvent,processExec]
    split <;> simp
  | unknown kind => exact Or.inr (Or.inr ⟨by simp,by simp [processEvent]⟩)

variable (order view watchPrefixes site) in
/-- A record keeps the root where it is and reports an exit of it for each exit record. -/
theorem RootHeld.processRawEvent {rootPid : UInt32} {front : List TracedEvent} {raw : RawEvent} {c : Collected H}
    (h : RootHeld rootPid (front ++ c.events) c.state) (hraw : raw.forksInto rootPid = false) :
    RootHeld rootPid (front ++ (processRawEvent order view watchPrefixes site raw c).events)
        (processRawEvent order view watchPrefixes site raw c).state ∧
      (processRawEvent order view watchPrefixes site raw c).events.countP (isExitOf rootPid) =
        c.events.countP (isExitOf rootPid) + if raw.exits rootPid then 1 else 0 := by
  obtain ⟨emitted,hevents,hstep⟩ := recordStep_processRawEvent order view watchPrefixes site raw c
  rw [hevents,← List.append_assoc,List.countP_append,Nat.add_left_cancel_iff]
  obtain ⟨timestamp,_ | event⟩ := raw
  · obtain rfl : emitted = [] := List.append_cancel_left (hevents.symm.trans (List.append_nil _).symm)
    exact ⟨hstep.rootHeld h (by simp) (by simp),rfl⟩
  · obtain rfl : emitted = (processEvent order view watchPrefixes site event c.state).emitted :=
      List.append_cancel_left hevents.symm
    rcases emitted_cases event c.state with ⟨payload,hpayload,parent,child,hchild,hemitted⟩ |
        ⟨payload,hpayload,hemitted⟩ | ⟨hpayload,hother⟩
    · rw [hemitted] at hstep ⊢
      have hexits : RawEvent.exits rootPid ⟨timestamp,some event⟩ = false := by simp [RawEvent.exits,hpayload]
      refine ⟨hstep.rootHeld h (fun parent' child' hmem => ?_) (by simp),by rw [hexits]; rfl⟩
      rw [(TracedEvent.fork.inj (List.mem_singleton.mp hmem)).2,hchild]
      simpa [RawEvent.forksInto,hpayload] using hraw
    · rw [hemitted] at hstep ⊢
      refine ⟨hstep.rootHeld h (by simp) fun p exitCode hmem => ?_,?_⟩
      · exact ⟨payload.tgid,(TracedEvent.exit.inj (List.mem_singleton.mp hmem)).1⟩
      · have hown := (h.currentProcess payload.tgid).2.1
        simp [isExitOf,RawEvent.exits,hpayload,hown]
    · have hexits : RawEvent.exits rootPid ⟨timestamp,some event⟩ = false := by
        cases hp : event.payload with
        | processExit payload => exact absurd hp (hpayload payload)
        | _ => simp [RawEvent.exits,hp]
      refine ⟨hstep.rootHeld h (fun parent child hmem => absurd rfl ((hother _ hmem).1 parent child))
        (fun p exitCode hmem => absurd rfl ((hother _ hmem).2 p exitCode)),?_⟩
      rw [hexits]
      refine List.countP_eq_zero.mpr fun e he hexit => ?_
      cases e with
      | exit p exitCode => exact (hother _ he).2 p exitCode rfl
      | _ => cases hexit

variable (order view watchPrefixes) in
theorem RootHeld.run {rootPid : UInt32} {front : List TracedEvent} {c : Collected H} (rest : List RawEvent) (site : ℕ)
    (h : RootHeld rootPid (front ++ c.events) c.state) (hrest : ∀ raw ∈ rest, raw.forksInto rootPid = false) :
    RootHeld rootPid (front ++ (processBufferedEvents order view watchPrefixes site rest c).events)
        (processBufferedEvents order view watchPrefixes site rest c).state ∧
      (processBufferedEvents order view watchPrefixes site rest c).events.countP (isExitOf rootPid) =
        c.events.countP (isExitOf rootPid) + rest.countP (RawEvent.exits rootPid) := by
  induction rest generalizing site c with
  | nil => exact ⟨h,rfl⟩
  | cons raw rest ih =>
    obtain ⟨hheld,hcount⟩ := h.processRawEvent order view watchPrefixes site (hrest raw List.mem_cons_self)
    obtain ⟨hheld',hcount'⟩ := ih (site + 1) hheld fun r hr => hrest r (List.mem_cons_of_mem _ hr)
    refine ⟨hheld',hcount'.trans ?_⟩
    rw [hcount,List.countP_cons]
    omega

theorem rootHeld_initial (rootPid : UInt32) (rootCwd : Str) (malformed : UInt64) (observation : FileObservation) :
    RootHeld rootPid ([rootExec rootPid observation] ++ (Collected.initial (H := H) rootPid rootCwd malformed).events)
      (Collected.initial (H := H) rootPid rootCwd malformed).state where
  own _ _ hp := initial_own hp
  root := ⟨⟨⟨rootPid,0⟩,0⟩,by rw [initial_current,if_pos rfl],rfl,observation,List.mem_cons_self⟩
  exits := by
    change ExitsExecuted rootPid ([] ++ [rootExec rootPid observation])
    exact .snoc .nil fun _ _ heq => by cases heq

end Records

section Trace
variable {H : Type} (order : IterationOrder ℕ) (view : ℕ → World H) (watchPrefixes : List Str)

/-- The events of a finished trace, the exec of the root in front. -/
def finishedEvents (rootPid : UInt32) (rootCwd : Str) (malformed : UInt64) (observation : FileObservation)
    (exitCode : Int) (sorted : List RawEvent) : List TracedEvent :=
  rootExec rootPid observation ::
    (finishSorted order view watchPrefixes rootPid exitCode sorted (.initial rootPid rootCwd malformed)).events

/-- In a finished trace the last exit under the pid of the root carries the code, and
it follows an exec of the process that exits. -/
theorem finishedEvents_eq (rootPid : UInt32) (rootCwd : Str) (malformed : UInt64) (observation : FileObservation)
    (exitCode : Int) (sorted : List RawEvent) (hfork : ∀ raw ∈ sorted, raw.forksInto rootPid = false) :
    ∃ before p after, finishedEvents order view watchPrefixes rootPid rootCwd malformed observation exitCode sorted =
        before ++ .exit p exitCode :: after ∧ p.lifetime = ⟨rootPid,0⟩ ∧
      (∃ seen, .exec p seen ∈ before) ∧ after.countP (isExitOf rootPid) = 0 ∧
      (sorted.countP (RawEvent.exits rootPid) ≤ 1 → before.countP (isExitOf rootPid) = 0) := by
  obtain ⟨hheld,hcount⟩ := (rootHeld_initial rootPid rootCwd malformed observation).run order view watchPrefixes
    sorted 0 hfork
  generalize hrun : processBufferedEvents order view watchPrefixes 0 sorted (.initial rootPid rootCwd malformed) = c
    at hheld hcount
  rw [show (Collected.initial (H := H) rootPid rootCwd malformed).events = [] from rfl,List.countP_nil,Nat.zero_add]
    at hcount
  unfold finishedEvents finishSorted
  rw [hrun]
  cases hset : setLastExit rootPid exitCode c.events with
  | some patched =>
    obtain ⟨before,p,old,after,hevents,rfl,hp,hafter⟩ := setLastExit_eq_some hset
    rw [hevents] at hheld hcount
    have hexits : ExitsExecuted rootPid (([rootExec rootPid observation] ++ before) ++ .exit p old :: after) := by
      simpa using hheld.exits
    obtain ⟨hl,hexec⟩ := hexits.executed hp
    refine ⟨rootExec rootPid observation :: before,p,after,by simp [hset],hl,hexec,hafter,fun hone => ?_⟩
    rw [List.countP_append,List.countP_cons_of_pos (by simpa [isExitOf] using hp)] at hcount
    rw [List.countP_cons_of_neg (by simp [rootExec,isExitOf])]
    omega
  | none =>
    have hnone := setLastExit_eq_none hset
    obtain ⟨p,hp,hl,hexec⟩ := hheld.root
    have hcurrent : (c.state.exitProcess rootPid).1 = p := by
      simp [EventCollectorState.exitProcess,EventCollectorState.currentProcess,hp]
    refine ⟨rootExec rootPid observation :: c.events,p,[],by simp [hcurrent,hset],hl,hexec,rfl,fun _ => ?_⟩
    rw [List.countP_cons_of_neg (by simp [rootExec,isExitOf]),hnone]

end Trace

section Slice
variable {traversal : IterationOrder Traversal} {rootProcess : ProcessInstance} {site : ℕ} {s : ScanState}

/-- The exit of the root that the scan has seen last. -/
def lastRootExit (rootProcess : ProcessInstance) (known : Option (ProcessInstance × Int)) :
    TracedEvent → Option (ProcessInstance × Int)
  | .exit process exitCode => if process.lifetime = rootProcess.lifetime then some (process,exitCode) else known
  | _ => known

theorem rootExit_scanEvent (event : TracedEvent) :
    (scanEvent traversal site s rootProcess event).rootExit = lastRootExit rootProcess s.rootExit event := by
  have hread : ∀ (s : ScanState) (process : ProcessInstance) (hash : Option Str),
      (s.addRead process hash).rootExit = s.rootExit := by
    intro s process hash
    cases hash <;> rfl
  cases event with
  | exec | fork | fileUnlink => rfl
  | fileOpen process path flags fd external observation =>
    simp only [scanEvent,scanFileOpen,lastRootExit]
    split
    · rfl
    · split <;> split <;> simp [hread]
  | fileMmap process fd prot flags path external observation =>
    simp only [scanEvent,scanFileMmap,lastRootExit]
    split
    · rfl
    · split
      · split <;> simp [hread]
      · rfl
  | fileClose process fd path external observation =>
    simp only [scanEvent,scanFileClose,lastRootExit,settleWrite]
    split
    · rfl
    · split
      · split <;> rfl
      · rfl
  | fileRename process fromPath toPath flags external observation =>
    simp only [scanEvent,scanFileRename,lastRootExit]
    split
    · rfl
    · split <;> rfl
  | exit process exitCode =>
    simp only [scanEvent,scanExit,lastRootExit]
    split <;> rfl

theorem rootExit_scanFrom (events : List TracedEvent) :
    (scanFrom traversal rootProcess site s events).rootExit = events.foldl (lastRootExit rootProcess) s.rootExit := by
  induction events generalizing site s with
  | nil => rfl
  | cons event events ih => rw [scanFrom,ih,rootExit_scanEvent,List.foldl_cons]

theorem rootExit_of_last {before after : List TracedEvent} {p : ProcessInstance} {exitCode : Int}
    (hp : p.lifetime = rootProcess.lifetime)
    (hafter : after.countP (isExitOf rootProcess.lifetime.pid) = 0) :
    (scan traversal rootProcess (before ++ .exit p exitCode :: after)).rootExit = some (p,exitCode) := by
  change (scanFrom traversal rootProcess 0 .initial _).rootExit = _
  rw [rootExit_scanFrom,List.foldl_append,List.foldl_cons,lastRootExit,if_pos hp]
  induction after with
  | nil => rfl
  | cons event after ih =>
    rw [List.countP_cons,Nat.add_eq_zero_iff] at hafter
    have hevent : lastRootExit rootProcess (some (p,exitCode)) event = some (p,exitCode) := by
      cases event with
      | exit process code =>
        refine if_neg fun heq => ?_
        simp [isExitOf,heq] at hafter
      | _ => rfl
    rw [List.foldl_cons,hevent]
    exact ih hafter.1

variable (traversal) in
variable (outputs : List OutputFile) in
/-- The exit operation of a slice is that of the last exit of the root. -/
theorem exit_of_sliceOps {events : List TracedEvent} {p : ProcessInstance} {exitCode : Int}
    (hroot : (scan traversal rootProcess events).rootExit = some (p,exitCode)) :
    (∃ op ∈ sliceOps traversal events rootProcess outputs, op.opType = .exit ∧ op.args = [exitArg exitCode]) ∧
      ∀ op ∈ sliceOps traversal events rootProcess outputs, op.opType = .exit → op.args = [exitArg exitCode] := by
  obtain ⟨hof,hto⟩ := emit_refines traversal (scan traversal rootProcess events) rootProcess outputs
  constructor
  · obtain ⟨op,hop,hs⟩ := hto _ (.exit hroot)
    exact ⟨op,hop,hs.1.symm,hs.2.2.1.symm⟩
  · intro op hop htype
    obtain ⟨spec,hspec,hs⟩ := hof op hop
    rw [hs.1] at htype
    rw [hs.2.2.1]
    cases hspec with
    | flow _ _ hflow => cases hflow <;> cases htype
    | orphan _ =>
      unfold orphanOp at htype
      split at htype <;> cases htype
    | exit hexit =>
      obtain rfl := (Prod.mk.inj (Option.some.inj (hroot.symm.trans hexit))).2
      rfl

end Slice

section Report
variable {H : Type} (order : IterationOrder ℕ) (view : ℕ → World H) (watchPrefixes : List Str)

theorem args_of_normalize {op : CanonicalOp} {arg : Str} (h : arg ∈ op.normalize.args) : arg ∈ op.args := by
  simpa [CanonicalOp.normalize] using h

/-- As long as nobody is forked under the pid of the root, both passes report the exit code that
was handed over, and with at most one exit record of the root they report no other. -/
theorem root_exit_reported (sha256 : Str → Digest) (rootPid : UInt32) (rootCwd : Str) (malformed : UInt64)
    (observation : FileObservation) (exitCode : Int) (raw sorted : List RawEvent) (hsort : SortResult raw sorted)
    (hfork : ∀ r ∈ raw, r.forksInto rootPid = false) (scopePrefixes : List Str) (forks : IterationOrder ℕ)
    (traversal : IterationOrder Traversal) (outputs : List OutputFile) :
    let events := finishedEvents order view watchPrefixes rootPid rootCwd malformed observation exitCode sorted
    let scope : TraceScope := ⟨⟨⟨rootPid,0⟩,0⟩,scopePrefixes⟩
    ReportsExit sha256 exitCode (recordedOps scope forks events) (canonicalizeEvents sha256 scope forks events) ∧
    (outputs ≠ [] → ReportsExit sha256 exitCode (sliceOps traversal events scope.rootProcess outputs)
      (canonicalizeOutputSlice sha256 traversal events scope.rootProcess outputs)) ∧
    (raw.countP (RawEvent.exits rootPid) ≤ 1 →
      ∀ op ∈ canonicalizeEvents sha256 scope forks events ++
        canonicalizeOutputSlice sha256 traversal events scope.rootProcess outputs,
      op.opType = .exit → ∀ arg ∈ op.args, arg = exitArg exitCode) := by
  intro events scope
  obtain ⟨before,p,after,hevents,hl,⟨seen,hexec⟩,hafter,hbefore⟩ := finishedEvents_eq order view watchPrefixes rootPid
    rootCwd malformed observation exitCode sorted fun r hr => hfork r (hsort.perm.mem_iff.mp hr)
  change events = _ at hevents
  have hargs : exitArgs scope p exitCode = [exitArg exitCode] := if_pos hl
  have hrecorded : ∃ op ∈ recordedOps scope forks events,
      op.opType = .exit ∧ op.args = exitArgs scope p exitCode := by
    rw [hevents]
    exact exit_recorded forks hexec exitCode
  have hroot : (scan traversal scope.rootProcess events).rootExit = some (p,exitCode) := by
    rw [hevents]
    exact rootExit_of_last hl hafter
  obtain ⟨hslice,hslice'⟩ := exit_of_sliceOps traversal outputs hroot
  rw [hargs] at hrecorded
  refine ⟨reportsExit_of_recorded hrecorded,fun houtputs => ?_,fun hone op hop htype arg harg => ?_⟩
  · have hnonempty : ¬ (outputHashes outputs).isEmpty = true := by
      obtain ⟨output,hmem⟩ := List.exists_mem_of_ne_nil outputs houtputs
      exact outputHashes_nonempty ⟨output,hmem,rfl⟩
    rw [canonicalizeOutputSlice,if_neg hnonempty]
    exact reportsExit_of_recorded hslice
  · rw [← hsort.perm.countP_eq] at hone
    rcases List.mem_append.mp hop with hop | hop
    · obtain ⟨raw,hraw,rfl⟩ := mem_finalizeOps hop
      obtain ⟨q,code,hmem,hopArgs⟩ := exit_of_recordedOps forks hraw htype
      have harg := args_of_normalize harg
      rw [hopArgs,exitArgs] at harg
      split at harg
      · next hq =>
        rw [List.mem_singleton.mp harg]
        have hexit : isExitOf rootPid (.exit q code) = true := by simp [isExitOf,hq,scope]
        rw [hevents,List.mem_append,List.mem_cons] at hmem
        rcases hmem with hmem | hmem | hmem
        · exact absurd hexit (List.countP_eq_zero.mp (hbefore hone) _ hmem)
        · rw [(TracedEvent.exit.inj hmem).2]
        · exact absurd hexit (List.countP_eq_zero.mp hafter _ hmem)
      · cases harg
    · unfold canonicalizeOutputSlice at hop
      split at hop
      · cases hop
      · obtain ⟨raw,hraw,rfl⟩ := mem_finalizeOps hop
        have harg := args_of_normalize harg
        rw [hslice' raw hraw htype] at harg
        exact List.mem_singleton.mp harg

end Report

/-- An exit record of process 10 with the code zero. -/
def sampleExit : RawEvent := ⟨1,some ⟨0,1,.processExit ⟨10,10,0⟩⟩⟩

theorem root_exit_reported_sample :
    (∃ op ∈ recordedOps ⟨⟨⟨10,0⟩,0⟩,[]⟩ .stored
        (finishedEvents .stored (fun _ => bareWorld) [] 10 [slash] 0 (.content copiedContent) 3 [sampleExit]),
      op.opType = .exit ∧ op.args = [exitArg 3]) ∧
    ∀ op ∈ canonicalizeEvents lengthDigest ⟨⟨⟨10,0⟩,0⟩,[]⟩ .stored
        (finishedEvents .stored (fun _ => bareWorld) [] 10 [slash] 0 (.content copiedContent) 3 [sampleExit]),
      op.opType = .exit → ∀ arg ∈ op.args, arg = exitArg 3 := by
  obtain ⟨hall,-,hno⟩ := root_exit_reported .stored (fun _ => bareWorld) [] lengthDigest 10 [slash] 0
    (.content copiedContent) 3 [sampleExit] [sampleExit] ⟨.refl _,by decide⟩ (by decide) [] .stored .stored []
  obtain ⟨op,hop,htype,hargs,-⟩ := hall.committed
  exact ⟨⟨op,hop,htype,hargs⟩,fun op hop => hno (by decide) op (List.mem_append_left _ hop)⟩

end Repx.Trace
