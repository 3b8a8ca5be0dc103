import Repx.Foundation.GuardedRuns
import Repx.Probe.ProcessHandlers

/-! # Tracking the process tree

The kernel's view of processes: live threads, clone calls that have not returned
yet, and the probes that run at each step. The tracked map is compared with the tree
of the root process. A leader that exits ahead of its other threads takes the
process out of the map; a clone call that returns after its child exited, or a thread
that outlives its leader, leaves an identifier behind.
-/
namespace Repx.Probe
open GuardedRuns

/-- A live thread; `inTree` tells whether it belongs to the root process or to a
descendant of it. -/
structure Thread where
  tid : UInt32
  tgid : UInt32
  inTree : Bool
deriving DecidableEq

def Thread.task (t : Thread) : PidTgid := ⟨t.tgid,t.tid⟩

/-- A clone call that created its child and has not returned to the parent. -/
structure CloneCall where
  parent : Thread
  childPid : UInt32
deriving DecidableEq

/-- Live threads, running clone calls and the maps of the probes. `gone` holds the
identifiers of exited threads that no new member of the tree has been given. -/
structure Kernel where
  threads : Finset Thread
  cloning : Finset CloneCall
  gone : Finset UInt32
  maps : Maps

/-- A fork creates a process or, within the group of the parent, a thread. Only
`clone` and `clone3` report their return. An exec is the moment after all other
threads of the group have exited. -/
inductive Action where
  | fork (parent : Thread) (childPid : UInt32) (newThread viaClone reserved : Bool) (now : UInt64)
  | cloneReturn (call : CloneCall)
  | exec (thread : Thread) (reserved : Bool) (now : UInt64) (filename : StringRead)
  | exit (thread : Thread) (reserved : Bool) (now : UInt64)
deriving DecidableEq

def childThread (parent : Thread) (childPid : UInt32) (newThread : Bool) : Thread :=
  ⟨childPid,if newThread then parent.tgid else childPid,parent.inTree⟩

namespace Kernel
variable (k : Kernel)

/-- A thread can act: it is alive and not inside a clone call. -/
def Idle (t : Thread) : Prop := t ∈ k.threads ∧ ∀ call ∈ k.cloning, call.parent ≠ t

instance (t : Thread) : Decidable (k.Idle t) := inferInstanceAs (Decidable (_ ∧ _))

/-- The allocator hands out an identifier that no live thread or group has. -/
def Fresh (id : UInt32) : Prop := id ≠ 0 ∧ ∀ t ∈ k.threads, t.tid ≠ id ∧ t.tgid ≠ id

instance (id : UInt32) : Decidable (k.Fresh id) := inferInstanceAs (Decidable (_ ∧ _))

def Alone (t : Thread) : Prop := ∀ u ∈ k.threads, u.tgid = t.tgid → u = t

instance (t : Thread) : Decidable (k.Alone t) := inferInstanceAs (Decidable (∀ _ ∈ _, _))

/-- One step of the kernel with the probe it triggers; no map is full. An exec gives
the thread the identifier of its group. -/
def step : Action → Option Kernel
  | .fork parent childPid newThread viaClone reserved now =>
    if k.Idle parent ∧ k.Fresh childPid then
      some
        { threads := insert (childThread parent childPid newThread) k.threads
          cloning := if viaClone then insert ⟨parent,childPid⟩ k.cloning else k.cloning
          gone := if parent.inTree then k.gone.erase childPid else k.gone
          maps := tryFork k.maps parent.task true reserved now childPid }
    else none
  | .cloneReturn call =>
    if call ∈ k.cloning ∧ call.parent ∈ k.threads ∧ call.childPid ≠ 0 then
      some { k with
        cloning := k.cloning.erase call
        maps := tryCloneExit k.maps call.parent.task true (cloneRet call.childPid) }
    else none
  | .exec t reserved now filename =>
    if k.Idle t ∧ k.Alone t then
      some { k with
        threads := insert ⟨t.tgid,t.tgid,t.inTree⟩ (k.threads.erase t)
        maps := tryExec k.maps ⟨t.tgid,t.tgid⟩ true reserved now filename }
    else none
  | .exit t reserved now =>
    if k.Idle t then
      some { k with
        threads := k.threads.erase t
        gone := insert t.tid k.gone
        maps := tryExit k.maps t.task reserved now }
    else none

/-- What the kernel guarantees about identifiers: a thread named like a group is its
leader, and a group is inside or outside the tree as a whole. -/
structure Coherent : Prop where
  leader : ∀ t ∈ k.threads, ∀ u ∈ k.threads, t.tid = u.tgid → t.tgid = u.tgid
  group : ∀ t ∈ k.threads, ∀ u ∈ k.threads, t.tgid = u.tgid → t.inTree = u.inTree

/-- The trace begins: the root process is a single stopped thread, registered in both
maps, and nothing else is tracked. Other processes may do as they like. -/
structure Started (root : UInt32) : Prop where
  coherent : k.Coherent
  tree : ∀ t, (t ∈ k.threads ∧ t.inTree = true) ↔ t = ⟨root,root,true⟩
  calls : ∀ call ∈ k.cloning, call.parent.inTree = false
  gone : root ∉ k.gone
  rootPid : k.maps.rootPid = {root}
  trackedPids : k.maps.trackedPids = {root}

variable {k} {k' : Kernel}

section Inversion

theorem step_fork {parent : Thread} {childPid : UInt32} {newThread viaClone reserved : Bool} {now : UInt64}
    (hs : k.step (.fork parent childPid newThread viaClone reserved now) = some k') :
    (k.Idle parent ∧ k.Fresh childPid) ∧
      { threads := insert (childThread parent childPid newThread) k.threads
        cloning := if viaClone then insert ⟨parent,childPid⟩ k.cloning else k.cloning
        gone := if parent.inTree then k.gone.erase childPid else k.gone
        maps := tryFork k.maps parent.task true reserved now childPid } = k' := by
  simpa only [Kernel.step,Option.ite_none_right_eq_some,Option.some.injEq] using hs

theorem step_cloneReturn {call : CloneCall} (hs : k.step (.cloneReturn call) = some k') :
    (call ∈ k.cloning ∧ call.parent ∈ k.threads ∧ call.childPid ≠ 0) ∧
      { k with
        cloning := k.cloning.erase call
        maps := tryCloneExit k.maps call.parent.task true (cloneRet call.childPid) } = k' := by
  simpa only [Kernel.step,Option.ite_none_right_eq_some,Option.some.injEq] using hs

theorem step_exec {t : Thread} {reserved : Bool} {now : UInt64} {filename : StringRead}
    (hs : k.step (.exec t reserved now filename) = some k') :
    (k.Idle t ∧ k.Alone t) ∧
      { k with
        threads := insert ⟨t.tgid,t.tgid,t.inTree⟩ (k.threads.erase t)
        maps := tryExec k.maps ⟨t.tgid,t.tgid⟩ true reserved now filename } = k' := by
  simpa only [Kernel.step,Option.ite_none_right_eq_some,Option.some.injEq] using hs

theorem step_exit {t : Thread} {reserved : Bool} {now : UInt64} (hs : k.step (.exit t reserved now) = some k') :
    k.Idle t ∧
      { k with
        threads := k.threads.erase t
        gone := insert t.tid k.gone
        maps := tryExit k.maps t.task reserved now } = k' := by
  simpa only [Kernel.step,Option.ite_none_right_eq_some,Option.some.injEq] using hs

end Inversion

theorem Coherent.step (h : k.Coherent) {a : Action} (hs : k.step a = some k') : k'.Coherent := by
  obtain ⟨hleader,hgroup⟩ := h
  cases a with
  | fork parent childPid newThread viaClone reserved now =>
    obtain ⟨⟨⟨hparent,-⟩,-,hfresh⟩,rfl⟩ := step_fork hs
    constructor
    · intro t ht u hu he
      simp only [Finset.mem_insert] at ht hu
      cases newThread <;> grind [childThread]
    · intro t ht u hu he
      simp only [Finset.mem_insert] at ht hu
      cases newThread <;> grind [childThread]
  | cloneReturn call =>
    obtain ⟨-,rfl⟩ := step_cloneReturn hs
    exact ⟨hleader,hgroup⟩
  | exec t reserved now filename =>
    obtain ⟨⟨⟨ht,-⟩,halone⟩,rfl⟩ := step_exec hs
    unfold Alone at halone
    constructor
    · intro v hv u hu he
      simp only [Finset.mem_insert,Finset.mem_erase] at hv hu
      grind
    · intro v hv u hu he
      simp only [Finset.mem_insert,Finset.mem_erase] at hv hu
      grind
  | exit t reserved now =>
    obtain ⟨-,rfl⟩ := step_exit hs
    constructor
    · intro v hv u hu he
      exact hleader v (Finset.mem_of_mem_erase hv) u (Finset.mem_of_mem_erase hu) he
    · intro v hv u hu he
      exact hgroup v (Finset.mem_of_mem_erase hv) u (Finset.mem_of_mem_erase hu) he

/-- Every live thread of the tree is tracked by its group. -/
def TreeTracked (k : Kernel) : Prop := ∀ t ∈ k.threads, t.inTree = true → t.tgid ∈ k.maps.trackedPids

/-- A leader of the tree exits as the last thread of its group. -/
def LeaderLast (k : Kernel) : Action → Prop
  | .exit t _ _ => t.inTree = true → t.tid = t.tgid → k.Alone t
  | _ => True

theorem TreeTracked.step (hc : k.Coherent) (h : k.TreeTracked) {a : Action} (hs : k.step a = some k')
    (hl : k.LeaderLast a) : k'.TreeTracked := by
  intro t ht htree
  cases a with
  | fork parent childPid newThread viaClone reserved now =>
    obtain ⟨⟨⟨hparent,-⟩,-⟩,rfl⟩ := step_fork hs
    rw [mem_trackedPids_tryFork]
    rcases Finset.mem_insert.mp ht with rfl | ht
    · have htracked := h parent hparent htree
      cases newThread with
      | false => exact Or.inr ⟨htracked,rfl⟩
      | true => exact Or.inl htracked
    · exact Or.inl (h t ht htree)
  | cloneReturn call =>
    obtain ⟨⟨-,-,hchild⟩,rfl⟩ := step_cloneReturn hs
    rw [mem_trackedPids_tryCloneExit hchild]
    exact Or.inl (h t ht htree)
  | exec thread reserved now filename =>
    obtain ⟨⟨⟨hthread,-⟩,-⟩,rfl⟩ := step_exec hs
    rw [mem_trackedPids_tryExec]
    rcases Finset.mem_insert.mp ht with rfl | ht
    · exact Or.inl (h thread hthread htree)
    · exact Or.inl (h t (Finset.mem_of_mem_erase ht) htree)
  | exit thread reserved now =>
    obtain ⟨⟨hthread,-⟩,rfl⟩ := step_exit hs
    obtain ⟨hne,ht⟩ := Finset.mem_erase.mp ht
    rw [mem_trackedPids_tryExit]
    refine ⟨h t ht htree,?_⟩
    rintro ⟨-,hid⟩
    have hsame : thread.tgid = t.tgid := hc.leader thread hthread t ht hid.symm
    have hin : thread.inTree = true := (hc.group thread hthread t ht hsame).trans htree
    exact hne (hl hin (hid.symm.trans hsame.symm) t ht hsame.symm)

theorem leaderLast_of_treeTracked (hc : k.Coherent) (h : k.TreeTracked) {a : Action} (hs : k.step a = some k')
    (h' : k'.TreeTracked) : k.LeaderLast a := by
  cases a with
  | fork | cloneReturn | exec => trivial
  | exit thread reserved now =>
    intro hin hlead u hu hgroup
    obtain ⟨⟨hthread,-⟩,rfl⟩ := step_exit hs
    by_contra hne
    have htracked := h thread hthread hin
    have hu' := h' u (Finset.mem_erase.mpr ⟨hne,hu⟩) ((hc.group u hu thread hthread hgroup).trans hin)
    rw [mem_trackedPids_tryExit] at hu'
    exact hu'.2 ⟨htracked,hgroup.trans hlead.symm⟩

end Kernel

section Tree

theorem Kernel.Started.treeTracked {k : Kernel} {root : UInt32} (h : k.Started root) : k.TreeTracked := by
  intro t ht hin
  obtain rfl := (h.tree t).mp ⟨ht,hin⟩
  rw [h.trackedPids]
  exact Finset.mem_singleton_self root

/-- Along every run of the kernel, all live threads of the tree stay tracked by their
groups exactly as long as no leader of the tree exits ahead of another thread of its
group. -/
theorem treeTracked_iff_leaderLast (root : UInt32) (start last : Kernel) (steps : List (Kernel × Action))
    (h : start.Started root) (hrun : Run Kernel.step start steps last) :
    Throughout Kernel.TreeTracked steps last ↔ ∀ p ∈ steps, p.1.LeaderLast p.2 :=
  hrun.throughout_iff (A := fun _ => True) (fun _ _ => trivial) h.coherent h.treeTracked (fun _ hc _ hs => hc.step hs)
    (fun _ hc ht hs hl => ht.step hc hs hl)
    (fun _ hc ht hs ht' => Kernel.leaderLast_of_treeTracked hc ht hs ht')

def rootThread : Thread := ⟨10,10,true⟩

def workerThread : Thread := ⟨11,10,true⟩

def rootKernel : Kernel := ⟨{rootThread},∅,∅,rootMaps 10⟩

theorem started_rootKernel : rootKernel.Started 10 where
  coherent := by
    constructor <;> simp [rootKernel,rootThread]
  tree t := by
    simp only [rootKernel,Finset.mem_singleton]
    constructor
    · exact fun h => h.1
    · rintro rfl
      exact ⟨rfl,rfl⟩
  calls := by simp [rootKernel]
  gone := by simp [rootKernel]
  rootPid := rfl
  trackedPids := rfl

/-- The root has created a second thread and its clone call has returned. -/
def createWorker : Action := .fork rootThread 11 true true true 1

def workerCreated : Action := .cloneReturn ⟨rootThread,11⟩

def threadedKernel : Kernel := after Kernel.step (after Kernel.step rootKernel createWorker) workerCreated

theorem run_threadedKernel : Run Kernel.step rootKernel
    [(rootKernel,createWorker),(after Kernel.step rootKernel createWorker,workerCreated)] threadedKernel :=
  (Run.nil.extend createWorker (by decide)).extend workerCreated (by decide)

/-- The worker exits, then the leader. -/
theorem treeTracked_iff_leaderLast_sample :
    Throughout Kernel.TreeTracked
      [(rootKernel,createWorker),(after Kernel.step rootKernel createWorker,workerCreated),
        (threadedKernel,.exit workerThread true 2),
        (after Kernel.step threadedKernel (.exit workerThread true 2),.exit rootThread true 3)]
      (after Kernel.step (after Kernel.step threadedKernel (.exit workerThread true 2))
        (.exit rootThread true 3)) := by
  have hrun := (run_threadedKernel.extend (.exit workerThread true 2) (by decide)).extend
    (.exit rootThread true 3) (by decide)
  refine (treeTracked_iff_leaderLast 10 rootKernel _ _ started_rootKernel hrun).mpr ?_
  intro p hp
  simp only [List.cons_append,List.nil_append,List.mem_cons,List.not_mem_nil,or_false] at hp
  rcases hp with rfl | rfl | rfl | rfl
  · trivial
  · trivial
  · intro _ hlead
    exact absurd hlead (by decide)
  · exact fun _ _ => by decide

/-- The leader exits first and the worker lives on, untracked. -/
theorem worker_outlives_tracking :
    ¬ ∀ (root : UInt32) (start last : Kernel) (steps : List (Kernel × Action)), start.Started root →
      Run Kernel.step start steps last → Throughout Kernel.TreeTracked steps last := by
  intro h
  have hrun := run_threadedKernel.extend (.exit rootThread true 2) (by decide)
  obtain ⟨-,hlast⟩ := h 10 rootKernel _ _ started_rootKernel hrun
  have htracked := hlast workerThread (by decide) rfl
  exact absurd htracked (by decide)

end Tree

end Repx.Probe
