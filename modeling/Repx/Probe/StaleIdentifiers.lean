import Repx.Probe.ProcessTree

/-! # Identifiers left behind

A child is tracked twice, when it is created and when the clone call returns to the
parent, and removed once, when it exits. As long as every exit finds the group of the
thread tracked and no clone call returns after its child is gone, the map holds live
members of the tree only.
-/
namespace Repx.Probe
open GuardedRuns
namespace Kernel
variable {k k' : Kernel}

/-- No tracked identifier belongs to a thread that exited. -/
def NoStale (k : Kernel) : Prop := ∀ id ∈ k.maps.trackedPids, id ∉ k.gone

/-- A clone call returns before its child is gone, unless nobody tracks the parent,
and a tracked thread exits while its group is tracked. -/
def Released (k : Kernel) : Action → Prop
  | .cloneReturn call => call.parent.tgid ∈ k.maps.trackedPids → call.childPid ∉ k.gone
  | .exit t _ _ => t.tid ∈ k.maps.trackedPids → t.tgid ∈ k.maps.trackedPids
  | _ => True

/-- Forks, returns of clone calls and exits. -/
def Lifecycle : Action → Prop
  | .exec _ _ _ _ => False
  | _ => True

/-- A member of the tree that is alive, or an identifier of an exited thread. -/
def Known (k : Kernel) (id : UInt32) : Prop := id ∈ k.gone ∨ ∃ t ∈ k.threads, t.inTree = true ∧ t.tid = id

/-- What is tracked, and what a clone call of the tree is going to track, is known. -/
structure Accounted (k : Kernel) : Prop where
  coherent : k.Coherent
  tracked : ∀ id ∈ k.maps.trackedPids, k.Known id
  calls : ∀ call ∈ k.cloning, call.parent.inTree = true → k.Known call.childPid

/-- A group that is tracked belongs to the tree. -/
theorem Accounted.inTree (h : k.Accounted) (hn : k.NoStale) {t : Thread} (ht : t ∈ k.threads)
    (htracked : t.tgid ∈ k.maps.trackedPids) : t.inTree = true := by
  rcases h.tracked t.tgid htracked with hgone | ⟨u,hu,hin,hid⟩
  · exact absurd hgone (hn _ htracked)
  · have hgroup := h.coherent.leader u hu t ht hid
    exact (h.coherent.group t ht u hu hgroup.symm).trans hin

/-- What is known stays known, whoever is created. -/
theorem Known.fork {parent : Thread} {childPid : UInt32} {newThread viaClone reserved : Bool} {now : UInt64}
    (hs : k.step (.fork parent childPid newThread viaClone reserved now) = some k') (id : UInt32)
    (h : k.Known id) : k'.Known id := by
  obtain ⟨-,rfl⟩ := step_fork hs
  rcases h with hgone | ⟨t,ht,hin,rfl⟩
  · by_cases hp : parent.inTree = true
    · by_cases hid : id = childPid
      · exact Or.inr ⟨childThread parent childPid newThread,Finset.mem_insert_self _ _,hp,hid.symm⟩
      · left
        simpa [hp] using ⟨hid,hgone⟩
    · left
      simpa [hp] using hgone
  · exact Or.inr ⟨t,Finset.mem_insert_of_mem ht,hin,rfl⟩

theorem Known.exit {thread : Thread} {reserved : Bool} {now : UInt64}
    (hs : k.step (.exit thread reserved now) = some k') (id : UInt32) (h : k.Known id) : k'.Known id := by
  obtain ⟨-,rfl⟩ := step_exit hs
  rcases h with hgone | ⟨t,ht,hin,rfl⟩
  · exact Or.inl (Finset.mem_insert_of_mem hgone)
  · by_cases he : t = thread
    · exact Or.inl (by rw [he]; exact Finset.mem_insert_self _ _)
    · exact Or.inr ⟨t,Finset.mem_erase.mpr ⟨he,ht⟩,hin,rfl⟩

theorem Accounted.step (h : k.Accounted) (hn : k.NoStale) {a : Action} (ha : Lifecycle a)
    (hs : k.step a = some k') : k'.Accounted := by
  refine ⟨h.coherent.step hs,?_,?_⟩
  · intro id hid
    cases a with
    | fork parent childPid newThread viaClone reserved now =>
      have hknown := Known.fork hs
      obtain ⟨⟨⟨hparent,-⟩,-⟩,rfl⟩ := step_fork hs
      rw [mem_trackedPids_tryFork] at hid
      rcases hid with hid | ⟨htracked,rfl⟩
      · exact hknown id (h.tracked id hid)
      · have hin : parent.inTree = true := h.inTree hn hparent htracked
        exact Or.inr ⟨childThread parent id newThread,Finset.mem_insert_self _ _,hin,rfl⟩
    | cloneReturn call =>
      obtain ⟨⟨hcall,hparent,hchild⟩,rfl⟩ := step_cloneReturn hs
      rw [mem_trackedPids_tryCloneExit hchild] at hid
      rcases hid with hid | ⟨htracked,rfl⟩
      · exact h.tracked id hid
      · exact h.calls call hcall (h.inTree hn hparent htracked)
    | exec => exact ha.elim
    | exit thread reserved now =>
      have hknown := Known.exit hs
      obtain ⟨-,rfl⟩ := step_exit hs
      rw [mem_trackedPids_tryExit] at hid
      exact hknown id (h.tracked id hid.1)
  · intro call hcall hin
    cases a with
    | fork parent childPid newThread viaClone reserved now =>
      have hknown := Known.fork hs
      obtain ⟨-,rfl⟩ := step_fork hs
      have hcases : call = ⟨parent,childPid⟩ ∨ call ∈ k.cloning := by
        cases viaClone with
        | true => exact Finset.mem_insert.mp hcall
        | false => exact Or.inr hcall
      rcases hcases with rfl | hcall
      · exact Or.inr ⟨_,Finset.mem_insert_self _ _,hin,rfl⟩
      · exact hknown _ (h.calls call hcall hin)
    | cloneReturn returned =>
      obtain ⟨-,rfl⟩ := step_cloneReturn hs
      exact h.calls call (Finset.mem_of_mem_erase hcall) hin
    | exec => exact ha.elim
    | exit thread reserved now =>
      have hknown := Known.exit hs
      obtain ⟨-,rfl⟩ := step_exit hs
      exact hknown _ (h.calls call hcall hin)

theorem NoStale.step (hacc : k.Accounted) (h : k.NoStale) {a : Action} (ha : Lifecycle a)
    (hs : k.step a = some k') (hr : k.Released a) : k'.NoStale := by
  intro id hid hgone
  cases a with
  | fork parent childPid newThread viaClone reserved now =>
    obtain ⟨⟨⟨hparent,-⟩,-⟩,rfl⟩ := step_fork hs
    rw [mem_trackedPids_tryFork] at hid
    rcases hid with hid | ⟨htracked,rfl⟩
    · have hgone' : id ∈ k.gone := by
        by_cases hp : parent.inTree = true
        · simp only [hp,if_true] at hgone
          exact Finset.mem_of_mem_erase hgone
        · simpa [hp] using hgone
      exact h id hid hgone'
    · have hin : parent.inTree = true := hacc.inTree h hparent htracked
      simp [hin] at hgone
  | cloneReturn call =>
    obtain ⟨⟨-,-,hchild⟩,rfl⟩ := step_cloneReturn hs
    rw [mem_trackedPids_tryCloneExit hchild] at hid
    rcases hid with hid | ⟨htracked,rfl⟩
    · exact h id hid hgone
    · exact hr htracked hgone
  | exec => exact ha.elim
  | exit thread reserved now =>
    obtain ⟨-,rfl⟩ := step_exit hs
    rw [mem_trackedPids_tryExit] at hid
    obtain ⟨hid,hkept⟩ := hid
    rcases Finset.mem_insert.mp hgone with rfl | hgone
    · exact hkept ⟨hr hid,rfl⟩
    · exact h id hid hgone

theorem released_of_noStale {a : Action} (hs : k.step a = some k') (h' : k'.NoStale) : k.Released a := by
  cases a with
  | fork | exec => trivial
  | cloneReturn call =>
    intro htracked
    obtain ⟨⟨-,-,hchild⟩,rfl⟩ := step_cloneReturn hs
    refine h' call.childPid ?_
    rw [mem_trackedPids_tryCloneExit hchild]
    exact Or.inr ⟨htracked,rfl⟩
  | exit thread reserved now =>
    intro hid
    obtain ⟨-,rfl⟩ := step_exit hs
    by_contra hgroup
    refine h' thread.tid ?_ (Finset.mem_insert_self _ _)
    rw [mem_trackedPids_tryExit]
    exact ⟨hid,fun hboth => hgroup hboth.1⟩

theorem Started.accounted {root : UInt32} (h : k.Started root) : k.Accounted where
  coherent := h.coherent
  tracked id hid := by
    rw [h.trackedPids,Finset.mem_singleton] at hid
    obtain ⟨ht,hin⟩ := (h.tree ⟨root,root,true⟩).mpr rfl
    exact Or.inr ⟨_,ht,hin,hid.symm⟩
  calls call hcall hin := by
    rw [h.calls call hcall] at hin
    cases hin

theorem Started.noStale {root : UInt32} (h : k.Started root) : k.NoStale := by
  intro id hid
  rw [h.trackedPids,Finset.mem_singleton] at hid
  rw [hid]
  exact h.gone

end Kernel

section Stale

/-- Along every run of forks, returns of clone calls and exits, no identifier of an
exited thread stays tracked exactly as long as no clone call of a tracked parent returns
after its child is gone and no tracked thread exits after its group was removed. -/
theorem noStale_iff_released (root : UInt32) (start last : Kernel) (steps : List (Kernel × Action))
    (h : start.Started root) (hrun : Run Kernel.step start steps last)
    (hlife : ∀ p ∈ steps, Kernel.Lifecycle p.2) :
    Throughout Kernel.NoStale steps last ↔ ∀ p ∈ steps, p.1.Released p.2 :=
  hrun.throughout_iff hlife h.accounted h.noStale (fun ha hacc hn hs => hacc.step hn ha hs)
    (fun ha hacc hn hs hr => hn.step hacc ha hs hr) (fun _ _ _ hs hn' => Kernel.released_of_noStale hs hn')

/-- The root forks a process through `clone`. -/
def createChild : Action := .fork rootThread 11 false true true 1

def childCreated : Action := .cloneReturn ⟨rootThread,11⟩

def childExits : Action := .exit ⟨11,11,true⟩ true 2

theorem run_createChild : Run Kernel.step rootKernel [(rootKernel,createChild)]
    (after Kernel.step rootKernel createChild) :=
  Run.nil.extend createChild (by decide)

/-- The call returns, then the child exits. -/
theorem noStale_iff_released_sample :
    Throughout Kernel.NoStale
      [(rootKernel,createChild),(after Kernel.step rootKernel createChild,childCreated),
        (after Kernel.step (after Kernel.step rootKernel createChild) childCreated,childExits)]
      (after Kernel.step (after Kernel.step (after Kernel.step rootKernel createChild) childCreated)
        childExits) := by
  have hrun := (run_createChild.extend childCreated (by decide)).extend childExits (by decide)
  refine (noStale_iff_released 10 rootKernel _ _ started_rootKernel hrun ?_).mpr ?_
  · intro p hp
    simp only [List.cons_append,List.nil_append,List.mem_cons,List.not_mem_nil,or_false] at hp
    rcases hp with rfl | rfl | rfl <;> trivial
  · intro p hp
    simp only [List.cons_append,List.nil_append,List.mem_cons,List.not_mem_nil,or_false] at hp
    rcases hp with rfl | rfl | rfl
    · trivial
    · exact fun _ => by decide
    · exact fun _ => by decide

/-- The child exits before the call returns, and its identifier is tracked again. -/
theorem clone_return_after_exit :
    ¬ ∀ (root : UInt32) (start last : Kernel) (steps : List (Kernel × Action)), start.Started root →
      Run Kernel.step start steps last → (∀ p ∈ steps, Kernel.Lifecycle p.2) →
      Throughout Kernel.NoStale steps last := by
  intro h
  have hrun := (run_createChild.extend childExits (by decide)).extend childCreated (by decide)
  obtain ⟨-,hlast⟩ := h 10 rootKernel _ _ started_rootKernel hrun fun p hp => by
    simp only [List.cons_append,List.nil_append,List.mem_cons,List.not_mem_nil,or_false] at hp
    rcases hp with rfl | rfl | rfl <;> trivial
  exact hlast 11 (by decide) (by decide)

end Stale

end Repx.Probe
