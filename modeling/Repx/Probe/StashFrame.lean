import Repx.Probe.FileHandlers

/-! # Stashes of other threads

What a probe stashes is kept under the thread it runs in, so whatever the probes of
other threads do between the entry and the return of a call, they leave its arguments
as they are.
-/
namespace Repx.Probe
open Maps

/-- What is stashed for a thread. -/
structure Maps.SameStash (task : PidTgid) (m m' : Maps) : Prop where
  openat : m'.openatStash task = m.openatStash task
  pathOp : m'.pathOpStash task = m.pathOpStash task
  oldPath : m'.pathOpOldPath task = m.pathOpOldPath task
  newPath : m'.pathOpNewPath task = m.pathOpNewPath task

namespace Maps.SameStash
variable {task other : PidTgid} {m m' m'' : Maps}

theorem refl (m : Maps) : SameStash task m m := ⟨rfl,rfl,rfl,rfl⟩

theorem trans (h : SameStash task m m') (h' : SameStash task m' m'') : SameStash task m m'' :=
  ⟨h'.openat.trans h.openat,h'.pathOp.trans h.pathOp,h'.oldPath.trans h.oldPath,h'.newPath.trans h.newPath⟩

theorem recordDrop : SameStash task m m.recordDrop := ⟨rfl,rfl,rfl,rfl⟩

theorem submit (reserved : Bool) (event : Event) : SameStash task m (m.submit reserved event) := by
  cases reserved <;> exact ⟨rfl,rfl,rfl,rfl⟩

theorem trackPid (inserted : Bool) (tgid : UInt32) : SameStash task m (m.trackPid inserted tgid) := by
  cases inserted <;> exact ⟨rfl,rfl,rfl,rfl⟩

theorem untrackPid (tgid : UInt32) : SameStash task m (m.untrackPid tgid) := ⟨rfl,rfl,rfl,rfl⟩

variable (h : task ≠ other)
include h

theorem removePathStash : SameStash task m (m.removePathStash other) :=
  ⟨rfl,Function.update_of_ne h _ _,Function.update_of_ne h _ _,Function.update_of_ne h _ _⟩

theorem stashOldPath (path : StringRead) (inserted : Bool) :
    SameStash task m (m.stashOldPath other path inserted).1 := by
  unfold Maps.stashOldPath stashPath
  split
  · exact recordDrop
  · split
    · exact ⟨rfl,rfl,Function.update_of_ne h _ _,rfl⟩
    · exact recordDrop

theorem stashNewPath (path : StringRead) (inserted : Bool) :
    SameStash task m (m.stashNewPath other path inserted).1 := by
  unfold Maps.stashNewPath stashPath
  split
  · exact recordDrop
  · split
    · exact ⟨rfl,rfl,rfl,Function.update_of_ne h _ _⟩
    · exact recordDrop

theorem insertPathOp (stash : PathOpStash) (inserted : Bool) :
    SameStash task m (m.insertPathOp other stash inserted) := by
  cases inserted with
  | true => exact ⟨rfl,Function.update_of_ne h _ _,rfl,rfl⟩
  | false => exact recordDrop.trans (removePathStash h)

theorem stashRename (oldDfd : Int32) (oldPath : StringRead) (newDfd : Int32) (newPath : StringRead)
    (flags : UInt32) (inserted : PathInserts) :
    SameStash task m (Probe.stashRename m other oldDfd oldPath newDfd newPath flags inserted) := by
  unfold Probe.stashRename
  dsimp only
  have hboth := (stashOldPath (m := m) h oldPath inserted.oldPath).trans
    (stashNewPath h newPath inserted.newPath)
  split
  · exact refl m
  · split
    · exact hboth.trans (removePathStash h)
    · split
      · exact (hboth.trans recordDrop).trans (removePathStash h)
      · split
        · exact (hboth.trans recordDrop).trans (removePathStash h)
        · split
          · exact hboth.trans (removePathStash h)
          · exact hboth.trans (insertPathOp h _ _)

theorem stashUnlink (dfd : Int32) (path : StringRead) (flags : UInt32) (inserted : PathInserts) :
    SameStash task m (Probe.stashUnlink m other dfd path flags inserted) := by
  unfold Probe.stashUnlink
  dsimp only
  have hold := stashOldPath (m := m) h path inserted.oldPath
  split
  · exact refl m
  · split
    · exact hold.trans (removePathStash h)
    · split
      · exact (hold.trans recordDrop).trans (removePathStash h)
      · split
        · exact hold.trans (removePathStash h)
        · exact hold.trans (insertPathOp h _ _)

theorem openatEnter (dfd : Int32) (path : StringRead) (flags : UInt32) (inserted : Bool) :
    SameStash task m (tryOpenatEnter m other dfd path flags inserted) := by
  unfold tryOpenatEnter
  dsimp only
  split
  · exact refl m
  · split
    · exact refl m
    · split
      · exact ⟨Function.update_of_ne h _ _,rfl,rfl,rfl⟩
      · exact recordDrop

theorem openatExit (ret : Int64) (now : UInt64) (reserved inserted : Bool) :
    SameStash task m (tryOpenatExit m other ret now reserved inserted) := by
  unfold tryOpenatExit
  split
  · exact refl m
  · rename_i stash _
    have hremoved : SameStash task m { m with openatStash := Function.update m.openatStash other none } :=
      ⟨Function.update_of_ne h _ _,rfl,rfl,rfl⟩
    dsimp only
    split
    · exact hremoved
    · split
      · split
        · exact (hremoved.trans (submit _ _)).trans ⟨rfl,rfl,rfl,rfl⟩
        · exact (hremoved.trans (submit _ _)).trans recordDrop
      · exact hremoved.trans (submit _ _)

theorem pathOpExit (ret : Int64) (now : UInt64) (reserved newReserved : Bool) :
    SameStash task m (tryPathOpExit m other ret now reserved newReserved) := by
  have hlost : SameStash task m (m.recordDrop.removePathStash other) := recordDrop.trans (removePathStash h)
  unfold tryPathOpExit
  split
  · exact refl m
  · split
    · exact removePathStash h
    · split
      · split
        · exact hlost
        · dsimp only
          split
          · exact (submit _ _).trans (recordDrop.trans (removePathStash h))
          · exact (submit _ _).trans ((submit _ _).trans (removePathStash h))
      · split
        · split
          · exact hlost
          · exact (submit _ _).trans (removePathStash h)
        · exact removePathStash h

omit h in
theorem exec (inserted reserved : Bool) (now : UInt64) (filename : StringRead) :
    SameStash task m (tryExec m other inserted reserved now filename) := by
  unfold tryExec
  dsimp only
  split
  · split
    · exact (trackPid _ _).trans (submit _ _)
    · exact trackPid _ _
  · split
    · exact submit _ _
    · exact refl m

omit h in
/-- The other probes change no stash at all. -/
theorem of_not_ofCall {handler : Handler} (hother : handler.ofCall = false) :
    SameStash task m (handler.run m other) := by
  cases handler with
  | exec => exact exec _ _ _ _
  | closeEnter fd now reserved =>
    have hforgot : SameStash task m { m with watchedFds := m.watchedFds.erase (other.tgid,fd.toUInt32) } :=
      ⟨rfl,rfl,rfl,rfl⟩
    simp only [Handler.run,tryCloseEnter]
    split
    · exact submit _ _
    · split
      · exact hforgot.trans (submit _ _)
      · exact refl m
  | mmapEnter =>
    simp only [Handler.run,tryMmapEnter]
    split
    · exact refl m
    · split
      · exact submit _ _
      · split
        · exact submit _ _
        · exact refl m
  | fork =>
    simp only [Handler.run,tryFork]
    split
    · exact (submit _ _).trans (trackPid _ _)
    · exact refl m
  | cloneExit =>
    simp only [Handler.run,tryCloneExit]
    split
    · exact refl m
    · split
      · exact trackPid _ _
      · exact refl m
  | exit =>
    simp only [Handler.run,tryExit]
    split
    · split
      · exact untrackPid _
      · exact (submit _ _).trans (untrackPid _)
    · exact refl m
  | openatEnter | openatExit | renameEnter | renameatEnter | renameat2Enter | unlinkEnter | unlinkatEnter
  | pathOpExit => cases hother

/-- A probe changes the stash of its own thread only. -/
theorem handler (handler : Handler) : SameStash task m (handler.run m other) := by
  cases handler with
  | openatEnter => exact openatEnter h _ _ _ _
  | openatExit => exact openatExit h _ _ _ _
  | renameEnter => exact stashRename h _ _ _ _ _ _
  | renameatEnter => exact stashRename h _ _ _ _ _ _
  | renameat2Enter => exact stashRename h _ _ _ _ _ _
  | unlinkEnter => exact stashUnlink h _ _ _ _
  | unlinkatEnter => exact stashUnlink h _ _ _ _
  | pathOpExit => exact pathOpExit h _ _ _ _
  | closeEnter | mmapEnter | exec | fork | cloneExit | exit => exact of_not_ofCall rfl

end Maps.SameStash

/-- The probes of other threads run one after the other. -/
def interfere (others : List (PidTgid × Handler)) (m : Maps) : Maps :=
  others.foldl (fun m p => p.2.run m p.1) m

theorem sameStash_interfere {task : PidTgid} (others : List (PidTgid × Handler))
    (h : ∀ p ∈ others, p.1 ≠ task) (m : Maps) : m.SameStash task (interfere others m) := by
  induction others generalizing m with
  | nil => exact .refl m
  | cons p others ih =>
    have hp : m.SameStash task (p.2.run m p.1) := .handler (h p List.mem_cons_self).symm p.2
    exact hp.trans (ih (fun q hq => h q (List.mem_cons_of_mem _ hq)) _)

end Repx.Probe
