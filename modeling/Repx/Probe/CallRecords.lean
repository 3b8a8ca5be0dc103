import Mathlib.Logic.Relation
import Repx.Probe.ArgumentCapture

/-! # Records of a call

A thread that enters a call has nothing stashed, and what the entry leaves is either
nothing or all the arguments of the call. The return submits records of these arguments
and clears them, so no record mixes the arguments of two calls, whatever other threads
do and whichever helper calls fail.
-/
namespace Repx.Probe
open Maps

/-- What the four maps hold for one thread. -/
@[ext]
structure Stash where
  openat : Option OpenatStash
  pathOp : Option PathOpStash
  oldPath : Option PathStash
  newPath : Option PathStash

namespace Stash

def empty : Stash := ⟨none,none,none,none⟩

def ofOpenat (dfd : Int32) (path : StringRead) (flags : UInt32) (source : UInt8) : Stash :=
  ⟨some ⟨dfd,flags,path.buffer,path.len,source⟩,none,none,none⟩

def ofRename (oldDfd : Int32) (oldPath : StringRead) (newDfd : Int32) (newPath : StringRead) (flags : UInt32)
    (source : UInt8) : Stash :=
  ⟨none,some ⟨oldDfd,newDfd,flags,pathOpRename,source⟩,some ⟨oldPath.buffer,oldPath.len⟩,
    some ⟨newPath.buffer,newPath.len⟩⟩

def ofUnlink (dfd : Int32) (path : StringRead) (flags : UInt32) (source : UInt8) : Stash :=
  ⟨none,some ⟨dfd,0,flags,pathOpUnlink,source⟩,some ⟨path.buffer,path.len⟩,none⟩

end Stash

/-- The records that carry arguments of a call taken at its entry. -/
def Event.ofCall (event : Event) : Bool :=
  match event.payload with
  | .fileOpen _ | .fileRenameSource _ | .fileRenameDestination _ | .fileUnlink _ => true
  | _ => false

namespace Maps
variable (m : Maps) (task : PidTgid)

def stash : Stash := ⟨m.openatStash task,m.pathOpStash task,m.pathOpOldPath task,m.pathOpNewPath task⟩

/-- The source a record gets when its call is entered now. -/
def sourceOf (tgid : UInt32) : UInt8 := if m.isTracked tgid then 0 else 1

/-- The records of calls among the submitted ones. -/
def callRecords : List Event := m.events.filter Event.ofCall

variable {m task} {m' : Maps}

theorem SameStash.stash_eq (h : SameStash task m m') : m'.stash task = m.stash task :=
  Stash.ext h.openat h.pathOp h.oldPath h.newPath

theorem stash_removePathStash : (m.removePathStash task).stash task = ⟨m.openatStash task,none,none,none⟩ := by
  simp [stash,removePathStash]

theorem events_submit (reserved : Bool) (event : Event) :
    (m.submit reserved event).events = m.events ++ if reserved then [event] else [] := by
  cases reserved <;> simp [submit,recordDrop]

theorem callRecords_of_events (h : m'.events = m.events) : m'.callRecords = m.callRecords :=
  congrArg (List.filter Event.ofCall) h

theorem callRecords_submit (reserved : Bool) {event : Event} (h : event.ofCall = false) :
    (m.submit reserved event).callRecords = m.callRecords := by
  cases reserved <;> simp [callRecords,submit,recordDrop,h]

theorem callRecords_trackPid (inserted : Bool) (tgid : UInt32) :
    (m.trackPid inserted tgid).callRecords = m.callRecords := by
  cases inserted <;> rfl

end Maps

section Handlers
variable {m : Maps} {task : PidTgid}

/-- The other probes submit records of other kinds. -/
theorem callRecords_run_of_not_ofCall {handler : Handler} (h : handler.ofCall = false) :
    (handler.run m task).callRecords = m.callRecords := by
  cases handler with
  | exec inserted reserved now filename =>
    simp only [Handler.run,tryExec]
    split <;> split
    · exact (callRecords_submit _ rfl).trans (callRecords_trackPid _ _)
    · exact callRecords_trackPid _ _
    · exact callRecords_submit _ rfl
    · rfl
  | closeEnter =>
    simp only [Handler.run,tryCloseEnter]
    split
    · exact callRecords_submit _ rfl
    · split
      · exact callRecords_submit _ rfl
      · rfl
  | mmapEnter =>
    simp only [Handler.run,tryMmapEnter]
    split
    · rfl
    · split
      · exact callRecords_submit _ rfl
      · split
        · exact callRecords_submit _ rfl
        · rfl
  | fork =>
    simp only [Handler.run,tryFork]
    split
    · exact (callRecords_trackPid _ _).trans (callRecords_submit _ rfl)
    · rfl
  | cloneExit =>
    simp only [Handler.run,tryCloneExit]
    split
    · rfl
    · split
      · exact callRecords_trackPid _ _
      · rfl
  | exit =>
    simp only [Handler.run,tryExit]
    split
    · split
      · rfl
      · exact callRecords_submit _ rfl
    · rfl
  | openatEnter | openatExit | renameEnter | renameatEnter | renameat2Enter | unlinkEnter | unlinkatEnter
  | pathOpExit => cases h

end Handlers

section Entries
variable {m : Maps} {task : PidTgid}

theorem events_stashOldPath (path : StringRead) (inserted : Bool) :
    (m.stashOldPath task path inserted).1.events = m.events := by
  unfold stashOldPath stashPath
  split
  · rfl
  · split <;> rfl

theorem events_stashNewPath (path : StringRead) (inserted : Bool) :
    (m.stashNewPath task path inserted).1.events = m.events := by
  unfold stashNewPath stashPath
  split
  · rfl
  · split <;> rfl

theorem events_insertPathOp (stash : PathOpStash) (inserted : Bool) :
    (m.insertPathOp task stash inserted).events = m.events := by
  cases inserted <;> rfl

theorem events_stashRename (oldDfd : Int32) (oldPath : StringRead) (newDfd : Int32) (newPath : StringRead)
    (flags : UInt32) (inserted : PathInserts) :
    (stashRename m task oldDfd oldPath newDfd newPath flags inserted).events = m.events := by
  have hboth : ((m.stashOldPath task oldPath inserted.oldPath).1.stashNewPath task newPath
      inserted.newPath).1.events = m.events :=
    (events_stashNewPath _ _).trans (events_stashOldPath _ _)
  unfold stashRename
  dsimp only
  split
  · rfl
  · split
    · exact hboth
    · split
      · exact hboth
      · split
        · exact hboth
        · split
          · exact hboth
          · exact (events_insertPathOp _ _).trans hboth

theorem events_stashUnlink (dfd : Int32) (path : StringRead) (flags : UInt32) (inserted : PathInserts) :
    (stashUnlink m task dfd path flags inserted).events = m.events := by
  have hold : (m.stashOldPath task path inserted.oldPath).1.events = m.events :=
    events_stashOldPath _ _
  unfold stashUnlink
  dsimp only
  split
  · rfl
  · split
    · exact hold
    · split
      · exact hold
      · split
        · exact hold
        · exact (events_insertPathOp _ _).trans hold

theorem events_tryOpenatEnter (dfd : Int32) (path : StringRead) (flags : UInt32) (inserted : Bool) :
    (tryOpenatEnter m task dfd path flags inserted).events = m.events := by
  unfold tryOpenatEnter
  dsimp only
  split
  · rfl
  · split
    · rfl
    · split <;> rfl

/-- A cleared stash is empty when nothing was stashed for an openat. -/
theorem stash_removePathStash_of_openat (h : m.openatStash task = none) :
    (m.removePathStash task).stash task = .empty := by
  rw [stash_removePathStash,h,Stash.empty]

/-- Whatever fails, the entry of a rename leaves all its arguments or nothing. -/
theorem stash_stashRename (h : m.stash task = .empty) (oldDfd : Int32) (oldPath : StringRead) (newDfd : Int32)
    (newPath : StringRead) (flags : UInt32) (inserted : PathInserts) :
    (stashRename m task oldDfd oldPath newDfd newPath flags inserted).stash task = .empty ∨
      (stashRename m task oldDfd oldPath newDfd newPath flags inserted).stash task =
        .ofRename oldDfd oldPath newDfd newPath flags (m.sourceOf task.tgid) := by
  have hopenat : m.openatStash task = none := congrArg Stash.openat h
  unfold stashRename
  dsimp only
  split
  · exact Or.inl h
  · by_cases ho : oldPath.len = 0 ∨ inserted.oldPath = false
    · have hold : m.stashOldPath task oldPath inserted.oldPath = (m.recordDrop,0) := stashPath_lost ho
      have hkept : (m.recordDrop.stashNewPath task newPath inserted.newPath).1.openatStash task = none := by
        unfold stashNewPath stashPath
        split
        · exact hopenat
        · split <;> exact hopenat
      simp only [hold,true_or,if_true]
      exact Or.inl (stash_removePathStash_of_openat hkept)
    · have hold : m.stashOldPath task oldPath inserted.oldPath =
          ({ m with pathOpOldPath := Function.update m.pathOpOldPath task (some ⟨oldPath.buffer,oldPath.len⟩) },
            oldPath.len) := stashPath_kept ho
      by_cases hn : newPath.len = 0 ∨ inserted.newPath = false
      · simp only [hold,stashNewPath,stashPath_lost hn,or_true,if_true]
        exact Or.inl (stash_removePathStash_of_openat hopenat)
      · obtain ⟨holen,-⟩ := not_or.mp ho
        obtain ⟨hnlen,-⟩ := not_or.mp hn
        simp only [hold,stashNewPath,stashPath_kept hn,holen,hnlen,or_false,if_false,Function.update_self]
        split
        · exact Or.inl (stash_removePathStash_of_openat hopenat)
        · cases hi : inserted.stash with
          | false => exact Or.inl (stash_removePathStash_of_openat hopenat)
          | true => exact Or.inr (by simp [insertPathOp,stash,Stash.ofRename,sourceOf,hopenat])

theorem stash_stashUnlink (h : m.stash task = .empty) (dfd : Int32) (path : StringRead) (flags : UInt32)
    (inserted : PathInserts) :
    (stashUnlink m task dfd path flags inserted).stash task = .empty ∨
      (stashUnlink m task dfd path flags inserted).stash task =
        .ofUnlink dfd path flags (m.sourceOf task.tgid) := by
  have hopenat : m.openatStash task = none := congrArg Stash.openat h
  have hnew : m.pathOpNewPath task = none := congrArg Stash.newPath h
  unfold stashUnlink
  dsimp only
  split
  · exact Or.inl h
  · by_cases ho : path.len = 0 ∨ inserted.oldPath = false
    · simp only [stashOldPath,stashPath_lost ho,if_true]
      exact Or.inl (stash_removePathStash_of_openat hopenat)
    · obtain ⟨hlen,-⟩ := not_or.mp ho
      simp only [stashOldPath,stashPath_kept ho,hlen,if_false,Function.update_self]
      split
      · exact Or.inl (stash_removePathStash_of_openat hopenat)
      · cases hi : inserted.stash with
        | false => exact Or.inl (stash_removePathStash_of_openat hopenat)
        | true => exact Or.inr (by simp [insertPathOp,stash,Stash.ofUnlink,sourceOf,hopenat,hnew])

theorem stash_tryOpenatEnter (h : m.stash task = .empty) (dfd : Int32) (path : StringRead) (flags : UInt32)
    (inserted : Bool) :
    (tryOpenatEnter m task dfd path flags inserted).stash task = .empty ∨
      (tryOpenatEnter m task dfd path flags inserted).stash task =
        .ofOpenat dfd path flags (m.sourceOf task.tgid) := by
  obtain ⟨-,hpathOp,hold,hnew⟩ := Stash.ext_iff.mp h
  unfold tryOpenatEnter
  dsimp only
  split
  · exact Or.inl h
  · split
    · exact Or.inl h
    · split
      · refine Or.inr (Stash.ext ?_ hpathOp hold hnew)
        exact Function.update_self _ _ _
      · exact Or.inl h

end Entries

section Returns
variable {m : Maps} {task : PidTgid}

/-- With nothing stashed the return of a call does nothing. -/
theorem tryPathOpExit_empty (h : m.stash task = .empty) (ret : Int64) (now : UInt64)
    (reserved newReserved : Bool) : tryPathOpExit m task ret now reserved newReserved = m := by
  have hpathOp : m.pathOpStash task = none := congrArg Stash.pathOp h
  simp only [tryPathOpExit,hpathOp]

theorem tryOpenatExit_empty (h : m.stash task = .empty) (ret : Int64) (now : UInt64)
    (reserved inserted : Bool) : tryOpenatExit m task ret now reserved inserted = m := by
  have hopenat : m.openatStash task = none := congrArg Stash.openat h
  simp only [tryOpenatExit,hopenat]

theorem stash_submit (reserved : Bool) (event : Event) : (m.submit reserved event).stash task = m.stash task :=
  (SameStash.submit reserved event).stash_eq

/-- Either half of a rename is submitted if its reservation succeeds. -/
theorem tryPathOpExit_rename {oldDfd newDfd : Int32} {oldPath newPath : StringRead} {flags : UInt32}
    {source : UInt8} (h : m.stash task = .ofRename oldDfd oldPath newDfd newPath flags source) (ret : Int64)
    (now : UInt64) (reserved newReserved : Bool) :
    (tryPathOpExit m task ret now reserved newReserved).stash task = .empty ∧
      (tryPathOpExit m task ret now reserved newReserved).events = m.events ++ if ret < 0 then [] else
        (if reserved then [⟨source,now,.fileRenameSource
          ⟨task.pid,task.tgid,oldDfd,flags,now,oldPath.buffer,oldPath.len⟩⟩] else []) ++
        if newReserved then [⟨source,now,.fileRenameDestination
          ⟨task.pid,task.tgid,newDfd,flags,now,newPath.buffer,newPath.len⟩⟩] else [] := by
  have hpathOp : m.pathOpStash task = _ := congrArg Stash.pathOp h
  have hold : m.pathOpOldPath task = _ := congrArg Stash.oldPath h
  by_cases hret : ret < 0
  · simp only [tryPathOpExit,hpathOp,Stash.ofRename,hret,if_true,List.append_nil]
    exact ⟨stash_removePathStash_of_openat (congrArg Stash.openat h),rfl⟩
  · simp only [tryPathOpExit,hpathOp,hold,Stash.ofRename,hret,if_true,if_false,emitPathEvent]
    have hsame := (stash_submit reserved ⟨source,now,.fileRenameSource
      ⟨task.pid,task.tgid,oldDfd,flags,now,oldPath.buffer,oldPath.len⟩⟩).trans h
    have hevents := events_submit (m := m) reserved ⟨source,now,.fileRenameSource
      ⟨task.pid,task.tgid,oldDfd,flags,now,oldPath.buffer,oldPath.len⟩⟩
    generalize m.submit reserved _ = m' at hsame hevents ⊢
    have hnew : m'.pathOpNewPath task = _ := congrArg Stash.newPath hsame
    simp only [hnew,Stash.ofRename]
    constructor
    · exact stash_removePathStash_of_openat (congrArg Stash.openat ((stash_submit _ _).trans hsame))
    · exact (events_submit _ _).trans (by rw [hevents,List.append_assoc])

theorem tryPathOpExit_unlink {dfd : Int32} {path : StringRead} {flags : UInt32} {source : UInt8}
    (h : m.stash task = .ofUnlink dfd path flags source) (ret : Int64) (now : UInt64)
    (reserved newReserved : Bool) :
    (tryPathOpExit m task ret now reserved newReserved).stash task = .empty ∧
      (tryPathOpExit m task ret now reserved newReserved).events = m.events ++ if ret < 0 then [] else
        if reserved then [⟨source,now,.fileUnlink
          ⟨task.pid,task.tgid,dfd,flags,now,path.buffer,path.len⟩⟩] else [] := by
  have hpathOp : m.pathOpStash task = _ := congrArg Stash.pathOp h
  have hold : m.pathOpOldPath task = _ := congrArg Stash.oldPath h
  by_cases hret : ret < 0
  · simp only [tryPathOpExit,hpathOp,Stash.ofUnlink,hret,if_true,List.append_nil]
    exact ⟨stash_removePathStash_of_openat (congrArg Stash.openat h),rfl⟩
  · have hop : pathOpUnlink ≠ pathOpRename := by decide
    simp only [tryPathOpExit,hpathOp,hold,Stash.ofUnlink,hret,hop,if_true,if_false,emitPathEvent]
    constructor
    · exact stash_removePathStash_of_openat (congrArg Stash.openat ((stash_submit _ _).trans h))
    · exact events_submit _ _

/-- The descriptor decides whether the open is submitted. -/
theorem tryOpenatExit_openat {dfd : Int32} {path : StringRead} {flags : UInt32} {source : UInt8}
    (h : m.stash task = .ofOpenat dfd path flags source) (ret : Int64) (now : UInt64)
    (reserved inserted : Bool) :
    (tryOpenatExit m task ret now reserved inserted).stash task = .empty ∧
      (tryOpenatExit m task ret now reserved inserted).events = m.events ++ if ret.toInt32 < 0 then [] else
        if reserved then [⟨source,now,.fileOpen
          ⟨task.pid,task.tgid,ret.toInt32,dfd,flags,path.buffer,path.len⟩⟩] else [] := by
  have hopenat : m.openatStash task = _ := congrArg Stash.openat h
  have hremoved : { m with openatStash := Function.update m.openatStash task none }.stash task = .empty := by
    obtain ⟨-,hpathOp,hold,hnew⟩ := Stash.ext_iff.mp h
    exact Stash.ext (Function.update_self _ _ _) hpathOp hold hnew
  simp only [tryOpenatExit,hopenat,Stash.ofOpenat]
  by_cases hret : ret.toInt32 < 0
  · simpa only [hret,if_true,List.append_nil,and_true] using hremoved
  · simp only [hret,if_false]
    split
    · split
      · exact ⟨(stash_submit _ _).trans hremoved,events_submit _ _⟩
      · exact ⟨(stash_submit _ _).trans hremoved,events_submit _ _⟩
    · exact ⟨(stash_submit _ _).trans hremoved,events_submit _ _⟩

end Returns

namespace Call

/-- What the entry of a call stashes, unless it is filtered or fails. -/
def captured (source : UInt8) : Call → Stash
  | .openat dfd path flags _ _ _ => .ofOpenat dfd path flags source
  | .rename oldPath newPath _ _ _ => .ofRename atFdcwd oldPath atFdcwd newPath 0 source
  | .renameat oldDfd oldPath newDfd newPath _ _ _ => .ofRename oldDfd oldPath newDfd newPath 0 source
  | .renameat2 oldDfd oldPath newDfd newPath flags _ _ _ => .ofRename oldDfd oldPath newDfd newPath flags source
  | .unlink path _ _ => .ofUnlink atFdcwd path 0 source
  | .unlinkat dfd path flags _ _ => .ofUnlink dfd path flags source
  | .exec _ _ _ => .empty

/-- The two records of a rename. -/
def renameRecords (task : PidTgid) (source : UInt8) (now : UInt64) (oldDfd : Int32) (oldPath : StringRead)
    (newDfd : Int32) (newPath : StringRead) (flags : UInt32) : List Event :=
  [⟨source,now,.fileRenameSource ⟨task.pid,task.tgid,oldDfd,flags,now,oldPath.buffer,oldPath.len⟩⟩,
    ⟨source,now,.fileRenameDestination ⟨task.pid,task.tgid,newDfd,flags,now,newPath.buffer,newPath.len⟩⟩]

def unlinkRecords (task : PidTgid) (source : UInt8) (now : UInt64) (dfd : Int32) (path : StringRead)
    (flags : UInt32) : List Event :=
  [⟨source,now,.fileUnlink ⟨task.pid,task.tgid,dfd,flags,now,path.buffer,path.len⟩⟩]

/-- One record of every kind for the arguments of a call that returned `ret`. -/
def records (task : PidTgid) (source : UInt8) (ret : Int64) (now : UInt64) : Call → List Event
  | .openat dfd path flags _ _ _ =>
    [⟨source,now,.fileOpen ⟨task.pid,task.tgid,ret.toInt32,dfd,flags,path.buffer,path.len⟩⟩]
  | .rename oldPath newPath _ _ _ => renameRecords task source now atFdcwd oldPath atFdcwd newPath 0
  | .renameat oldDfd oldPath newDfd newPath _ _ _ =>
    renameRecords task source now oldDfd oldPath newDfd newPath 0
  | .renameat2 oldDfd oldPath newDfd newPath flags _ _ _ =>
    renameRecords task source now oldDfd oldPath newDfd newPath flags
  | .unlink path _ _ => unlinkRecords task source now atFdcwd path 0
  | .unlinkat dfd path flags _ _ => unlinkRecords task source now dfd path flags
  | .exec _ _ _ => []

/-- The probe at the return of a call, for any value of the register. -/
def returnProbe (ret : Int64) (now : UInt64) : Call → Option Handler
  | .openat _ _ _ _ reserved fdInserted => some (.openatExit ret now reserved fdInserted)
  | .rename _ _ _ reserved newReserved | .renameat _ _ _ _ _ reserved newReserved
  | .renameat2 _ _ _ _ _ _ reserved newReserved => some (.pathOpExit ret now reserved newReserved)
  | .unlink _ _ reserved | .unlinkat _ _ _ _ reserved => some (.pathOpExit ret now reserved false)
  | .exec _ _ _ => none

def finish (ret : Int64) (now : UInt64) (m : Maps) (task : PidTgid) (call : Call) : Maps :=
  match call.returnProbe ret now with
  | some handler => handler.run m task
  | none => m

/-- An openat returns a descriptor or a negated error number, both of the type `int`
its probe narrows the register to. -/
def Returns (ret : Int64) : Call → Prop
  | .openat .. => ret.toInt32.toInt64 = ret
  | _ => True

/-- Of the records of a call some are submitted, each kind at most once, and none when
it failed. -/
def Submits (call : Call) (task : PidTgid) (source : UInt8) (ret : Int64) (now : UInt64)
    (submitted : List Event) : Prop :=
  submitted.Sublist (call.records task source ret now) ∧
    (submitted.map fun record => record.payload.ctorIdx).Nodup ∧ (submitted ≠ [] → 0 ≤ ret)

variable {m : Maps} {task : PidTgid} {call : Call} {source : UInt8} {ret : Int64} {now : UInt64}

theorem ofCall_of_mem_records : ∀ record ∈ call.records task source ret now, record.ofCall = true := by
  cases call <;> simp [records,renameRecords,unlinkRecords,Event.ofCall]

theorem nodup_kinds_records :
    ((call.records task source ret now).map fun record => record.payload.ctorIdx).Nodup := by
  cases call <;> simp [records,renameRecords,unlinkRecords,EventPayload.ctorIdx]

theorem submits_nil : call.Submits task source ret now [] :=
  ⟨List.nil_sublist _,List.nodup_nil,fun h => absurd rfl h⟩

theorem submits_of_sublist {submitted : List Event}
    (h : submitted.Sublist (call.records task source ret now)) (hret : 0 ≤ ret) :
    call.Submits task source ret now submitted :=
  ⟨h,(h.map _).nodup nodup_kinds_records,fun _ => hret⟩

/-- What is submitted for a call is what the ring gets of its kinds. -/
theorem Submits.callRecords {m' : Maps} {submitted : List Event} (h : call.Submits task source ret now submitted)
    (hevents : m'.events = m.events ++ submitted) : m'.callRecords = m.callRecords ++ submitted := by
  have hall : submitted.filter Event.ofCall = submitted :=
    List.filter_eq_self.mpr fun record hr => ofCall_of_mem_records record (h.1.subset hr)
  simp only [Maps.callRecords,hevents,List.filter_append,hall]

/-- The entry submits none of the records and leaves all the arguments or nothing. -/
theorem stash_enter (h : m.stash task = .empty) (call : Call) (now : UInt64) :
    ((call.enter now).run m task).callRecords = m.callRecords ∧
      (((call.enter now).run m task).stash task = .empty ∨
        ((call.enter now).run m task).stash task = call.captured (m.sourceOf task.tgid)) := by
  cases call with
  | openat => exact ⟨callRecords_of_events (events_tryOpenatEnter _ _ _ _),stash_tryOpenatEnter h _ _ _ _⟩
  | rename | renameat | renameat2 =>
    exact ⟨callRecords_of_events (events_stashRename _ _ _ _ _ _),stash_stashRename h _ _ _ _ _ _⟩
  | unlink | unlinkat =>
    exact ⟨callRecords_of_events (events_stashUnlink _ _ _ _),stash_stashUnlink h _ _ _ _⟩
  | exec =>
    exact ⟨callRecords_run_of_not_ofCall rfl,Or.inl ((SameStash.exec _ _ _ _).stash_eq.trans h)⟩

/-- A return with nothing stashed does nothing. -/
theorem finish_empty (h : m.stash task = .empty) (call : Call) (ret : Int64) (now : UInt64) :
    call.finish ret now m task = m := by
  cases call with
  | openat => exact tryOpenatExit_empty h _ _ _ _
  | rename | renameat | renameat2 | unlink | unlinkat => exact tryPathOpExit_empty h _ _ _ _
  | exec => rfl

/-- A record is there or not, as its reservation succeeds. -/
theorem sublist_reserved (reserved : Bool) (record : Event) :
    (if reserved then [record] else []).Sublist [record] := by
  cases reserved with
  | true => exact List.Sublist.refl _
  | false => exact List.nil_sublist _

theorem finish_captured (h : m.stash task = call.captured source) (hret : call.Returns ret) (now : UInt64) :
    (call.finish ret now m task).stash task = .empty ∧
      ∃ submitted, (call.finish ret now m task).events = m.events ++ submitted ∧
        call.Submits task source ret now submitted := by
  cases call with
  | openat dfd path flags inserted reserved fdInserted =>
    obtain ⟨hstash,hevents⟩ := tryOpenatExit_openat h ret now reserved fdInserted
    refine ⟨hstash,_,hevents,?_⟩
    split
    · exact submits_nil
    · rename_i hfd
      have hnonneg : 0 ≤ ret.toInt32.toInt64 := Int64.not_lt.mp (not_toInt64_neg (Int32.not_lt.mp hfd))
      rw [show ret.toInt32.toInt64 = ret from hret] at hnonneg
      exact submits_of_sublist (sublist_reserved _ _) hnonneg
  | rename | renameat | renameat2 =>
    obtain ⟨hstash,hevents⟩ := tryPathOpExit_rename h ret now _ _
    refine ⟨hstash,_,hevents,?_⟩
    split
    · exact submits_nil
    · rename_i hpos
      exact submits_of_sublist ((sublist_reserved _ _).append (sublist_reserved _ _)) (Int64.not_lt.mp hpos)
  | unlink | unlinkat =>
    obtain ⟨hstash,hevents⟩ := tryPathOpExit_unlink h ret now _ false
    refine ⟨hstash,_,hevents,?_⟩
    split
    · exact submits_nil
    · rename_i hpos
      exact submits_of_sublist (sublist_reserved _ _) (Int64.not_lt.mp hpos)
  | exec => exact ⟨h,[],(List.append_nil _).symm,submits_nil⟩

/-- The return clears what the entry left and submits records of it only. -/
theorem callRecords_finish (h : m.stash task = .empty ∨ m.stash task = call.captured source)
    (hret : call.Returns ret) (now : UInt64) :
    (call.finish ret now m task).stash task = .empty ∧
      ∃ submitted, (call.finish ret now m task).callRecords = m.callRecords ++ submitted ∧
        call.Submits task source ret now submitted := by
  rcases h with h | h
  · rw [finish_empty h]
    exact ⟨h,[],(List.append_nil _).symm,submits_nil⟩
  · obtain ⟨hstash,submitted,hevents,hsub⟩ := finish_captured h hret now
    exact ⟨hstash,submitted,hsub.callRecords hevents,hsub⟩

end Call

/-- A call that returned, with the source taken at its entry. -/
structure Returned where
  task : PidTgid
  call : Call
  source : UInt8
  ret : Int64
  now : UInt64

/-- The maps with the call each thread is in, as entered, and the calls that returned. -/
structure Threads where
  maps : Maps
  pending : PidTgid → Option (Call × UInt8)
  returned : List Returned

namespace Threads

def start (m : Maps) : Threads := ⟨m,fun _ => none,[]⟩

/-- A thread enters a call when it is in none and returns from the one it is in. Between
that other probes run, and the maps other than the stashes change in any way. -/
inductive Step (s : Threads) : Threads → Prop
  | enter (task : PidTgid) (call : Call) (now : UInt64) : s.pending task = none →
      Step s { s with
        maps := (call.enter now).run s.maps task
        pending := Function.update s.pending task (some (call,s.maps.sourceOf task.tgid)) }
  | finish (task : PidTgid) (call : Call) (source : UInt8) (ret : Int64) (now : UInt64) :
      s.pending task = some (call,source) → call.Returns ret →
      Step s {
        maps := call.finish ret now s.maps task
        pending := Function.update s.pending task none
        returned := s.returned ++ [⟨task,call,source,ret,now⟩] }
  | probe (task : PidTgid) (handler : Handler) : handler.ofCall = false →
      Step s { s with maps := handler.run s.maps task }
  | change (trackedPids rootPid : Finset UInt32) (watchMode : Option UInt8)
      (watchedPrefixes : ℕ → Option WatchedPrefix) (watchedFds : Finset (UInt32 × UInt32)) (dropCount : ℕ) :
      Step s { s with maps := { s.maps with
        trackedPids := trackedPids, rootPid := rootPid, watchMode := watchMode
        watchedPrefixes := watchedPrefixes, watchedFds := watchedFds, dropCount := dropCount } }

/-- A thread in no call has nothing stashed, and a thread in a call nothing or the
arguments of this call. -/
def Coherent (s : Threads) : Prop :=
  ∀ task, s.maps.stash task = .empty ∨
    ∃ call source, s.pending task = some (call,source) ∧ s.maps.stash task = call.captured source

/-- The records of calls are those of the calls that returned, in this order. -/
def Accounted (m : Maps) (s : Threads) : Prop :=
  ∃ submitted, List.Forall₂ (fun r => r.call.Submits r.task r.source r.ret r.now) s.returned submitted ∧
    s.maps.callRecords = m.callRecords ++ submitted.flatten

end Threads

theorem Call.sameStash_finish {m : Maps} {task other : PidTgid} (h : task ≠ other) (call : Call) (ret : Int64)
    (now : UInt64) : SameStash task m (call.finish ret now m other) := by
  unfold Call.finish
  split
  · exact .handler h _
  · exact .refl m

namespace Threads
variable {m : Maps} {s s' : Threads}

theorem Coherent.empty (h : s.Coherent) {task : PidTgid} (hidle : s.pending task = none) :
    s.maps.stash task = .empty := by
  rcases h task with hempty | ⟨call,source,hpending,-⟩
  · exact hempty
  · rw [hidle] at hpending
    cases hpending

theorem Coherent.captured (h : s.Coherent) {task : PidTgid} {call : Call} {source : UInt8}
    (hpending : s.pending task = some (call,source)) :
    s.maps.stash task = .empty ∨ s.maps.stash task = call.captured source := by
  rcases h task with hempty | ⟨call',source',hpending',hstash⟩
  · exact Or.inl hempty
  · rw [hpending] at hpending'
    cases hpending'
    exact Or.inr hstash

/-- A step of one thread leaves the others coherent. -/
theorem Coherent.update (h : s.Coherent) {task : PidTgid} {maps : Maps} {pending : Option (Call × UInt8)}
    {returned : List Returned} (hsame : ∀ other, other ≠ task → SameStash other s.maps maps)
    (hown : maps.stash task = .empty ∨
      ∃ call source, pending = some (call,source) ∧ maps.stash task = call.captured source) :
    Coherent ⟨maps,Function.update s.pending task pending,returned⟩ := by
  intro other
  by_cases ho : other = task
  · subst ho
    simpa only [Function.update_self] using hown
  · simpa only [Function.update_of_ne ho,(hsame other ho).stash_eq] using h other

theorem Step.coherent (hs : s.Step s') (h : s.Coherent) : s'.Coherent := by
  cases hs with
  | enter task call now hidle =>
    refine h.update (fun other ho => .handler ho _) ?_
    rcases (Call.stash_enter (h.empty hidle) call now).2 with hempty | hcaptured
    · exact Or.inl hempty
    · exact Or.inr ⟨call,_,rfl,hcaptured⟩
  | finish task call source ret now hpending hret =>
    exact h.update (fun other ho => Call.sameStash_finish ho call ret now)
      (Or.inl (Call.callRecords_finish (h.captured hpending) hret now).1)
  | probe task handler hother =>
    intro other
    have hsame : SameStash other s.maps (handler.run s.maps task) := .of_not_ofCall hother
    simpa only [hsame.stash_eq] using h other
  | change => exact h

theorem Step.accounted (hs : s.Step s') (hc : s.Coherent) (h : Accounted m s) : Accounted m s' := by
  obtain ⟨submitted,hall,hrecords⟩ := h
  cases hs with
  | enter task call now hidle =>
    exact ⟨submitted,hall,(Call.stash_enter (hc.empty hidle) call now).1.trans hrecords⟩
  | finish task call source ret now hpending hret =>
    obtain ⟨-,own,hown,hsub⟩ := Call.callRecords_finish (hc.captured hpending) hret now
    refine ⟨submitted ++ [own],List.rel_append hall (.cons hsub .nil),?_⟩
    rw [hown,hrecords,List.flatten_append,List.flatten_singleton,List.append_assoc]
  | probe task handler hother => exact ⟨submitted,hall,(callRecords_run_of_not_ofCall hother).trans hrecords⟩
  | change => exact ⟨submitted,hall,hrecords⟩

/-- In every interleaving the records of calls are, call by call in the order of their
returns, records of the arguments and the source taken at the entry the thread made
before: at most one of each kind, and none unless the call returned a value that is not
negative. -/
theorem accounted_of_run {m : Maps} {s : Threads} (hempty : ∀ task, m.stash task = .empty)
    (hrun : Relation.ReflTransGen Step (start m) s) : Accounted m s := by
  have hboth : s.Coherent ∧ Accounted m s := by
    induction hrun with
    | refl => exact ⟨fun task => Or.inl (hempty task),[],.nil,(List.append_nil _).symm⟩
    | tail _ hs ih => exact ⟨hs.coherent ih.1,hs.accounted ih.1 ih.2⟩
  exact hboth.2

/-- The root enters an openat, another thread an unlink, and the root is no longer
tracked when its call returns. -/
theorem accounted_of_run_sample : ∃ s, Accounted (rootMaps 10) s ∧ s.returned.length = 1 ∧
    s.maps.callRecords.length = 1 := by
  have hentered := Step.enter (s := start (rootMaps 10)) ⟨10,10⟩
    (.openat atFdcwd (some ⟨[47,97],by decide⟩) 0 true true true) 1 rfl
  have hrun := Relation.ReflTransGen.head hentered
    (.head (.enter ⟨20,21⟩ (.unlink none ⟨true,true,true⟩ true) 2 rfl)
      (.head (.change ∅ ∅ (some 1) (fun _ => none) ∅ 0) (.single (.finish ⟨10,10⟩ _ 0 3 4 rfl rfl))))
  exact ⟨_,accounted_of_run (fun _ => rfl) hrun,rfl,rfl⟩

end Threads

end Repx.Probe
