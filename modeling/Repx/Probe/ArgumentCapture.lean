import Repx.Probe.StashFrame

/-! # What happens to the arguments of a call

A call of a tracked process is followed from its entry to its return, whatever the
probes of other threads do in between. Its pathnames reach the ring buffer or a drop is
recorded, unless the read of an openat or of an exec comes back empty: both handlers
submit the empty path and go on.
-/
namespace Repx.Probe
open Maps

theorem StringRead.len_eq_zero {read : StringRead} : read.len = 0 ↔ read.bytes = [] := by
  have hlt : read.bytes.length < maxPathLen := by
    cases read with
    | none => decide
    | some s => exact s.property
  have hnat : read.len.toNat = read.bytes.length := by
    have hsmall : read.bytes.length < 2 ^ 32 := lt_trans hlt (by decide)
    exact UInt32.toNat_ofNat_of_lt' hsmall
  rw [← UInt32.toNat_inj,hnat,UInt32.toNat_zero,List.length_eq_zero_iff]

/-- A call with its arguments and what the helper calls of its probes return. -/
inductive Call where
  | openat (dfd : Int32) (path : StringRead) (flags : UInt32) (inserted reserved fdInserted : Bool)
  | rename (oldPath newPath : StringRead) (inserted : PathInserts) (reserved newReserved : Bool)
  | renameat (oldDfd : Int32) (oldPath : StringRead) (newDfd : Int32) (newPath : StringRead)
      (inserted : PathInserts) (reserved newReserved : Bool)
  | renameat2 (oldDfd : Int32) (oldPath : StringRead) (newDfd : Int32) (newPath : StringRead)
      (flags : UInt32) (inserted : PathInserts) (reserved newReserved : Bool)
  | unlink (path : StringRead) (inserted : PathInserts) (reserved : Bool)
  | unlinkat (dfd : Int32) (path : StringRead) (flags : UInt32) (inserted : PathInserts) (reserved : Bool)
  | exec (inserted reserved : Bool) (filename : StringRead)
deriving DecidableEq

namespace Call

/-- The probe at the entry; for an exec, the only one. -/
def enter (now : UInt64) : Call → Handler
  | .openat dfd path flags inserted _ _ => .openatEnter dfd path flags inserted
  | .rename oldPath newPath inserted _ _ => .renameEnter oldPath newPath inserted
  | .renameat oldDfd oldPath newDfd newPath inserted _ _ =>
    .renameatEnter oldDfd oldPath newDfd newPath inserted
  | .renameat2 oldDfd oldPath newDfd newPath flags inserted _ _ =>
    .renameat2Enter oldDfd oldPath newDfd newPath flags inserted
  | .unlink path inserted _ => .unlinkEnter path inserted
  | .unlinkat dfd path flags inserted _ => .unlinkatEnter dfd path flags inserted
  | .exec inserted reserved filename => .exec inserted reserved now filename

/-- The probe at the return. -/
def leave (ret : Int32) (now : UInt64) : Call → Option Handler
  | .openat _ _ _ _ reserved fdInserted => some (.openatExit ret.toInt64 now reserved fdInserted)
  | .rename _ _ _ reserved newReserved | .renameat _ _ _ _ _ reserved newReserved
  | .renameat2 _ _ _ _ _ _ reserved newReserved => some (.pathOpExit ret.toInt64 now reserved newReserved)
  | .unlink _ _ reserved | .unlinkat _ _ _ _ reserved => some (.pathOpExit ret.toInt64 now reserved false)
  | .exec _ _ _ => none

/-- The pathnames among the arguments. -/
def paths : Call → List StringRead
  | .openat _ path _ _ _ _ | .unlink path _ _ | .unlinkat _ path _ _ _ | .exec _ _ path => [path]
  | .rename oldPath newPath _ _ _ | .renameat _ oldPath _ newPath _ _ _
  | .renameat2 _ oldPath _ newPath _ _ _ _ => [oldPath,newPath]

end Call

/-- The pathname a record carries, with its length. -/
def EventPayload.pathname : EventPayload → Option (PathBuffer × UInt32)
  | .fileOpen payload => some (payload.path,payload.pathLen)
  | .processExec payload => some (payload.filename,payload.filenameLen)
  | .fileRenameSource payload | .fileRenameDestination payload | .fileUnlink payload =>
    some (payload.path,payload.pathLen)
  | _ => none

namespace Call
variable (call : Call) (task : PidTgid) (m : Maps)

/-- The records carry the pathnames of the call, one each, and none is empty. -/
def Carried (records : List Event) : Prop :=
  records.map (fun record => record.payload.pathname) = call.paths.map (fun path => some (path.buffer,path.len)) ∧
    ∀ path ∈ call.paths, path.bytes ≠ []

/-- One of the probes of the call records a drop, or together they submit the
pathnames. -/
def Captured (others : List (PidTgid × Handler)) (entryTime returnTime : UInt64) (ret : Int32) : Prop :=
  let entered := (call.enter entryTime).run m task
  let resumed := interfere others entered
  let left := match call.leave ret returnTime with
    | some handler => handler.run resumed task
    | none => resumed
  m.dropCount < entered.dropCount ∨ resumed.dropCount < left.dropCount ∨
    ∃ first second, entered.events = m.events ++ first ∧ left.events = resumed.events ++ second ∧
      call.Carried (first ++ second)

/-- An openat or an exec whose read comes back empty while all else succeeds. -/
def Silent : Call → Prop
  | .openat _ path _ inserted reserved _ => path.bytes = [] ∧ inserted = true ∧ reserved = true
  | .exec inserted reserved filename =>
    filename.bytes = [] ∧ reserved = true ∧ (task.tgid ∈ m.rootPid → inserted = true)
  | _ => False

end Call

section Stashes
variable {m : Maps} {task : PidTgid}

/-- A path that cannot be read or stored is recorded as a drop. -/
theorem stashPath_lost {store : PathStash → Maps} {path : StringRead} {inserted : Bool}
    (h : path.len = 0 ∨ inserted = false) : m.stashPath store path inserted = (m.recordDrop,0) := by
  unfold stashPath
  rcases h with h | h <;> simp [h]

theorem stashPath_kept {store : PathStash → Maps} {path : StringRead} {inserted : Bool}
    (h : ¬ (path.len = 0 ∨ inserted = false)) :
    m.stashPath store path inserted = (store ⟨path.buffer,path.len⟩,path.len) := by
  obtain ⟨hlen,hinserted⟩ := not_or.mp h
  simp [stashPath,hlen,hinserted]

theorem dropCount_stashNewPath_le (path : StringRead) (inserted : Bool) :
    m.dropCount ≤ (m.stashNewPath task path inserted).1.dropCount := by
  unfold stashNewPath
  by_cases h : path.len = 0 ∨ inserted = false
  · rw [stashPath_lost h]
    exact Nat.le_succ _
  · rw [stashPath_kept h]

/-- What the entry of a rename leaves for its return. -/
theorem stashRename_tracked (ht : m.isTracked task.tgid = true) (oldDfd : Int32) (oldPath : StringRead)
    (newDfd : Int32) (newPath : StringRead) (flags : UInt32) (inserted : PathInserts) :
    m.dropCount < (stashRename m task oldDfd oldPath newDfd newPath flags inserted).dropCount ∨
      oldPath.bytes ≠ [] ∧ newPath.bytes ≠ [] ∧
        stashRename m task oldDfd oldPath newDfd newPath flags inserted =
          { m with
            pathOpStash := Function.update m.pathOpStash task
              (some ⟨oldDfd,newDfd,flags,pathOpRename,0⟩)
            pathOpOldPath := Function.update m.pathOpOldPath task (some ⟨oldPath.buffer,oldPath.len⟩)
            pathOpNewPath := Function.update m.pathOpNewPath task (some ⟨newPath.buffer,newPath.len⟩) } := by
  by_cases ho : oldPath.len = 0 ∨ inserted.oldPath = false
  · left
    have hold : m.stashOldPath task oldPath inserted.oldPath = (m.recordDrop,0) := stashPath_lost ho
    have hle : m.dropCount < (m.recordDrop.stashNewPath task newPath inserted.newPath).1.dropCount :=
      dropCount_stashNewPath_le (m := m.recordDrop) newPath inserted.newPath
    simpa [stashRename,ht,hold,removePathStash] using hle
  · have hold : m.stashOldPath task oldPath inserted.oldPath =
        ({ m with pathOpOldPath := Function.update m.pathOpOldPath task (some ⟨oldPath.buffer,oldPath.len⟩) },
          oldPath.len) := stashPath_kept ho
    obtain ⟨holen,-⟩ := not_or.mp ho
    by_cases hn : newPath.len = 0 ∨ inserted.newPath = false
    · left
      simp [stashRename,ht,hold,stashNewPath,stashPath_lost hn,removePathStash,recordDrop]
    · obtain ⟨hnlen,-⟩ := not_or.mp hn
      cases hi : inserted.stash with
      | false =>
        left
        simp [stashRename,ht,hold,stashNewPath,stashPath_kept hn,holen,hnlen,insertPathOp,hi,
          removePathStash,recordDrop]
      | true =>
        refine Or.inr ⟨mt StringRead.len_eq_zero.mpr holen,mt StringRead.len_eq_zero.mpr hnlen,?_⟩
        simp [stashRename,ht,hold,stashNewPath,stashPath_kept hn,holen,hnlen,insertPathOp,hi]

theorem stashUnlink_tracked (ht : m.isTracked task.tgid = true) (dfd : Int32) (path : StringRead)
    (flags : UInt32) (inserted : PathInserts) :
    m.dropCount < (stashUnlink m task dfd path flags inserted).dropCount ∨
      path.bytes ≠ [] ∧
        stashUnlink m task dfd path flags inserted =
          { m with
            pathOpStash := Function.update m.pathOpStash task (some ⟨dfd,0,flags,pathOpUnlink,0⟩)
            pathOpOldPath := Function.update m.pathOpOldPath task (some ⟨path.buffer,path.len⟩) } := by
  by_cases ho : path.len = 0 ∨ inserted.oldPath = false
  · left
    simp [stashUnlink,ht,stashOldPath,stashPath_lost ho,removePathStash,recordDrop]
  · obtain ⟨hlen,-⟩ := not_or.mp ho
    cases hi : inserted.stash with
    | false =>
      left
      simp [stashUnlink,ht,stashOldPath,stashPath_kept ho,hlen,insertPathOp,hi,removePathStash,recordDrop]
    | true =>
      refine Or.inr ⟨mt StringRead.len_eq_zero.mpr hlen,?_⟩
      simp [stashUnlink,ht,stashOldPath,stashPath_kept ho,hlen,insertPathOp,hi]

theorem not_toInt64_neg {ret : Int32} (h : 0 ≤ ret) : ¬ ret.toInt64 < 0 := by
  rw [Int64.lt_iff_toInt_lt,Int32.toInt_toInt64,Int64.toInt_zero]
  have hnonneg := Int32.le_iff_toInt_le.mp h
  rw [Int32.toInt_zero] at hnonneg
  omega

/-- The return of a rename submits both halves, or records a drop. -/
theorem pathOpExit_rename {oldDfd newDfd : Int32} {flags : UInt32} {oldPath newPath : PathStash}
    (hstash : m.pathOpStash task = some ⟨oldDfd,newDfd,flags,pathOpRename,0⟩)
    (hold : m.pathOpOldPath task = some oldPath) (hnew : m.pathOpNewPath task = some newPath)
    {ret : Int32} (hret : 0 ≤ ret) (now : UInt64) (reserved newReserved : Bool) :
    m.dropCount < (tryPathOpExit m task ret.toInt64 now reserved newReserved).dropCount ∨
      (tryPathOpExit m task ret.toInt64 now reserved newReserved).events = m.events ++
        [⟨0,now,.fileRenameSource ⟨task.pid,task.tgid,oldDfd,flags,now,oldPath.path,oldPath.pathLen⟩⟩,
          ⟨0,now,.fileRenameDestination ⟨task.pid,task.tgid,newDfd,flags,now,newPath.path,newPath.pathLen⟩⟩] := by
  have hpos := not_toInt64_neg hret
  cases reserved with
  | true =>
    cases newReserved <;>
      simp [tryPathOpExit,hstash,hpos,hold,hnew,emitPathEvent,submit,recordDrop,removePathStash]
  | false =>
    left
    have hlt : m.dropCount < m.dropCount + 1 + 1 := by omega
    cases newReserved <;>
      simp [tryPathOpExit,hstash,hpos,hold,hnew,emitPathEvent,submit,recordDrop,removePathStash,hlt]

theorem pathOpExit_unlink {dfd newDfd : Int32} {flags : UInt32} {path : PathStash}
    (hstash : m.pathOpStash task = some ⟨dfd,newDfd,flags,pathOpUnlink,0⟩)
    (hold : m.pathOpOldPath task = some path) {ret : Int32} (hret : 0 ≤ ret) (now : UInt64)
    (reserved newReserved : Bool) :
    m.dropCount < (tryPathOpExit m task ret.toInt64 now reserved newReserved).dropCount ∨
      (tryPathOpExit m task ret.toInt64 now reserved newReserved).events = m.events ++
        [⟨0,now,.fileUnlink ⟨task.pid,task.tgid,dfd,flags,now,path.path,path.pathLen⟩⟩] := by
  have hpos := not_toInt64_neg hret
  have hop : pathOpUnlink ≠ pathOpRename := by decide
  cases reserved <;>
    simp [tryPathOpExit,hstash,hpos,hop,hold,emitPathEvent,submit,recordDrop,removePathStash]

theorem openatEnter_tracked (ht : m.isTracked task.tgid = true) (dfd : Int32) (path : StringRead)
    (flags : UInt32) (inserted : Bool) :
    tryOpenatEnter m task dfd path flags inserted =
      if inserted then
        { m with openatStash := Function.update m.openatStash task (some ⟨dfd,flags,path.buffer,path.len,0⟩) }
      else m.recordDrop := by
  simp [tryOpenatEnter,ht]

theorem openatExit_stashed {dfd : Int32} {flags : UInt32} {path : PathBuffer} {pathLen : UInt32}
    (hstash : m.openatStash task = some ⟨dfd,flags,path,pathLen,0⟩) {ret : Int32} (hret : 0 ≤ ret)
    (now : UInt64) (reserved inserted : Bool) :
    tryOpenatExit m task ret.toInt64 now reserved inserted =
      { m with openatStash := Function.update m.openatStash task none }.submit reserved
        ⟨0,now,.fileOpen ⟨task.pid,task.tgid,ret,dfd,flags,path,pathLen⟩⟩ := by
  have hpos : ¬ ret < 0 := Int32.not_lt.mpr hret
  simp [tryOpenatExit,hstash,hpos]

theorem exec_tracked (ht : m.isTracked task.tgid = true) (inserted reserved : Bool) (now : UInt64)
    (filename : StringRead) :
    tryExec m task inserted reserved now filename =
      (if task.tgid ∈ m.rootPid then m.trackPid inserted task.tgid else m).submit reserved
        ⟨0,now,.processExec ⟨task.pid,task.tgid,filename.buffer,filename.len⟩⟩ := by
  have hstill : (if task.tgid ∈ m.rootPid then m.trackPid inserted task.tgid else m).isTracked task.tgid = true := by
    split
    · cases inserted with
      | false => exact ht
      | true => simp [isTracked]
    · exact ht
  simp only [tryExec,hstill,if_true]

end Stashes

namespace Call
variable {task : PidTgid} {m : Maps} {others : List (PidTgid × Handler)} {entryTime returnTime : UInt64}
  {ret : Int32}

theorem captured_rename (ht : m.isTracked task.tgid = true) (ho : ∀ p ∈ others, p.1 ≠ task) (hret : 0 ≤ ret)
    {call : Call} {oldDfd newDfd : Int32} {oldPath newPath : StringRead} {flags : UInt32}
    {inserted : PathInserts} {reserved newReserved : Bool} (hpaths : call.paths = [oldPath,newPath])
    (henter : (call.enter entryTime).run m task =
      stashRename m task oldDfd oldPath newDfd newPath flags inserted)
    (hleave : call.leave ret returnTime = some (.pathOpExit ret.toInt64 returnTime reserved newReserved)) :
    call.Captured task m others entryTime returnTime ret := by
  simp only [Captured,hleave,henter]
  rcases stashRename_tracked ht oldDfd oldPath newDfd newPath flags inserted with hdrop | ⟨hold,hnew,heq⟩
  · exact Or.inl hdrop
  · have hsame := sameStash_interfere others ho (stashRename m task oldDfd oldPath newDfd newPath flags inserted)
    have hevents : (stashRename m task oldDfd oldPath newDfd newPath flags inserted).events = m.events := by
      rw [heq]
    generalize hresumed : interfere others _ = resumed at hsame ⊢
    obtain ⟨-,hstash,holdPath,hnewPath⟩ := hsame
    simp only [heq,Function.update_self] at hstash holdPath hnewPath
    rcases pathOpExit_rename hstash holdPath hnewPath hret returnTime reserved newReserved with hdrop | hsub
    · exact Or.inr (Or.inl hdrop)
    · refine Or.inr (Or.inr ⟨[],_,by simpa using hevents,hsub,?_,?_⟩)
      · simp [hpaths,EventPayload.pathname]
      · simp [hpaths,hold,hnew]

theorem captured_unlink (ht : m.isTracked task.tgid = true) (ho : ∀ p ∈ others, p.1 ≠ task) (hret : 0 ≤ ret)
    {call : Call} {dfd : Int32} {path : StringRead} {flags : UInt32} {inserted : PathInserts}
    {reserved newReserved : Bool} (hpaths : call.paths = [path])
    (henter : (call.enter entryTime).run m task = stashUnlink m task dfd path flags inserted)
    (hleave : call.leave ret returnTime = some (.pathOpExit ret.toInt64 returnTime reserved newReserved)) :
    call.Captured task m others entryTime returnTime ret := by
  simp only [Captured,hleave,henter]
  rcases stashUnlink_tracked ht dfd path flags inserted with hdrop | ⟨hread,heq⟩
  · exact Or.inl hdrop
  · have hsame := sameStash_interfere others ho (stashUnlink m task dfd path flags inserted)
    have hevents : (stashUnlink m task dfd path flags inserted).events = m.events := by rw [heq]
    generalize hresumed : interfere others _ = resumed at hsame ⊢
    obtain ⟨-,hstash,hpath,-⟩ := hsame
    simp only [heq,Function.update_self] at hstash hpath
    rcases pathOpExit_unlink hstash hpath hret returnTime reserved newReserved with hdrop | hsub
    · exact Or.inr (Or.inl hdrop)
    · refine Or.inr (Or.inr ⟨[],_,by simpa using hevents,hsub,?_,?_⟩)
      · simp [hpaths,EventPayload.pathname]
      · simp [hpaths,hread]

theorem captured_openat_iff (ht : m.isTracked task.tgid = true) (ho : ∀ p ∈ others, p.1 ≠ task)
    (hret : 0 ≤ ret) (dfd : Int32) (path : StringRead) (flags : UInt32) (inserted reserved fdInserted : Bool) :
    (Call.openat dfd path flags inserted reserved fdInserted).Captured task m others entryTime returnTime ret ↔
      ¬ (path.bytes = [] ∧ inserted = true ∧ reserved = true) := by
  simp only [Captured,enter,leave,Handler.run,openatEnter_tracked ht]
  cases inserted with
  | false => simp [recordDrop]
  | true =>
    simp only [if_true]
    have hsame := sameStash_interfere others ho
      { m with openatStash := Function.update m.openatStash task (some ⟨dfd,flags,path.buffer,path.len,0⟩) }
    generalize interfere others _ = resumed at hsame ⊢
    have hstash := hsame.openat
    simp only [Function.update_self] at hstash
    rw [openatExit_stashed hstash hret]
    cases reserved with
    | false => simp [submit,recordDrop]
    | true => simp [submit,Carried,paths,EventPayload.pathname]

theorem captured_exec_iff (ht : m.isTracked task.tgid = true) (inserted reserved : Bool)
    (filename : StringRead) :
    (Call.exec inserted reserved filename).Captured task m others entryTime returnTime ret ↔
      ¬ (filename.bytes = [] ∧ reserved = true ∧ (task.tgid ∈ m.rootPid → inserted = true)) := by
  simp only [Captured,enter,leave,Handler.run,exec_tracked ht]
  by_cases hlost : task.tgid ∈ m.rootPid ∧ inserted = false
  · obtain ⟨hroot,rfl⟩ := hlost
    have hdrop : m.dropCount < ((m.trackPid false task.tgid).submit reserved
        ⟨0,entryTime,.processExec ⟨task.pid,task.tgid,filename.buffer,filename.len⟩⟩).dropCount := by
      have hlt : m.dropCount < m.dropCount + 1 + 1 := by omega
      cases reserved <;> simp [submit,trackPid,recordDrop,hlt]
    simp [hroot,hdrop]
  · have hkept : task.tgid ∈ m.rootPid → inserted = true := by simpa using hlost
    have hevents : (if task.tgid ∈ m.rootPid then m.trackPid inserted task.tgid else m).events = m.events := by
      split
      · cases inserted <;> rfl
      · rfl
    have hcount : (if task.tgid ∈ m.rootPid then m.trackPid inserted task.tgid else m).dropCount =
        m.dropCount := by
      split
      · rename_i hroot
        rw [hkept hroot]
        rfl
      · rfl
    generalize (if task.tgid ∈ m.rootPid then m.trackPid inserted task.tgid else m) = m' at hevents hcount ⊢
    cases reserved with
    | false => simp [submit,recordDrop,hcount]
    | true => simp [submit,hevents,hcount,hlost,Carried,paths,EventPayload.pathname]

end Call

section Capture

/-- Every successful call of a tracked process has its pathnames submitted or a drop
recorded, exactly unless it is an openat or an exec that reads an empty path while all
its other helper calls succeed. -/
theorem captured_iff_not_silent (call : Call) (task : PidTgid) (m : Maps) (others : List (PidTgid × Handler))
    (entryTime returnTime : UInt64) (ret : Int32) (htracked : task.tgid ∈ m.trackedPids)
    (hothers : ∀ p ∈ others, p.1 ≠ task) (hsuccess : 0 ≤ ret) :
    call.Captured task m others entryTime returnTime ret ↔ ¬ call.Silent task m := by
  have ht : m.isTracked task.tgid = true := isTracked_iff.mpr htracked
  cases call with
  | openat dfd path flags inserted reserved fdInserted =>
    exact Call.captured_openat_iff ht hothers hsuccess dfd path flags inserted reserved fdInserted
  | rename | renameat | renameat2 =>
    exact iff_of_true (Call.captured_rename ht hothers hsuccess rfl rfl rfl) id
  | unlink | unlinkat => exact iff_of_true (Call.captured_unlink ht hothers hsuccess rfl rfl rfl) id
  | exec inserted reserved filename => exact Call.captured_exec_iff ht inserted reserved filename

/-- The root opens a file while another process stashes a path of its own. -/
theorem captured_iff_not_silent_sample :
    (Call.openat atFdcwd (some ⟨[47,97],by decide⟩) 0 true true true).Captured ⟨10,10⟩ (rootMaps 10)
      [(⟨20,21⟩,.openatEnter atFdcwd none 1 true)] 1 2 3 := by
  refine (captured_iff_not_silent _ ⟨10,10⟩ (rootMaps 10) _ 1 2 3 (Finset.mem_singleton_self 10) ?_
    (by decide)).mpr ?_
  · simp
  · rintro ⟨hread,-⟩
    exact absurd hread (by decide)

/-- The page of the pathname cannot be read at the entry of an openat. The record goes
out with an empty path and no drop is recorded. -/
theorem openat_loses_path :
    ¬ ∀ (call : Call) (task : PidTgid) (m : Maps) (others : List (PidTgid × Handler))
      (entryTime returnTime : UInt64) (ret : Int32), task.tgid ∈ m.trackedPids →
      (∀ p ∈ others, p.1 ≠ task) → 0 ≤ ret → call.Captured task m others entryTime returnTime ret := by
  intro h
  have hcaptured := h (.openat atFdcwd none 0 true true true) ⟨10,10⟩ (rootMaps 10) [] 1 2 3
    (Finset.mem_singleton_self 10) (by simp) (by decide)
  have ht : (rootMaps 10).isTracked 10 = true := isTracked_iff.mpr (Finset.mem_singleton_self 10)
  have hread := (Call.captured_openat_iff ht (by simp) (by decide) atFdcwd none 0 true true true).mp hcaptured
  exact hread ⟨rfl,rfl,rfl⟩

end Capture

end Repx.Probe
