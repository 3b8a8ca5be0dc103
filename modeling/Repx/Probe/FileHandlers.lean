import Mathlib.Logic.Function.Basic
import Repx.Probe.ProcessHandlers

/-! # Probes on files

The handlers of openat, rename, unlink, close and mmap. Arguments are stashed when a
call is entered, under the thread that makes it, and submitted when it returns. A
process that is not tracked is followed only where it touches a watched path.
-/
namespace Repx.Probe
namespace Maps
variable (m : Maps) (task : PidTgid)

/-- Stash one pathname with `store`; an argument that is lost is recorded as a drop.
The length is zero when nothing was stashed. -/
def stashPath (store : PathStash → Maps) (path : StringRead) (inserted : Bool) : Maps × UInt32 :=
  if path.len = 0 then (m.recordDrop,0)
  else if inserted then (store ⟨path.buffer,path.len⟩,path.len)
  else (m.recordDrop,0)

def stashOldPath (path : StringRead) (inserted : Bool) : Maps × UInt32 :=
  m.stashPath (fun stash => { m with pathOpOldPath := Function.update m.pathOpOldPath task (some stash) })
    path inserted

def stashNewPath (path : StringRead) (inserted : Bool) : Maps × UInt32 :=
  m.stashPath (fun stash => { m with pathOpNewPath := Function.update m.pathOpNewPath task (some stash) })
    path inserted

def removePathStash : Maps :=
  { m with
    pathOpStash := Function.update m.pathOpStash task none
    pathOpOldPath := Function.update m.pathOpOldPath task none
    pathOpNewPath := Function.update m.pathOpNewPath task none }

/-- The last insertion of a rename or an unlink; its failure clears the stash. -/
def insertPathOp (stash : PathOpStash) (inserted : Bool) : Maps :=
  if inserted then { m with pathOpStash := Function.update m.pathOpStash task (some stash) }
  else m.recordDrop.removePathStash task

def emitPathEvent (reserved : Bool) (kind : FilePathEvent → EventPayload) (source : UInt8)
    (timestampNs : UInt64) (dfd : Int32) (flags : UInt32) (path : PathStash) : Maps :=
  m.submit reserved
    ⟨source,timestampNs,kind ⟨task.pid,task.tgid,dfd,flags,timestampNs,path.path,path.pathLen⟩⟩

end Maps

open Maps

/-- Whether the insertions into the two path maps and into the operation map succeed. -/
structure PathInserts where
  oldPath : Bool
  newPath : Bool
  stash : Bool
deriving DecidableEq

section Handlers
variable (m : Maps) (task : PidTgid)

def stashRename (oldDfd : Int32) (oldPath : StringRead) (newDfd : Int32) (newPath : StringRead)
    (flags : UInt32) (inserted : PathInserts) : Maps :=
  let tracked := m.isTracked task.tgid
  if !tracked && !m.watchEnabled then m
  else
    let stash : PathOpStash := ⟨oldDfd,newDfd,flags,pathOpRename,if tracked then 0 else 1⟩
    let (m,oldPathLen) := m.stashOldPath task oldPath inserted.oldPath
    let (m,newPathLen) := m.stashNewPath task newPath inserted.newPath
    if oldPathLen = 0 ∨ newPathLen = 0 then m.removePathStash task
    else match m.pathOpOldPath task with
      | none => m.recordDrop.removePathStash task
      | some old => match m.pathOpNewPath task with
        | none => m.recordDrop.removePathStash task
        | some new =>
          if !tracked && (pathIsAbsolute old.path old.pathLen && pathIsAbsolute new.path new.pathLen) &&
              !m.matchesWatchedPrefix old.path old.pathLen && !m.matchesWatchedPrefix new.path new.pathLen then
            m.removePathStash task
          else m.insertPathOp task stash inserted.stash

def stashUnlink (dfd : Int32) (path : StringRead) (flags : UInt32) (inserted : PathInserts) : Maps :=
  let tracked := m.isTracked task.tgid
  if !tracked && !m.watchEnabled then m
  else
    let stash : PathOpStash := ⟨dfd,0,flags,pathOpUnlink,if tracked then 0 else 1⟩
    let (m,pathLen) := m.stashOldPath task path inserted.oldPath
    if pathLen = 0 then m.removePathStash task
    else match m.pathOpOldPath task with
      | none => m.recordDrop.removePathStash task
      | some old =>
        if !tracked && pathIsAbsolute old.path old.pathLen && !m.matchesWatchedPrefix old.path old.pathLen then
          m.removePathStash task
        else m.insertPathOp task stash inserted.stash

/-- An open of an untracked process is kept for a write to a relative path, and
otherwise only under a watched prefix. -/
def tryOpenatEnter (dfd : Int32) (path : StringRead) (flags : UInt32) (inserted : Bool) : Maps :=
  let tracked := m.isTracked task.tgid
  let stash : OpenatStash := ⟨dfd,flags,path.buffer,path.len,if tracked then 0 else 1⟩
  let isWrite := flags &&& 3 != 0
  let isAbsolute := stash.path.toList.head? == some 47
  if !tracked && !m.watchEnabled then m
  else if !tracked && (!isWrite || isAbsolute) && !m.matchesWatchedPrefix stash.path stash.pathLen then m
  else if inserted then { m with openatStash := Function.update m.openatStash task (some stash) }
  else m.recordDrop

/-- A watched file descriptor is registered after the record. -/
def tryOpenatExit (ret : Int64) (now : UInt64) (reserved inserted : Bool) : Maps :=
  match m.openatStash task with
  | none => m
  | some stash =>
    let m := { m with openatStash := Function.update m.openatStash task none }
    let fd := ret.toInt32
    if fd < 0 then m
    else
      let m := m.submit reserved ⟨stash.fromWatch,now,
        .fileOpen ⟨task.pid,task.tgid,fd,stash.dfd,stash.flags,stash.path,stash.pathLen⟩⟩
      if stash.fromWatch = 1 then
        if inserted then { m with watchedFds := insert (task.tgid,fd.toUInt32) m.watchedFds } else m.recordDrop
      else m

/-- The directory a pathname is relative to by default. -/
def atFdcwd : Int32 := -100

def tryRenameEnter (oldPath newPath : StringRead) (inserted : PathInserts) : Maps :=
  stashRename m task atFdcwd oldPath atFdcwd newPath 0 inserted

def tryRenameatEnter (oldDfd : Int32) (oldPath : StringRead) (newDfd : Int32) (newPath : StringRead)
    (inserted : PathInserts) : Maps :=
  stashRename m task oldDfd oldPath newDfd newPath 0 inserted

def tryRenameat2Enter (oldDfd : Int32) (oldPath : StringRead) (newDfd : Int32) (newPath : StringRead)
    (flags : UInt32) (inserted : PathInserts) : Maps :=
  stashRename m task oldDfd oldPath newDfd newPath flags inserted

def tryUnlinkEnter (path : StringRead) (inserted : PathInserts) : Maps :=
  stashUnlink m task atFdcwd path 0 inserted

def tryUnlinkatEnter (dfd : Int32) (path : StringRead) (flags : UInt32) (inserted : PathInserts) : Maps :=
  stashUnlink m task dfd path flags inserted

/-- Shared by the returns of all renames and unlinks. A rename submits one record for
each of its pathnames, with two reservations of their own. -/
def tryPathOpExit (ret : Int64) (now : UInt64) (reserved newReserved : Bool) : Maps :=
  match m.pathOpStash task with
  | none => m
  | some stash =>
    if ret < 0 then m.removePathStash task
    else if stash.operation = pathOpRename then
      match m.pathOpOldPath task with
      | none => m.recordDrop.removePathStash task
      | some old =>
        let m := m.emitPathEvent task reserved .fileRenameSource stash.fromWatch now stash.oldDfd stash.flags old
        match m.pathOpNewPath task with
        | none => m.recordDrop.removePathStash task
        | some new =>
          (m.emitPathEvent task newReserved .fileRenameDestination stash.fromWatch now stash.newDfd stash.flags
            new).removePathStash task
    else if stash.operation = pathOpUnlink then
      match m.pathOpOldPath task with
      | none => m.recordDrop.removePathStash task
      | some path =>
        (m.emitPathEvent task reserved .fileUnlink stash.fromWatch now stash.oldDfd stash.flags
          path).removePathStash task
    else m.removePathStash task

/-- Closing a watched descriptor of an untracked process forgets it. -/
def tryCloseEnter (fd : Int32) (now : UInt64) (reserved : Bool) : Maps :=
  let key := (task.tgid,fd.toUInt32)
  if m.isTracked task.tgid then m.submit reserved ⟨0,now,.fileClose ⟨task.pid,task.tgid,fd⟩⟩
  else if key ∈ m.watchedFds then
    { m with watchedFds := m.watchedFds.erase key }.submit reserved ⟨1,now,.fileClose ⟨task.pid,task.tgid,fd⟩⟩
  else m

/-- Mappings without a file are not reported. -/
def tryMmapEnter (prot flags : UInt64) (fd : Int64) (now : UInt64) (reserved : Bool) : Maps :=
  let record : FileMmapEvent := ⟨task.pid,task.tgid,fd.toInt32,prot.toUInt32,flags.toUInt32⟩
  if fd < 0 then m
  else if m.isTracked task.tgid then m.submit reserved ⟨0,now,.fileMmap record⟩
  else if (task.tgid,fd.toInt32.toUInt32) ∈ m.watchedFds then m.submit reserved ⟨1,now,.fileMmap record⟩
  else m

end Handlers

/-- One run of a probe, with what its helper calls return. -/
inductive Handler where
  | openatEnter (dfd : Int32) (path : StringRead) (flags : UInt32) (inserted : Bool)
  | openatExit (ret : Int64) (now : UInt64) (reserved inserted : Bool)
  | renameEnter (oldPath newPath : StringRead) (inserted : PathInserts)
  | renameatEnter (oldDfd : Int32) (oldPath : StringRead) (newDfd : Int32) (newPath : StringRead)
      (inserted : PathInserts)
  | renameat2Enter (oldDfd : Int32) (oldPath : StringRead) (newDfd : Int32) (newPath : StringRead)
      (flags : UInt32) (inserted : PathInserts)
  | unlinkEnter (path : StringRead) (inserted : PathInserts)
  | unlinkatEnter (dfd : Int32) (path : StringRead) (flags : UInt32) (inserted : PathInserts)
  | pathOpExit (ret : Int64) (now : UInt64) (reserved newReserved : Bool)
  | closeEnter (fd : Int32) (now : UInt64) (reserved : Bool)
  | mmapEnter (prot flags : UInt64) (fd : Int64) (now : UInt64) (reserved : Bool)
  | exec (inserted reserved : Bool) (now : UInt64) (filename : StringRead)
  | fork (inserted reserved : Bool) (now : UInt64) (childPid : UInt32)
  | cloneExit (inserted : Bool) (ret : Int64)
  | exit (reserved : Bool) (now : UInt64)
deriving DecidableEq

/-- The entries and the returns of openat, renames and unlinks. -/
def Handler.ofCall : Handler → Bool
  | .openatEnter .. | .openatExit .. | .renameEnter .. | .renameatEnter .. | .renameat2Enter ..
  | .unlinkEnter .. | .unlinkatEnter .. | .pathOpExit .. => true
  | _ => false

def Handler.run (m : Maps) (task : PidTgid) : Handler → Maps
  | .openatEnter dfd path flags inserted => tryOpenatEnter m task dfd path flags inserted
  | .openatExit ret now reserved inserted => tryOpenatExit m task ret now reserved inserted
  | .renameEnter oldPath newPath inserted => tryRenameEnter m task oldPath newPath inserted
  | .renameatEnter oldDfd oldPath newDfd newPath inserted =>
    tryRenameatEnter m task oldDfd oldPath newDfd newPath inserted
  | .renameat2Enter oldDfd oldPath newDfd newPath flags inserted =>
    tryRenameat2Enter m task oldDfd oldPath newDfd newPath flags inserted
  | .unlinkEnter path inserted => tryUnlinkEnter m task path inserted
  | .unlinkatEnter dfd path flags inserted => tryUnlinkatEnter m task dfd path flags inserted
  | .pathOpExit ret now reserved newReserved => tryPathOpExit m task ret now reserved newReserved
  | .closeEnter fd now reserved => tryCloseEnter m task fd now reserved
  | .mmapEnter prot flags fd now reserved => tryMmapEnter m task prot flags fd now reserved
  | .exec inserted reserved now filename => tryExec m task inserted reserved now filename
  | .fork inserted reserved now childPid => tryFork m task inserted reserved now childPid
  | .cloneExit inserted ret => tryCloneExit m task inserted ret
  | .exit reserved now => tryExit m task reserved now

end Repx.Probe
