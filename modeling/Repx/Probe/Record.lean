import Mathlib.Data.List.Basic

/-! # Records of the ring buffer

The fixed-size records that the kernel probes submit and the collector reads. A
payload is a union interpreted by the kind of its record, so a record is its header
together with the member of the union its kind selects.
-/
namespace Repx.Probe

def maxPathLen : ℕ := 256

def maxWatchPrefixes : ℕ := 8

def maxPrefixLen : ℕ := 128

/-- A path buffer; bytes past the recorded length are zero. -/
abbrev PathBuffer := Vector UInt8 maxPathLen

structure FileOpenEvent where
  pid : UInt32
  tgid : UInt32
  fd : Int32
  dfd : Int32
  flags : UInt32
  path : PathBuffer
  pathLen : UInt32
deriving DecidableEq

structure FileCloseEvent where
  pid : UInt32
  tgid : UInt32
  fd : Int32
deriving DecidableEq

structure ProcessExecEvent where
  pid : UInt32
  tgid : UInt32
  filename : PathBuffer
  filenameLen : UInt32
deriving DecidableEq

structure ProcessExitEvent where
  pid : UInt32
  tgid : UInt32
  exitCode : Int32
deriving DecidableEq

structure ProcessForkEvent where
  parentPid : UInt32
  childPid : UInt32
deriving DecidableEq

structure FileMmapEvent where
  pid : UInt32
  tgid : UInt32
  fd : Int32
  prot : UInt32
  flags : UInt32
deriving DecidableEq

/-- One pathname of a rename or an unlink; the two halves of a rename share the
operation id. -/
structure FilePathEvent where
  pid : UInt32
  tgid : UInt32
  dfd : Int32
  flags : UInt32
  operationId : UInt64
  path : PathBuffer
  pathLen : UInt32
deriving DecidableEq

/-- The kind of a record with the payload it selects; a kind the collector does not
know has none. -/
inductive EventPayload where
  | fileOpen (payload : FileOpenEvent)
  | fileClose (payload : FileCloseEvent)
  | processExec (payload : ProcessExecEvent)
  | processExit (payload : ProcessExitEvent)
  | fileMmap (payload : FileMmapEvent)
  | fileRenameSource (payload : FilePathEvent)
  | fileRenameDestination (payload : FilePathEvent)
  | fileUnlink (payload : FilePathEvent)
  | processFork (payload : ProcessForkEvent)
  | unknown (kind : UInt32)
deriving DecidableEq

/-- The source is 0 for the fork tree and 1 for a watched path. -/
structure Event where
  source : UInt8
  timestampNs : UInt64
  payload : EventPayload
deriving DecidableEq

end Repx.Probe
