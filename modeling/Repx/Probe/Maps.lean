import Mathlib.Data.Finset.Basic
import Repx.Probe.Record

/-! # Shared maps of the kernel probes

The maps every probe reads and writes. Helper calls that can fail take their
outcome as an argument: whether a map insertion or a ring reservation succeeds, and
what a string read returns.
-/
namespace Repx.Probe

/-- The task a probe runs in, as `bpf_get_current_pid_tgid` reports it. -/
structure PidTgid where
  tgid : UInt32
  pid : UInt32
deriving DecidableEq

structure OpenatStash where
  dfd : Int32
  flags : UInt32
  path : PathBuffer
  pathLen : UInt32
  fromWatch : UInt8
deriving DecidableEq

def pathOpRename : UInt8 := 1

def pathOpUnlink : UInt8 := 2

structure PathOpStash where
  oldDfd : Int32
  newDfd : Int32
  flags : UInt32
  operation : UInt8
  fromWatch : UInt8
deriving DecidableEq

structure PathStash where
  path : PathBuffer
  pathLen : UInt32
deriving DecidableEq

structure WatchedPrefix where
  bytes : Vector UInt8 maxPrefixLen
  len : UInt32
deriving DecidableEq

/-- A string read returns the bytes before the terminator, or fails. The buffer
holds at most one byte less than its size besides the terminator. -/
abbrev StringRead := Option { bytes : List UInt8 // bytes.length < maxPathLen }

namespace StringRead

def bytes (read : StringRead) : List UInt8 := (read.map Subtype.val).getD []

/-- The zeroed buffer after the read. -/
def buffer (read : StringRead) : PathBuffer := Vector.ofFn fun i => read.bytes.getD i.val 0

def len (read : StringRead) : UInt32 := read.bytes.length.toUInt32

end StringRead

/-- The ring buffer is the list of submitted records; `dropCount` counts the calls
of `record_drop`. -/
structure Maps where
  events : List Event
  trackedPids : Finset UInt32
  rootPid : Finset UInt32
  openatStash : PidTgid → Option OpenatStash
  pathOpStash : PidTgid → Option PathOpStash
  pathOpOldPath : PidTgid → Option PathStash
  pathOpNewPath : PidTgid → Option PathStash
  dropCount : ℕ
  watchMode : Option UInt8
  watchedPrefixes : ℕ → Option WatchedPrefix
  watchedFds : Finset (UInt32 × UInt32)

/-- Empty maps but for the root. -/
def rootMaps (root : UInt32) : Maps where
  events := []
  trackedPids := {root}
  rootPid := {root}
  openatStash _ := none
  pathOpStash _ := none
  pathOpOldPath _ := none
  pathOpNewPath _ := none
  dropCount := 0
  watchMode := none
  watchedPrefixes _ := none
  watchedFds := ∅

namespace Maps
variable (m : Maps)

def isTracked (tgid : UInt32) : Bool := tgid ∈ m.trackedPids

def recordDrop : Maps := { m with dropCount := m.dropCount + 1 }

def trackPid (inserted : Bool) (tgid : UInt32) : Maps :=
  if inserted then { m with trackedPids := insert tgid m.trackedPids } else m.recordDrop

def untrackPid (tgid : UInt32) : Maps := { m with trackedPids := m.trackedPids.erase tgid }

/-- Reserve a record, fill it in and submit it. -/
def submit (reserved : Bool) (event : Event) : Maps :=
  if reserved then { m with events := m.events ++ [event] } else m.recordDrop

def watchEnabled : Bool := m.watchMode.getD 0 != 0

/-- The byte comparison stops at the length of the prefix. -/
def matchesWatchedPrefix (path : PathBuffer) (pathLen : UInt32) : Bool :=
  (List.range maxWatchPrefixes).any fun i =>
    match m.watchedPrefixes i with
    | some p =>
      p.len != 0 && p.len ≤ maxPrefixLen.toUInt32 && p.len ≤ pathLen &&
        (List.finRange maxPrefixLen).all fun j =>
          p.len ≤ j.val.toUInt32 || path.get (Fin.castLE (by decide) j) == p.bytes.get j
    | none => false

end Maps

def pathIsAbsolute (path : PathBuffer) (pathLen : UInt32) : Bool := 0 < pathLen && path[0] == 47

end Repx.Probe
