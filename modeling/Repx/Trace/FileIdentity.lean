import Mathlib.Data.List.DropRight
import Repx.Commitment.Sha256
import Repx.Trace.Event

/-! # Path classification and file identities

Which paths are machine state rather than build inputs, which lie under a
watched directory, and how a rename rewrites a recorded path. A path component
boundary is the byte `/`.
-/
namespace Repx.Trace
open ByteString Sha256

def slash : UInt8 := 47

def systemStateSentinel : Str :=
  utf8 "SYSTEM_STATE:0000000000000000000000000000000000000000000000000000000000000000"

def systemStateDirs : List Str := [utf8 "/proc",utf8 "/sys"]

def systemStateFiles : List Str :=
  [utf8 "/etc/hostname",utf8 "/etc/os-release",utf8 "/etc/machine-id",utf8 "/dev/urandom",
    utf8 "/dev/random",utf8 "/dev/null",utf8 "/dev/zero"]

/-- Substring search. -/
def contains (path pattern : Str) : Bool := path.tails.any (pattern.isPrefixOf ·)

def isGoTelemetryPath (path : Str) : Bool := contains path (utf8 "/go/telemetry/")

def isSystemState (path : Str) : Bool :=
  systemStateDirs.any (fun dir => path == dir || (dir ++ [slash]).isPrefixOf path) ||
    systemStateFiles.contains path || isGoTelemetryPath path

def trimEndSlashes (path : Str) : Str := path.rdropWhile (· == slash)

def isPathWithin (path dir : Str) : Bool :=
  let dir := trimEndSlashes dir
  dir.isEmpty || path == dir || (dir ++ [slash]).isPrefixOf path

def isWatchedPath (path : Str) (watchPrefixes : List Str) : Bool := watchPrefixes.any (isPathWithin path ·)

/-- The path after `fromPath` was renamed to `toPath`, if the rename moved it. -/
def rewritePathPrefix (path fromPath toPath : Str) : Option Str :=
  if path = fromPath then some toPath
  else
    match path.dropPrefix? fromPath with
    | some suffix => if suffix.head? = some slash then some (toPath ++ suffix) else none
    | none => none

/-- The hash recorded for a read: the sentinel for machine state, the content
hash otherwise, nothing for a file without contents. -/
def readHash (path : Str) (observation : FileObservation) : Option Str :=
  if isSystemState path then some systemStateSentinel else observation.contentHash

/-- The strings of an observation are digests, as `observe_file` and
`hash_path` produce them. -/
def FileObservation.WellFormed : FileObservation → Prop
  | content hash => IsDigestText hash
  | missing pathHash => IsDigestText pathHash
  | unreadable pathHash => IsDigestText pathHash
  | nonRegular pathHash => IsDigestText pathHash

/-- The observations an event carries. -/
def TracedEvent.observations : TracedEvent → List FileObservation
  | exec _ observation => [observation]
  | fork _ _ => []
  | fileOpen _ _ _ _ _ observation => [observation]
  | fileClose _ _ _ _ observation => observation.toList
  | fileMmap _ _ _ _ _ _ observation => observation.toList
  | fileRename _ _ _ _ _ observation => [observation]
  | fileUnlink _ _ _ _ observation => [observation]
  | exit _ _ => []

def TracedEvent.WellFormed (event : TracedEvent) : Prop := ∀ o ∈ event.observations, o.WellFormed

end Repx.Trace
