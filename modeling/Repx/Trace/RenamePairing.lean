import Repx.Trace.Collector

/-! # Joining the halves of a rename

The two records of a rename carry one timestamp, and the sort may put either of them
first. A source waits under its key until its destination takes it out. Wherever a
source comes first, the rename is reported; a destination that comes first is refused, and
its source is left behind.
-/
namespace Repx.Trace
open ByteString Utf8 Std HashTables Probe

/-- One of the two records of a rename. -/
structure RenameHalf where
  timestamp : UInt64
  external : Bool
  payload : FilePathEvent
deriving DecidableEq

namespace RenameHalf

def key (half : RenameHalf) : RenameKey := ⟨half.payload.pid,half.payload.operationId⟩

def path (half : RenameHalf) : Option Str := decodeEventPath half.payload.path half.payload.pathLen

end RenameHalf

namespace RawEvent

def renameSource (raw : RawEvent) : Option RenameHalf :=
  match raw.event with
  | some ⟨source,_,.fileRenameSource payload⟩ => some ⟨raw.timestamp,source == 1,payload⟩
  | _ => none

def renameDestination (raw : RawEvent) : Option RenameHalf :=
  match raw.event with
  | some ⟨source,_,.fileRenameDestination payload⟩ => some ⟨raw.timestamp,source == 1,payload⟩
  | _ => none

theorem event_of_renameSource {raw : RawEvent} {half : RenameHalf} (h : raw.renameSource = some half) :
    ∃ source timestampNs, raw.event = some ⟨source,timestampNs,.fileRenameSource half.payload⟩ ∧
      half.external = (source == 1) := by
  obtain ⟨timestamp,_ | ⟨source,timestampNs,payload⟩⟩ := raw
  · simp [renameSource] at h
  · cases payload with
    | fileRenameSource payload =>
      simp only [renameSource,Option.some.injEq] at h
      subst h
      exact ⟨source,timestampNs,rfl,rfl⟩
    | _ => simp [renameSource] at h

theorem event_of_renameDestination {raw : RawEvent} {half : RenameHalf} (h : raw.renameDestination = some half) :
    ∃ source timestampNs, raw.event = some ⟨source,timestampNs,.fileRenameDestination half.payload⟩ ∧
      half.external = (source == 1) := by
  obtain ⟨timestamp,_ | ⟨source,timestampNs,payload⟩⟩ := raw
  · simp [renameDestination] at h
  · cases payload with
    | fileRenameDestination payload =>
      simp only [renameDestination,Option.some.injEq] at h
      subst h
      exact ⟨source,timestampNs,rfl,rfl⟩
    | _ => simp [renameDestination] at h

/-- A record other than a rename that is refused in every state: it is too short, of an
unknown kind, or an unlink without a path. -/
def malformed (raw : RawEvent) : Bool :=
  match raw.event with
  | none => true
  | some ⟨_,_,.unknown _⟩ => true
  | some ⟨_,_,.fileUnlink payload⟩ => (decodeEventPath payload.path payload.pathLen).isNone
  | _ => false

end RawEvent

def renameSources (raw : List RawEvent) : List RenameHalf := raw.filterMap RawEvent.renameSource

def renameDestinations (raw : List RawEvent) : List RenameHalf := raw.filterMap RawEvent.renameDestination

/-- Every rename of the buffer has both records, under a key and with a timestamp of its
own, and their paths decode. -/
structure PairedRenames (raw : List RawEvent) : Prop where
  distinct : ((renameSources raw).map RenameHalf.key).Nodup
  paired : ((renameSources raw).map fun half => (half.key,half.timestamp)).Perm
    ((renameDestinations raw).map fun half => (half.key,half.timestamp))
  sourcePath : ∀ half ∈ renameSources raw, half.path.isSome = true
  destinationPath : ∀ half ∈ renameDestinations raw, half.path.isSome = true

/-- Every destination stands behind its source. -/
def SourceFirst (sorted : List RawEvent) : Prop :=
  ∀ before raw rest, sorted = before ++ raw :: rest → ∀ half, raw.renameDestination = some half →
    half.key ∈ (renameSources before).map RenameHalf.key

def TracedEvent.isRename : TracedEvent → Bool
  | .fileRename _ _ _ _ _ _ => true
  | _ => false

/-- The path of a record after resolution. -/
def RenameHalf.Resolved (half : RenameHalf) (path : Str) : Prop :=
  ∃ rawPath, half.path = some rawPath ∧ (rawPath.head? = some slash → path = rawPath)

/-- What is reported of a rename: one event, or two if it is an exchange, and nothing
only if it is external and both paths lie outside every watched directory. -/
def RenameReported (watchPrefixes : List Str) (source destination : RenameHalf) (reported : List TracedEvent) :
    Prop :=
  ∃ process fromPath toPath, source.Resolved fromPath ∧ destination.Resolved toPath ∧
    if (source.external || destination.external) &&
        !watchPrefixes.any (fun dir => isPathWithin fromPath dir || isPathWithin toPath dir) then reported = []
    else ∃ observation reverseObservation, reported =
      renameEvents process fromPath toPath source.payload.flags (source.external || destination.external)
        observation reverseObservation

/-- Every rename of a buffer is reported in the place of its destination, no record of a
rename counts as malformed, and none is left waiting. -/
structure RenamesCollected {H : Type} (watchPrefixes : List Str) (sorted : List RawEvent)
    (start collected : Collected H) : Prop where
  reported : ∃ reports : List (List TracedEvent),
    List.Forall₂ (fun destination report => ∃ source ∈ renameSources sorted, source.key = destination.key ∧
      RenameReported watchPrefixes source destination report) (renameDestinations sorted) reports ∧
    collected.events.filter TracedEvent.isRename = start.events.filter TracedEvent.isRename ++ reports.flatten
  malformed : collected.state.malformedEvents =
    saturatingAdd start.state.malformedEvents (sorted.countP RawEvent.malformed)
  settled : collected.state.pendingRenames = ∅

section Frame
variable {H : Type} {s s' s'' : EventCollectorState H}

/-- The waiting renames and the count of refused records. -/
structure SameAccounts (s s' : EventCollectorState H) : Prop where
  pendingRenames : s'.pendingRenames = s.pendingRenames
  malformedEvents : s'.malformedEvents = s.malformedEvents

theorem SameAccounts.refl (s : EventCollectorState H) : SameAccounts s s := ⟨rfl,rfl⟩

theorem SameAccounts.trans (h : SameAccounts s s') (h' : SameAccounts s' s'') : SameAccounts s s'' :=
  ⟨h'.pendingRenames.trans h.pendingRenames,h'.malformedEvents.trans h.malformedEvents⟩

theorem sameAccounts_startProcess (pid : UInt32) : SameAccounts s (s.startProcess pid).2 := ⟨rfl,rfl⟩

theorem sameAccounts_currentProcess (pid : UInt32) : SameAccounts s (s.currentProcess pid).2 := by
  unfold EventCollectorState.currentProcess
  split
  · exact .refl s
  · exact sameAccounts_startProcess pid

theorem sameAccounts_resolvePath (w : World H) (process : ProcessInstance) (dfd : Int32) (rawPath : Str) :
    SameAccounts s (s.resolvePath w process dfd rawPath).2 := by
  unfold EventCollectorState.resolvePath
  dsimp only
  split
  · exact .refl s
  · split
    · split
      · exact ⟨rfl,rfl⟩
      · exact .refl s
    · split
      · exact .refl s
      · exact .refl s

theorem sameAccounts_forkProcess (w : World H) (parentPid childPid : UInt32) :
    SameAccounts s (s.forkProcess w parentPid childPid).2 :=
  (sameAccounts_currentProcess parentPid).trans ⟨rfl,rfl⟩

theorem sameAccounts_execProcess (pid : UInt32) : SameAccounts s (s.execProcess pid).2 := by
  unfold EventCollectorState.execProcess
  split
  · exact ⟨rfl,rfl⟩
  · exact (sameAccounts_currentProcess pid).trans ⟨rfl,rfl⟩

/-- A record that has nothing to do with renames. -/
structure Bystander (accepted : Bool) (s : EventCollectorState H) (processed : Processed H) : Prop where
  accepted : processed.accepted = accepted
  accounts : SameAccounts s processed.state
  emitted : processed.emitted.filter TracedEvent.isRename = []

theorem bystander_fileOpen (w : World H) (watchPrefixes : List Str) (external : Bool) (payload : FileOpenEvent) :
    Bystander true s (processFileOpen w watchPrefixes external s payload) := by
  have hprocess := sameAccounts_currentProcess (s := s) payload.tgid
  unfold processFileOpen
  generalize s.currentProcess payload.tgid = found at hprocess ⊢
  obtain ⟨process,s₁⟩ := found
  have hresolved := sameAccounts_resolvePath (s := s₁) w process payload.dfd
    (openedPath payload.path payload.pathLen)
  dsimp only
  generalize s₁.resolvePath w process payload.dfd _ = resolved at hresolved ⊢
  obtain ⟨path,s₂⟩ := resolved
  have hboth : SameAccounts s s₂ := hprocess.trans hresolved
  dsimp only
  split
  · exact ⟨rfl,hboth,rfl⟩
  · exact ⟨rfl,hboth.trans ⟨rfl,rfl⟩,rfl⟩

theorem bystander_fileClose (w : World H) (external : Bool) (payload : FileCloseEvent) :
    Bystander true s (processFileClose w external s payload) := by
  have hprocess := sameAccounts_currentProcess (s := s) payload.tgid
  unfold processFileClose
  generalize s.currentProcess payload.tgid = found at hprocess ⊢
  obtain ⟨process,s₁⟩ := found
  dsimp only
  split
  · exact ⟨rfl,hprocess.trans ⟨rfl,rfl⟩,rfl⟩
  · exact ⟨rfl,hprocess.trans ⟨rfl,rfl⟩,rfl⟩

theorem bystander_fileMmap (w : World H) (external : Bool) (payload : FileMmapEvent) :
    Bystander true s (processFileMmap w external s payload) := by
  have hprocess := sameAccounts_currentProcess (s := s) payload.tgid
  unfold processFileMmap
  generalize s.currentProcess payload.tgid = found at hprocess ⊢
  obtain ⟨process,s₁⟩ := found
  dsimp only
  split
  · exact ⟨rfl,hprocess.trans ⟨rfl,rfl⟩,rfl⟩
  · split
    · exact ⟨rfl,hprocess,rfl⟩
    · exact ⟨rfl,hprocess,rfl⟩

theorem bystander_fileUnlink (w : World H) (watchPrefixes : List Str) (external : Bool)
    (order : IterationOrder ℕ) (site : ℕ) (payload : FilePathEvent) :
    Bystander (decodeEventPath payload.path payload.pathLen).isSome s
      (processFileUnlink w watchPrefixes external s order site payload) := by
  have hprocess := sameAccounts_currentProcess (s := s) payload.tgid
  unfold processFileUnlink
  generalize s.currentProcess payload.tgid = found at hprocess ⊢
  obtain ⟨process,s₁⟩ := found
  dsimp only
  cases decodeEventPath payload.path payload.pathLen with
  | none => exact ⟨rfl,hprocess,rfl⟩
  | some rawPath =>
    have hresolved := sameAccounts_resolvePath (s := s₁) w process payload.dfd rawPath
    dsimp only
    generalize s₁.resolvePath w process payload.dfd rawPath = resolved at hresolved ⊢
    obtain ⟨path,s₂⟩ := resolved
    have hboth : SameAccounts s s₂ := hprocess.trans hresolved
    dsimp only
    split
    · exact ⟨rfl,hboth,rfl⟩
    · exact ⟨rfl,hboth,rfl⟩

theorem bystander_exec (w : World H) (payload : ProcessExecEvent) : Bystander true s (processExec w s payload) := by
  have hexec := sameAccounts_execProcess (s := s) payload.tgid
  unfold processExec
  generalize s.execProcess payload.tgid = found at hexec ⊢
  obtain ⟨_ | process,s₁⟩ := found
  · exact ⟨rfl,hexec,rfl⟩
  · have hresolved := sameAccounts_resolvePath (s := s₁) w process atFdcwd
      (openedPath payload.filename payload.filenameLen)
    dsimp only
    generalize s₁.resolvePath w process atFdcwd _ = resolved at hresolved ⊢
    obtain ⟨filename,s₂⟩ := resolved
    exact ⟨rfl,hexec.trans hresolved,rfl⟩

theorem bystander_fork (w : World H) (payload : ProcessForkEvent) : Bystander true s (processFork w s payload) :=
  ⟨rfl,sameAccounts_forkProcess w payload.parentPid payload.childPid,rfl⟩

theorem bystander_exit (payload : ProcessExitEvent) : Bystander true s (processExit s payload) :=
  ⟨rfl,sameAccounts_currentProcess payload.tgid,rfl⟩

end Frame

section Steps
variable {H : Type} {order : IterationOrder ℕ} {view : ℕ → World H} {watchPrefixes : List Str} {site : ℕ}
  {raw : RawEvent} {c : Collected H} {half : RenameHalf}

theorem saturatingAdd_zero (n : UInt64) : saturatingAdd n 0 = n := by
  have hlt := n.toNat_lt
  have hmin : min (n.toNat + 0) (UInt64.size - 1) = n.toNat := by
    simp only [UInt64.size]
    omega
  rw [saturatingAdd,hmin,UInt64.ofNat_toNat]

theorem saturatingAdd_add (n : UInt64) (j k : ℕ) : saturatingAdd (saturatingAdd n j) k = saturatingAdd n (j + k) := by
  have hfirst : (saturatingAdd n j).toNat = min (n.toNat + j) (UInt64.size - 1) := by
    refine UInt64.toNat_ofNat_of_lt' ?_
    simp only [UInt64.size]
    omega
  unfold saturatingAdd at hfirst ⊢
  rw [hfirst]
  congr 1
  omega

theorem processEvent_bystander {timestamp : UInt64} {event : Event} (s : EventCollectorState H)
    (hsource : (⟨timestamp,some event⟩ : RawEvent).renameSource = none)
    (hdestination : (⟨timestamp,some event⟩ : RawEvent).renameDestination = none) :
    Bystander (!(⟨timestamp,some event⟩ : RawEvent).malformed) s
      (processEvent order view watchPrefixes site event s) := by
  obtain ⟨source,timestampNs,payload⟩ := event
  cases payload with
  | fileOpen payload => exact bystander_fileOpen _ _ _ payload
  | fileClose payload => exact bystander_fileClose _ _ payload
  | processExec payload => exact bystander_exec _ payload
  | processExit payload => exact bystander_exit payload
  | fileMmap payload => exact bystander_fileMmap _ _ payload
  | fileRenameSource payload => simp [RawEvent.renameSource] at hsource
  | fileRenameDestination payload => simp [RawEvent.renameDestination] at hdestination
  | fileUnlink payload =>
    have h := bystander_fileUnlink (s := s) (view site) watchPrefixes (source == 1) order site payload
    rwa [← Option.not_isNone] at h
  | processFork payload => exact bystander_fork _ payload
  | unknown kind => exact ⟨rfl,.refl s,rfl⟩

variable (order view watchPrefixes site c) in
/-- A record that is no rename changes the count by what it is itself. -/
theorem processRawEvent_bystander (hsource : raw.renameSource = none) (hdestination : raw.renameDestination = none) :
    let c' := processRawEvent order view watchPrefixes site raw c
    c'.state.pendingRenames = c.state.pendingRenames ∧
      c'.state.malformedEvents = saturatingAdd c.state.malformedEvents (if raw.malformed then 1 else 0) ∧
      c'.events.filter TracedEvent.isRename = c.events.filter TracedEvent.isRename := by
  obtain ⟨timestamp,event⟩ := raw
  cases event with
  | none => exact ⟨rfl,rfl,rfl⟩
  | some event =>
    have hstep : Bystander _ c.state (processEvent order view watchPrefixes site event c.state) :=
      processEvent_bystander c.state hsource hdestination
    obtain ⟨haccepted,⟨hpending,hcount⟩,hemitted⟩ := hstep
    simp only [processRawEvent,List.filter_append,hemitted,List.append_nil,and_true,haccepted]
    cases hm : (⟨timestamp,some event⟩ : RawEvent).malformed with
    | true => simp [refuse,hpending,hcount]
    | false => simp [hpending,hcount,saturatingAdd_zero]

/-- What a waiting rename remembers of its source. -/
structure RenameHalf.LeavesPending (half : RenameHalf) (pending : PendingRename) : Prop where
  flags : pending.flags = half.payload.flags
  external : pending.external = half.external
  fromPath : half.Resolved pending.fromPath

theorem resolved_resolvePath {rawPath : Str} (hpath : half.path = some rawPath) (s : EventCollectorState H)
    (w : World H) (process : ProcessInstance) (dfd : Int32) :
    half.Resolved (s.resolvePath w process dfd rawPath).1 := by
  refine ⟨rawPath,hpath,fun habsolute => ?_⟩
  simp only [EventCollectorState.resolvePath,habsolute,if_true]

theorem processFileRenameSource_decoded (w : World H) (s : EventCollectorState H) (hpath : half.path.isSome = true) :
    let processed := processFileRenameSource w half.external s half.payload
    processed.accepted = true ∧ processed.emitted = [] ∧ processed.state.malformedEvents = s.malformedEvents ∧
      ∃ pending, half.LeavesPending pending ∧
        processed.state.pendingRenames = s.pendingRenames.insert half.key pending := by
  obtain ⟨rawPath,hpath⟩ := Option.isSome_iff_exists.mp hpath
  have hdecoded : decodeEventPath half.payload.path half.payload.pathLen = some rawPath := hpath
  have hprocess := sameAccounts_currentProcess (s := s) half.payload.tgid
  simp only [processFileRenameSource,hdecoded]
  generalize s.currentProcess half.payload.tgid = found at hprocess ⊢
  have haccounts := hprocess.trans (sameAccounts_resolvePath w found.1 half.payload.dfd rawPath)
  have hresolved := resolved_resolvePath hpath found.2 w found.1 half.payload.dfd
  generalize found.2.resolvePath w found.1 half.payload.dfd rawPath = resolved at haccounts hresolved ⊢
  refine ⟨trivial,trivial,haccounts.malformedEvents,⟨found.1,resolved.1,half.payload.flags,half.external⟩,
    ⟨rfl,rfl,hresolved⟩,?_⟩
  simp only [haccounts.pendingRenames]
  rfl

variable (order view watchPrefixes site c) in
theorem processRawEvent_source (h : raw.renameSource = some half) (hpath : half.path.isSome = true) :
    let c' := processRawEvent order view watchPrefixes site raw c
    c'.state.malformedEvents = c.state.malformedEvents ∧ c'.events = c.events ∧
      ∃ pending, half.LeavesPending pending ∧
        c'.state.pendingRenames = c.state.pendingRenames.insert half.key pending := by
  obtain ⟨source,timestampNs,hevent,hexternal⟩ := RawEvent.event_of_renameSource h
  obtain ⟨haccepted,hemitted,hcount,hpending⟩ := processFileRenameSource_decoded (view site) c.state hpath
  simp only [processRawEvent,hevent,processEvent,← hexternal,haccepted,hemitted,if_true,List.append_nil]
  exact ⟨hcount,trivial,hpending⟩

/-- What a destination reports of the rename that waits for it. -/
def ReportedFrom (watchPrefixes : List Str) (pending : PendingRename) (destination : RenameHalf)
    (reported : List TracedEvent) : Prop :=
  ∃ toPath, destination.Resolved toPath ∧
    if (pending.external || destination.external) && !watchPrefixes.any (fun dir =>
        isPathWithin pending.fromPath dir || isPathWithin toPath dir) then reported = []
    else ∃ observation reverseObservation, reported =
      renameEvents pending.process pending.fromPath toPath pending.flags
        (pending.external || destination.external) observation reverseObservation

theorem RenameHalf.LeavesPending.reported {source destination : RenameHalf} {pending : PendingRename}
    {reported : List TracedEvent} (h : source.LeavesPending pending)
    (hr : ReportedFrom watchPrefixes pending destination reported) :
    RenameReported watchPrefixes source destination reported := by
  obtain ⟨toPath,hto,hr⟩ := hr
  rw [h.external,h.flags] at hr
  exact ⟨pending.process,pending.fromPath,toPath,h.fromPath,hto,hr⟩

theorem ReportedFrom.filter {pending : PendingRename} {reported : List TracedEvent}
    (h : ReportedFrom watchPrefixes pending half reported) : reported.filter TracedEvent.isRename = reported := by
  obtain ⟨toPath,-,h⟩ := h
  split_ifs at h
  · rw [h]
    rfl
  · obtain ⟨observation,reverseObservation,rfl⟩ := h
    unfold renameEvents
    split <;> rfl

theorem processFileRenameDestination_found (w : World H) (watchPrefixes : List Str) {s : EventCollectorState H}
    {pending : PendingRename} (hfound : s.pendingRenames[half.key]? = some pending) (hpath : half.path.isSome = true) :
    let processed := processFileRenameDestination w watchPrefixes half.external s half.payload
    processed.accepted = true ∧ processed.state.pendingRenames = s.pendingRenames.erase half.key ∧
      processed.state.malformedEvents = s.malformedEvents ∧
      ReportedFrom watchPrefixes pending half processed.emitted := by
  obtain ⟨rawPath,hpath⟩ := Option.isSome_iff_exists.mp hpath
  unfold RenameHalf.key at hfound
  have hdecoded : decodeEventPath half.payload.path half.payload.pathLen = some rawPath := hpath
  simp only [processFileRenameDestination,hfound,hdecoded]
  have haccounts := sameAccounts_resolvePath (s := { s with pendingRenames := s.pendingRenames.erase half.key }) w
    pending.process half.payload.dfd rawPath
  have hresolved := resolved_resolvePath hpath { s with pendingRenames := s.pendingRenames.erase half.key } w
    pending.process half.payload.dfd
  unfold RenameHalf.key at haccounts hresolved ⊢
  generalize EventCollectorState.resolvePath _ w pending.process half.payload.dfd rawPath = resolved
    at haccounts hresolved ⊢
  split_ifs with hskip
  · exact ⟨rfl,haccounts.pendingRenames,haccounts.malformedEvents,resolved.1,hresolved,by rw [if_pos hskip]⟩
  · refine ⟨rfl,haccounts.pendingRenames,haccounts.malformedEvents,resolved.1,hresolved,?_⟩
    rw [if_neg hskip]
    exact ⟨_,_,rfl⟩

variable (order view watchPrefixes site c) in
theorem processRawEvent_destination (h : raw.renameDestination = some half) (hpath : half.path.isSome = true)
    {pending : PendingRename} (hpending : c.state.pendingRenames[half.key]? = some pending) :
    let c' := processRawEvent order view watchPrefixes site raw c
    c'.state.pendingRenames = c.state.pendingRenames.erase half.key ∧
      c'.state.malformedEvents = c.state.malformedEvents ∧
      ∃ reported, ReportedFrom watchPrefixes pending half reported ∧
        c'.events.filter TracedEvent.isRename = c.events.filter TracedEvent.isRename ++ reported := by
  obtain ⟨source,timestampNs,hevent,hexternal⟩ := RawEvent.event_of_renameDestination h
  obtain ⟨haccepted,hkeys,hcount,hreported⟩ :=
    processFileRenameDestination_found (view site) watchPrefixes hpending hpath
  have hfilter := hreported.filter
  simp only [processRawEvent,hevent,processEvent,← hexternal,haccepted,if_true,List.filter_append,hfilter]
  exact ⟨hkeys,hcount,_,hreported,rfl⟩

variable (order view watchPrefixes site c) in
theorem processRawEvent_destination_missing (h : raw.renameDestination = some half)
    (hmissing : c.state.pendingRenames[half.key]? = none) :
    (processRawEvent order view watchPrefixes site raw c).state.pendingRenames = c.state.pendingRenames := by
  obtain ⟨source,timestampNs,hevent,-⟩ := RawEvent.event_of_renameDestination h
  unfold RenameHalf.key at hmissing
  simp [processRawEvent,hevent,processEvent,processFileRenameDestination,hmissing,refuse]

theorem malformed_of_renameSource (h : raw.renameSource = some half) : raw.malformed = false := by
  obtain ⟨source,timestampNs,hevent,-⟩ := RawEvent.event_of_renameSource h
  simp only [RawEvent.malformed,hevent]

theorem malformed_of_renameDestination (h : raw.renameDestination = some half) : raw.malformed = false := by
  obtain ⟨source,timestampNs,hevent,-⟩ := RawEvent.event_of_renameDestination h
  simp only [RawEvent.malformed,hevent]

theorem renameSource_of_renameDestination (h : raw.renameDestination = some half) : raw.renameSource = none := by
  obtain ⟨source,timestampNs,hevent,-⟩ := RawEvent.event_of_renameDestination h
  simp only [RawEvent.renameSource,hevent]

theorem processBufferedEvents_append (before rest : List RawEvent) :
    processBufferedEvents order view watchPrefixes site (before ++ rest) c =
      processBufferedEvents order view watchPrefixes (site + before.length) rest
        (processBufferedEvents order view watchPrefixes site before c) := by
  induction before generalizing site c with
  | nil => rfl
  | cons raw before ih =>
    simp only [List.cons_append,processBufferedEvents,ih,List.length_cons]
    congr 1
    omega

end Steps

section Joining
variable {H : Type} {order : IterationOrder ℕ} {view : ℕ → World H} {watchPrefixes : List Str} {site : ℕ}
  {raw : RawEvent} {c start : Collected H} {before sorted : List RawEvent}

def renameKeys (halves : List RenameHalf) : List RenameKey := halves.map RenameHalf.key

/-- What has become of the renames of a buffer after its records `before`. -/
structure Joined (watchPrefixes : List Str) (sorted : List RawEvent) (start : Collected H)
    (before : List RawEvent) (c : Collected H) : Prop where
  waiting : ∀ key, key ∈ c.state.pendingRenames ↔
    key ∈ renameKeys (renameSources before) ∧ key ∉ renameKeys (renameDestinations before)
  pending : ∀ key pending, c.state.pendingRenames[key]? = some pending →
    ∃ source ∈ renameSources before, source.key = key ∧ source.LeavesPending pending
  reported : ∃ reports : List (List TracedEvent),
    List.Forall₂ (fun destination report => ∃ source ∈ renameSources sorted, source.key = destination.key ∧
      RenameReported watchPrefixes source destination report) (renameDestinations before) reports ∧
    c.events.filter TracedEvent.isRename = start.events.filter TracedEvent.isRename ++ reports.flatten
  malformed : c.state.malformedEvents =
    saturatingAdd start.state.malformedEvents (before.countP RawEvent.malformed)

theorem Joined.initial (h : start.state.pendingRenames = ∅) : Joined watchPrefixes sorted start [] start where
  waiting key := by simp [h,renameKeys,renameSources]
  pending key pending hp := by simp [h] at hp
  reported := ⟨[],by simp [renameDestinations],by simp⟩
  malformed := by simp [saturatingAdd_zero]

theorem renameSources_snoc : renameSources (before ++ [raw]) = renameSources before ++ raw.renameSource.toList := by
  cases h : raw.renameSource <;> simp [renameSources,h]

theorem renameDestinations_snoc :
    renameDestinations (before ++ [raw]) = renameDestinations before ++ raw.renameDestination.toList := by
  cases h : raw.renameDestination <;> simp [renameDestinations,h]

theorem Joined.bystander (h : Joined watchPrefixes sorted start before c) (hsource : raw.renameSource = none)
    (hdestination : raw.renameDestination = none) :
    Joined watchPrefixes sorted start (before ++ [raw])
      (processRawEvent order view watchPrefixes site raw c) := by
  obtain ⟨hpending,hcount,hevents⟩ :=
    processRawEvent_bystander order view watchPrefixes site c hsource hdestination
  have hsources : renameSources (before ++ [raw]) = renameSources before := by
    rw [renameSources_snoc,hsource,Option.toList_none,List.append_nil]
  have hdestinations : renameDestinations (before ++ [raw]) = renameDestinations before := by
    rw [renameDestinations_snoc,hdestination,Option.toList_none,List.append_nil]
  refine ⟨?_,?_,?_,?_⟩
  · rw [hpending,hsources,hdestinations]
    exact h.waiting
  · rw [hpending,hsources]
    exact h.pending
  · rw [hevents,hdestinations]
    exact h.reported
  · rw [hcount,h.malformed,saturatingAdd_add,List.countP_append,List.countP_singleton]

theorem Joined.source (h : Joined watchPrefixes sorted start before c) {half : RenameHalf}
    (hsource : raw.renameSource = some half) (hdestination : raw.renameDestination = none)
    (hpath : half.path.isSome = true) (hnew : half.key ∉ renameKeys (renameDestinations before)) :
    Joined watchPrefixes sorted start (before ++ [raw])
      (processRawEvent order view watchPrefixes site raw c) := by
  obtain ⟨hcount,hevents,left,hleft,hpending⟩ :=
    processRawEvent_source order view watchPrefixes site c hsource hpath
  have hsources : renameSources (before ++ [raw]) = renameSources before ++ [half] := by
    rw [renameSources_snoc,hsource,Option.toList_some]
  have hdestinations : renameDestinations (before ++ [raw]) = renameDestinations before := by
    rw [renameDestinations_snoc,hdestination,Option.toList_none,List.append_nil]
  refine ⟨?_,?_,?_,?_⟩
  · intro key
    rw [hpending,hsources,hdestinations,ExtTreeMap.mem_insert,Std.compare_eq_iff_eq,h.waiting key]
    simp only [renameKeys,List.map_append,List.mem_append,List.map_cons,List.map_nil,List.mem_singleton]
    constructor
    · rintro (rfl | ⟨hk,hd⟩)
      · exact ⟨Or.inr rfl,hnew⟩
      · exact ⟨Or.inl hk,hd⟩
    · rintro ⟨hk | rfl,hd⟩
      · exact Or.inr ⟨hk,hd⟩
      · exact Or.inl rfl
  · intro key pending hp
    rw [hpending,ExtTreeMap.getElem?_insert] at hp
    rw [hsources]
    split_ifs at hp with hkey
    · obtain rfl := Std.compare_eq_iff_eq.mp hkey
      obtain rfl := Option.some.inj hp
      exact ⟨half,List.mem_append_right _ (List.mem_singleton_self half),rfl,hleft⟩
    · obtain ⟨source,hmem,hsame,hl⟩ := h.pending key pending hp
      exact ⟨source,List.mem_append_left _ hmem,hsame,hl⟩
  · rw [hevents,hdestinations]
    exact h.reported
  · rw [hcount,h.malformed,List.countP_append,List.countP_singleton,malformed_of_renameSource hsource]
    simp

theorem Joined.destination (h : Joined watchPrefixes sorted start before c) {half : RenameHalf}
    (hdestination : raw.renameDestination = some half) (hpath : half.path.isSome = true)
    (hfirst : half.key ∈ renameKeys (renameSources before))
    (hnew : half.key ∉ renameKeys (renameDestinations before))
    (hsub : renameSources before ⊆ renameSources sorted) :
    Joined watchPrefixes sorted start (before ++ [raw])
      (processRawEvent order view watchPrefixes site raw c) := by
  have hmem : half.key ∈ c.state.pendingRenames := (h.waiting half.key).mpr ⟨hfirst,hnew⟩
  obtain ⟨waiting,hwaiting⟩ := Option.isSome_iff_exists.mp (ExtTreeMap.mem_iff_isSome_getElem?.mp hmem)
  obtain ⟨hpending,hcount,report,hreport,hevents⟩ :=
    processRawEvent_destination order view watchPrefixes site c hdestination hpath hwaiting
  have hsources : renameSources (before ++ [raw]) = renameSources before := by
    rw [renameSources_snoc,renameSource_of_renameDestination hdestination,Option.toList_none,List.append_nil]
  have hdestinations : renameDestinations (before ++ [raw]) = renameDestinations before ++ [half] := by
    rw [renameDestinations_snoc,hdestination,Option.toList_some]
  refine ⟨?_,?_,?_,?_⟩
  · intro key
    rw [hpending,hsources,hdestinations,ExtTreeMap.mem_erase,ne_eq,Std.compare_eq_iff_eq,h.waiting key]
    simp only [renameKeys,List.map_append,List.mem_append,List.map_cons,List.map_nil,List.mem_singleton,not_or]
    constructor
    · rintro ⟨hne,hk,hd⟩
      exact ⟨hk,hd,fun he => hne he.symm⟩
    · rintro ⟨hk,hd,hne⟩
      exact ⟨fun he => hne he.symm,hk,hd⟩
  · intro key pending hp
    rw [hpending,ExtTreeMap.getElem?_erase] at hp
    rw [hsources]
    split_ifs at hp
    exact h.pending key pending hp
  · obtain ⟨reports,hreports,hfilter⟩ := h.reported
    obtain ⟨source,hmem,hsame,hleft⟩ := h.pending half.key waiting hwaiting
    refine ⟨reports ++ [report],?_,?_⟩
    · rw [hdestinations]
      refine List.rel_append hreports (List.Forall₂.cons ?_ List.Forall₂.nil)
      exact ⟨source,hsub hmem,hsame,hleft.reported hreport⟩
    · rw [hevents,hfilter,List.flatten_append,List.append_assoc]
      simp
  · rw [hcount,h.malformed,List.countP_append,List.countP_singleton,malformed_of_renameDestination hdestination]
    simp

namespace PairedRenames

theorem perm {raw : List RawEvent} (h : PairedRenames raw) (hperm : sorted.Perm raw) : PairedRenames sorted where
  distinct := ((hperm.filterMap _).map _).nodup_iff.mpr h.distinct
  paired := (((hperm.filterMap _).map _).trans h.paired).trans ((hperm.filterMap _).map _).symm
  sourcePath half hm := h.sourcePath half ((hperm.filterMap _).mem_iff.mp hm)
  destinationPath half hm := h.destinationPath half ((hperm.filterMap _).mem_iff.mp hm)

theorem keys (h : PairedRenames sorted) :
    (renameKeys (renameSources sorted)).Perm (renameKeys (renameDestinations sorted)) := by
  have hfst := h.paired.map Prod.fst
  rw [List.map_map,List.map_map] at hfst
  exact hfst

theorem destinations (h : PairedRenames sorted) : (renameKeys (renameDestinations sorted)).Nodup :=
  h.keys.nodup_iff.mp h.distinct

end PairedRenames

/-- A destination among the first records has its source among them. -/
theorem SourceFirst.mem {rest : List RawEvent} (h : SourceFirst sorted) (hs : sorted = before ++ rest)
    {key : RenameKey} (hk : key ∈ renameKeys (renameDestinations before)) :
    key ∈ renameKeys (renameSources before) := by
  obtain ⟨half,hhalf,rfl⟩ := List.mem_map.mp hk
  obtain ⟨raw,hraw,hdestination⟩ := List.mem_filterMap.mp hhalf
  obtain ⟨front,back,rfl⟩ := List.append_of_mem hraw
  have hmem := h front raw (back ++ rest) (by rw [hs,List.append_assoc,List.cons_append]) half hdestination
  simp only [renameKeys,renameSources,List.filterMap_append,List.map_append]
  exact List.mem_append_left _ hmem

/-- Where all keys of one kind differ, the key of a record is found nowhere else. -/
theorem key_nowhere_else {f : RawEvent → Option RenameHalf} {rest : List RawEvent} {half : RenameHalf}
    (hn : (renameKeys ((before ++ raw :: rest).filterMap f)).Nodup) (hf : f raw = some half) :
    half.key ∉ renameKeys (before.filterMap f) ∧ half.key ∉ renameKeys (rest.filterMap f) := by
  rw [List.filterMap_append,List.filterMap_cons_some hf,renameKeys,List.map_append,List.map_cons] at hn
  obtain ⟨-,hrest,hdisjoint⟩ := List.nodup_append.mp hn
  exact ⟨fun hk => hdisjoint _ hk _ List.mem_cons_self rfl,(List.nodup_cons.mp hrest).1⟩

/-- The whole buffer is processed from where it stands. -/
theorem Joined.run (hpaired : PairedRenames sorted) (hfirst : SourceFirst sorted) (rest : List RawEvent) :
    ∀ (before : List RawEvent) (site : ℕ) (c : Collected H), sorted = before ++ rest →
      Joined watchPrefixes sorted start before c →
      Joined watchPrefixes sorted start sorted (processBufferedEvents order view watchPrefixes site rest c) := by
  induction rest with
  | nil =>
    intro before site c hs h
    rw [List.append_nil] at hs
    rw [hs] at h ⊢
    exact h
  | cons raw rest ih =>
    intro before site c hs h
    have hnext : sorted = before ++ [raw] ++ rest := by rw [hs,List.append_assoc,List.singleton_append]
    refine ih (before ++ [raw]) (site + 1) _ hnext ?_
    have hsub : renameSources before ⊆ renameSources sorted := by
      rw [hs,renameSources,renameSources,List.filterMap_append]
      exact List.subset_append_left _ _
    cases hd : raw.renameDestination with
    | some half =>
      have hmem : half ∈ renameDestinations sorted := by
        rw [hs]
        exact List.mem_filterMap.mpr ⟨raw,by simp,hd⟩
      have hdestinations := hpaired.destinations
      rw [hs] at hdestinations
      have hnew : half.key ∉ renameKeys (renameDestinations before) := (key_nowhere_else hdestinations hd).1
      exact h.destination hd (hpaired.destinationPath half hmem) (hfirst before raw rest hs half hd) hnew hsub
    | none =>
      cases hr : raw.renameSource with
      | none => exact h.bystander hr hd
      | some half =>
        have hmem : half ∈ renameSources sorted := by
          rw [hs]
          exact List.mem_filterMap.mpr ⟨raw,by simp,hr⟩
        refine h.source hr hd (hpaired.sourcePath half hmem) fun hk => ?_
        have hsources := hpaired.distinct
        rw [hs] at hsources
        exact (key_nowhere_else hsources hr).1 (hfirst.mem hs hk)

/-- Without its destination, a source waits to the end. -/
theorem waiting_processBufferedEvents {key : RenameKey} (rest : List RawEvent)
    (hsourcePath : ∀ half ∈ renameSources rest, half.path.isSome = true)
    (hdestinationPath : ∀ half ∈ renameDestinations rest, half.path.isSome = true)
    (hnone : key ∉ renameKeys (renameDestinations rest)) :
    ∀ (site : ℕ) (c : Collected H), key ∈ c.state.pendingRenames ∨ key ∈ renameKeys (renameSources rest) →
      key ∈ (processBufferedEvents order view watchPrefixes site rest c).state.pendingRenames := by
  induction rest with
  | nil =>
    intro site c h
    simpa [renameKeys,renameSources,processBufferedEvents] using h
  | cons raw rest ih =>
    intro site c h
    cases hd : raw.renameDestination with
    | some half =>
      have hr := renameSource_of_renameDestination hd
      rw [renameDestinations,List.filterMap_cons_some hd,← renameDestinations] at hdestinationPath hnone
      rw [renameSources,List.filterMap_cons_none hr,← renameSources] at hsourcePath h
      have hne : half.key ≠ key := fun he => hnone (by rw [← he]; exact List.mem_cons_self)
      refine ih hsourcePath (fun half hm => hdestinationPath half (List.mem_cons_of_mem _ hm))
        (fun hk => hnone (List.mem_cons_of_mem _ hk)) (site + 1) _ (h.imp_left fun hk => ?_)
      cases hp : c.state.pendingRenames[half.key]? with
      | none =>
        rw [processRawEvent_destination_missing order view watchPrefixes site c hd hp]
        exact hk
      | some pending =>
        have hpath := hdestinationPath half List.mem_cons_self
        rw [(processRawEvent_destination order view watchPrefixes site c hd hpath hp).1,ExtTreeMap.mem_erase,ne_eq,
          Std.compare_eq_iff_eq]
        exact ⟨hne,hk⟩
    | none =>
      rw [renameDestinations,List.filterMap_cons_none hd,← renameDestinations] at hdestinationPath hnone
      cases hr : raw.renameSource with
      | none =>
        rw [renameSources,List.filterMap_cons_none hr,← renameSources] at hsourcePath h
        refine ih hsourcePath hdestinationPath hnone (site + 1) _ (h.imp_left fun hk => ?_)
        rw [(processRawEvent_bystander order view watchPrefixes site c hr hd).1]
        exact hk
      | some half =>
        rw [renameSources,List.filterMap_cons_some hr,← renameSources] at hsourcePath h
        obtain ⟨-,-,pending,-,hpending⟩ :=
          processRawEvent_source order view watchPrefixes site c hr (hsourcePath half List.mem_cons_self)
        refine ih (fun half hm => hsourcePath half (List.mem_cons_of_mem _ hm)) hdestinationPath hnone
          (site + 1) _ ?_
        rw [hpending,ExtTreeMap.mem_insert,Std.compare_eq_iff_eq]
        rcases h with hk | hk
        · exact Or.inl (Or.inr hk)
        · rcases List.mem_cons.mp hk with rfl | hk
          · exact Or.inl (Or.inl rfl)
          · exact Or.inr hk

end Joining

section Buffer
variable {H : Type}

/-- The state in which the buffer is processed, with the count of records that were too
short to be buffered. -/
def Collected.initial (rootPid : UInt32) (rootCwd : Str) (malformed : UInt64) : Collected H :=
  ⟨{ EventCollectorState.new rootPid rootCwd with malformedEvents := malformed },[]⟩

/-- A destination that comes first leaves its source behind. -/
theorem exists_waiting_of_not_sourceFirst {sorted : List RawEvent} (hpaired : PairedRenames sorted)
    (hfirst : ¬ SourceFirst sorted) (order : IterationOrder ℕ) (view : ℕ → World H) (watchPrefixes : List Str)
    (c : Collected H) :
    ∃ key, key ∈ (processBufferedEvents order view watchPrefixes 0 sorted c).state.pendingRenames := by
  simp only [SourceFirst,not_forall] at hfirst
  obtain ⟨before,raw,rest,hs,half,hd,hmissing⟩ := hfirst
  have hr := renameSource_of_renameDestination hd
  have hsplit : before ++ raw :: rest = (before ++ [raw]) ++ rest := by
    rw [List.append_assoc,List.singleton_append]
  subst hs
  have hkey : half.key ∈ renameKeys (renameSources (before ++ raw :: rest)) :=
    hpaired.keys.mem_iff.mpr (List.mem_map_of_mem (List.mem_filterMap.mpr ⟨raw,by simp,hd⟩))
  rw [renameSources,List.filterMap_append,List.filterMap_cons_none hr,renameKeys,List.map_append,
    List.mem_append] at hkey
  have hlater : half.key ∈ renameKeys (renameSources rest) := hkey.resolve_left hmissing
  have hsub : rest ⊆ before ++ raw :: rest := fun r hm => by simp [hm]
  refine ⟨half.key,?_⟩
  rw [hsplit,processBufferedEvents_append]
  refine waiting_processBufferedEvents rest ?_ ?_ (key_nowhere_else hpaired.destinations hd).2 _ _ (Or.inr hlater)
  · exact fun half hm => hpaired.sourcePath half (List.filterMap_subset _ hsub hm)
  · exact fun half hm => hpaired.destinationPath half (List.filterMap_subset _ hsub hm)

/-- Whatever order the sort returns, the renames of a buffer are collected exactly if it
puts every source before its destination. -/
theorem renamesCollected_iff_sourceFirst (order : IterationOrder ℕ) (view : ℕ → World H)
    (watchPrefixes : List Str) (rootPid : UInt32) (rootCwd : Str) (malformed : UInt64)
    (raw sorted : List RawEvent) (hpaired : PairedRenames raw) (hsort : SortResult raw sorted) :
    RenamesCollected watchPrefixes sorted (.initial rootPid rootCwd malformed)
      (processBufferedEvents order view watchPrefixes 0 sorted (.initial rootPid rootCwd malformed)) ↔
      SourceFirst sorted := by
  have hpaired' : PairedRenames sorted := hpaired.perm hsort.perm
  constructor
  · intro hcollected
    by_contra hfirst
    obtain ⟨key,hkey⟩ := exists_waiting_of_not_sourceFirst hpaired' hfirst order view watchPrefixes
      (.initial rootPid rootCwd malformed)
    rw [hcollected.settled] at hkey
    exact ExtTreeMap.not_mem_empty hkey
  · intro hfirst
    have hjoined : Joined watchPrefixes sorted (Collected.initial rootPid rootCwd malformed) sorted
        (processBufferedEvents order view watchPrefixes 0 sorted (.initial rootPid rootCwd malformed)) :=
      Joined.run hpaired' hfirst sorted [] 0 _ rfl (.initial rfl)
    refine ⟨hjoined.reported,hjoined.malformed,ExtTreeMap.ext_getElem? fun key => ?_⟩
    have hempty : key ∉ (processBufferedEvents order view watchPrefixes 0 sorted
        (.initial rootPid rootCwd malformed)).state.pendingRenames := by
      rw [hjoined.waiting key]
      exact fun hk => hk.2 (hpaired'.keys.mem_iff.mp hk.1)
    rw [ExtTreeMap.getElem?_eq_none hempty,ExtTreeMap.getElem?_empty]

end Buffer

section Samples

/-- A machine without files. -/
def bareWorld : World Empty where
  readLink _ := none
  canonicalize _ := none
  openRegular _ := none
  tryClone _ := none
  observeFile handle _ := nomatch handle
  observePath _ := .missing emptyContentHash

def samplePath (name : UInt8) : PathBuffer := Vector.ofFn fun i => [slash,name].getD i.val 0

/-- The two records of a rename of `/a` to `/b`. -/
def sampleSource : RawEvent :=
  ⟨5,some ⟨0,5,.fileRenameSource ⟨10,10,atFdcwd,0,5,samplePath 97,2⟩⟩⟩

def sampleDestination : RawEvent :=
  ⟨5,some ⟨0,5,.fileRenameDestination ⟨10,10,atFdcwd,0,5,samplePath 98,2⟩⟩⟩

theorem pairedRenames_samples : PairedRenames [sampleSource,sampleDestination] where
  distinct := by decide
  paired := by decide
  sourcePath := by decide +kernel
  destinationPath := by decide +kernel

theorem sourceFirst_samples : SourceFirst [sampleSource,sampleDestination] := by
  intro before raw rest hs half hd
  match before, hs with
  | [], hs =>
    obtain ⟨rfl,-⟩ := List.cons.inj hs
    cases hd
  | [first], hs =>
    obtain ⟨rfl,htail⟩ := List.cons.inj hs
    obtain ⟨rfl,-⟩ := List.cons.inj htail
    obtain rfl := Option.some.inj hd
    decide
  | _ :: _ :: tail, hs =>
    have hlength := congrArg List.length hs
    simp only [List.cons_append,List.length_cons,List.length_nil,List.length_append] at hlength
    omega

theorem renamesCollected_iff_sourceFirst_sample :
    RenamesCollected [] [sampleSource,sampleDestination] (.initial 10 [slash] 0)
      (processBufferedEvents .stored (fun _ => bareWorld) [] 0 [sampleSource,sampleDestination]
        (.initial 10 [slash] 0)) := by
  have hsort : SortResult [sampleSource,sampleDestination] [sampleSource,sampleDestination] :=
    ⟨.refl _,by decide⟩
  exact (renamesCollected_iff_sourceFirst .stored (fun _ => bareWorld) [] 10 [slash] 0 _ _
    pairedRenames_samples hsort).mpr sourceFirst_samples

/-- The sort may put the destination first: the timestamps are equal. -/
theorem destination_sorted_first :
    ¬ ∀ (order : IterationOrder ℕ) (view : ℕ → World Empty) (watchPrefixes : List Str) (rootPid : UInt32)
      (rootCwd : Str) (malformed : UInt64) (raw sorted : List RawEvent), PairedRenames raw →
      SortResult raw sorted →
      RenamesCollected watchPrefixes sorted (.initial rootPid rootCwd malformed)
        (processBufferedEvents order view watchPrefixes 0 sorted (.initial rootPid rootCwd malformed)) := by
  intro h
  have hsort : SortResult [sampleSource,sampleDestination] [sampleDestination,sampleSource] :=
    ⟨.swap _ _ _,by decide⟩
  have hcollected := h .stored (fun _ => bareWorld) [] 10 [slash] 0 _ _ pairedRenames_samples hsort
  have hfirst : ¬ SourceFirst [sampleDestination,sampleSource] := by
    intro hfirst
    have hmem := hfirst [] sampleDestination [sampleSource] rfl _ rfl
    simp [renameSources] at hmem
  obtain ⟨key,hkey⟩ := exists_waiting_of_not_sourceFirst (pairedRenames_samples.perm hsort.perm) hfirst .stored
    (fun _ => bareWorld) [] (.initial 10 [slash] 0)
  rw [hcollected.settled] at hkey
  exact ExtTreeMap.not_mem_empty hkey

end Samples

end Repx.Trace
