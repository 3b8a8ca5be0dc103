import Repx.Trace.RenamePairing

/-! # Removed files and the order of the descriptor table

A removed file is observed through the first entry of the descriptor table that has its path,
in the order in which the table happens to be traversed. Nothing else depends on that order.
The events of a run are the same for every order exactly when, at each removal, all entries
of the removed path show the same contents.
-/
namespace Repx.Trace
open ByteString HashTables Probe Std

section Steps
variable {H : Type} (w : World H) (watchPrefixes : List Str) (s : EventCollectorState H)

@[simp] theorem currentProcess_fdTable (pid : UInt32) : (s.currentProcess pid).2.fdTable = s.fdTable := by
  unfold EventCollectorState.currentProcess
  split <;> rfl

@[simp] theorem resolvePath_fdTable (process : ProcessInstance) (dfd : Int32) (rawPath : Str) :
    (s.resolvePath w process dfd rawPath).2.fdTable = s.fdTable := by
  unfold EventCollectorState.resolvePath
  dsimp only
  split
  · rfl
  · split
    · dsimp only
      split <;> rfl
    · split <;> rfl

/-- All open files of a path show the same contents. -/
def EntriesAgree (path : Str) : Prop :=
  ∀ (d d' : Descriptor) (file file' : OpenFileState H), s.fdTable[d]? = some file → s.fdTable[d']? = some file' →
    file.path = path → file'.path = path → file.observeCurrent w = file'.observeCurrent w

/-- The path that a removal names, if it is reported. -/
def reportedRemoval (external : Bool) (payload : FilePathEvent) : Option Str :=
  let (process,s) := s.currentProcess payload.tgid
  ((decodeEventPath payload.path payload.pathLen).map fun rawPath =>
    (s.resolvePath w process payload.dfd rawPath).1).filter fun path => !external || isWatchedPath path watchPrefixes

/-- A record does not remove a path whose open files differ. -/
def RemovalAgrees (event : Event) : Prop :=
  match event.payload with
  | .fileUnlink payload =>
    ∀ path, reportedRemoval w watchPrefixes s (event.source == 1) payload = some path → EntriesAgree w s path
  | _ => True

/-- The removed file as a traversal of the table finds it. -/
def removedObservation (order : IterationOrder ℕ) (site : ℕ) (path : Str) : FileObservation :=
  (((order.visit site s.fdTable.toList).find? fun e => e.2.path = path).map fun e =>
    e.2.observeCurrent w).getD (w.observePath path)

theorem removedObservation_iff (site : ℕ) (path : Str) :
    (∀ order order' : IterationOrder ℕ,
      removedObservation w s order site path = removedObservation w s order' site path) ↔ EntriesAgree w s path := by
  refine (IterationOrder.find?_visit_iff site).trans ?_
  constructor
  · intro h d d' file file' hd hd' hp hp'
    have he := ExtTreeMap.mem_toList_iff_getElem?_eq_some.mpr hd
    have he' := ExtTreeMap.mem_toList_iff_getElem?_eq_some.mpr hd'
    exact h (d,file) he (d',file') he' (by simpa using hp) (by simpa using hp')
  · rintro h ⟨d,file⟩ he ⟨d',file'⟩ he' hp hp'
    have hd := ExtTreeMap.mem_toList_iff_getElem?_eq_some.mp he
    have hd' := ExtTreeMap.mem_toList_iff_getElem?_eq_some.mp he'
    exact h d d' file file' hd hd' (by simpa using hp) (by simpa using hp')

/-- The order reaches the observation of a removal and nothing else. -/
theorem processFileUnlink_eq (external : Bool) (site : ℕ) (payload : FilePathEvent) :
    ∃ accepted s', ∀ order : IterationOrder ℕ, processFileUnlink w watchPrefixes external s order site payload =
      ⟨accepted,s',(reportedRemoval w watchPrefixes s external payload).toList.map fun path =>
        .fileUnlink (s.currentProcess payload.tgid).1 path payload.flags external
          (removedObservation w s order site path)⟩ := by
  cases hdecode : decodeEventPath payload.path payload.pathLen with
  | none =>
    refine ⟨false,(s.currentProcess payload.tgid).2,fun order => ?_⟩
    simp [processFileUnlink,reportedRemoval,hdecode]
  | some rawPath =>
    generalize hresolved : (s.currentProcess payload.tgid).2.resolvePath w (s.currentProcess payload.tgid).1
      payload.dfd rawPath = resolved
    have hfiles : resolved.2.fdTable = s.fdTable := by
      rw [← hresolved,resolvePath_fdTable,currentProcess_fdTable]
    refine ⟨true,resolved.2,fun order => ?_⟩
    by_cases hwatched : (!external || isWatchedPath resolved.1 watchPrefixes) = true
    · have hreported : (external && !isWatchedPath resolved.1 watchPrefixes) = false := by
        simpa [imp_iff_not_or] using hwatched
      cases hfind : (order.visit site s.fdTable.toList).find? (fun e => e.2.path = resolved.1) <;>
        simp [processFileUnlink,reportedRemoval,removedObservation,hdecode,hresolved,hreported,hwatched,hfiles,hfind,
          Option.filter]
    · have hreported : (external && !isWatchedPath resolved.1 watchPrefixes) = true := by
        simpa using hwatched
      simp [processFileUnlink,reportedRemoval,hdecode,hresolved,hreported,hwatched,Option.filter]

end Steps

section Runs
variable {H : Type} (view : ℕ → World H) (watchPrefixes : List Str)

/-- Two orders differ at most in what is observed of a removal. -/
theorem processEvent_orders (site : ℕ) (event : Event) (s : EventCollectorState H) (order order' : IterationOrder ℕ) :
    (processEvent order view watchPrefixes site event s).accepted =
        (processEvent order' view watchPrefixes site event s).accepted ∧
      (processEvent order view watchPrefixes site event s).state =
        (processEvent order' view watchPrefixes site event s).state ∧
      (processEvent order view watchPrefixes site event s).emitted.length =
        (processEvent order' view watchPrefixes site event s).emitted.length := by
  obtain ⟨source,timestamp,payload⟩ := event
  cases payload with
  | fileUnlink payload =>
    obtain ⟨accepted,s',h⟩ := processFileUnlink_eq (view site) watchPrefixes s (source == 1) site payload
    simp only [processEvent,h,List.length_map,and_self]
  | _ => exact ⟨rfl,rfl,rfl⟩

theorem processEvent_emitted_iff (site : ℕ) (event : Event) (s : EventCollectorState H) :
    (∀ order order' : IterationOrder ℕ, (processEvent order view watchPrefixes site event s).emitted =
      (processEvent order' view watchPrefixes site event s).emitted) ↔
      RemovalAgrees (view site) watchPrefixes s event := by
  obtain ⟨source,timestamp,payload⟩ := event
  cases payload with
  | fileUnlink payload =>
    obtain ⟨accepted,s',h⟩ := processFileUnlink_eq (view site) watchPrefixes s (source == 1) site payload
    simp only [processEvent,h,RemovalAgrees]
    cases reportedRemoval (view site) watchPrefixes s (source == 1) payload with
    | none => simp
    | some path => simpa using removedObservation_iff (view site) s site path
  | _ => exact iff_of_true (fun _ _ => rfl) trivial

/-- The state after a record, which no order influences. -/
def nextState (site : ℕ) (raw : RawEvent) (s : EventCollectorState H) : EventCollectorState H :=
  (processRawEvent .stored view watchPrefixes site raw ⟨s,[]⟩).state

theorem processRawEvent_state (order : IterationOrder ℕ) (site : ℕ) (raw : RawEvent) (c : Collected H) :
    (processRawEvent order view watchPrefixes site raw c).state = nextState view watchPrefixes site raw c.state := by
  obtain ⟨timestamp,_ | event⟩ := raw
  · rfl
  · obtain ⟨haccepted,hstate,-⟩ := processEvent_orders view watchPrefixes site event c.state order .stored
    simp only [nextState,processRawEvent,haccepted,hstate]

theorem processRawEvent_events_iff (site : ℕ) (raw : RawEvent) (c : Collected H) :
    (∀ order order' : IterationOrder ℕ, (processRawEvent order view watchPrefixes site raw c).events =
      (processRawEvent order' view watchPrefixes site raw c).events) ↔
      ∀ event, raw.event = some event → RemovalAgrees (view site) watchPrefixes c.state event := by
  obtain ⟨timestamp,_ | event⟩ := raw
  · exact iff_of_true (fun _ _ => rfl) nofun
  · simp only [processRawEvent,List.append_cancel_left_eq,Option.some.injEq,forall_eq']
    exact processEvent_emitted_iff view watchPrefixes site event c.state

/-- Each removal of a buffer finds open files that agree. -/
def RemovalsAgree : ℕ → List RawEvent → EventCollectorState H → Prop
  | _, [], _ => True
  | site, raw :: rest, s =>
    (∀ event, raw.event = some event → RemovalAgrees (view site) watchPrefixes s event) ∧
      RemovalsAgree (site + 1) rest (nextState view watchPrefixes site raw s)

theorem processBufferedEvents_events (order : IterationOrder ℕ) (site : ℕ) (raws : List RawEvent) (c : Collected H) :
    c.events <+: (processBufferedEvents order view watchPrefixes site raws c).events := by
  induction raws generalizing site c with
  | nil => exact List.prefix_rfl
  | cons raw rest ih =>
    have hstep : c.events <+: (processRawEvent order view watchPrefixes site raw c).events := by
      obtain ⟨timestamp,_ | event⟩ := raw
      · exact List.prefix_rfl
      · exact List.prefix_append _ _
    exact hstep.trans (ih (site + 1) _)

theorem processRawEvent_events_length (order order' : IterationOrder ℕ) (site : ℕ) (raw : RawEvent)
    (c : Collected H) :
    (processRawEvent order view watchPrefixes site raw c).events.length =
      (processRawEvent order' view watchPrefixes site raw c).events.length := by
  obtain ⟨timestamp,_ | event⟩ := raw
  · rfl
  · obtain ⟨-,-,hlength⟩ := processEvent_orders view watchPrefixes site event c.state order order'
    simp only [processRawEvent,List.length_append,hlength]

theorem Collected.eq_of_parts {c c' : Collected H} (hs : c.state = c'.state) (he : c.events = c'.events) :
    c = c' := by
  obtain ⟨state,events⟩ := c
  obtain rfl : state = c'.state := hs
  obtain rfl : events = c'.events := he
  rfl

/-- The events of a run do not depend on the order of the descriptor table exactly when every
removal in it finds open files of its path that agree. -/
theorem removals_orderFree_iff (site : ℕ) (raws : List RawEvent) (c : Collected H) :
    (∀ order order' : IterationOrder ℕ, (processBufferedEvents order view watchPrefixes site raws c).events =
      (processBufferedEvents order' view watchPrefixes site raws c).events) ↔
      RemovalsAgree view watchPrefixes site raws c.state := by
  induction raws generalizing site c with
  | nil => exact iff_of_true (fun _ _ => rfl) trivial
  | cons raw rest ih =>
    have hstate (order : IterationOrder ℕ) := processRawEvent_state view watchPrefixes order site raw c
    have hrest := ih (site + 1) (processRawEvent .stored view watchPrefixes site raw c)
    rw [hstate] at hrest
    rw [RemovalsAgree,← hrest,← processRawEvent_events_iff]
    have hstored (hfirst : ∀ order order' : IterationOrder ℕ,
        (processRawEvent order view watchPrefixes site raw c).events =
          (processRawEvent order' view watchPrefixes site raw c).events) (order : IterationOrder ℕ) :
        processRawEvent order view watchPrefixes site raw c =
          processRawEvent .stored view watchPrefixes site raw c :=
      Collected.eq_of_parts ((hstate order).trans (hstate .stored).symm) (hfirst order .stored)
    constructor
    · intro h
      have hsame (order order' : IterationOrder ℕ) :
          (processBufferedEvents order view watchPrefixes (site + 1) rest
            (processRawEvent order view watchPrefixes site raw c)).events =
              (processBufferedEvents order' view watchPrefixes (site + 1) rest
                (processRawEvent order' view watchPrefixes site raw c)).events := h order order'
      have hfirst (order order' : IterationOrder ℕ) :
          (processRawEvent order view watchPrefixes site raw c).events =
            (processRawEvent order' view watchPrefixes site raw c).events := by
        have hlength := processRawEvent_events_length view watchPrefixes order order' site raw c
        have hleads := processBufferedEvents_events view watchPrefixes order (site + 1) rest
          (processRawEvent order view watchPrefixes site raw c)
        have hleads' := processBufferedEvents_events view watchPrefixes order' (site + 1) rest
          (processRawEvent order' view watchPrefixes site raw c)
        rw [hsame order order'] at hleads
        exact (List.prefix_of_prefix_length_le hleads hleads' hlength.le).eq_of_length hlength
      refine ⟨hfirst,fun order order' => ?_⟩
      have hboth := hsame order order'
      rwa [hstored hfirst order,hstored hfirst order'] at hboth
    · rintro ⟨hfirst,hrest⟩ order order'
      simp only [processBufferedEvents,hstored hfirst]
      exact hrest order order'

/-- Where the removals agree, a run does not depend on the order of the descriptor table. -/
theorem processBufferedEvents_of_removalsAgree {site : ℕ} {raws : List RawEvent} {c : Collected H}
    (h : RemovalsAgree view watchPrefixes site raws c.state) (order order' : IterationOrder ℕ) :
    processBufferedEvents order view watchPrefixes site raws c =
      processBufferedEvents order' view watchPrefixes site raws c := by
  induction raws generalizing site c with
  | nil => rfl
  | cons raw rest ih =>
    have hstate (order : IterationOrder ℕ) := processRawEvent_state view watchPrefixes order site raw c
    have hstep : processRawEvent order view watchPrefixes site raw c =
        processRawEvent order' view watchPrefixes site raw c :=
      Collected.eq_of_parts ((hstate order).trans (hstate order').symm)
        ((processRawEvent_events_iff view watchPrefixes site raw c).mpr h.1 order order')
    have hrest := h.2
    rw [← hstate order'] at hrest
    rw [processBufferedEvents,processBufferedEvents,hstep]
    exact ih hrest

end Runs

section Samples

/-- A machine where the file behind `/a` is another one from the second record on. -/
def replacedView (site : ℕ) : World Bool where
  readLink _ := none
  canonicalize _ := none
  openRegular _ := some (site != 0)
  tryClone replaced := some replaced
  observeFile replaced _ := .content (if replaced then
    utf8 "sha256:6b86b273ff34fce19d6b804eff5a3f5747ada4eaa22f1d49c01e52ddb7875b4b" else emptyContentHash)
  observePath _ := .missing emptyContentHash

/-- The root opens `/a` twice and removes it. -/
def removalOfReplaced : List RawEvent :=
  [⟨5,some ⟨0,5,.fileOpen ⟨10,10,3,atFdcwd,0,samplePath 97,2⟩⟩⟩,
    ⟨6,some ⟨0,6,.fileOpen ⟨10,10,4,atFdcwd,0,samplePath 97,2⟩⟩⟩,
    ⟨7,some ⟨0,7,.fileUnlink ⟨10,10,atFdcwd,0,7,samplePath 97,2⟩⟩⟩]

/-- The old and the new file have the same path, and either may be found first. -/
theorem removal_of_replaced_varies :
    ¬ ∀ (view : ℕ → World Bool) (watchPrefixes : List Str) (rootPid : UInt32) (rootCwd : Str) (raws : List RawEvent)
      (order order' : IterationOrder ℕ),
      (processBufferedEvents order view watchPrefixes 0 raws (.initial rootPid rootCwd 0)).events =
        (processBufferedEvents order' view watchPrefixes 0 raws (.initial rootPid rootCwd 0)).events := by
  intro h
  exact absurd (h replacedView [] 10 [slash] removalOfReplaced .stored .reversed) (by decide +kernel)

end Samples

end Repx.Trace
