import Repx.Foundation.RacyCounter
import Repx.Probe.StashFrame
import Repx.Trace.TraceCommand

/-! # A recorded run from the probes to its result

The probes submit records, the ring delivers them, and the collector tells whether the
trace is complete. A rename that returns submits its two records under one key, or drops
are counted. A trace is therefore reported without dropped events exactly when no probe
counted a drop, every rename was sorted with its source in front, and the paths of renames
and removals can be read.
-/
namespace Repx.Trace
open ByteString HashTables RecordLayout Probe RacyCounter

/-- What is recorded of a rename on either side. -/
def marks (halves : List RenameHalf) : List (RenameKey × UInt64) := halves.map fun half => (half.key,half.timestamp)

def sourceMarks (events : List Event) : List (RenameKey × UInt64) := marks (renameSources (events.map recordOf))

def destinationMarks (events : List Event) : List (RenameKey × UInt64) :=
  marks (renameDestinations (events.map recordOf))

theorem sourceMarks_append (events new : List Event) :
    sourceMarks (events ++ new) = sourceMarks events ++ sourceMarks new := by
  simp only [sourceMarks,marks,renameSources,List.map_append,List.filterMap_append]

theorem destinationMarks_append (events new : List Event) :
    destinationMarks (events ++ new) = destinationMarks events ++ destinationMarks new := by
  simp only [destinationMarks,marks,renameDestinations,List.map_append,List.filterMap_append]

/-- A probe submits records of known kinds. Its renames have the given keys, and if no drop is counted both of
their records are there. -/
structure Submits (keys : List RenameKey) (m m' : Maps) : Prop where
  dropCount : m.dropCount ≤ m'.dropCount
  events : ∃ new, m'.events = m.events ++ new ∧ (∀ event ∈ new, event.payload.Known) ∧
    ((sourceMarks new).map Prod.fst).Sublist keys ∧
    (m'.dropCount = m.dropCount → sourceMarks new = destinationMarks new)

/-- Nothing is submitted. -/
structure SendsNothing (m m' : Maps) : Prop where
  events : m'.events = m.events
  dropCount : m.dropCount ≤ m'.dropCount

section Relations
variable {keys keys' : List RenameKey} {m m' m'' : Maps}

theorem SendsNothing.refl (m : Maps) : SendsNothing m m := ⟨rfl,Nat.le_refl _⟩

theorem SendsNothing.trans (h : SendsNothing m m') (h' : SendsNothing m' m'') : SendsNothing m m'' :=
  ⟨h'.events.trans h.events,Nat.le_trans h.dropCount h'.dropCount⟩

theorem SendsNothing.recordDrop (m : Maps) : SendsNothing m m.recordDrop := ⟨rfl,Nat.le_succ _⟩

theorem SendsNothing.submits (h : SendsNothing m m') (keys : List RenameKey) : Submits keys m m' :=
  ⟨h.dropCount,[],by rw [h.events,List.append_nil],by simp,List.nil_sublist _,fun _ => rfl⟩

theorem Submits.trans (h : Submits keys m m') (h' : Submits keys' m' m'') : Submits (keys ++ keys') m m'' := by
  obtain ⟨new,hevents,hknown,hkeys,hpaired⟩ := h.events
  obtain ⟨new',hevents',hknown',hkeys',hpaired'⟩ := h'.events
  refine ⟨Nat.le_trans h.dropCount h'.dropCount,new ++ new',?_,?_,?_,fun hcount => ?_⟩
  · rw [hevents',hevents,List.append_assoc]
  · intro event hm
    rcases List.mem_append.mp hm with hm | hm
    · exact hknown event hm
    · exact hknown' event hm
  · rw [sourceMarks_append,List.map_append]
    exact hkeys.append hkeys'
  · have hle := h.dropCount
    have hle' := h'.dropCount
    rw [sourceMarks_append,destinationMarks_append,hpaired (by omega),hpaired' (by omega)]

/-- A record that is not about a rename. -/
def isPlain (event : Event) : Bool :=
  match event.payload with
  | .unknown _ | .fileRenameSource _ | .fileRenameDestination _ => false
  | _ => true

theorem submits_record (keys : List RenameKey) (m : Maps) (reserved : Bool) {event : Event}
    (h : isPlain event = true) : Submits keys m (m.submit reserved event) := by
  cases reserved with
  | false => exact (SendsNothing.recordDrop m).submits keys
  | true =>
    obtain ⟨source,now,payload⟩ := event
    have hplain : payload.Known ∧ sourceMarks [⟨source,now,payload⟩] = [] ∧
        destinationMarks [⟨source,now,payload⟩] = [] := by
      cases payload with
      | unknown | fileRenameSource | fileRenameDestination => cases h
      | _ => exact ⟨(fun _ => nofun),rfl,rfl⟩
    obtain ⟨hknown,hsource,hdestination⟩ := hplain
    refine ⟨Nat.le_refl _,_,rfl,fun other hm => List.mem_singleton.mp hm ▸ hknown,?_,fun _ => ?_⟩
    · rw [hsource]
      exact List.nil_sublist _
    · rw [hsource,hdestination]

end Relations

section Handlers
variable {m : Maps} {task : PidTgid}

theorem sendsNothing_trackPid (m : Maps) (inserted : Bool) (tgid : UInt32) :
    SendsNothing m (m.trackPid inserted tgid) := by
  cases inserted with
  | false => exact .recordDrop m
  | true => exact ⟨rfl,Nat.le_refl _⟩

theorem sendsNothing_untrackPid (m : Maps) (tgid : UInt32) : SendsNothing m (m.untrackPid tgid) :=
  ⟨rfl,Nat.le_refl _⟩

theorem sendsNothing_stashPath {store : PathStash → Maps} (hstore : ∀ stash, SendsNothing m (store stash))
    (path : StringRead) (inserted : Bool) : SendsNothing m (m.stashPath store path inserted).1 := by
  unfold Maps.stashPath
  split
  · exact .recordDrop m
  · split
    · exact hstore _
    · exact .recordDrop m

theorem sendsNothing_stashOldPath (m : Maps) (task : PidTgid) (path : StringRead) (inserted : Bool) :
    SendsNothing m (m.stashOldPath task path inserted).1 := by
  refine sendsNothing_stashPath (fun stash => ?_) path inserted
  exact ⟨rfl,Nat.le_refl _⟩

theorem sendsNothing_stashNewPath (m : Maps) (task : PidTgid) (path : StringRead) (inserted : Bool) :
    SendsNothing m (m.stashNewPath task path inserted).1 := by
  refine sendsNothing_stashPath (fun stash => ?_) path inserted
  exact ⟨rfl,Nat.le_refl _⟩

theorem sendsNothing_removePathStash (m : Maps) (task : PidTgid) : SendsNothing m (m.removePathStash task) :=
  ⟨rfl,Nat.le_refl _⟩

theorem sendsNothing_insertPathOp (m : Maps) (task : PidTgid) (stash : PathOpStash) (inserted : Bool) :
    SendsNothing m (m.insertPathOp task stash inserted) := by
  cases inserted with
  | false => exact (SendsNothing.recordDrop m).trans (sendsNothing_removePathStash _ task)
  | true => exact ⟨rfl,Nat.le_refl _⟩

theorem sendsNothing_stashRename (m : Maps) (task : PidTgid) (oldDfd : Int32) (oldPath : StringRead) (newDfd : Int32)
    (newPath : StringRead) (flags : UInt32) (inserted : PathInserts) :
    SendsNothing m (stashRename m task oldDfd oldPath newDfd newPath flags inserted) := by
  have hboth : SendsNothing m ((m.stashOldPath task oldPath inserted.oldPath).1.stashNewPath task newPath
      inserted.newPath).1 :=
    (sendsNothing_stashOldPath m task oldPath _).trans (sendsNothing_stashNewPath _ task newPath _)
  have hdropped := (hboth.trans (.recordDrop _)).trans (sendsNothing_removePathStash _ task)
  unfold stashRename
  dsimp only
  split
  · exact .refl m
  · split
    · exact hboth.trans (sendsNothing_removePathStash _ task)
    · split
      · exact hdropped
      · split
        · exact hdropped
        · split
          · exact hboth.trans (sendsNothing_removePathStash _ task)
          · exact hboth.trans (sendsNothing_insertPathOp _ task _ _)

theorem sendsNothing_stashUnlink (m : Maps) (task : PidTgid) (dfd : Int32) (path : StringRead) (flags : UInt32)
    (inserted : PathInserts) : SendsNothing m (stashUnlink m task dfd path flags inserted) := by
  have hold := sendsNothing_stashOldPath m task path inserted.oldPath
  unfold stashUnlink
  dsimp only
  split
  · exact .refl m
  · split
    · exact hold.trans (sendsNothing_removePathStash _ task)
    · split
      · exact (hold.trans (.recordDrop _)).trans (sendsNothing_removePathStash _ task)
      · split
        · exact hold.trans (sendsNothing_removePathStash _ task)
        · exact hold.trans (sendsNothing_insertPathOp _ task _ _)

/-- The key of the records that the return of a rename submits. -/
def exitKey (run : PidTgid × Handler) : Option RenameKey :=
  match run.2 with
  | .pathOpExit _ now _ _ => some ⟨run.1.pid,now⟩
  | _ => none

/-- The two records of a rename, each with a reservation of its own. -/
theorem submits_rename (m : Maps) (task : PidTgid) (reserved newReserved : Bool) (source : UInt8) (now : UInt64)
    (oldDfd newDfd : Int32) (flags : UInt32) (old new : PathStash) :
    Submits [⟨task.pid,now⟩] m
      (((m.emitPathEvent task reserved .fileRenameSource source now oldDfd flags old).emitPathEvent task newReserved
        .fileRenameDestination source now newDfd flags new).removePathStash task) := by
  cases reserved with
  | false =>
    cases newReserved with
    | false =>
      refine SendsNothing.submits ?_ _
      exact ⟨rfl,Nat.le_add_right _ 2⟩
    | true =>
      refine ⟨Nat.le_succ _,_,rfl,?_,List.nil_sublist _,fun hcount => absurd hcount (Nat.succ_ne_self _)⟩
      intro event hm kind hkind
      rw [List.mem_singleton.mp hm] at hkind
      cases hkind
  | true =>
    cases newReserved with
    | false =>
      refine ⟨Nat.le_succ _,_,rfl,?_,List.Sublist.refl _,fun hcount => absurd hcount (Nat.succ_ne_self _)⟩
      intro event hm kind hkind
      rw [List.mem_singleton.mp hm] at hkind
      cases hkind
    | true =>
      refine ⟨Nat.le_refl _,_,List.append_assoc _ _ _,?_,List.Sublist.refl _,fun _ => rfl⟩
      intro event hm kind hkind
      rcases List.mem_pair.mp hm with rfl | rfl <;> cases hkind

/-- A destination that is gone counts as a drop. -/
theorem submits_rename_alone (m : Maps) (task : PidTgid) (reserved : Bool) (source : UInt8) (now : UInt64)
    (oldDfd : Int32) (flags : UInt32) (old : PathStash) :
    Submits [⟨task.pid,now⟩] m
      ((m.emitPathEvent task reserved .fileRenameSource source now oldDfd flags old).recordDrop.removePathStash
        task) := by
  cases reserved with
  | false =>
    refine SendsNothing.submits ?_ _
    exact ⟨rfl,Nat.le_add_right _ 2⟩
  | true =>
    refine ⟨Nat.le_succ _,_,rfl,?_,List.Sublist.refl _,fun hcount => absurd hcount (Nat.succ_ne_self _)⟩
    intro event hm kind hkind
    rw [List.mem_singleton.mp hm] at hkind
    cases hkind

theorem submits_pathOpExit (m : Maps) (task : PidTgid) (ret : Int64) (now : UInt64) (reserved newReserved : Bool) :
    Submits [⟨task.pid,now⟩] m (tryPathOpExit m task ret now reserved newReserved) := by
  have hremove (m : Maps) : SendsNothing m (m.removePathStash task) := sendsNothing_removePathStash m task
  have hdrop (m : Maps) : SendsNothing m (m.recordDrop.removePathStash task) :=
    (SendsNothing.recordDrop m).trans (hremove _)
  unfold tryPathOpExit
  split
  · exact (SendsNothing.refl m).submits _
  · split
    · exact (hremove m).submits _
    · split
      · split
        · exact (hdrop m).submits _
        · dsimp only
          split
          · exact submits_rename_alone m task reserved _ now _ _ _
          · exact submits_rename m task reserved newReserved _ now _ _ _ _ _
      · split
        · split
          · exact (hdrop m).submits _
          · rename_i path _
            exact (submits_record [⟨task.pid,now⟩] m reserved (by rfl)).trans ((hremove _).submits [])
        · exact (hremove m).submits _

theorem sendsNothing_openatEnter (m : Maps) (task : PidTgid) (dfd : Int32) (path : StringRead) (flags : UInt32)
    (inserted : Bool) : SendsNothing m (tryOpenatEnter m task dfd path flags inserted) := by
  simp only [tryOpenatEnter]
  split
  · exact .refl m
  · split
    · exact .refl m
    · split
      · exact ⟨rfl,Nat.le_refl _⟩
      · exact .recordDrop m

theorem submits_openatExit (m : Maps) (task : PidTgid) (ret : Int64) (now : UInt64) (reserved inserted : Bool) :
    Submits [] m (tryOpenatExit m task ret now reserved inserted) := by
  simp only [tryOpenatExit]
  split
  · exact (SendsNothing.refl m).submits []
  · rename_i stash _
    have hclear : SendsNothing m { m with openatStash := Function.update m.openatStash task none } :=
      ⟨rfl,Nat.le_refl _⟩
    split
    · exact hclear.submits []
    · have hsubmitted := (hclear.submits []).trans (@submits_record [] _ reserved ⟨stash.fromWatch,now,
        .fileOpen ⟨task.pid,task.tgid,ret.toInt32,stash.dfd,stash.flags,stash.path,stash.pathLen⟩⟩ rfl)
      split
      · split
        · refine hsubmitted.trans (SendsNothing.submits ?_ [])
          exact ⟨rfl,Nat.le_refl _⟩
        · exact hsubmitted.trans ((SendsNothing.recordDrop _).submits [])
      · exact hsubmitted

theorem submits_closeEnter (m : Maps) (task : PidTgid) (fd : Int32) (now : UInt64) (reserved : Bool) :
    Submits [] m (tryCloseEnter m task fd now reserved) := by
  simp only [tryCloseEnter]
  split
  · exact submits_record [] m reserved (by rfl)
  · split
    · have herased : SendsNothing m { m with watchedFds := m.watchedFds.erase (task.tgid,fd.toUInt32) } :=
        ⟨rfl,Nat.le_refl _⟩
      exact (herased.submits []).trans (submits_record [] _ reserved (by rfl))
    · exact (SendsNothing.refl m).submits []

theorem submits_mmapEnter (m : Maps) (task : PidTgid) (prot flags : UInt64) (fd : Int64) (now : UInt64)
    (reserved : Bool) : Submits [] m (tryMmapEnter m task prot flags fd now reserved) := by
  simp only [tryMmapEnter]
  split
  · exact (SendsNothing.refl m).submits []
  · split
    · exact submits_record [] m reserved (by rfl)
    · split
      · exact submits_record [] m reserved (by rfl)
      · exact (SendsNothing.refl m).submits []

theorem submits_exec (m : Maps) (task : PidTgid) (inserted reserved : Bool) (now : UInt64) (filename : StringRead) :
    Submits [] m (tryExec m task inserted reserved now filename) := by
  have htracked : SendsNothing m (if task.tgid ∈ m.rootPid then m.trackPid inserted task.tgid else m) := by
    split
    · exact sendsNothing_trackPid m inserted task.tgid
    · exact .refl m
  simp only [tryExec]
  generalize (if task.tgid ∈ m.rootPid then m.trackPid inserted task.tgid else m) = tracked at htracked ⊢
  split
  · exact (htracked.submits []).trans (submits_record [] _ reserved (by rfl))
  · exact htracked.submits []

theorem submits_fork (m : Maps) (task : PidTgid) (inserted reserved : Bool) (now : UInt64) (childPid : UInt32) :
    Submits [] m (tryFork m task inserted reserved now childPid) := by
  simp only [tryFork]
  split
  · exact (submits_record [] m reserved (by rfl)).trans ((sendsNothing_trackPid _ inserted childPid).submits [])
  · exact (SendsNothing.refl m).submits []

theorem sendsNothing_cloneExit (m : Maps) (task : PidTgid) (inserted : Bool) (ret : Int64) :
    SendsNothing m (tryCloneExit m task inserted ret) := by
  simp only [tryCloneExit]
  split
  · exact .refl m
  · split
    · exact sendsNothing_trackPid m inserted _
    · exact .refl m

theorem submits_exit (m : Maps) (task : PidTgid) (reserved : Bool) (now : UInt64) :
    Submits [] m (tryExit m task reserved now) := by
  simp only [tryExit]
  split
  · split
    · exact (sendsNothing_untrackPid m task.pid).submits []
    · exact (submits_record [] m reserved (by rfl)).trans ((sendsNothing_untrackPid _ task.tgid).submits [])
  · exact (SendsNothing.refl m).submits []

/-- What any run of a probe submits. -/
theorem submits_run (m : Maps) (task : PidTgid) (handler : Handler) :
    Submits (exitKey (task,handler)).toList m (handler.run m task) := by
  cases handler with
  | openatEnter dfd path flags inserted => exact (sendsNothing_openatEnter m task dfd path flags inserted).submits []
  | openatExit ret now reserved inserted => exact submits_openatExit m task ret now reserved inserted
  | renameEnter oldPath newPath inserted => exact (sendsNothing_stashRename m task _ _ _ _ _ _).submits []
  | renameatEnter oldDfd oldPath newDfd newPath inserted =>
    exact (sendsNothing_stashRename m task _ _ _ _ _ _).submits []
  | renameat2Enter oldDfd oldPath newDfd newPath flags inserted =>
    exact (sendsNothing_stashRename m task _ _ _ _ _ _).submits []
  | unlinkEnter path inserted => exact (sendsNothing_stashUnlink m task _ _ _ _).submits []
  | unlinkatEnter dfd path flags inserted => exact (sendsNothing_stashUnlink m task _ _ _ _).submits []
  | pathOpExit ret now reserved newReserved => exact submits_pathOpExit m task ret now reserved newReserved
  | closeEnter fd now reserved => exact submits_closeEnter m task fd now reserved
  | mmapEnter prot flags fd now reserved => exact submits_mmapEnter m task prot flags fd now reserved
  | exec inserted reserved now filename => exact submits_exec m task inserted reserved now filename
  | fork inserted reserved now childPid => exact submits_fork m task inserted reserved now childPid
  | cloneExit inserted ret => exact (sendsNothing_cloneExit m task inserted ret).submits []
  | exit reserved now => exact submits_exit m task reserved now

/-- Over any run of probes. -/
theorem submits_interfere (runs : List (PidTgid × Handler)) (m : Maps) :
    Submits (runs.filterMap exitKey) m (interfere runs m) := by
  induction runs generalizing m with
  | nil => exact (SendsNothing.refl m).submits []
  | cons run runs ih =>
    have hboth := (submits_run m run.1 run.2).trans (ih (run.2.run m run.1))
    have hkeys : (run :: runs).filterMap exitKey = (exitKey run).toList ++ runs.filterMap exitKey := by
      cases hkey : exitKey run <;> simp [hkey]
    rw [hkeys]
    exact hboth

end Handlers

section Result
variable {H P : Type} {e : Endian} {batches : List (List Str)} {raw sorted : List RawEvent}

/-- The maps behind a run of probes. -/
def recorded (childPid : UInt32) (prefixes : List Str) (runs : List (PidTgid × Handler)) : Maps :=
  interfere runs (armWatch (rootMaps childPid) prefixes)

theorem submits_recorded (childPid : UInt32) (prefixes : List Str) (runs : List (PidTgid × Handler)) :
    (∀ event ∈ (recorded childPid prefixes runs).events, event.payload.Known) ∧
      ((sourceMarks (recorded childPid prefixes runs).events).map Prod.fst).Sublist (runs.filterMap exitKey) ∧
      ((recorded childPid prefixes runs).dropCount = 0 →
        sourceMarks (recorded childPid prefixes runs).events =
          destinationMarks (recorded childPid prefixes runs).events) := by
  have hstart : (armWatch (rootMaps childPid) prefixes).events = [] ∧
      (armWatch (rootMaps childPid) prefixes).dropCount = 0 := by
    unfold armWatch
    split <;> exact ⟨rfl,rfl⟩
  obtain ⟨new,hevents,hknown,hkeys,hpaired⟩ :=
    (submits_interfere runs (armWatch (rootMaps childPid) prefixes)).events
  rw [hstart.1,List.nil_append] at hevents
  rw [recorded,hevents]
  exact ⟨hknown,hkeys,fun hcount => hpaired (hcount.trans hstart.2.symm)⟩

/-- The paths of renames and removals can be read. -/
def PathsRead (sorted : List RawEvent) : Prop := ∀ raw ∈ sorted, raw.opensPath = false → raw.PathDecodes

theorem isSome_of_pathsRead (h : PathsRead sorted) {half : RenameHalf}
    (hm : half ∈ renameSources sorted ∨ half ∈ renameDestinations sorted) : half.path.isSome = true := by
  rcases hm with hm | hm
  all_goals
    obtain ⟨raw,hraw,hhalf⟩ := List.mem_filterMap.mp hm
  · obtain ⟨source,timestampNs,hevent,-⟩ := RawEvent.event_of_renameSource hhalf
    have hdecodes := h raw hraw (by simp only [RawEvent.opensPath,hevent])
    exact decodeEventPath_isSome.mpr (hdecodes (half.payload.path,half.payload.pathLen)
      (by simp only [RawEvent.pathField,hevent]))
  · obtain ⟨source,timestampNs,hevent,-⟩ := RawEvent.event_of_renameDestination hhalf
    have hdecodes := h raw hraw (by simp only [RawEvent.opensPath,hevent])
    exact decodeEventPath_isSome.mpr (hdecodes (half.payload.path,half.payload.pathLen)
      (by simp only [RawEvent.pathField,hevent]))

/-- Records of known kinds are refused for their paths only. -/
theorem not_malformed_of_pathsRead {events : List Event} (hknown : ∀ event ∈ events, event.payload.Known)
    (hperm : sorted.Perm (events.map recordOf)) (h : PathsRead sorted) : sorted.countP RawEvent.malformed = 0 := by
  refine List.countP_eq_zero.mpr fun raw hraw => ?_
  obtain ⟨⟨source,timestampNs,payload⟩,hevent,rfl⟩ := List.mem_map.mp (hperm.mem_iff.mp hraw)
  cases payload with
  | unknown kind => exact absurd rfl (hknown _ hevent kind)
  | fileUnlink payload =>
    have hsome := decodeEventPath_isSome.mpr (h _ hraw rfl (payload.path,payload.pathLen) rfl)
    simp [RawEvent.malformed,recordOf,Option.isSome_iff_ne_none.mp hsome]
  | _ => simp [RawEvent.malformed,recordOf]

/-- Where the renames of a buffer have both halves, it joins if it is sorted well and its paths can be read. -/
theorem recordsJoin_iff {H : Type} (w : World H) {events : List Event}
    (hknown : ∀ event ∈ events, event.payload.Known) (hperm : sorted.Perm (events.map recordOf))
    (hnodup : ((sourceMarks events).map Prod.fst).Nodup) (hpaired : sourceMarks events = destinationMarks events) :
    recordsJoin [] sorted = true ↔ SourceFirst sorted ∧ PathsRead sorted := by
  have hpairs (hread : PathsRead sorted) : PairedRenames sorted := by
    have hsources := hperm.filterMap RawEvent.renameSource
    have hdestinations := hperm.filterMap RawEvent.renameDestination
    refine ⟨?_,?_,fun half hm => isSome_of_pathsRead hread (Or.inl hm),
      fun half hm => isSome_of_pathsRead hread (Or.inr hm)⟩
    · rw [sourceMarks,marks,List.map_map] at hnodup
      exact ((hsources.map _).nodup_iff).mpr hnodup
    · exact ((hsources.map _).trans (.of_eq hpaired)).trans (hdestinations.map _).symm
  have hwaits : Waits [] (Collected.initial (H := H) 0 [] 0).state := by
    intro key
    simp [Collected.initial,EventCollectorState.new]
  have hcomplete := processBufferedEvents_complete_iff .stored (fun _ => w) [] sorted [] 0 (.initial 0 [] 0) hwaits
  constructor
  · intro hjoin
    have hread : PathsRead sorted := pathDecodes_of_recordsJoin hjoin
    refine ⟨?_,hread⟩
    by_contra hfirst
    obtain ⟨key,hkey⟩ := exists_waiting_of_not_sourceFirst (hpairs hread) hfirst .stored (fun _ => w) []
      (.initial 0 [] 0)
    rw [(hcomplete.mpr ⟨rfl,hjoin⟩).2] at hkey
    exact Std.ExtTreeMap.not_mem_empty hkey
  · rintro ⟨hfirst,hread⟩
    have hjoined : Joined [] sorted (Collected.initial 0 [] 0) sorted
        (processBufferedEvents .stored (fun _ => w) [] 0 sorted (.initial 0 [] 0)) :=
      Joined.run (hpairs hread) hfirst sorted [] 0 _ rfl (.initial rfl)
    refine (hcomplete.mp ⟨?_,?_⟩).2
    · rw [hjoined.malformed,not_malformed_of_pathsRead hknown hperm hread]
      exact saturatingAdd_zero 0
    · refine Std.ExtTreeMap.eq_empty_iff_forall_not_mem.mpr fun key hkey => ?_
      have hwaiting := (hjoined.waiting key).mp hkey
      exact hwaiting.2 ((hpairs hread).keys.mem_iff.mp hwaiting.1)

/-- A recorded run is reported without dropped events exactly if no probe counted a drop, each rename was sorted
with its source in front, and the paths of renames and removals can be read. The counts of the probes may overlap,
and the ring may deliver the records in any order. -/
theorem droppedEvents_eq_zero_iff [DecidableEq P] (session : Session H) (program : Str) (watchDirs : List Str)
    {prefixes : List Str} (hprefixes : watchPrefixes session.start.canonicalize watchDirs = .ok prefixes)
    (runs : List (PidTgid × Handler)) (hapart : (runs.filterMap exitKey).Nodup) {counter : Counter P}
    (hcounter : Relation.ReflTransGen Step Counter.start counter) (hlt : counter.done < 2 ^ 64)
    (hdone : counter.done = (recorded session.childPid prefixes runs).dropCount)
    (hdrops : session.dropCount = counter.value)
    (hd : Delivered e (recorded session.childPid prefixes runs).events batches)
    (hs : SortResult ((drainAll e batches).buffer.map (bufferedEvent e)) sorted) :
    ∃ result, traceCommand session program watchDirs (drainAll e batches).malformed sorted = .ok result ∧
      (result.droppedEvents = 0 ↔
        (recorded session.childPid prefixes runs).dropCount = 0 ∧ SourceFirst sorted ∧ PathsRead sorted) := by
  obtain ⟨hknown,hkeys,hpaired⟩ := submits_recorded session.childPid prefixes runs
  obtain ⟨hbuffer,hshort⟩ := hd.drained fun event hm => (hknown event hm).valid
  refine ⟨_,by rw [traceCommand,hprefixes]; rfl,?_⟩
  have hcollected := finishSorted_complete_iff session.order session.view prefixes session.childPid
    session.status.exitCode session.childPid session.rootCwd (drainAll e batches).malformed sorted
  have hcount : session.dropCount = 0 ↔ (recorded session.childPid prefixes runs).dropCount = 0 := by
    rw [hdrops,value_eq_zero_iff hcounter hlt,hdone]
  show saturatingAdd session.dropCount _ = 0 ↔ _
  rw [saturatingAdd_eq_zero,hcount,← UInt64.toNat_zero,UInt64.toNat_inj]
  refine and_congr_right fun hnone => ?_
  rw [collectEvents,hcollected,hshort,recordsJoin_iff session.start hknown (hs.perm.trans hbuffer)
    (hkeys.nodup hapart) (hpaired hnone)]
  exact and_iff_right rfl

/-- The root renames `/a` to `/b`. -/
def renameRuns : List (PidTgid × Handler) :=
  [(⟨10,10⟩,.renameEnter (some ⟨[slash,97],by decide⟩) (some ⟨[slash,98],by decide⟩) ⟨true,true,true⟩),
    (⟨10,10⟩,.pathOpExit 0 5 true true)]

theorem droppedEvents_eq_zero_iff_rename : ∃ batches sorted result,
    traceCommand bareSession (utf8 "true") [] (drainAll .little batches).malformed sorted = .ok result ∧
      (result.droppedEvents = 0 ↔
        (recorded 10 [] renameRuns).dropCount = 0 ∧ SourceFirst sorted ∧ PathsRead sorted) := by
  have hvalid : ∀ event ∈ (recorded 10 [] renameRuns).events, event.payload.Valid :=
    fun event hm => ((submits_recorded 10 [] renameRuns).1 event hm).valid
  have hd : Delivered .little (recorded 10 [] renameRuns).events
      [filledItems .little 0 (recorded 10 [] renameRuns).events] :=
    delivered_filledItems _ 0 _ (.of_eq List.flatten_singleton)
  have hs := hd.sortResult hvalid (by decide +kernel)
  exact ⟨_,_,@droppedEvents_eq_zero_iff Empty ℕ _ _ _ _ bareSession (utf8 "true") [] [] rfl renameRuns (by decide) .start
    .refl (by decide) rfl rfl hd hs⟩

end Result

end Repx.Trace
