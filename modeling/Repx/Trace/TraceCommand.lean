import Repx.Foundation.KeyedSort
import Repx.Trace.RefusedRecords
import Repx.Trace.RingRecords
import Repx.Trace.WatchFilter

/-! # A trace from the ring to its result

The ring is drained again and again while the command runs and until it has been quiet
for a while; then the buffer is sorted by timestamp and processed. What is collected
depends on the records in the ring, not on how they were drained: neither on the batches,
nor on the order in which the processors delivered them, nor on what the memory of the
ring held before.
-/
namespace Repx.Trace
open ByteString Utf8 UnixPaths HashTables RecordLayout Probe KeyedSort

/-- The buffer of the collector, and the count of items that were too short for it. -/
structure Drained where
  buffer : List (UInt64 × Str)
  malformed : UInt64
deriving DecidableEq

section Drain
variable (e : Endian)

def drainItem (d : Drained) (data : Str) : Drained :=
  if data.length < eventSize e then { d with malformed := saturatingAdd d.malformed 1 }
  else { d with buffer := d.buffer ++ [(itemTimestamp e data,data)] }

def drainRingIntoBuffer (items : List Str) (d : Drained) : Drained := items.foldl (drainItem e) d

/-- The drains of `collect_events` and `finish_with_sort`, each with the items it finds. -/
def drainAll (batches : List (List Str)) : Drained :=
  batches.foldl (fun d items => drainRingIntoBuffer e items d) ⟨[],0⟩

/-- A buffered item as it is processed. -/
def bufferedEvent (item : UInt64 × Str) : RawEvent :=
  ⟨item.1,if item.2.length < eventSize e then none else some (readEvent e item.2)⟩

theorem drainRing_eq (items : List Str) (d : Drained) :
    drainRingIntoBuffer e items d =
      ⟨d.buffer ++ (items.filter fun data => eventSize e ≤ data.length).map fun data => (itemTimestamp e data,data),
        saturatingAdd d.malformed (items.countP fun data => data.length < eventSize e)⟩ := by
  induction items generalizing d with
  | nil => simp [drainRingIntoBuffer,saturatingAdd_zero]
  | cons data items ih =>
    have hstep : drainRingIntoBuffer e (data :: items) d = drainRingIntoBuffer e items (drainItem e d data) := rfl
    rw [hstep,ih]
    by_cases hshort : data.length < eventSize e
    · simp [drainItem,hshort,saturatingAdd_add,Nat.add_comm]
    · simp [drainItem,hshort,Nat.le_of_not_lt hshort]

theorem drainAll_eq (batches : List (List Str)) :
    drainAll e batches = drainRingIntoBuffer e batches.flatten ⟨[],0⟩ := by
  rw [drainAll,drainRingIntoBuffer,List.foldl_flatten]
  rfl

/-- What is buffered and counted depends on the items alone. -/
theorem drainAll_perm {batches batches' : List (List Str)} (h : batches.flatten.Perm batches'.flatten) :
    (drainAll e batches).buffer.Perm (drainAll e batches').buffer ∧
      (drainAll e batches).malformed = (drainAll e batches').malformed := by
  rw [drainAll_eq,drainAll_eq,drainRing_eq,drainRing_eq]
  refine ⟨?_,?_⟩
  · exact ((h.filter _).map _).append_left _
  · dsimp only
    rw [h.countP_eq]

end Drain

/-- How a child is reported to have ended. -/
inductive WaitStatus where
  | exited (code : Int)
  | signaled (signal : Int)
deriving DecidableEq

def WaitStatus.exitCode : WaitStatus → Int
  | exited code => code
  | signaled signal => 128 + signal

/-- The executable of a command, searched for as `execvp` does. -/
def resolveExecutable (canonicalize : Str → Option Str) (isFile : Str → Bool) (searchPath : Option Str)
    (command : Str) : Str :=
  if slash ∈ command then lossy ((canonicalize command).getD command)
  else
    let candidates := ((searchPath.map fun paths => paths.splitOn 58).getD []).map fun dir => push dir command
    match candidates.find? isFile with
    | some candidate => lossy candidate
    | none => command

/-- What one trace finds outside of the program: the machine in front of which the command is spawned, the
child and its end, the machine at each record, the order of the tables, and the drop counter of the probes. -/
structure Session (H : Type) where
  start : World H
  isFile : Str → Bool
  searchPath : Option Str
  rootCwd : Str
  childPid : UInt32
  status : WaitStatus
  view : ℕ → World H
  order : IterationOrder ℕ
  dropCount : UInt64

structure TraceResult where
  events : List TracedEvent
  rootProcess : ProcessInstance
  droppedEvents : UInt64
deriving DecidableEq

section Command
variable {H : Type} (session : Session H)

/-- The synthetic exec of the root comes first. -/
def rootCommandExec (program : Str) : TracedEvent :=
  .exec ⟨⟨session.childPid,0⟩,0⟩
    (session.start.observePath
      (resolveExecutable session.start.canonicalize session.isFile session.searchPath program))

/-- The collector behind the sort. -/
def collectEvents (prefixes : List Str) (malformed : UInt64) (sorted : List RawEvent) : Collected H :=
  finishSorted session.order session.view prefixes session.childPid session.status.exitCode sorted
    (.initial session.childPid session.rootCwd malformed)

/-- `trace_command`, with the sorted buffer and the count of the items that were not buffered. -/
def traceCommand (program : Str) (watchDirs : List Str) (malformed : UInt64) (sorted : List RawEvent) :
    Except Str TraceResult := do
  let prefixes ← watchPrefixes session.start.canonicalize watchDirs
  let collected := collectEvents session prefixes malformed sorted
  .ok
    { events := rootCommandExec session program :: collected.events
      rootProcess := ⟨⟨session.childPid,0⟩,0⟩
      droppedEvents := saturatingAdd session.dropCount collected.state.malformedEvents.toNat }

end Command

section Records
variable {e e' : Endian} {raw raw' sorted sorted' : List RawEvent}

/-- Two results of the sort differ at most in the order of records with one timestamp. -/
theorem SortResult.eq_of_perm (hs : SortResult raw sorted) (hs' : SortResult raw' sorted') (h : raw.Perm raw')
    (hties : ∀ t, 1 < raw.countP (·.timestamp = t) →
      sorted.filter (·.timestamp = t) = sorted'.filter (·.timestamp = t)) : sorted = sorted' := by
  have hperm : sorted.Perm sorted' := (hs.perm.trans h).trans hs'.perm.symm
  have hle : ∀ {l : List RawEvent}, l.Pairwise (fun a b => a.timestamp ≤ b.timestamp) →
      l.Pairwise fun a b => a.timestamp.toNat ≤ b.timestamp.toNat := fun hl => hl.imp UInt64.le_iff_toNat_le.mp
  refine @eq_of_pairwise_of_filter_eq _ _ _ (fun r => r.timestamp.toNat) _ _ (hle hs.sorted) (hle hs'.sorted)
    fun k => ?_
  by_cases hk : ∃ t : UInt64, t.toNat = k
  · obtain ⟨t,rfl⟩ := hk
    simp only [UInt64.toNat_inj]
    by_cases hcount : 1 < raw.countP (·.timestamp = t)
    · exact hties t hcount
    · have hlen : (sorted.filter (·.timestamp = t)).length ≤ 1 := by
        rw [← List.countP_eq_length_filter,hs.perm.countP_eq]
        omega
      exact eq_of_perm_of_length_le_one (hperm.filter _) hlen
  · have hnone : ∀ l : List RawEvent, l.filter (fun r => r.timestamp.toNat = k) = [] :=
      fun l => List.filter_eq_nil_iff.mpr fun r _ hr => hk ⟨r.timestamp,by simpa using hr⟩
    rw [hnone,hnone]

/-- Items of the ring that hold the given records. -/
def Written (e : Endian) (events : List Event) (items : List Str) : Prop :=
  List.Forall₂ (fun event item => ∃ memory, memory.length = eventSize e ∧ item = writeEvent e event memory)
    events items

/-- A record behind its timestamp. -/
def recordOf (event : Event) : RawEvent := ⟨event.timestampNs,some event⟩

theorem bufferedEvent_writeEvent {event : Event} (hvalid : event.payload.Valid) {memory : Str}
    (h : memory.length = eventSize e) :
    bufferedEvent e (itemTimestamp e (writeEvent e event memory),writeEvent e event memory) = recordOf event := by
  rw [bufferedEvent,itemTimestamp_eq,readEvent_writeEvent hvalid h,length_writeEvent event h,
    if_neg (Nat.lt_irrefl _),recordOf]

/-- The ring delivers the records, and counts none of them as malformed. -/
theorem drainRing_written {events : List Event} {items : List Str} (hvalid : ∀ event ∈ events, event.payload.Valid)
    (hw : Written e events items) (d : Drained) :
    (drainRingIntoBuffer e items d).buffer.map (bufferedEvent e) =
        d.buffer.map (bufferedEvent e) ++ events.map recordOf ∧
      (drainRingIntoBuffer e items d).malformed = d.malformed := by
  induction hw generalizing d with
  | nil => exact ⟨by rw [drainRingIntoBuffer,List.foldl_nil,List.map_nil,List.append_nil],rfl⟩
  | cons hitem _ ih =>
    rename_i event item events items _
    obtain ⟨memory,hlen,rfl⟩ := hitem
    have hstep : drainRingIntoBuffer e (writeEvent e event memory :: items) d =
        drainRingIntoBuffer e items (drainItem e d (writeEvent e event memory)) := rfl
    obtain ⟨hbuffer,hcount⟩ := ih (fun other hm => hvalid other (List.mem_cons_of_mem _ hm))
      (drainItem e d (writeEvent e event memory))
    have hlong : ¬ (writeEvent e event memory).length < eventSize e := (length_writeEvent event hlen).ge.not_gt
    rw [hstep,hbuffer,hcount,drainItem,if_neg hlong]
    refine ⟨?_,rfl⟩
    rw [List.map_append,List.map_singleton,bufferedEvent_writeEvent (hvalid event List.mem_cons_self) hlen,
      List.append_assoc]
    rfl

/-- The items of the ring in any batches and any order. -/
def Delivered (e : Endian) (events : List Event) (batches : List (List Str)) : Prop :=
  ∃ items, Written e events items ∧ batches.flatten.Perm items

theorem Delivered.drained {events : List Event} {batches : List (List Str)} (h : Delivered e events batches)
    (hvalid : ∀ event ∈ events, event.payload.Valid) :
    ((drainAll e batches).buffer.map (bufferedEvent e)).Perm (events.map recordOf) ∧
      (drainAll e batches).malformed = 0 := by
  obtain ⟨items,hw,hperm⟩ := h
  have hone : [items].flatten = items := by simp
  obtain ⟨hbuffer,hcount⟩ := @drainAll_perm e batches [items] (by rwa [hone])
  obtain ⟨hrecords,hnone⟩ := drainRing_written hvalid hw ⟨[],0⟩
  rw [drainAll_eq e [items],hone] at hbuffer hcount
  exact ⟨(hbuffer.map _).trans (by rw [hrecords]; exact .refl _),hcount.trans hnone⟩

end Records

section Independence
variable {H : Type} {e e' : Endian} {events events' : List Event} {batches batches' : List (List Str)}
  {sorted sorted' : List RawEvent}

/-- A trace depends on the records that were submitted, not on their way through the ring: two deliveries of the
same records give the same result if the sort does not exchange records with one timestamp. -/
theorem traceCommand_of_records (session : Session H) (program : Str) (watchDirs : List Str)
    (hvalid : ∀ event ∈ events, event.payload.Valid) (hperm : events.Perm events')
    (hd : Delivered e events batches) (hd' : Delivered e' events' batches')
    (hs : SortResult ((drainAll e batches).buffer.map (bufferedEvent e)) sorted)
    (hs' : SortResult ((drainAll e' batches').buffer.map (bufferedEvent e')) sorted')
    (hties : ∀ t, 1 < events.countP (·.timestampNs = t) →
      sorted.filter (·.timestamp = t) = sorted'.filter (·.timestamp = t)) :
    traceCommand session program watchDirs (drainAll e batches).malformed sorted =
      traceCommand session program watchDirs (drainAll e' batches').malformed sorted' := by
  obtain ⟨hbuffer,hnone⟩ := hd.drained hvalid
  obtain ⟨hbuffer',hnone'⟩ := hd'.drained fun event hm => hvalid event (hperm.mem_iff.mpr hm)
  have hsorted : sorted = sorted' := by
    refine hs.eq_of_perm hs' (hbuffer.trans ((hperm.map _).trans hbuffer'.symm)) fun t ht => hties t ?_
    rw [hbuffer.countP_eq,List.countP_map] at ht
    exact ht
  rw [hnone,hnone',hsorted]

theorem Delivered.sortResult (hd : Delivered e events batches) (hvalid : ∀ event ∈ events, event.payload.Valid)
    (hsorted : (events.map recordOf).Pairwise fun a b => a.timestamp ≤ b.timestamp) :
    SortResult ((drainAll e batches).buffer.map (bufferedEvent e)) (events.map recordOf) :=
  ⟨(hd.drained hvalid).1.symm,hsorted⟩

/-- A fork of the root and the end of its child. -/
def forkedRecords : List Event := [⟨0,1,.processFork ⟨10,11⟩⟩,⟨0,2,.processExit ⟨11,11,0⟩⟩]

/-- Records written into memory that holds one byte throughout. -/
def filledItems (e : Endian) (byte : UInt8) (events : List Event) : List Str :=
  events.map fun event => writeEvent e event (List.replicate (eventSize e) byte)

theorem written_filledItems (e : Endian) (byte : UInt8) (events : List Event) :
    Written e events (filledItems e byte events) := by
  rw [Written,filledItems,List.forall₂_map_right_iff]
  exact List.forall₂_same.mpr fun event _ => ⟨_,List.length_replicate,rfl⟩

theorem delivered_filledItems (e : Endian) (byte : UInt8) (events : List Event) {batches : List (List Str)}
    (h : batches.flatten.Perm (filledItems e byte events)) : Delivered e events batches :=
  ⟨_,written_filledItems e byte events,h⟩

/-- A machine without files, on which the root exits at once. -/
def bareSession : Session Empty where
  start := bareWorld
  isFile _ := false
  searchPath := none
  rootCwd := [slash]
  childPid := 10
  status := .exited 0
  view _ := bareWorld
  order := .stored
  dropCount := 0

/-- One drain in order, or two in reverse on a machine of the other byte order. -/
theorem traceCommand_of_records_forked :
    traceCommand bareSession (utf8 "true") [] (drainAll .little [filledItems .little 0 forkedRecords]).malformed
        (forkedRecords.map recordOf) =
      traceCommand bareSession (utf8 "true") [] (drainAll .big [(filledItems .big 255 forkedRecords).drop 1,
        (filledItems .big 255 forkedRecords).take 1]).malformed (forkedRecords.map recordOf) := by
  have hvalid : ∀ event ∈ forkedRecords, event.payload.Valid := by
    intro event hm kind hk
    rcases List.mem_pair.mp hm with rfl | rfl <;> cases hk
  have hd : Delivered .little forkedRecords [filledItems .little 0 forkedRecords] :=
    delivered_filledItems _ 0 _ (.of_eq List.flatten_singleton)
  have hd' : Delivered .big forkedRecords [(filledItems .big 255 forkedRecords).drop 1,
      (filledItems .big 255 forkedRecords).take 1] :=
    delivered_filledItems _ 255 _ (List.Perm.swap _ _ _)
  exact traceCommand_of_records bareSession (utf8 "true") [] hvalid (.refl _) hd hd'
    (hd.sortResult hvalid (by decide)) (hd'.sortResult hvalid (by decide)) fun _ _ => rfl

end Independence

end Repx.Trace
