import Repx.Foundation.RecordLayout
import Repx.Trace.Collector

/-! # Records as bytes of the ring buffer

The probes reserve memory in the ring and fill in the fields of a record; the rest of the
memory keeps what it held. The collector drains the items of the ring into a buffer, each
with the timestamp found at its fixed place, and reads the records back after the sort. An
item that is shorter than a record is counted and left out.
-/
namespace Repx.Trace
open ByteString RecordLayout Probe Format Codec

/-- The discriminants of the records. -/
inductive EventKind where
  | fileOpen
  | fileClose
  | processExec
  | processExit
  | fileMmap
  | fileRenameSource
  | fileRenameDestination
  | fileUnlink
  | processFork
deriving DecidableEq

def EventKind.code : EventKind → UInt32
  | fileOpen => 1
  | fileClose => 2
  | processExec => 3
  | processExit => 4
  | fileMmap => 5
  | fileRenameSource => 6
  | fileRenameDestination => 7
  | fileUnlink => 8
  | processFork => 9

/-- `EventKind::try_from`. -/
def EventKind.tryFrom (value : UInt32) : Option EventKind :=
  if value = 1 then some fileOpen
  else if value = 2 then some fileClose
  else if value = 3 then some processExec
  else if value = 4 then some processExit
  else if value = 5 then some fileMmap
  else if value = 6 then some fileRenameSource
  else if value = 7 then some fileRenameDestination
  else if value = 8 then some fileUnlink
  else if value = 9 then some processFork
  else none

theorem EventKind.tryFrom_code (kind : EventKind) : tryFrom kind.code = some kind := by
  cases kind <;> rfl

section Formats
variable (e : Endian)

def fileOpenFormat : Format FileOpenEvent :=
  ((field (u32 e)).seq ((field (u32 e)).seq ((field (i32 e)).seq ((field (i32 e)).seq ((field (u32 e)).seq
    ((field (byteArray maxPathLen)).seq (field (u32 e)))))))).map
    (fun (pid,tgid,fd,dfd,flags,path,pathLen) => ⟨pid,tgid,fd,dfd,flags,path,pathLen⟩)
    (fun p => (p.pid,p.tgid,p.fd,p.dfd,p.flags,p.path,p.pathLen)) fun _ => rfl

def fileCloseFormat : Format FileCloseEvent :=
  ((field (u32 e)).seq ((field (u32 e)).seq (field (i32 e)))).map
    (fun (pid,tgid,fd) => ⟨pid,tgid,fd⟩) (fun p => (p.pid,p.tgid,p.fd)) fun _ => rfl

def processExecFormat : Format ProcessExecEvent :=
  ((field (u32 e)).seq ((field (u32 e)).seq ((field (byteArray maxPathLen)).seq (field (u32 e))))).map
    (fun (pid,tgid,filename,filenameLen) => ⟨pid,tgid,filename,filenameLen⟩)
    (fun p => (p.pid,p.tgid,p.filename,p.filenameLen)) fun _ => rfl

def processExitFormat : Format ProcessExitEvent :=
  ((field (u32 e)).seq ((field (u32 e)).seq (field (i32 e)))).map
    (fun (pid,tgid,exitCode) => ⟨pid,tgid,exitCode⟩) (fun p => (p.pid,p.tgid,p.exitCode)) fun _ => rfl

def processForkFormat : Format ProcessForkEvent :=
  ((field (u32 e)).seq (field (u32 e))).map
    (fun (parentPid,childPid) => ⟨parentPid,childPid⟩) (fun p => (p.parentPid,p.childPid)) fun _ => rfl

def fileMmapFormat : Format FileMmapEvent :=
  ((field (u32 e)).seq ((field (u32 e)).seq ((field (i32 e)).seq ((field (u32 e)).seq (field (u32 e)))))).map
    (fun (pid,tgid,fd,prot,flags) => ⟨pid,tgid,fd,prot,flags⟩)
    (fun p => (p.pid,p.tgid,p.fd,p.prot,p.flags)) fun _ => rfl

def filePathFormat : Format FilePathEvent :=
  ((field (u32 e)).seq ((field (u32 e)).seq ((field (i32 e)).seq ((field (u32 e)).seq ((field (u64 e)).seq
    ((field (byteArray maxPathLen)).seq (field (u32 e)))))))).map
    (fun (pid,tgid,dfd,flags,operationId,path,pathLen) => ⟨pid,tgid,dfd,flags,operationId,path,pathLen⟩)
    (fun p => (p.pid,p.tgid,p.dfd,p.flags,p.operationId,p.path,p.pathLen)) fun _ => rfl

/-- The fields in front of the payload: kind, source, three bytes of padding and the timestamp. -/
def headerFormat : Format (UInt32 × UInt8 × Unit × UInt64) :=
  (field (u32 e)).seq ((field u8).seq ((gap 3).seq (field (u64 e))))

/-- The union is as large as its largest member and aligned as the one with the 64-bit field. -/
def payloadSize : ℕ :=
  [(fileOpenFormat e).sizeOf 4,(fileCloseFormat e).sizeOf 4,(fileMmapFormat e).sizeOf 4,(filePathFormat e).sizeOf 8,
    (processExecFormat e).sizeOf 4,(processExitFormat e).sizeOf 4,(processForkFormat e).sizeOf 4].foldr max 0

def payloadStart : ℕ := alignUp ((headerFormat e).finish 0) 8

def eventSize : ℕ := alignUp (payloadStart e + alignUp (payloadSize e) 8) 8

example : payloadStart .little = 16 ∧ eventSize .little = 304 := by decide

end Formats

end Repx.Trace

namespace Repx.Probe.EventPayload
open Trace

/-- The value of the kind field. -/
def kindCode : EventPayload → UInt32
  | fileOpen _ => EventKind.fileOpen.code
  | fileClose _ => EventKind.fileClose.code
  | processExec _ => EventKind.processExec.code
  | processExit _ => EventKind.processExit.code
  | fileMmap _ => EventKind.fileMmap.code
  | fileRenameSource _ => EventKind.fileRenameSource.code
  | fileRenameDestination _ => EventKind.fileRenameDestination.code
  | fileUnlink _ => EventKind.fileUnlink.code
  | processFork _ => EventKind.processFork.code
  | unknown kind => kind

/-- Only a kind that the collector does not know has no payload. -/
def Valid (payload : EventPayload) : Prop := ∀ kind, payload = unknown kind → EventKind.tryFrom kind = none

def Known (payload : EventPayload) : Prop := ∀ kind, payload ≠ unknown kind

theorem Known.valid {payload : EventPayload} (h : payload.Known) : payload.Valid := fun kind hk => absurd hk (h kind)

end Repx.Probe.EventPayload

namespace Repx.Trace
open ByteString RecordLayout Probe Format Codec

section Bytes
variable (e : Endian)

/-- The fields of the member of the union that the probe fills in. -/
def writePayload (memory : Str) : EventPayload → Str
  | .fileOpen payload => (fileOpenFormat e).write (payloadStart e) payload memory
  | .fileClose payload => (fileCloseFormat e).write (payloadStart e) payload memory
  | .processExec payload => (processExecFormat e).write (payloadStart e) payload memory
  | .processExit payload => (processExitFormat e).write (payloadStart e) payload memory
  | .fileMmap payload => (fileMmapFormat e).write (payloadStart e) payload memory
  | .fileRenameSource payload => (filePathFormat e).write (payloadStart e) payload memory
  | .fileRenameDestination payload => (filePathFormat e).write (payloadStart e) payload memory
  | .fileUnlink payload => (filePathFormat e).write (payloadStart e) payload memory
  | .processFork payload => (processForkFormat e).write (payloadStart e) payload memory
  | .unknown _ => memory

/-- What a probe leaves in the memory it has reserved. -/
def writeEvent (event : Event) (memory : Str) : Str :=
  writePayload e ((headerFormat e).write 0 (event.payload.kindCode,event.source,(),event.timestampNs) memory)
    event.payload

/-- The member of the union that the kind selects. -/
def readPayload (memory : Str) (kind : UInt32) : EventPayload :=
  match EventKind.tryFrom kind with
  | some .fileOpen => .fileOpen ((fileOpenFormat e).read (payloadStart e) memory)
  | some .fileClose => .fileClose ((fileCloseFormat e).read (payloadStart e) memory)
  | some .processExec => .processExec ((processExecFormat e).read (payloadStart e) memory)
  | some .processExit => .processExit ((processExitFormat e).read (payloadStart e) memory)
  | some .fileMmap => .fileMmap ((fileMmapFormat e).read (payloadStart e) memory)
  | some .fileRenameSource => .fileRenameSource ((filePathFormat e).read (payloadStart e) memory)
  | some .fileRenameDestination => .fileRenameDestination ((filePathFormat e).read (payloadStart e) memory)
  | some .fileUnlink => .fileUnlink ((filePathFormat e).read (payloadStart e) memory)
  | some .processFork => .processFork ((processForkFormat e).read (payloadStart e) memory)
  | none => .unknown kind

/-- `read_unaligned` of a record. -/
def readEvent (memory : Str) : Event :=
  let (kind,source,_,timestampNs) := (headerFormat e).read 0 memory
  ⟨source,timestampNs,readPayload e memory kind⟩

/-- The eight bytes from the eighth on. -/
def itemTimestamp (data : Str) : UInt64 := (u64 e).decode (readAt data 8 8)

end Bytes

section RoundTrip
variable {e : Endian} {memory : Str}

theorem keeps_writePayload (payload : EventPayload) (h : memory.length = eventSize e) :
    Keeps (payloadStart e) (eventSize e) memory (writePayload e memory payload) := by
  have hwithin {α : Type} (f : Format α) (a : α) (hf : f.finish (payloadStart e) ≤ eventSize e) :
      Keeps (payloadStart e) (eventSize e) memory (f.write (payloadStart e) a memory) :=
    (f.keeps _ a memory (h ▸ hf)).mono le_rfl hf
  cases payload with
  | unknown kind => exact ⟨rfl,fun _ _ => rfl⟩
  | _ => exact hwithin _ _ (by cases e <;> decide)

theorem readPayload_writePayload {payload : EventPayload} (hvalid : payload.Valid) (h : memory.length = eventSize e) :
    readPayload e (writePayload e memory payload) payload.kindCode = payload := by
  have hread {α : Type} (f : Format α) (a : α) (hf : f.finish (payloadStart e) ≤ eventSize e) :
      f.read (payloadStart e) (f.write (payloadStart e) a memory) = a := f.read_write _ a memory (h ▸ hf)
  cases payload with
  | unknown kind =>
    rw [readPayload,EventPayload.kindCode,hvalid kind rfl]
  | _ =>
    simp only [readPayload,EventPayload.kindCode,EventKind.tryFrom_code,writePayload]
    rw [hread _ _ (by cases e <;> decide)]

theorem header_le_payloadStart : (headerFormat e).finish 0 ≤ payloadStart e := by
  cases e <;> decide

theorem payloadStart_le_eventSize : payloadStart e ≤ eventSize e := by
  cases e <;> decide

theorem readHeader_writeEvent (event : Event) (h : memory.length = eventSize e) :
    (headerFormat e).read 0 (writeEvent e event memory) =
      (event.payload.kindCode,event.source,(),event.timestampNs) := by
  have hfits : (headerFormat e).finish 0 ≤ memory.length :=
    h ▸ header_le_payloadStart.trans payloadStart_le_eventSize
  have hheader := (headerFormat e).keeps 0 (event.payload.kindCode,event.source,(),event.timestampNs) memory hfits
  have hpayload := keeps_writePayload event.payload (hheader.length.trans h)
  rw [writeEvent,(headerFormat e).read_congr 0 _ _ fun i _ hi =>
    hpayload.outside i (Or.inl (hi.trans_le header_le_payloadStart))]
  exact (headerFormat e).read_write 0 _ memory hfits

theorem length_writeEvent (event : Event) (h : memory.length = eventSize e) :
    (writeEvent e event memory).length = eventSize e := by
  have hfits : (headerFormat e).finish 0 ≤ memory.length :=
    h ▸ header_le_payloadStart.trans payloadStart_le_eventSize
  have hheader := (headerFormat e).keeps 0 (event.payload.kindCode,event.source,(),event.timestampNs) memory hfits
  exact (keeps_writePayload event.payload (hheader.length.trans h)).length.trans (hheader.length.trans h)

/-- A record is read back from the memory it was written to, whatever the memory held before. -/
theorem readEvent_writeEvent {event : Event} (hvalid : event.payload.Valid) (h : memory.length = eventSize e) :
    readEvent e (writeEvent e event memory) = event := by
  have hfits : (headerFormat e).finish 0 ≤ memory.length :=
    h ▸ header_le_payloadStart.trans payloadStart_le_eventSize
  have hheader := (headerFormat e).keeps 0 (event.payload.kindCode,event.source,(),event.timestampNs) memory hfits
  rw [readEvent,readHeader_writeEvent event h]
  simp only [writeEvent]
  rw [readPayload_writePayload hvalid (hheader.length.trans h)]

/-- The timestamp of an item is the one its record has. -/
theorem itemTimestamp_eq (data : Str) : itemTimestamp e data = (readEvent e data).timestampNs := by
  cases e <;> rfl

end RoundTrip

end Repx.Trace
