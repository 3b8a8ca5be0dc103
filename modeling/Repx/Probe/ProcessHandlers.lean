import Repx.Probe.Maps

/-! # Probes on processes

The handlers of exec, fork, the return of clone and exit. They keep the map of
tracked identifiers and submit one record each; the record of an exec carries the
file name as far as it could be read.
-/
namespace Repx.Probe
open Maps
variable (m : Maps) (task : PidTgid)

/-- The root is tracked again at every exec. -/
def tryExec (inserted reserved : Bool) (now : UInt64) (filename : StringRead) : Maps :=
  let m := if task.tgid ∈ m.rootPid then m.trackPid inserted task.tgid else m
  if m.isTracked task.tgid then
    m.submit reserved ⟨0,now,.processExec ⟨task.pid,task.tgid,filename.buffer,filename.len⟩⟩
  else m

def tryFork (inserted reserved : Bool) (now : UInt64) (childPid : UInt32) : Maps :=
  if m.isTracked task.tgid then
    (m.submit reserved ⟨0,now,.processFork ⟨task.tgid,childPid⟩⟩).trackPid inserted childPid
  else m

/-- Shared by the returns of `clone` and `clone3`. -/
def tryCloneExit (inserted : Bool) (ret : Int64) : Maps :=
  if ret ≤ 0 then m
  else if m.isTracked task.tgid then m.trackPid inserted ret.toUInt64.toUInt32
  else m

/-- Only the thread-group leader ends a process; the other threads are removed from
the map without a record. -/
def tryExit (reserved : Bool) (now : UInt64) : Maps :=
  if m.isTracked task.tgid then
    if task.pid ≠ task.tgid then m.untrackPid task.pid
    else (m.submit reserved ⟨0,now,.processExit ⟨task.pid,task.tgid,0⟩⟩).untrackPid task.tgid
  else m

section Tracking
variable {m task}

@[simp] theorem trackedPids_submit (reserved : Bool) (event : Event) :
    (m.submit reserved event).trackedPids = m.trackedPids := by
  cases reserved <;> rfl

@[simp] theorem trackedPids_trackPid (tgid : UInt32) :
    (m.trackPid true tgid).trackedPids = insert tgid m.trackedPids := rfl

theorem isTracked_iff {tgid : UInt32} : m.isTracked tgid = true ↔ tgid ∈ m.trackedPids := by
  simp [isTracked]

theorem mem_trackedPids_tryExec {reserved : Bool} {now : UInt64} {filename : StringRead} {id : UInt32} :
    id ∈ (tryExec m task true reserved now filename).trackedPids ↔
      id ∈ m.trackedPids ∨ task.tgid ∈ m.rootPid ∧ id = task.tgid := by
  unfold tryExec
  by_cases hr : task.tgid ∈ m.rootPid
  · simp only [hr,if_true]
    split <;> simp [or_comm]
  · simp only [hr,if_false]
    split <;> simp

theorem mem_trackedPids_tryFork {reserved : Bool} {now : UInt64} {childPid id : UInt32} :
    id ∈ (tryFork m task true reserved now childPid).trackedPids ↔
      id ∈ m.trackedPids ∨ task.tgid ∈ m.trackedPids ∧ id = childPid := by
  unfold tryFork
  by_cases ht : task.tgid ∈ m.trackedPids <;> simp [isTracked,ht,or_comm]

/-- What the clone call of a parent returns. -/
def cloneRet (childPid : UInt32) : Int64 := childPid.toUInt64.toInt64

theorem cloneRet_pos {childPid : UInt32} (h : childPid ≠ 0) : ¬ cloneRet childPid ≤ 0 := by
  have hlt := childPid.toNat_lt
  have hne : childPid.toNat ≠ 0 := fun h0 => h (UInt32.toNat_inj.mp h0)
  have hint : (cloneRet childPid).toInt = childPid.toNat := by
    rw [cloneRet,← Int64.toInt_toBitVec]
    simp only [UInt64.toBitVec_toInt64,BitVec.toInt_eq_toNat_bmod,UInt64.toNat_toBitVec,UInt32.toNat_toUInt64]
    rw [Int.bmod_eq_of_le] <;> omega
  rw [Int64.le_iff_toInt_le,hint,Int64.toInt_zero]
  omega

theorem mem_trackedPids_tryCloneExit {childPid id : UInt32} (h : childPid ≠ 0) :
    id ∈ (tryCloneExit m task true (cloneRet childPid)).trackedPids ↔
      id ∈ m.trackedPids ∨ task.tgid ∈ m.trackedPids ∧ id = childPid := by
  have hchild : (cloneRet childPid).toUInt64.toUInt32 = childPid := by simp [cloneRet]
  rw [tryCloneExit,if_neg (cloneRet_pos h),hchild]
  by_cases ht : task.tgid ∈ m.trackedPids <;> simp [isTracked,ht,or_comm]

theorem mem_trackedPids_tryExit {reserved : Bool} {now : UInt64} {id : UInt32} :
    id ∈ (tryExit m task reserved now).trackedPids ↔
      id ∈ m.trackedPids ∧ ¬ (task.tgid ∈ m.trackedPids ∧ id = task.pid) := by
  unfold tryExit
  by_cases ht : task.tgid ∈ m.trackedPids
  · by_cases hp : task.pid = task.tgid <;> simp [isTracked,ht,hp,untrackPid,and_comm]
  · simp [isTracked,ht]

end Tracking

end Repx.Probe
