import Repx.Slice.Closure

/-! # The processes the tables of a scan name

A scan records no process that does not take part in an event: not as the owner of a pending
write, not as a writer, and not as the root that exits. So the processes a slice deals with
are at most those of the trace.
-/
namespace Repx.Slice
open ByteString Std Trace HashTables

/-- The process instances of an event. -/
def eventProcesses : TracedEvent → List ProcessInstance
  | .fork parent child => [parent,child]
  | .exec process _ | .fileOpen process _ _ _ _ _ | .fileClose process _ _ _ _ | .fileMmap process _ _ _ _ _ _
  | .fileRename process _ _ _ _ _ | .fileUnlink process _ _ _ _ | .exit process _ => [process]

/-- All processes that the tables can pass on satisfy a property. -/
structure Known (S : ProcessInstance → Prop) (s : ScanState) : Prop where
  pendingWrites : ∀ (d : Descriptor) write, s.pendingWrites[d]? = some write → S write.process
  writersByPath : ∀ path, ∀ p ∈ membersAt s.writersByPath path, S p
  writersByHash : ∀ hash p, Wrote s hash p → S p
  rootExit : ∀ p exitCode, s.rootExit = some (p,exitCode) → S p

/-- The processes that an effect records. -/
def ScanEffect.recorded : ScanEffect → List ProcessInstance
  | .bind _ opened => [opened.process]
  | .author _ process | .write process _ | .rename process _ | .exit process _ => [process]
  | _ => []

section Effects
variable {S : ProcessInstance → Prop} {s : ScanState}

theorem known_initial : Known S .initial := by
  refine ⟨?_,?_,?_,?_⟩ <;> simp [ScanState.initial,Wrote,membersAt]

theorem Known.addHashWriter (h : Known S s) {hash : Str} {process : ProcessInstance} (hp : S process)
    {s' : ScanState} (hpending : s'.pendingWrites = s.pendingWrites) (hpaths : s'.writersByPath = s.writersByPath)
    (hexit : s'.rootExit = s.rootExit)
    (hhashes : s'.writersByHash = addMembers s.writersByHash hash [process]) : Known S s' where
  pendingWrites d write hd := h.pendingWrites d write (hpending ▸ hd)
  writersByPath path p hm := h.writersByPath path p (hpaths ▸ hm)
  writersByHash x p hw := by
    rw [Wrote,hhashes,mem_membersAt_addMembers,List.mem_singleton] at hw
    rcases hw with hw | ⟨-,rfl⟩
    · exact h.writersByHash x p hw
    · exact hp
  rootExit p exitCode he := h.rootExit p exitCode (hexit ▸ he)

/-- What is known stays known when an effect records known processes. -/
theorem Known.apply (h : Known S s) (order : IterationOrder Traversal) (site : ℕ) {effect : ScanEffect}
    (he : ∀ p ∈ effect.recorded, S p) : Known S (s.apply order site effect) := by
  cases effect with
  | exec | read => exact ⟨h.pendingWrites,h.writersByPath,h.writersByHash,h.rootExit⟩
  | inherit parent child =>
    refine ⟨fun d write hd => ?_,h.writersByPath,h.writersByHash,h.rootExit⟩
    have hd' : (inheritWrites order (.inheritedWrites site) parent.lifetime child.lifetime s.pendingWrites)[d]? =
        some write := hd
    rw [getElem?_inheritWrites] at hd'
    split_ifs at hd'
    · rcases Option.or_eq_some_iff.mp hd' with hw | ⟨-,hw⟩
      · exact h.pendingWrites _ write hw
      · exact h.pendingWrites _ write hw
    · exact h.pendingWrites _ write hd'
  | bind descriptor write =>
    refine ⟨fun d w hd => ?_,h.writersByPath,h.writersByHash,h.rootExit⟩
    rw [ScanState.apply,ExtTreeMap.getElem?_insert] at hd
    split_ifs at hd
    · obtain rfl := Option.some.inj hd
      exact he write.process List.mem_cons_self
    · exact h.pendingWrites d w hd
  | release descriptor =>
    refine ⟨fun d w hd => ?_,h.writersByPath,h.writersByHash,h.rootExit⟩
    rw [ScanState.apply,ExtTreeMap.getElem?_erase] at hd
    split_ifs at hd
    exact h.pendingWrites d w hd
  | author path process =>
    refine ⟨h.pendingWrites,fun path' p hm => ?_,h.writersByHash,h.rootExit⟩
    rcases mem_membersAt_addMembers.mp hm with hm | ⟨-,hm⟩
    · exact h.writersByPath path' p hm
    · rw [List.mem_singleton.mp hm]
      exact he process List.mem_cons_self
  | write process hash => exact h.addHashWriter (he process List.mem_cons_self) rfl rfl rfl rfl
  | rename process hash => exact h.addHashWriter (he process List.mem_cons_self) rfl rfl rfl rfl
  | move fromPath toPath =>
    refine ⟨fun d write hd => ?_,fun path p hm => ?_,h.writersByHash,h.rootExit⟩
    · have hd' : (movePendingWrites order (.renamedWrites site) fromPath toPath s.pendingWrites)[d]? =
          some write := hd
      rw [getElem?_movePendingWrites] at hd'
      obtain ⟨old,hold,rfl⟩ := Option.map_eq_some_iff.mp hd'
      have hprocess : (movePendingWrite fromPath toPath old).process = old.process := by
        unfold movePendingWrite
        split <;> rfl
      rw [hprocess]
      exact h.pendingWrites d old hold
    · rcases (mem_membersAt_aliasWriters order _ _ fromPath toPath s.writersByPath path p).mp hm with hm | ⟨old,-,hm⟩
      · exact h.writersByPath path p hm
      · exact h.writersByPath old p hm
  | exit process exitCode =>
    refine ⟨h.pendingWrites,h.writersByPath,h.writersByHash,fun p code hexit => ?_⟩
    obtain ⟨rfl,-⟩ := Prod.mk.inj (Option.some.inj hexit)
    exact he process List.mem_cons_self

theorem recorded_readEffects {process : ProcessInstance} {path : Str} {observation : FileObservation} :
    ∀ effect ∈ readEffects process path observation, effect.recorded = [] := by
  intro effect he
  obtain ⟨hash,-,rfl⟩ := mem_readEffects.mp he
  rfl

theorem recorded_settleEffects {path : Option Str} {write : Option PendingWrite}
    {observation : Option FileObservation} :
    ∀ effect ∈ settleEffects path write observation, ∀ p ∈ effect.recorded,
      ∃ opened, write = some opened ∧ p = opened.process := by
  intro effect he p hp
  obtain ⟨opened,seen,rfl,-,rfl | ⟨hash,-,rfl⟩⟩ := mem_settleEffects he
  · exact ⟨opened,rfl,List.mem_singleton.mp hp⟩
  · exact ⟨opened,rfl,List.mem_singleton.mp hp⟩

/-- An effect of an event records a process of the event, or the owner of a pending write. -/
theorem recorded_scanEffects {rootProcess : ProcessInstance} {pending : ExtTreeMap Descriptor PendingWrite}
    {event : TracedEvent} :
    ∀ effect ∈ scanEffects rootProcess pending event, ∀ p ∈ effect.recorded,
      p ∈ eventProcesses event ∨ ∃ (d : Descriptor) (opened : PendingWrite),
        pending[d]? = some opened ∧ p = opened.process := by
  intro effect he p hp
  unfold scanEffects at he
  split at he <;> grind [ScanEffect.recorded,eventProcesses,recorded_readEffects,recorded_settleEffects]

theorem Known.scanEvent (h : Known S s) (order : IterationOrder Traversal) (site : ℕ)
    (rootProcess : ProcessInstance) {event : TracedEvent} (hevent : ∀ p ∈ eventProcesses event, S p) :
    Known S (scanEvent order site s rootProcess event) := by
  rw [scanEvent_eq_foldl]
  refine List.foldlRecOn _ _ h fun s' hs effect he => hs.apply order site fun p hp => ?_
  rcases recorded_scanEffects effect he p hp with hp | ⟨d,opened,hd,rfl⟩
  · exact hevent p hp
  · exact h.pendingWrites d opened hd

theorem Known.scanFrom (order : IterationOrder Traversal) (rootProcess : ProcessInstance) {events : List TracedEvent}
    (hevents : ∀ event ∈ events, ∀ p ∈ eventProcesses event, S p) (site : ℕ) (h : Known S s) :
    Known S (scanFrom order rootProcess site s events) := by
  induction events generalizing site s with
  | nil => exact h
  | cons event events ih =>
    obtain ⟨hevent,hrest⟩ := List.forall_mem_cons.mp hevents
    exact ih hrest (site + 1) (h.scanEvent order site rootProcess hevent)

theorem renameFixup_known (order : IterationOrder Traversal) (pairs : List (Str × Str)) (pair : ℕ)
    {writers : Writers} (h : ∀ path, ∀ p ∈ membersAt writers path, S p) :
    ∀ path, ∀ p ∈ membersAt (renameFixup order pair pairs writers) path, S p := by
  induction pairs generalizing pair writers with
  | nil => exact h
  | cons renamed pairs ih =>
    refine ih (pair + 1) fun path p hp => ?_
    rcases (mem_membersAt_aliasWriters order _ _ renamed.1 renamed.2 writers path p).mp hp with hp | ⟨old,-,hp⟩
    · exact h path p hp
    · exact h old p hp

/-- The tables of a scan name processes of the events only. -/
theorem known_scan (order : IterationOrder Traversal) (rootProcess : ProcessInstance) {events : List TracedEvent}
    (hevents : ∀ event ∈ events, ∀ p ∈ eventProcesses event, S p) : Known S (scan order rootProcess events) := by
  have hloop := known_initial.scanFrom order rootProcess hevents 0
  exact ⟨hloop.pendingWrites,renameFixup_known order _ 0 hloop.writersByPath,hloop.writersByHash,hloop.rootExit⟩

theorem Known.reached (h : Known S s) {outputs : List OutputFile} {process : ProcessInstance}
    (hr : Reached s outputs process) : S process := by
  cases hr with
  | start hs =>
    obtain ⟨output,-,hp⟩ := hs
    exact h.writersByPath output.path process hp
  | next _ _ _ hw => exact h.writersByHash _ process hw

end Effects

end Repx.Slice
