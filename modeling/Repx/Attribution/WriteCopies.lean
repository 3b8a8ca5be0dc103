import Repx.Attribution.WriteCredit
import Repx.Operations.WriteActions

/-! # Copies of a writable descriptor

The write that an event opens is pending on its descriptor and on every descriptor that
a fork copies from there, each until it is closed, taken over or copied over. The output
recorded for the write is what was seen when one of these copies was closed last. The pass
finds it through indices into a growing list, which are followed here by position.
-/
namespace Repx.Trace
open ByteString Std HashTables Canonical CanonState

/-- Events that open a write on a descriptor. A mapping opens one when none is pending. -/
def Creates (pending : Descriptor → Prop) (d : Descriptor) : TracedEvent → Prop
  | .fileOpen process path flags fd _ _ =>
    d = ⟨process.lifetime,fd⟩ ∧ canWrite flags = true ∧ isSystemState path = false
  | .fileMmap process fd prot flags (some path) _ (some _) =>
    d = ⟨process.lifetime,fd⟩ ∧ mapWrites prot flags = true ∧ isSystemState path = false ∧ ¬ pending d
  | _ => False

/-- Events that end what a descriptor is a copy of: a close with a path, or a writable opening. -/
def Ends (d : Descriptor) : TracedEvent → Prop
  | .fileClose process fd (some _) _ _ => d = ⟨process.lifetime,fd⟩
  | .fileOpen process path flags fd _ _ =>
    d = ⟨process.lifetime,fd⟩ ∧ canWrite flags = true ∧ isSystemState path = false
  | _ => False

/-- The copies after an event: created by it, inherited through it, or kept, unless it ends them
or is a fork that puts another write in their place. -/
def copyStep (copies : ℕ → Descriptor → Prop) (position : ℕ) (event : TracedEvent) (i : ℕ)
    (d : Descriptor) : Prop :=
  (i = position ∧ Creates (fun d' => ∃ i', copies i' d') d event) ∨
  (∃ parent child, event = .fork parent child ∧ d.lifetime = child.lifetime ∧
    copies i ⟨parent.lifetime,d.fd⟩) ∨
  (copies i d ∧ ¬ Ends d event ∧ ∀ parent child, event = .fork parent child → d.lifetime = child.lifetime →
    ∀ i', copies i' ⟨parent.lifetime,d.fd⟩ → i' = i)

/-- The descriptors that are copies of the one on which the event at a position opened a write. -/
def IsCopy (events : List TracedEvent) : ℕ → Descriptor → Prop :=
  events.zipIdx.foldl (fun copies e => copyStep copies e.2 e.1) fun _ _ => False

/-- The event at a position opens a write on a descriptor. -/
def CreatedAt (events : List TracedEvent) (i : ℕ) (d : Descriptor) : Prop :=
  ∃ event, events[i]? = some event ∧ Creates (fun d' => ∃ i', IsCopy (events.take i) i' d') d event

/-- The event at a position closes a copy, with a path and an observation. -/
def ClosesCopy (events : List TracedEvent) (i j : ℕ) (observation : FileObservation) : Prop :=
  ∃ process fd path external, events[j]? = some (.fileClose process fd (some path) external (some observation)) ∧
    IsCopy (events.take j) i ⟨process.lifetime,fd⟩

/-- The identity seen when a copy was closed last, if any. -/
def LastClosed (events : List TracedEvent) (i : ℕ) (outputHashes : List Str) : Prop :=
  (outputHashes = [] ∧ ∀ j observation, ¬ ClosesCopy events i j observation) ∨
    ∃ j observation, ClosesCopy events i j observation ∧
      (∀ j' observation', ClosesCopy events i j' observation' → j' ≤ j) ∧ outputHashes = [observation.identity]

section Copies
variable {events : List TracedEvent} {event : TracedEvent} {i : ℕ} {d : Descriptor}

theorem isCopy_concat (events : List TracedEvent) (event : TracedEvent) :
    IsCopy (events ++ [event]) = copyStep (IsCopy events) events.length event := by
  simp [IsCopy,List.zipIdx_append]

theorem copyStep_created {copies : ℕ → Descriptor → Prop} {position : ℕ} (h : copyStep copies position event i d) :
    (i = position ∧ Creates (fun d' => ∃ i', copies i' d') d event) ∨ ∃ d', copies i d' := by
  rcases h with h | ⟨parent,child,-,-,h⟩ | ⟨h,-,-⟩
  · exact Or.inl h
  · exact Or.inr ⟨_,h⟩
  · exact Or.inr ⟨d,h⟩

theorem createdAt_concat_lt (hi : i < events.length) : CreatedAt (events ++ [event]) i d ↔ CreatedAt events i d := by
  rw [CreatedAt,CreatedAt,List.getElem?_append_left hi,List.take_append_of_le_length (by omega)]

theorem createdAt_concat_self :
    CreatedAt (events ++ [event]) events.length d ↔ Creates (fun d' => ∃ i', IsCopy events i' d') d event := by
  rw [CreatedAt,List.take_append_of_le_length (by omega),List.take_length]
  simp

theorem CreatedAt.lt (h : CreatedAt events i d) : i < events.length := by
  obtain ⟨event,he,-⟩ := h
  exact (List.getElem?_eq_some_iff.mp he).1

/-- A write was opened before, or the last event opens it. -/
theorem CreatedAt.concat_cases (h : CreatedAt (events ++ [event]) i d) :
    CreatedAt events i d ∨ (i = events.length ∧ Creates (fun d' => ∃ i', IsCopy events i' d') d event) := by
  rcases Nat.lt_or_ge i events.length with hlt | hge
  · exact Or.inl ((createdAt_concat_lt hlt).mp h)
  · obtain rfl : i = events.length := by
      have := h.lt
      simp only [List.length_append,List.length_singleton] at this
      omega
    exact Or.inr ⟨rfl,createdAt_concat_self.mp h⟩

/-- Every copy goes back to an event that opened a write. -/
theorem IsCopy.createdAt (h : IsCopy events i d) : ∃ d', CreatedAt events i d' := by
  induction events using List.reverseRecOn generalizing d with
  | nil => exact h.elim
  | append_singleton events event ih =>
    rw [isCopy_concat] at h
    rcases copyStep_created h with ⟨rfl,hc⟩ | ⟨d',hd⟩
    · exact ⟨d,createdAt_concat_self.mpr hc⟩
    · obtain ⟨d',hc⟩ := ih hd
      exact ⟨d',(createdAt_concat_lt hc.lt).mpr hc⟩

theorem IsCopy.lt (h : IsCopy events i d) : i < events.length := by
  obtain ⟨d',hd⟩ := h.createdAt
  exact hd.lt

/-- Closes that came before are found again, and one more event is one more close. -/
theorem closesCopy_concat {j : ℕ} {observation : FileObservation} :
    ClosesCopy (events ++ [event]) i j observation ↔ ClosesCopy events i j observation ∨
      (j = events.length ∧ ∃ process fd path external,
        event = .fileClose process fd (some path) external (some observation) ∧
          IsCopy events i ⟨process.lifetime,fd⟩) := by
  rcases Nat.lt_trichotomy j events.length with hj | rfl | hj
  · rw [ClosesCopy,ClosesCopy,List.getElem?_append_left hj,List.take_append_of_le_length (by omega)]
    simp [hj.ne]
  · have hnone : ¬ ClosesCopy events i events.length observation := by
      rintro ⟨_,_,_,_,he,-⟩
      simp at he
    rw [ClosesCopy,List.take_append_of_le_length (by omega),List.take_length]
    simp [hnone]
  · have hnone : events[j]? = none := List.getElem?_eq_none hj.le
    have hnone' : (events ++ [event])[j]? = none := List.getElem?_eq_none (by simp; omega)
    simp [ClosesCopy,hnone,hnone',hj.ne']

theorem ClosesCopy.lt {j : ℕ} {observation : FileObservation} (h : ClosesCopy events i j observation) :
    j < events.length := by
  obtain ⟨_,_,_,_,he,-⟩ := h
  exact (List.getElem?_eq_some_iff.mp he).1

/-- An event that closes no copy leaves what was seen last. -/
theorem LastClosed.keep {outputHashes : List Str} (h : LastClosed events i outputHashes)
    (hclose : ∀ process fd path external observation,
      event = .fileClose process fd (some path) external (some observation) →
        ¬ IsCopy events i ⟨process.lifetime,fd⟩) : LastClosed (events ++ [event]) i outputHashes := by
  have hsame {j : ℕ} {observation : FileObservation} :
      ClosesCopy (events ++ [event]) i j observation ↔ ClosesCopy events i j observation := by
    rw [closesCopy_concat]
    refine or_iff_left ?_
    rintro ⟨-,process,fd,path,external,he,hc⟩
    exact hclose process fd path external observation he hc
  simpa only [LastClosed,hsame] using h

theorem lastClosed_close {process : ProcessInstance} {fd : Int} {path : Str} {external : Bool}
    {observation : FileObservation} (h : IsCopy events i ⟨process.lifetime,fd⟩) :
    LastClosed (events ++ [.fileClose process fd (some path) external (some observation)]) i
      [observation.identity] := by
  refine Or.inr ⟨events.length,observation,closesCopy_concat.mpr (Or.inr ⟨rfl,_,_,_,_,rfl,h⟩),?_,rfl⟩
  intro j' observation' hc
  have hlt := hc.lt
  simp only [List.length_append,List.length_singleton] at hlt
  omega

theorem lastClosed_new (h : ∀ d, ¬ IsCopy events events.length d) :
    LastClosed (events ++ [event]) events.length [] := by
  refine Or.inl ⟨rfl,fun j observation hc => ?_⟩
  rcases closesCopy_concat.mp hc with ⟨_,_,_,_,he,hcopy⟩ | ⟨-,_,_,_,_,-,hcopy⟩
  · have hlt := hcopy.lt
    rw [List.length_take] at hlt
    omega
  · exact h _ hcopy

end Copies

/-- Tracing without watched directories. -/
abbrev unwatched (rootProcess : ProcessInstance) : TraceScope := ⟨rootProcess,[]⟩

section Plain
variable {rootProcess : ProcessInstance} {view : ProcessView} {event : TracedEvent} {pending : Descriptor → Prop}

theorem isWatched_nil (path : Str) : (unwatched rootProcess).isWatched path = false := by
  simp [TraceScope.isWatched,isWatchedPath]

theorem openAction_unwatched (process : ProcessInstance) (path : Str) (flags : UInt32) (fd : Int) :
    openAction (unwatched rootProcess) view process path flags fd false =
      if canWrite flags = true ∧ isSystemState path = false then .opens .tree ⟨process.lifetime,fd⟩ else .other := by
  rw [openAction,isOutside_of_inside rfl]
  cases canWrite flags <;> cases isSystemState path <;> rfl

theorem mappingAction_unwatched (process : ProcessInstance) (fd : Int) (isWrite : Bool) (path : Str) :
    mappingAction (unwatched rootProcess) view process fd isWrite path false =
      if isWrite = true ∧ isSystemState path = false ∧ view.hasWrite .tree fd = false then
        .opens .tree ⟨process.lifetime,fd⟩ else .other := by
  rw [mappingAction,isOutside_of_inside rfl]
  cases isWrite <;> cases isSystemState path <;> cases view.hasWrite .tree fd <;> rfl

variable (pending) in
/-- Without watched directories writes are opened in the fork tree, and where the trace says. -/
theorem action_opens (hinside : event.inside = true)
    (hview : ∀ fd, view.hasWrite .tree fd = true ↔ pending ⟨(actor event).lifetime,fd⟩) {side : Side}
    {d : Descriptor} (h : writeAction (unwatched rootProcess) view event = .opens side d) :
    side = .tree ∧ (∀ d', Creates pending d' event ↔ d' = d) ∧ (∀ d', Ends d' event → d' = d) ∧
      (pending d → Ends d event) ∧ ∀ parent child, event ≠ .fork parent child := by
  cases event with
  | fileOpen process path flags fd external observation =>
    obtain rfl : external = false := by simpa [TracedEvent.inside] using hinside
    rw [writeAction,openAction_unwatched] at h
    split_ifs at h with hopen
    obtain ⟨rfl,rfl⟩ := WriteAction.opens.inj h
    simp [Creates,Ends,hopen]
  | fileMmap process fd prot flags path external observation =>
    obtain rfl : external = false := by simpa [TracedEvent.inside] using hinside
    cases path with
    | none => simp [writeAction] at h
    | some path =>
      cases observation with
      | none => simp [writeAction] at h
      | some observation =>
        simp only [writeAction,mappingAction_unwatched,Bool.false_and,Bool.false_eq_true,if_false] at h
        split_ifs at h with hopen
        obtain ⟨hw,hs,hv⟩ := hopen
        obtain ⟨rfl,rfl⟩ := WriteAction.opens.inj h
        have hp : ¬ pending ⟨process.lifetime,fd⟩ := by
          intro hheld
          have hv' := (hview fd).mpr hheld
          rw [hv] at hv'
          cases hv'
        refine ⟨rfl,fun d' => ⟨fun hc => hc.1,?_⟩,fun d' he => he.elim,fun hpending => absurd hpending hp,
          fun _ _ he => by cases he⟩
        rintro rfl
        exact ⟨rfl,hw,hs,hp⟩
  | fileClose process fd path external observation => cases path <;> cases h
  | exec | fork | fileRename | fileUnlink | exit => cases h

theorem action_closes {side : Side} {d : Descriptor} {observation : Option FileObservation}
    (hinside : event.inside = true)
    (h : writeAction (unwatched rootProcess) view event = .closes side d observation) :
    ∃ process fd path, event = .fileClose process fd (some path) false observation := by
  obtain ⟨process,fd,path,external,rfl,-,-⟩ := event_of_closes h
  obtain rfl : external = false := by simpa [TracedEvent.inside] using hinside
  exact ⟨process,fd,path,rfl⟩

variable (pending) in
theorem action_other (hinside : event.inside = true)
    (hview : ∀ fd, view.hasWrite .tree fd = true ↔ pending ⟨(actor event).lifetime,fd⟩)
    (h : writeAction (unwatched rootProcess) view event = .other) :
    (∀ d, ¬ Creates pending d event) ∧ (∀ d, ¬ Ends d event) ∧ ∀ parent child, event ≠ .fork parent child := by
  cases event with
  | fileOpen process path flags fd external observation =>
    obtain rfl : external = false := by simpa [TracedEvent.inside] using hinside
    rw [writeAction,openAction_unwatched] at h
    split_ifs at h with hopen
    have hcreates : ∀ d, ¬ Creates pending d (.fileOpen process path flags fd false observation) :=
      fun d hc => hopen ⟨hc.2.1,hc.2.2⟩
    exact ⟨hcreates,fun d hd => hopen ⟨hd.2.1,hd.2.2⟩,fun _ _ he => by cases he⟩
  | fileMmap process fd prot flags path external observation =>
    obtain rfl : external = false := by simpa [TracedEvent.inside] using hinside
    refine ⟨fun d => ?_,fun d he => he.elim,fun _ _ he => by cases he⟩
    cases path with
    | none => exact fun hc => hc.elim
    | some path =>
      cases observation with
      | none => exact fun hc => hc.elim
      | some observation =>
        simp only [writeAction,mappingAction_unwatched,Bool.false_and,Bool.false_eq_true,if_false] at h
        split_ifs at h with hopen
        rintro ⟨rfl,hw,hs,hp⟩
        have hv := hview fd
        exact hopen ⟨hw,hs,Bool.eq_false_iff.mpr fun hheld => hp (hv.mp hheld)⟩
  | fileClose process fd path external observation =>
    cases path with
    | none => exact ⟨fun _ hc => hc.elim,fun _ he => he.elim,fun _ _ he => by cases he⟩
    | some path => cases h
  | fork parent child => cases h
  | exec | fileRename | fileUnlink | exit =>
    exact ⟨fun _ hc => hc.elim,fun _ he => he.elim,fun _ _ he => by cases he⟩

end Plain

section Run
variable {rootProcess : ProcessInstance} {events : List TracedEvent} {event : TracedEvent}

/-- Where the operation of the write opened at a position is recorded. -/
def writeIndex (rootProcess : ProcessInstance) (events : List TracedEvent) (i : ℕ) : ℕ :=
  (stateAfter (unwatched rootProcess) (events.take (i + 1))).ops.length - 1

variable (rootProcess) in
theorem writeIndex_concat_lt {i : ℕ} (hi : i < events.length) :
    writeIndex rootProcess (events ++ [event]) i = writeIndex rootProcess events i := by
  rw [writeIndex,writeIndex,List.take_append_of_le_length hi]

variable (rootProcess) in
theorem writeIndex_concat_self :
    writeIndex rootProcess (events ++ [event]) events.length =
      (turn (unwatched rootProcess) (stateAfter (unwatched rootProcess) events) event).ops.length - 1 := by
  rw [writeIndex,List.take_of_length_le (by simp),stateAfter_concat]

/-- Every write is recorded by the event that opened it, its descriptors are the copies, and its
output is what was seen when one of them was closed last. -/
structure Filed (rootProcess : ProcessInstance) (events : List TracedEvent) : Prop where
  created : ∀ k op, (stateAfter (unwatched rootProcess) events).ops[k]? = some op → op.opType = .fileWrite →
    ∃ i d, CreatedAt events i d ∧ writeIndex rootProcess events i = k
  grew : ∀ i d, CreatedAt events i d → (stateAfter (unwatched rootProcess) (events.take i)).ops.length <
    (stateAfter (unwatched rootProcess) (events.take (i + 1))).ops.length
  filled : ∀ i d, CreatedAt events i d → ∃ op, (stateAfter (unwatched rootProcess) events).ops[
    writeIndex rootProcess events i]? = some op ∧ op.opType = .fileWrite ∧ LastClosed events i op.outputHashes
  pending : ∀ d k, (stateAfter (unwatched rootProcess) events).pendingWrites[d]? = some k ↔
    ∃ i, IsCopy events i d ∧ writeIndex rootProcess events i = k

theorem Filed.injective (h : Filed rootProcess events) {i i' : ℕ} {d d' : Descriptor}
    (hi : CreatedAt events i d) (hi' : CreatedAt events i' d')
    (he : writeIndex rootProcess events i = writeIndex rootProcess events i') : i = i' := by
  have hlt {j j' : ℕ} {c c' : Descriptor} (hj : CreatedAt events j c) (hj' : CreatedAt events j' c') (hjj : j < j') :
      writeIndex rootProcess events j < writeIndex rootProcess events j' := by
    have hgrew := h.grew j c hj
    have hgrew' := h.grew j' c' hj'
    have hmono := length_ops_take_mono (unwatched rootProcess) events (Nat.succ_le_of_lt hjj)
    simp only [writeIndex,Nat.succ_eq_add_one] at hmono ⊢
    omega
  rcases Nat.lt_trichotomy i i' with hii | hii | hii
  · exact absurd he (hlt hi hi' hii).ne
  · exact hii
  · exact absurd he (hlt hi' hi hii).ne'

/-- A descriptor is a copy for one write at most. -/
theorem Filed.copy_unique (h : Filed rootProcess events) {i i' : ℕ} {d : Descriptor} (hi : IsCopy events i d)
    (hi' : IsCopy events i' d) : i = i' := by
  obtain ⟨c,hc⟩ := hi.createdAt
  obtain ⟨c',hc'⟩ := hi'.createdAt
  have hp := (h.pending d _).mpr ⟨i,hi,rfl⟩
  rw [(h.pending d _).mpr ⟨i',hi',rfl⟩,Option.some.injEq] at hp
  exact h.injective hc hc' hp.symm

theorem Filed.view (h : Filed rootProcess events) (process : ProcessInstance) (fd : Int) :
    ((stateAfter (unwatched rootProcess) events).view process).hasWrite .tree fd = true ↔
      ∃ i, IsCopy events i ⟨process.lifetime,fd⟩ := by
  have hview : ((stateAfter (unwatched rootProcess) events).view process).hasWrite .tree fd =
      (stateAfter (unwatched rootProcess) events).pendingWrites[(⟨process.lifetime,fd⟩ : Descriptor)]?.isSome :=
    ExtTreeMap.contains_eq_isSome_getElem?
  rw [hview,Option.isSome_iff_exists]
  simp only [h.pending]
  exact ⟨fun ⟨_,i,hi,_⟩ => ⟨i,hi⟩,fun ⟨i,hi⟩ => ⟨_,i,hi,rfl⟩⟩

theorem filed_nil : Filed rootProcess [] where
  created k op h := by simp [stateAfter,initial] at h
  grew i d h := absurd h.lt (Nat.not_lt_zero i)
  filled i d h := absurd h.lt (Nat.not_lt_zero i)
  pending d k := by
    constructor
    · intro h
      simp [stateAfter,initial] at h
    · rintro ⟨i,hi,-⟩
      exact hi.elim

/-- The operations of the writes opened before are still there, filled by what was last closed. -/
def FillsOld (rootProcess : ProcessInstance) (events : List TracedEvent) (event : TracedEvent) (s' : CanonState) :
    Prop :=
  ∀ i op, (∃ d, CreatedAt events i d) →
    (stateAfter (unwatched rootProcess) events).ops[writeIndex rootProcess events i]? = some op →
    op.opType = .fileWrite → LastClosed events i op.outputHashes →
    ∃ op', s'.ops[writeIndex rootProcess events i]? = some op' ∧ op'.opType = .fileWrite ∧
      LastClosed (events ++ [event]) i op'.outputHashes

/-- One step, from what it adds to the recorded operations and what becomes of the copies. -/
theorem Filed.concat (h : Filed rootProcess events) {s' : CanonState}
    (hs : turn (unwatched rootProcess) (stateAfter (unwatched rootProcess) events) event = s')
    (hcreated : ∀ k op, s'.ops[k]? = some op → op.opType = .fileWrite →
      (∃ old, (stateAfter (unwatched rootProcess) events).ops[k]? = some old ∧ old.opType = .fileWrite) ∨
        ∃ d, Creates (fun d' => ∃ i', IsCopy events i' d') d event ∧ k = s'.ops.length - 1)
    (hnew : ∀ d, Creates (fun d' => ∃ i', IsCopy events i' d') d event →
      (stateAfter (unwatched rootProcess) events).ops.length < s'.ops.length ∧
        ∃ op, s'.ops[s'.ops.length - 1]? = some op ∧ op.opType = .fileWrite ∧ op.outputHashes = [])
    (hfilled : FillsOld rootProcess events event s')
    (hpending : ∀ d k, s'.pendingWrites[d]? = some k ↔
      (Creates (fun d' => ∃ i', IsCopy events i' d') d event ∧ k = s'.ops.length - 1) ∨
        ∃ i, i < events.length ∧ copyStep (IsCopy events) events.length event i d ∧
          writeIndex rootProcess events i = k) :
    Filed rootProcess (events ++ [event]) := by
  subst hs
  constructor
  · intro k op hop hw
    rw [stateAfter_concat] at hop
    rcases hcreated k op hop hw with ⟨old,hold,hw'⟩ | ⟨d,hd,rfl⟩
    · obtain ⟨i,d,hi,rfl⟩ := h.created k old hold hw'
      exact ⟨i,d,(createdAt_concat_lt hi.lt).mpr hi,writeIndex_concat_lt rootProcess hi.lt⟩
    · exact ⟨events.length,d,createdAt_concat_self.mpr hd,writeIndex_concat_self rootProcess⟩
  · intro i d hi
    rcases hi.concat_cases with hi | ⟨rfl,hc⟩
    · rw [List.take_append_of_le_length hi.lt.le,List.take_append_of_le_length hi.lt]
      exact h.grew i d hi
    · rw [List.take_append_of_le_length le_rfl,List.take_length,List.take_of_length_le (by simp),stateAfter_concat]
      exact (hnew d hc).1
  · intro i d hi
    rw [stateAfter_concat]
    rcases hi.concat_cases with hi | ⟨rfl,hc⟩
    · obtain ⟨op,hop,hw,hl⟩ := h.filled i d hi
      rw [writeIndex_concat_lt rootProcess hi.lt]
      exact hfilled i op ⟨d,hi⟩ hop hw hl
    · obtain ⟨-,op,hop,hw,ho⟩ := hnew d hc
      rw [writeIndex_concat_self]
      refine ⟨op,hop,hw,?_⟩
      rw [ho]
      exact lastClosed_new fun d' hd' => absurd hd'.lt (Nat.lt_irrefl _)
  · intro d k
    rw [stateAfter_concat,hpending,isCopy_concat]
    constructor
    · rintro (⟨hc,rfl⟩ | ⟨i,hlt,hi,rfl⟩)
      · exact ⟨events.length,Or.inl ⟨rfl,hc⟩,writeIndex_concat_self rootProcess⟩
      · exact ⟨i,hi,writeIndex_concat_lt rootProcess hlt⟩
    · rintro ⟨i,hi,rfl⟩
      rcases copyStep_created hi with ⟨rfl,hc⟩ | ⟨d',hd'⟩
      · exact Or.inl ⟨hc,writeIndex_concat_self rootProcess⟩
      · exact Or.inr ⟨i,hd'.lt,hi,(writeIndex_concat_lt rootProcess hd'.lt).symm⟩

/-- A step that opens no write. -/
theorem Filed.concat_old (h : Filed rootProcess events) {s' : CanonState}
    (hs : turn (unwatched rootProcess) (stateAfter (unwatched rootProcess) events) event = s')
    (hnone : ∀ d, ¬ Creates (fun d' => ∃ i', IsCopy events i' d') d event)
    (htype : ∀ (k : ℕ) (op : CanonicalOp), s'.ops[k]? = some op → op.opType = .fileWrite →
      ∃ old : CanonicalOp, (stateAfter (unwatched rootProcess) events).ops[k]? = some old ∧ old.opType = .fileWrite)
    (hfilled : FillsOld rootProcess events event s')
    (hpending : ∀ d k, s'.pendingWrites[d]? = some k ↔
      ∃ i, copyStep (IsCopy events) events.length event i d ∧ writeIndex rootProcess events i = k) :
    Filed rootProcess (events ++ [event]) := by
  refine h.concat hs (fun k op hop hw => Or.inl (htype k op hop hw)) (fun d hd => absurd hd (hnone d)) hfilled
    fun d k => ?_
  rw [hpending,or_iff_right fun hd => hnone d hd.1]
  refine exists_congr fun i => ⟨fun ⟨hi,hk⟩ => ⟨?_,hi,hk⟩,fun ⟨_,hi,hk⟩ => ⟨hi,hk⟩⟩
  rcases copyStep_created hi with ⟨-,hc⟩ | ⟨d',hd'⟩
  · exact absurd hc (hnone d)
  · exact hd'.lt

theorem getElem?_of_noWrites {ops reads : List CanonicalOp} (hr : ∀ op ∈ reads, ¬ op.IsWrite) {k : ℕ}
    {op : CanonicalOp} (hop : (ops ++ reads)[k]? = some op) (hw : op.opType = .fileWrite) : ops[k]? = some op := by
  rw [List.getElem?_append] at hop
  split_ifs at hop
  · exact hop
  · exact absurd ⟨.tree,hw⟩ (hr op (List.mem_of_getElem? hop))

theorem getElem?_append_of_some {ops reads : List CanonicalOp} {k : ℕ} {op : CanonicalOp} (h : ops[k]? = some op) :
    (ops ++ reads)[k]? = some op := by
  rw [List.getElem?_append_left (List.getElem?_eq_some_iff.mp h).1,h]

/-- What is kept through an event that ends nothing and is no fork. -/
theorem copyStep_keep {i : ℕ} {d : Descriptor} (he : ¬ Ends d event) (hf : ∀ parent child, event ≠ .fork parent child)
    (hc : ¬ (i = events.length ∧ Creates (fun d' => ∃ i', IsCopy events i' d') d event)) :
    copyStep (IsCopy events) events.length event i d ↔ IsCopy events i d := by
  constructor
  · rintro (hnew | ⟨parent,child,rfl,-⟩ | ⟨hold,-,-⟩)
    · exact absurd hnew hc
    · exact absurd rfl (hf parent child)
    · exact hold
  · exact fun hold => Or.inr (Or.inr ⟨hold,he,fun parent child hfork => absurd hfork (hf parent child)⟩)

theorem Filed.other (h : Filed rootProcess events) (hinside : event.inside = true)
    (ha : writeAction (unwatched rootProcess)
      ((stateAfter (unwatched rootProcess) events).view (actor event)) event = .other) :
    Filed rootProcess (events ++ [event]) := by
  obtain ⟨hc,he,hf⟩ := action_other (fun d => ∃ i, IsCopy events i d) hinside (h.view (actor event)) ha
  obtain ⟨hp,hr⟩ := turn_other ha
  obtain ⟨reads,hreads,hnone⟩ := hr .tree
  have hops : (turn (unwatched rootProcess) (stateAfter (unwatched rootProcess) events) event).ops =
      (stateAfter (unwatched rootProcess) events).ops ++ reads := hreads
  have hpend : (turn (unwatched rootProcess) (stateAfter (unwatched rootProcess) events) event).pendingWrites =
      (stateAfter (unwatched rootProcess) events).pendingWrites := congrFun hp .tree
  refine h.concat_old rfl hc ?_ ?_ fun d k => ?_
  · intro k op hop hw
    rw [hops] at hop
    exact ⟨op,getElem?_of_noWrites hnone hop hw,hw⟩
  · rintro i op - hop hw hl
    rw [hops]
    refine ⟨op,getElem?_append_of_some hop,hw,hl.keep ?_⟩
    rintro process fd path external observation rfl
    exact absurd rfl (he ⟨process.lifetime,fd⟩)
  · rw [hpend,h.pending]
    exact exists_congr fun i => and_congr_left' (copyStep_keep (he d) hf fun hd => hc d hd.2).symm

theorem Filed.opens (h : Filed rootProcess events) (hinside : event.inside = true) {side : Side} {d : Descriptor}
    (ha : writeAction (unwatched rootProcess)
      ((stateAfter (unwatched rootProcess) events).view (actor event)) event = .opens side d) :
    Filed rootProcess (events ++ [event]) := by
  obtain ⟨rfl,hc,he,htaken,hf⟩ := action_opens (fun d => ∃ i, IsCopy events i d) hinside (h.view (actor event)) ha
  obtain ⟨mid,new,⟨hp,hr⟩,hw,ho,hturn⟩ := turn_opens ha
  obtain ⟨reads,hreads,hnone⟩ := hr .tree
  have hops : (turn (unwatched rootProcess) (stateAfter (unwatched rootProcess) events) event).ops =
      (stateAfter (unwatched rootProcess) events).ops ++ reads ++ [new] := by
    rw [hturn,hreads]
    rfl
  have hlast : ((stateAfter (unwatched rootProcess) events).ops ++ reads ++ [new]).length - 1 =
      ((stateAfter (unwatched rootProcess) events).ops ++ reads).length := by
    simp
  have hpend : (turn (unwatched rootProcess) (stateAfter (unwatched rootProcess) events) event).pendingWrites =
      (stateAfter (unwatched rootProcess) events).pendingWrites.insert d
        ((stateAfter (unwatched rootProcess) events).ops ++ reads).length := by
    rw [hturn,hreads,hp]
    rfl
  refine h.concat rfl ?_ (fun d' hd => ⟨?_,new,?_,hw,ho⟩) ?_ fun d' k => ?_
  · intro k op hop hw'
    rw [hops,List.getElem?_append] at hop
    split_ifs at hop with hlt
    · exact Or.inl ⟨op,getElem?_of_noWrites hnone hop hw',hw'⟩
    · refine Or.inr ⟨d,(hc d).mpr rfl,?_⟩
      rw [hops,hlast]
      have hk := (List.getElem?_eq_some_iff.mp hop).1
      rw [List.length_singleton] at hk
      omega
  · rw [hops]
    simp
  · rw [hops,hlast]
    simp
  · rintro i op - hop hw' hl
    rw [hops,List.append_assoc]
    refine ⟨op,getElem?_append_of_some hop,hw',hl.keep ?_⟩
    rintro process fd path external observation rfl
    exact absurd ((hc d).mpr rfl) id
  · simp only [hpend,hops,hlast,ExtTreeMap.getElem?_insert,Std.compare_eq_iff_eq,hc]
    by_cases hd : d = d'
    · subst hd
      rw [if_pos rfl,Option.some.injEq]
      constructor
      · exact fun hk => Or.inl ⟨rfl,hk.symm⟩
      · rintro (⟨-,hk⟩ | ⟨i,hlt,hi,-⟩)
        · exact hk.symm
        · rcases hi with ⟨rfl,-⟩ | ⟨parent,child,hfork,-⟩ | ⟨hcopy,hends,-⟩
          · exact absurd hlt (Nat.lt_irrefl _)
          · exact absurd hfork (hf parent child)
          · exact absurd (htaken ⟨i,hcopy⟩) hends
    · have hends : ¬ Ends d' event := fun hend => hd (he d' hend).symm
      rw [if_neg hd,h.pending,or_iff_right fun hk => hd hk.1.symm]
      have hkeep (i : ℕ) := @copyStep_keep events event i d' hends hf fun hc' => hd ((hc d').mp hc'.2).symm
      constructor
      · rintro ⟨i,hi,hk⟩
        exact ⟨i,hi.lt,(hkeep i).mpr hi,hk⟩
      · rintro ⟨i,-,hi,hk⟩
        exact ⟨i,(hkeep i).mp hi,hk⟩

theorem copyStep_close {process : ProcessInstance} {fd : Int} {path : Str} {external : Bool}
    {observation : Option FileObservation} {i : ℕ} {d : Descriptor} :
    copyStep (IsCopy events) events.length (.fileClose process fd (some path) external observation) i d ↔
      IsCopy events i d ∧ d ≠ ⟨process.lifetime,fd⟩ := by
  constructor
  · rintro (⟨-,hc⟩ | ⟨parent,child,hf,-⟩ | ⟨hc,he,-⟩)
    · exact hc.elim
    · cases hf
    · exact ⟨hc,he⟩
  · rintro ⟨hc,he⟩
    exact Or.inr (Or.inr ⟨hc,he,fun parent child hf => by cases hf⟩)

theorem closeWrite_type {s : CanonState} {d : Descriptor} {observation : Option FileObservation} {k : ℕ}
    {op : CanonicalOp} (hop : (s.apply (.closeWrite .tree d observation)).ops[k]? = some op)
    (hw : op.opType = .fileWrite) : ∃ old, s.ops[k]? = some old ∧ old.opType = .fileWrite := by
  have hrecorded : (s.apply (.closeWrite .tree d observation)).ops =
      (s.pendingWrites[d]?.elim s.ops fun i => fillOutput s.ops i observation) :=
    closeWrite_recorded s .tree d observation
  rw [hrecorded] at hop
  cases hd : s.pendingWrites[d]? with
  | none =>
    rw [hd] at hop
    exact ⟨op,hop,hw⟩
  | some i =>
    rw [hd,Option.elim_some] at hop
    cases observation with
    | none => exact ⟨op,hop,hw⟩
    | some observation =>
      rw [fillOutput,List.getElem?_modify] at hop
      obtain ⟨old,hold,rfl⟩ := Option.map_eq_some_iff.mp hop
      refine ⟨old,hold,?_⟩
      split_ifs at hw <;> exact hw

/-- What a close makes of an operation of which the descriptor is a copy, and of the others. -/
theorem Filed.closed_op (h : Filed rootProcess events) {process : ProcessInstance} {fd : Int} {path : Str}
    {observation : Option FileObservation} {i : ℕ} {d : Descriptor} (hi : CreatedAt events i d) {op : CanonicalOp}
    (hop : (stateAfter (unwatched rootProcess) events).ops[writeIndex rootProcess events i]? = some op)
    (hw : op.opType = .fileWrite) (hl : LastClosed events i op.outputHashes) :
    ∃ op', ((stateAfter (unwatched rootProcess) events).apply
        (.closeWrite .tree ⟨process.lifetime,fd⟩ observation)).ops[writeIndex rootProcess events i]? = some op' ∧
      op'.opType = .fileWrite ∧
        LastClosed (events ++ [.fileClose process fd (some path) false observation]) i op'.outputHashes := by
  have hkeep (hkept : observation = none ∨ ¬ IsCopy events i ⟨process.lifetime,fd⟩) :
      LastClosed (events ++ [.fileClose process fd (some path) false observation]) i op.outputHashes := by
    apply hl.keep
    intro process' fd' path' external' observation' he hcopy
    injection he with hprocess hfd hpath hexternal hobservation
    subst hprocess hfd hobservation
    rcases hkept with hkept | hkept
    · cases hkept
    · exact hkept hcopy
  cases observation with
  | none =>
    have hsame := closeWrite_unobserved (stateAfter (unwatched rootProcess) events) .tree ⟨process.lifetime,fd⟩
    exact ⟨op,(congrArg (·[writeIndex rootProcess events i]?) hsame).trans hop,hw,hkeep (Or.inl rfl)⟩
  | some observation =>
    by_cases hcopy : IsCopy events i ⟨process.lifetime,fd⟩
    · have hd := (h.pending _ _).mpr ⟨i,hcopy,rfl⟩
      refine ⟨{ op with outputHashes := [observation.identity] },?_,hw,lastClosed_close hcopy⟩
      simp [CanonState.apply,CanonState.pending,CanonState.recorded,hd,setSide,fillOutput,hop]
    · have hne : ((stateAfter (unwatched rootProcess) events).pending .tree)[(⟨process.lifetime,fd⟩ : Descriptor)]? ≠
          some (writeIndex rootProcess events i) := by
        intro hd
        obtain ⟨i',hi',he⟩ := (h.pending _ _).mp hd
        obtain ⟨d',hd'⟩ := hi'.createdAt
        rw [h.injective hd' hi he] at hi'
        exact hcopy hi'
      exact ⟨op,(getElem?_closeWrite_ne hne).trans hop,hw,hkeep (Or.inr hcopy)⟩

/-- A close fills the write of which the descriptor is a copy, and ends the copy. -/
theorem Filed.closes (h : Filed rootProcess events) (process : ProcessInstance) (fd : Int) (path : Str)
    (observation : Option FileObservation) :
    Filed rootProcess (events ++ [.fileClose process fd (some path) false observation]) := by
  have hturn : turn (unwatched rootProcess) (stateAfter (unwatched rootProcess) events)
      (.fileClose process fd (some path) false observation) =
      (stateAfter (unwatched rootProcess) events).apply (.closeWrite .tree ⟨process.lifetime,fd⟩ observation) := by
    apply turn_closes
    simp [writeAction,closeSide,isWatched_nil]
  have hpend : ((stateAfter (unwatched rootProcess) events).apply
      (.closeWrite .tree ⟨process.lifetime,fd⟩ observation)).pendingWrites =
      (stateAfter (unwatched rootProcess) events).pendingWrites.erase ⟨process.lifetime,fd⟩ :=
    closeWrite_pending _ .tree _ observation
  refine h.concat_old hturn (fun d hd => hd.elim) (fun k op hop hw => closeWrite_type hop hw)
    (fun i op hi hop hw hl => hi.elim fun d hd => h.closed_op hd hop hw hl) fun d k => ?_
  simp only [hpend,ExtTreeMap.getElem?_erase,Std.compare_eq_iff_eq,copyStep_close]
  by_cases hd : ⟨process.lifetime,fd⟩ = d
  · rw [if_pos hd]
    simp [hd]
  · rw [if_neg hd,h.pending]
    exact exists_congr fun i => and_congr_left' (and_iff_left (Ne.symm hd)).symm

theorem copyStep_fork {parent child : ProcessInstance} {i : ℕ} {d : Descriptor} :
    copyStep (IsCopy events) events.length (.fork parent child) i d ↔
      (d.lifetime = child.lifetime ∧ IsCopy events i ⟨parent.lifetime,d.fd⟩) ∨
        (IsCopy events i d ∧ (d.lifetime = child.lifetime →
          ∀ i', IsCopy events i' ⟨parent.lifetime,d.fd⟩ → i' = i)) := by
  simp [copyStep,Creates,Ends]

/-- A fork makes the descriptors of the child copies of those of the parent. -/
theorem Filed.forks (h : Filed rootProcess events) (parent child : ProcessInstance) :
    Filed rootProcess (events ++ [.fork parent child]) := by
  obtain ⟨hr,-,hp⟩ :=
    @turn_hands (unwatched rootProcess) (stateAfter (unwatched rootProcess) events) (.fork parent child) _ _ rfl
  have hops : (turn (unwatched rootProcess) (stateAfter (unwatched rootProcess) events) (.fork parent child)).ops =
      (stateAfter (unwatched rootProcess) events).ops := congrFun hr .tree
  have hpend : (turn (unwatched rootProcess) (stateAfter (unwatched rootProcess) events)
      (.fork parent child)).pendingWrites = inheritWrites (ι := Unit) .stored () parent.lifetime child.lifetime
        (stateAfter (unwatched rootProcess) events).pendingWrites := hp
  refine h.concat_old rfl (fun d hd => hd.elim) ?_ ?_ fun d k => ?_
  · intro k op hop hw
    rw [hops] at hop
    exact ⟨op,hop,hw⟩
  · rintro i op - hop hw hl
    rw [hops]
    exact ⟨op,hop,hw,hl.keep fun _ _ _ _ _ he => by cases he⟩
  rw [hpend,getElem?_inheritWrites]
  simp only [copyStep_fork]
  by_cases hd : d.lifetime = child.lifetime
  · simp only [hd,if_true,true_and,forall_const]
    cases hpar : (stateAfter (unwatched rootProcess) events).pendingWrites[
        (⟨parent.lifetime,d.fd⟩ : Descriptor)]? with
    | none =>
      have hno : ∀ i, ¬ IsCopy events i ⟨parent.lifetime,d.fd⟩ := by
        intro i hi
        rw [(h.pending _ _).mpr ⟨i,hi,rfl⟩] at hpar
        cases hpar
      rw [Option.none_or,h.pending]
      simp [hno]
    | some index =>
      obtain ⟨i₀,hi₀,rfl⟩ := (h.pending _ _).mp hpar
      rw [Option.some_or,Option.some.injEq]
      constructor
      · exact fun hk => ⟨i₀,Or.inl hi₀,hk⟩
      · rintro ⟨i,hi | ⟨-,hi⟩,hk⟩
        · rwa [h.copy_unique hi₀ hi]
        · rwa [hi i₀ hi₀]
  · rw [if_neg hd,h.pending]
    simp [hd]

theorem filed_run (rootProcess : ProcessInstance) {events : List TracedEvent}
    (hinside : ∀ event ∈ events, event.inside = true) : Filed rootProcess events := by
  induction events using List.reverseRecOn with
  | nil => exact filed_nil
  | append_singleton events event ih =>
    have h := ih fun e he => hinside e (List.mem_append_left _ he)
    have hin := hinside event (by simp)
    cases ha : writeAction (unwatched rootProcess)
      ((stateAfter (unwatched rootProcess) events).view (actor event)) event with
    | opens side d => exact h.opens hin ha
    | closes side d observation =>
      obtain ⟨process,fd,path,rfl⟩ := action_closes hin ha
      exact h.closes process fd path observation
    | hands parent child =>
      obtain ⟨p,c,rfl,-,-⟩ := effects_hands ha
      exact h.forks p c
    | other => exact h.other hin ha

/-- One identity at most is in order. -/
theorem LastClosed.sorted {i : ℕ} {outputHashes : List Str} (h : LastClosed events i outputHashes) :
    KeyedSort.sortByKey (fun hash => hash) outputHashes = outputHashes := by
  rcases h with ⟨rfl,-⟩ | ⟨_,_,-,-,rfl⟩
  · exact KeyedSort.sortByKey_nil _
  · exact KeyedSort.sortByKey_singleton _ _

/-- The event at a position records the operation at an index. -/
def RecordedAt (scope : TraceScope) (order : IterationOrder ℕ) (events : List TracedEvent) (i k : ℕ) : Prop :=
  (canonicalizeFrom scope order 0 (initial scope) (events.take i)).ops.length ≤ k ∧
    k < (canonicalizeFrom scope order 0 (initial scope) (events.take (i + 1))).ops.length

theorem Filed.recordedAt (h : Filed rootProcess events) (order : IterationOrder ℕ) {i : ℕ} {d : Descriptor}
    (hi : CreatedAt events i d) :
    RecordedAt (unwatched rootProcess) order events i (writeIndex rootProcess events i) := by
  have hgrew := h.grew i d hi
  rw [RecordedAt,canonicalizeFrom_initial,canonicalizeFrom_initial,writeIndex]
  omega

/-- Writes are recorded where they are opened, and their output is the identity seen when a copy
of the descriptor was closed last. -/
theorem fileWrites_last_closed (rootProcess : ProcessInstance) (order : IterationOrder ℕ)
    {events : List TracedEvent} (hinside : ∀ event ∈ events, event.inside = true) :
    (∀ i d, CreatedAt events i d → ∃ k op, RecordedAt ⟨rootProcess,[]⟩ order events i k ∧
      (canonicalizeFrom ⟨rootProcess,[]⟩ order 0 (initial ⟨rootProcess,[]⟩) events).ops[k]? = some op ∧
        op.opType = .fileWrite) ∧
    ∀ k op, (canonicalizeFrom ⟨rootProcess,[]⟩ order 0 (initial ⟨rootProcess,[]⟩) events).ops[k]? = some op →
      op.opType = .fileWrite → ∃ i d, CreatedAt events i d ∧ RecordedAt ⟨rootProcess,[]⟩ order events i k ∧
        LastClosed events i op.outputHashes ∧ op.normalize.outputHashes = op.outputHashes := by
  have h := filed_run rootProcess hinside
  rw [canonicalizeFrom_initial]
  constructor
  · intro i d hi
    obtain ⟨op,hop,hw,-⟩ := h.filled i d hi
    exact ⟨writeIndex rootProcess events i,op,h.recordedAt order hi,hop,hw⟩
  · intro k op hop hw
    obtain ⟨i,d,hi,rfl⟩ := h.created k op hop hw
    obtain ⟨op',hop',-,hl⟩ := h.filled i d hi
    obtain rfl : op' = op := Option.some.inj (hop'.symm.trans hop)
    exact ⟨i,d,hi,h.recordedAt order hi,hl,hl.sorted⟩

/-- The opener hands its descriptor down and closes it first. -/
def inheritedWritableFd : List TracedEvent :=
  [.fileOpen ⟨⟨1,0⟩,0⟩ (utf8 "/workspace/output") 1 3 false (.content (utf8 "old-output")),
    .fork ⟨⟨1,0⟩,0⟩ ⟨⟨2,0⟩,0⟩,
    .fileClose ⟨⟨1,0⟩,0⟩ 3 (some (utf8 "/workspace/output")) false (some (.content (utf8 "intermediate-output"))),
    .fileClose ⟨⟨2,0⟩,1⟩ 3 (some (utf8 "/workspace/output")) false (some (.content (utf8 "output")))]

/-- The copy of the child decides. -/
theorem fileWrites_last_closed_inherited :
    (canonicalizeFrom ⟨⟨⟨1,0⟩,0⟩,[]⟩ .stored 0 (initial ⟨⟨⟨1,0⟩,0⟩,[]⟩) inheritedWritableFd).ops[0]? =
      some ⟨.fileWrite,0,none,[],[],[utf8 "output"]⟩ ∧
    ∃ i d, CreatedAt inheritedWritableFd i d ∧ LastClosed inheritedWritableFd i [utf8 "output"] := by
  have hop : (canonicalizeFrom ⟨⟨⟨1,0⟩,0⟩,[]⟩ .stored 0 (initial ⟨⟨⟨1,0⟩,0⟩,[]⟩) inheritedWritableFd).ops[0]? =
      some ⟨.fileWrite,0,none,[],[],[utf8 "output"]⟩ := by decide +kernel
  obtain ⟨i,d,hi,-,hl,-⟩ := (fileWrites_last_closed ⟨⟨1,0⟩,0⟩ .stored (by decide)).2 0 _ hop rfl
  exact ⟨hop,i,d,hi,hl⟩

end Run

end Repx.Trace
