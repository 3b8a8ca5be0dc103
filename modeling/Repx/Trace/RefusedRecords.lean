import Repx.Trace.RenamePairing

/-! # Records that make a run incomplete

A buffer is complete when no record of it is refused and no rename is left
waiting. Renames and unlinks are refused when their path does not decode; opened
files and executables are recorded under a replacement path instead.
-/
namespace Repx.Trace
open ByteString Utf8 Std HashTables Probe

namespace RawEvent

/-- The path buffer of a record that names one file, with its recorded length. -/
def pathField (raw : RawEvent) : Option (PathBuffer × UInt32) :=
  match raw.event with
  | some ⟨_,_,.fileOpen payload⟩ => some (payload.path,payload.pathLen)
  | some ⟨_,_,.processExec payload⟩ => some (payload.filename,payload.filenameLen)
  | some ⟨_,_,.fileRenameSource payload⟩ => some (payload.path,payload.pathLen)
  | some ⟨_,_,.fileRenameDestination payload⟩ => some (payload.path,payload.pathLen)
  | some ⟨_,_,.fileUnlink payload⟩ => some (payload.path,payload.pathLen)
  | _ => none

/-- The recorded path is valid UTF-8 and not empty without its trailing zero bytes. -/
def PathDecodes (raw : RawEvent) : Prop :=
  ∀ field, raw.pathField = some field →
    isUtf8 (pathBytes field.1 field.2) = true ∧ trimNul (pathBytes field.1 field.2) ≠ []

/-- An opened file or an executed image. -/
def opensPath (raw : RawEvent) : Bool :=
  match raw.event with
  | some ⟨_,_,.fileOpen _⟩ => true
  | some ⟨_,_,.processExec _⟩ => true
  | _ => false

/-- The renames that wait behind a record, unless it is refused. -/
def join (waiting : List RenameKey) (raw : RawEvent) : Option (List RenameKey) :=
  match raw.renameSource, raw.renameDestination with
  | some half, _ => if half.path.isSome then some (half.key :: waiting.filter (· ≠ half.key)) else none
  | none, some half =>
    if half.key ∈ waiting ∧ half.path.isSome then some (waiting.filter (· ≠ half.key)) else none
  | none, none => if raw.malformed then none else some waiting

end RawEvent

/-- Every record is taken and every rename finds its second half. -/
def recordsJoin : List RenameKey → List RawEvent → Bool
  | waiting, [] => waiting.isEmpty
  | waiting, raw :: rest =>
    match raw.join waiting with
    | none => false
    | some waiting => recordsJoin waiting rest

theorem decodeEventPath_isSome {path : PathBuffer} {pathLen : UInt32} :
    (decodeEventPath path pathLen).isSome = true ↔
      isUtf8 (pathBytes path pathLen) = true ∧ trimNul (pathBytes path pathLen) ≠ [] := by
  simp only [decodeEventPath]
  split
  · next h => simpa using h
  · next h => simpa using h

section Accounts
variable {H : Type} {order : IterationOrder ℕ} {view : ℕ → World H} {watchPrefixes : List Str} {site : ℕ}
  {raw : RawEvent} {c : Collected H} {half : RenameHalf}

theorem saturatingAdd_eq_zero {n : UInt64} {k : ℕ} : saturatingAdd n k = 0 ↔ n = 0 ∧ k = 0 := by
  have hlt := n.toNat_lt
  have hsize : UInt64.size = 18446744073709551616 := rfl
  have hval : (saturatingAdd n k).toNat = min (n.toNat + k) (UInt64.size - 1) := by
    refine UInt64.toNat_ofNat_of_lt' ?_
    omega
  rw [← UInt64.toNat_inj,← UInt64.toNat_inj,hval,UInt64.toNat_zero]
  omega

theorem processRawEvent_source_refused (h : raw.renameSource = some half) (hpath : half.path = none) :
    (processRawEvent order view watchPrefixes site raw c).state.malformedEvents =
      saturatingAdd c.state.malformedEvents 1 := by
  obtain ⟨source,timestampNs,hevent,-⟩ := RawEvent.event_of_renameSource h
  have hdecoded : decodeEventPath half.payload.path half.payload.pathLen = none := hpath
  have hprocess := sameAccounts_currentProcess (s := c.state) half.payload.tgid
  simp [processRawEvent,hevent,processEvent,processFileRenameSource,hdecoded,refuse,hprocess.malformedEvents]

theorem processRawEvent_destination_refused (h : raw.renameDestination = some half)
    (hrefused : ¬ (half.key ∈ c.state.pendingRenames ∧ half.path.isSome = true)) :
    (processRawEvent order view watchPrefixes site raw c).state.malformedEvents =
      saturatingAdd c.state.malformedEvents 1 := by
  obtain ⟨source,timestampNs,hevent,-⟩ := RawEvent.event_of_renameDestination h
  unfold RenameHalf.key RenameHalf.path at hrefused
  simp only [processRawEvent,hevent,processEvent,processFileRenameDestination]
  cases hfound : c.state.pendingRenames[(⟨half.payload.pid,half.payload.operationId⟩ : RenameKey)]? with
  | none => simp [refuse]
  | some pending =>
    have hmem : (⟨half.payload.pid,half.payload.operationId⟩ : RenameKey) ∈ c.state.pendingRenames :=
      ExtTreeMap.mem_iff_isSome_getElem?.mpr (by rw [hfound]; rfl)
    cases hdecoded : decodeEventPath half.payload.path half.payload.pathLen with
    | none => simp [refuse]
    | some rawPath => exact absurd ⟨hmem,by rw [hdecoded]; rfl⟩ hrefused

/-- The keys under which a state holds waiting renames. -/
def Waits (waiting : List RenameKey) (s : EventCollectorState H) : Prop :=
  ∀ key, key ∈ s.pendingRenames ↔ key ∈ waiting

variable (order view watchPrefixes site) in
/-- A record that is taken leaves the count as it was. -/
theorem processRawEvent_joined {waiting waiting' : List RenameKey} (hwaits : Waits waiting c.state)
    (h : raw.join waiting = some waiting') :
    Waits waiting' (processRawEvent order view watchPrefixes site raw c).state ∧
      (processRawEvent order view watchPrefixes site raw c).state.malformedEvents = c.state.malformedEvents := by
  unfold RawEvent.join at h
  split at h
  · next half hsource =>
    split_ifs at h with hpath
    obtain rfl := Option.some.inj h
    obtain ⟨hcount,-,pending,-,hpending⟩ :=
      processRawEvent_source order view watchPrefixes site c hsource hpath
    refine ⟨fun key => ?_,hcount⟩
    rw [hpending,ExtTreeMap.mem_insert,Std.compare_eq_iff_eq,hwaits key]
    simp only [List.mem_cons,List.mem_filter,decide_eq_true_eq]
    by_cases hk : key = half.key
    · simp [hk]
    · simp [hk,eq_comm]
  · next half hsource hdestination =>
    split_ifs at h with hfound
    obtain rfl := Option.some.inj h
    have hmem := (hwaits half.key).mpr hfound.1
    obtain ⟨pending,hpending⟩ := Option.isSome_iff_exists.mp (ExtTreeMap.mem_iff_isSome_getElem?.mp hmem)
    obtain ⟨hkeys,hcount,-⟩ :=
      processRawEvent_destination order view watchPrefixes site c hdestination hfound.2 hpending
    refine ⟨fun key => ?_,hcount⟩
    rw [hkeys,ExtTreeMap.mem_erase,ne_eq,Std.compare_eq_iff_eq,hwaits key]
    simp only [List.mem_filter,decide_eq_true_eq]
    tauto
  · next hsource hdestination =>
    split_ifs at h with hm
    obtain rfl := Option.some.inj h
    obtain ⟨hkeys,hcount,-⟩ :=
      processRawEvent_bystander order view watchPrefixes site c hsource hdestination
    rw [if_neg hm,saturatingAdd_zero] at hcount
    refine ⟨fun key => ?_,hcount⟩
    rw [hkeys]
    exact hwaits key

/-- A record that is not taken is counted. -/
theorem processRawEvent_refused {waiting : List RenameKey} (hwaits : Waits waiting c.state)
    (h : raw.join waiting = none) :
    (processRawEvent order view watchPrefixes site raw c).state.malformedEvents =
      saturatingAdd c.state.malformedEvents 1 := by
  unfold RawEvent.join at h
  split at h
  · next half hsource =>
    split_ifs at h with hpath
    exact processRawEvent_source_refused hsource (Option.not_isSome_iff_eq_none.mp hpath)
  · next half hsource hdestination =>
    split_ifs at h with hfound
    rw [← hwaits half.key] at hfound
    exact processRawEvent_destination_refused hdestination hfound
  · next hsource hdestination =>
    split_ifs at h with hm
    have hcount := (processRawEvent_bystander order view watchPrefixes site c hsource hdestination).2.1
    rwa [if_pos hm] at hcount

/-- The count never goes down. -/
theorem processRawEvent_count_of_ne_zero (hc : c.state.malformedEvents ≠ 0) :
    (processRawEvent order view watchPrefixes site raw c).state.malformedEvents ≠ 0 := by
  have hwaits : Waits c.state.pendingRenames.keys c.state := fun key => ExtTreeMap.mem_keys.symm
  cases hj : raw.join c.state.pendingRenames.keys with
  | some waiting =>
    rw [(processRawEvent_joined order view watchPrefixes site hwaits hj).2]
    exact hc
  | none =>
    rw [processRawEvent_refused hwaits hj,ne_eq,saturatingAdd_eq_zero]
    exact fun h => hc h.1

theorem processBufferedEvents_count_of_ne_zero (rest : List RawEvent) (site : ℕ) (c : Collected H)
    (hc : c.state.malformedEvents ≠ 0) :
    (processBufferedEvents order view watchPrefixes site rest c).state.malformedEvents ≠ 0 := by
  induction rest generalizing site c with
  | nil => exact hc
  | cons raw rest ih => exact ih (site + 1) _ (processRawEvent_count_of_ne_zero hc)

variable (order view watchPrefixes) in
/-- A buffer leaves a count of zero and nothing waiting exactly if all its records
are taken. -/
theorem processBufferedEvents_complete_iff (rest : List RawEvent) (waiting : List RenameKey) (site : ℕ)
    (c : Collected H) (hwaits : Waits waiting c.state) :
    ((processBufferedEvents order view watchPrefixes site rest c).state.malformedEvents = 0 ∧
        (processBufferedEvents order view watchPrefixes site rest c).state.pendingRenames = ∅) ↔
      c.state.malformedEvents = 0 ∧ recordsJoin waiting rest = true := by
  induction rest generalizing waiting site c with
  | nil =>
    rw [processBufferedEvents,recordsJoin,List.isEmpty_iff,ExtTreeMap.eq_empty_iff_forall_not_mem,
      List.eq_nil_iff_forall_not_mem]
    simp only [hwaits _]
  | cons raw rest ih =>
    rw [processBufferedEvents,recordsJoin]
    cases hj : raw.join waiting with
    | some waiting' =>
      obtain ⟨hwaits',hcount⟩ := processRawEvent_joined order view watchPrefixes site hwaits hj
      rw [ih waiting' (site + 1) _ hwaits',hcount]
    | none =>
      have hcount : (processRawEvent order view watchPrefixes site raw c).state.malformedEvents ≠ 0 := by
        rw [processRawEvent_refused hwaits hj,ne_eq,saturatingAdd_eq_zero]
        omega
      simp only [Bool.false_eq_true,and_false,iff_false,not_and]
      intro hzero
      exact absurd (processBufferedEvents_count_of_ne_zero rest (site + 1) _ hcount) (not_not.mpr hzero)

end Accounts

section Buffer
variable {H : Type}

theorem sameAccounts_exitProcess {s : EventCollectorState H} (pid : UInt32) : SameAccounts s (s.exitProcess pid).2 :=
  (sameAccounts_currentProcess pid).trans ⟨rfl,rfl⟩

/-- The count that decides whether a run is refused, told from the buffer alone. -/
theorem finishSorted_complete_iff (order : IterationOrder ℕ) (view : ℕ → World H) (watchPrefixes : List Str)
    (childPid : UInt32) (exitCode : Int) (rootPid : UInt32) (rootCwd : Str) (malformed : UInt64)
    (sorted : List RawEvent) :
    (finishSorted order view watchPrefixes childPid exitCode sorted
        (.initial rootPid rootCwd malformed)).state.malformedEvents = 0 ↔
      malformed = 0 ∧ recordsJoin [] sorted = true := by
  have hwaits : Waits [] (Collected.initial (H := H) rootPid rootCwd malformed).state := by
    intro key
    simp [Collected.initial,EventCollectorState.new]
  have hrun := processBufferedEvents_complete_iff order view watchPrefixes sorted [] 0
    (.initial rootPid rootCwd malformed) hwaits
  have hstart : (Collected.initial (H := H) rootPid rootCwd malformed).state.malformedEvents = malformed := rfl
  rw [hstart] at hrun
  rw [← hrun]
  simp only [finishSorted]
  generalize processBufferedEvents order view watchPrefixes 0 sorted (.initial rootPid rootCwd malformed) = c
  have hexit := sameAccounts_exitProcess (s := c.state) childPid
  cases setLastExit childPid exitCode c.events with
  | some events =>
    simp only [saturatingAdd_eq_zero]
    rw [ExtTreeMap.eq_empty_iff_size_eq_zero]
  | none =>
    generalize c.state.exitProcess childPid = found at hexit ⊢
    obtain ⟨process,s⟩ := found
    simp only [saturatingAdd_eq_zero]
    rw [ExtTreeMap.eq_empty_iff_size_eq_zero,hexit.malformedEvents,hexit.pendingRenames]

end Buffer

/-- A record that is taken has a path that decodes, unless it opens the path. -/
theorem RawEvent.pathDecodes_of_join {raw : RawEvent} {waiting waiting' : List RenameKey}
    (h : raw.join waiting = some waiting') (hopens : raw.opensPath = false) : raw.PathDecodes := by
  intro field hfield
  rw [← decodeEventPath_isSome]
  obtain ⟨timestamp,_ | ⟨source,timestampNs,payload⟩⟩ := raw
  · simp [pathField] at hfield
  · cases payload with
    | fileOpen payload => simp [opensPath] at hopens
    | processExec payload => simp [opensPath] at hopens
    | fileRenameSource payload =>
      obtain rfl := Option.some.inj hfield
      simp only [join,renameSource] at h
      split_ifs at h with hpath
      exact hpath
    | fileRenameDestination payload =>
      obtain rfl := Option.some.inj hfield
      simp only [join,renameSource,renameDestination] at h
      split_ifs at h with hfound
      exact hfound.2
    | fileUnlink payload =>
      obtain rfl := Option.some.inj hfield
      simp only [join,renameSource,renameDestination,malformed] at h
      cases hd : decodeEventPath payload.path payload.pathLen with
      | none => simp [hd] at h
      | some rawPath => rw [Option.isSome_some]
    | _ => simp [pathField] at hfield

theorem pathDecodes_of_recordsJoin {sorted : List RawEvent} {waiting : List RenameKey}
    (h : recordsJoin waiting sorted = true) : ∀ raw ∈ sorted, raw.opensPath = false → raw.PathDecodes := by
  induction sorted generalizing waiting with
  | nil => simp
  | cons first rest ih =>
    intro raw hraw hopens
    rw [recordsJoin] at h
    cases hj : first.join waiting with
    | none => simp [hj] at h
    | some waiting' =>
      rw [hj] at h
      rcases List.mem_cons.mp hraw with rfl | hraw
      · exact RawEvent.pathDecodes_of_join hj hopens
      · exact ih h raw hraw hopens

/-- A run counts as complete only with decoded paths exactly if the paths of opened
files and executables decode, or another record makes it incomplete anyway. -/
theorem complete_paths_decode_iff {H : Type} (order : IterationOrder ℕ) (view : ℕ → World H)
    (watchPrefixes : List Str) (childPid : UInt32) (exitCode : Int) (rootPid : UInt32) (rootCwd : Str)
    (malformed : UInt64) (raw sorted : List RawEvent) (hsort : SortResult raw sorted) :
    ((finishSorted order view watchPrefixes childPid exitCode sorted
        (.initial rootPid rootCwd malformed)).state.malformedEvents = 0 → ∀ r ∈ raw, r.PathDecodes) ↔
      ((∀ r ∈ raw, r.opensPath = true → r.PathDecodes) ∨ malformed ≠ 0 ∨ recordsJoin [] sorted = false) := by
  rw [finishSorted_complete_iff]
  constructor
  · intro h
    by_cases hcomplete : malformed = 0 ∧ recordsJoin [] sorted = true
    · exact Or.inl fun r hr _ => h hcomplete r hr
    · rw [not_and_or,Bool.not_eq_true] at hcomplete
      exact Or.inr hcomplete
  · rintro h ⟨hzero,hjoin⟩ r hr
    rcases h with h | h | h
    · cases hopens : r.opensPath with
      | true => exact h r hr hopens
      | false => exact pathDecodes_of_recordsJoin hjoin r (hsort.perm.mem_iff.mpr hr) hopens
    · exact absurd hzero h
    · rw [h] at hjoin
      cases hjoin

/-- A record of an opened file whose path is one byte. -/
def openedByte (byte : UInt8) : RawEvent :=
  ⟨1,some ⟨0,1,.fileOpen ⟨10,10,3,atFdcwd,0,Vector.ofFn fun i => if i.val = 0 then byte else 0,1⟩⟩⟩

set_option maxRecDepth 4000 in
theorem complete_paths_decode_sample :
    (finishSorted .stored (fun _ => bareWorld) [] 10 0 [openedByte 97]
      (.initial 10 [slash] 0)).state.malformedEvents = 0 ∧ ∀ r ∈ [openedByte 97], r.PathDecodes := by
  have hzero : (finishSorted .stored (fun _ => bareWorld) [] 10 0 [openedByte 97]
      (.initial 10 [slash] 0)).state.malformedEvents = 0 := by decide +kernel
  refine ⟨hzero,(complete_paths_decode_iff .stored (fun _ => bareWorld) [] 10 0 10 [slash] 0 [openedByte 97]
    [openedByte 97] ⟨.refl _,by decide⟩).mpr (Or.inl ?_) hzero⟩
  intro r hr _ field hfield
  obtain rfl := List.mem_singleton.mp hr
  obtain rfl := Option.some.inj hfield
  exact ⟨by decide,by decide⟩

set_option maxRecDepth 4000 in
/-- A file is opened under a name that is no text, and the run counts as complete. -/
theorem undecodable_open_complete :
    ¬ ∀ (order : IterationOrder ℕ) (view : ℕ → World Empty) (watchPrefixes : List Str) (childPid : UInt32)
      (exitCode : Int) (rootPid : UInt32) (rootCwd : Str) (malformed : UInt64) (raw sorted : List RawEvent),
      SortResult raw sorted →
      (finishSorted order view watchPrefixes childPid exitCode sorted
        (.initial rootPid rootCwd malformed)).state.malformedEvents = 0 → ∀ r ∈ raw, r.PathDecodes := by
  intro h
  have hcomplete := (finishSorted_complete_iff .stored (fun _ => bareWorld) [] 10 0 10 [slash] 0
    [openedByte 255]).mpr ⟨rfl,rfl⟩
  have hdecodes := h .stored (fun _ => bareWorld) [] 10 0 10 [slash] 0 [openedByte 255] [openedByte 255]
    ⟨.refl _,by decide⟩ hcomplete (openedByte 255) List.mem_cons_self
  exact absurd (hdecodes _ rfl).1 (by decide)

end Repx.Trace
