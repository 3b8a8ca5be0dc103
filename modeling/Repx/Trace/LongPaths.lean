import Repx.Probe.Maps
import Repx.Trace.RenamePairing

/-! # Paths longer than the buffer of a record

A record holds the first 255 bytes of a path, while the link of the new descriptor has all of
it. The link replaces the recorded path only where the two agree, and a cut path agrees with
nothing: it is another text, it has no canonical path, and it is absolute. So a long path is
recorded as its first 255 bytes, unless these do not even decode.
-/
namespace Repx.Trace
open ByteString Utf8 HashTables Probe

theorem pathBytes_read (read : StringRead) : pathBytes read.buffer read.len = read.bytes := by
  have hlen : read.bytes.length < maxPathLen := by
    cases read with
    | none => decide
    | some read => exact read.property
  have hcount : read.len.toNat = read.bytes.length := by
    simp only [StringRead.len,Nat.toUInt32_eq,UInt32.toNat_ofNat']
    exact Nat.mod_eq_of_lt (hlen.trans (by decide))
  refine List.ext_getElem ?_ fun i h₁ h₂ => ?_
  · simp only [pathBytes,hcount,List.length_take,Vector.length_toList]
    omega
  · simp [pathBytes,StringRead.buffer,h₂]

theorem trimNul_eq_self {text : Str} (h : (0 : UInt8) ∉ text) : trimNul text = text := by
  rw [trimNul,List.rdropWhile_eq_self_iff]
  intro hne hlast
  exact h (by simpa [beq_iff_eq.mp hlast] using List.getLast_mem hne)

@[simp] theorem OpenFileState.getOpenObservation_path {H : Type} (w : World H) (file : OpenFileState H) :
    (file.getOpenObservation w).2.path = file.path := by
  unfold getOpenObservation
  split <;> rfl

section Opens
variable {H : Type} (w : World H) (s : EventCollectorState H) (payload : FileOpenEvent)

/-- The path an opened file is recorded under, for a record that resolves to `rawResolved`. -/
def linkedPath (rawResolved : Str) : Str :=
  ((w.procTarget (procFd payload.tgid payload.fd)).filter (pathsAgree w rawResolved)).getD rawResolved

/-- The event and the entry of the descriptor table that are recorded for an opened file. -/
structure RecordsOpen (process : ProcessInstance) (path : Str) (processed : Processed H) : Prop where
  event : ∃ observation,
    processed.emitted = [.fileOpen process path payload.flags payload.fd.toInt false observation]
  entry : (processed.state.fdTable[(⟨process.lifetime,payload.fd.toInt⟩ : Descriptor)]?).map OpenFileState.path =
    some path

theorem currentProcess_of_live {pid : UInt32} {process : ProcessInstance}
    (h : s.currentProcesses[pid]? = some process) : s.currentProcess pid = (process,s) := by
  simp [EventCollectorState.currentProcess,h]

/-- The path of a tracked open is found in the event and in the table, and no other path is. -/
theorem recordsOpen_iff {process : ProcessInstance} (hlive : s.currentProcesses[payload.tgid]? = some process)
    (hfd : 0 ≤ payload.fd) (watchPrefixes : List Str) {path : Str} :
    RecordsOpen payload process path (processFileOpen w watchPrefixes false s payload) ↔
      linkedPath w payload
        (s.resolvePath w process payload.dfd (openedPath payload.path payload.pathLen)).1 = path := by
  simp only [processFileOpen,currentProcess_of_live s hlive,Bool.false_and,Bool.false_eq_true,↓reduceIte,hfd]
  constructor
  · rintro ⟨⟨observation,he⟩,-⟩
    simp only [List.cons.injEq,TracedEvent.fileOpen.injEq,and_true,true_and] at he
    exact he.1
  · rintro rfl
    exact ⟨⟨_,rfl⟩,by simp [linkedPath]⟩

/-- The link of the descriptor replaces the resolved path exactly when the two agree. -/
theorem linkedPath_eq_iff {rawResolved path : Str} (hne : rawResolved ≠ path) :
    linkedPath w payload rawResolved = path ↔
      w.procTarget (procFd payload.tgid payload.fd) = some path ∧ pathsAgree w rawResolved path = true := by
  unfold linkedPath
  constructor
  · intro h
    cases hf : (w.procTarget (procFd payload.tgid payload.fd)).filter (pathsAgree w rawResolved) with
    | none => exact absurd (by simpa [hf] using h) hne
    | some target =>
      obtain rfl : target = path := by simpa [hf] using h
      exact Option.filter_eq_some_iff.mp hf
  · intro h
    rw [Option.filter_eq_some_iff.mpr h]
    rfl

/-- A path of more than 255 bytes, of which the record has 255. What it is cut to does not exist. -/
structure LongOpen (path : Str) : Prop where
  opened : 0 ≤ payload.fd
  absolute : path.head? = some slash
  nul : (0 : UInt8) ∉ path
  long : 255 < path.length
  cut : pathBytes payload.path payload.pathLen = path.take 255
  link : w.readLink (procFd payload.tgid payload.fd) = some path
  missing : w.canonicalize (path.take 255) = none

variable {w s payload} {path : Str}

/-- An absolute path that does not exist agrees only with itself. -/
theorem pathsAgree_of_missing {rawPath target : Str} (ha : rawPath.head? = some slash)
    (hm : w.canonicalize rawPath = none) : pathsAgree w rawPath target = true ↔ rawPath = target := by
  simp [pathsAgree,ha,hm]

/-- A cut that decodes is recorded as it is. -/
theorem LongOpen.linkedPath_of_isUtf8 (h : LongOpen w payload path) (hu : isUtf8 (path.take 255) = true)
    (process : ProcessInstance) :
    linkedPath w payload (s.resolvePath w process payload.dfd (openedPath payload.path payload.pathLen)).1 =
      path.take 255 := by
  have ha : (path.take 255).head? = some slash := by
    rw [List.head?_take,if_neg (by decide),h.absolute]
  have hraw : openedPath payload.path payload.pathLen = path.take 255 := by
    simp only [openedPath,h.cut,hu,↓reduceIte]
    exact trimNul_eq_self fun hm => h.nul (List.mem_of_mem_take hm)
  have hresolved : (s.resolvePath w process payload.dfd (path.take 255)).1 = path.take 255 := by
    simp [EventCollectorState.resolvePath,ha]
  rw [hraw,hresolved,linkedPath]
  cases hf : (w.procTarget (procFd payload.tgid payload.fd)).filter (pathsAgree w (path.take 255)) with
  | none => rfl
  | some target =>
    have hagree := (Option.filter_eq_some_iff.mp hf).2
    exact ((pathsAgree_of_missing ha h.missing).mp hagree).symm

/-- The text that stands for a path that does not decode. -/
def undecoded : Str := utf8 "<invalid utf8>"

theorem LongOpen.openedPath_of_not_isUtf8 (h : LongOpen w payload path)
    (hu : isUtf8 (path.take 255) = false) : openedPath payload.path payload.pathLen = undecoded := by
  simp only [openedPath,h.cut,hu,Bool.false_eq_true,↓reduceIte]
  exact trimNul_eq_self (by decide)

/-- Resolved against a directory, or not at all, the placeholder keeps its place at the end. -/
theorem resolvePath_undecoded (process : ProcessInstance) (dfd : Int32) :
    ∃ base, (s.resolvePath w process dfd undecoded).1 = lossy (base ++ undecoded) := by
  have hjoin (base : Str) : ∃ front, lossy (joinPath base undecoded) = lossy (front ++ undecoded) := by
    unfold joinPath
    split_ifs
    · exact ⟨[],rfl⟩
    · exact ⟨base,rfl⟩
    · exact ⟨base ++ [slash],rfl⟩
  have hrelative : undecoded.head? ≠ some slash := by decide
  simp only [EventCollectorState.resolvePath,hrelative,↓reduceIte]
  split
  · exact hjoin _
  · split_ifs
    · exact hjoin _
    · have hplain : undecoded = lossy ([] ++ undecoded) := by decide
      exact ⟨[],hplain⟩

/-- The link of a file with such a path is read as the path itself. -/
theorem linkText_undecoded (base : Str) :
    stripDeletedSuffix (lossy (lossy (base ++ undecoded))) = lossy (base ++ undecoded) := by
  have hlast : base ++ undecoded = base ++ utf8 "<invalid utf8" ++ [62] := by
    rw [List.append_assoc]
    rfl
  rw [lossy_of_isUtf8 (isUtf8_lossy _),hlast,lossy_concat_ascii (by decide),stripDeletedSuffix,if_neg]
  intro hsuffix
  have hdeleted : deletedSuffix = utf8 " (deleted" ++ [41] := by decide
  rw [List.isSuffixOf_iff_suffix,hdeleted,List.suffix_concat_iff] at hsuffix
  simp at hsuffix

/-- A cut that does not decode leaves the link to agree with the placeholder for it. -/
theorem LongOpen.linkedPath_of_not_isUtf8 (h : LongOpen w payload path) (hu : isUtf8 (path.take 255) = false)
    (process : ProcessInstance) :
    linkedPath w payload
        (s.resolvePath w process payload.dfd (openedPath payload.path payload.pathLen)).1 = path ↔
      stripDeletedSuffix (lossy path) = path ∧
        pathsAgree w (s.resolvePath w process payload.dfd undecoded).1 path = true := by
  have htarget : w.procTarget (procFd payload.tgid payload.fd) = some (stripDeletedSuffix (lossy path)) := by
    rw [World.procTarget,h.link,Option.map_some]
  rw [h.openedPath_of_not_isUtf8 hu]
  obtain ⟨base,hbase⟩ := resolvePath_undecoded (w := w) (s := s) process payload.dfd
  by_cases hr : (s.resolvePath w process payload.dfd undecoded).1 = path
  · have hlink : stripDeletedSuffix (lossy path) = path := by
      rw [← hr,hbase,linkText_undecoded]
    have hself : pathsAgree w path path = true := by simp [pathsAgree]
    rw [hr,linkedPath,htarget,hlink]
    refine iff_of_true ?_ ⟨rfl,hself⟩
    rw [Option.filter_eq_some_iff.mpr ⟨rfl,hself⟩]
    rfl
  · rw [linkedPath_eq_iff w payload hr,htarget,Option.some.injEq]

variable (order : IterationOrder ℕ) (view : ℕ → World H) (watchPrefixes : List Str)

/-- A cut that decodes is recorded in the place of the path. -/
theorem LongOpen.recordsOpen_cut (h : LongOpen w payload path) (hu : isUtf8 (path.take 255) = true)
    {process : ProcessInstance} (hlive : s.currentProcesses[payload.tgid]? = some process) {recorded : Str} :
    RecordsOpen payload process recorded (processFileOpen w watchPrefixes false s payload) ↔
      path.take 255 = recorded := by
  rw [recordsOpen_iff w s payload hlive h.opened watchPrefixes,h.linkedPath_of_isUtf8 hu]

theorem LongOpen.cut_ne (h : LongOpen w payload path) : path.take 255 ≠ path := by
  intro he
  have hlen := congrArg List.length he
  have hlong := h.long
  rw [List.length_take] at hlen
  omega

/-- A long path is recovered through the link of its descriptor only if the first 255 bytes do
not decode, and then if the placeholder for them resolves to a path that agrees with it. -/
theorem longOpen_recovered_iff (site : ℕ) (timestamp : UInt64) {process : ProcessInstance}
    (hlive : s.currentProcesses[payload.tgid]? = some process) (h : LongOpen (view site) payload path) :
    RecordsOpen payload process path (processEvent order view watchPrefixes site ⟨0,timestamp,.fileOpen payload⟩ s) ↔
      isUtf8 (path.take 255) = false ∧ stripDeletedSuffix (lossy path) = path ∧
        pathsAgree (view site) (s.resolvePath (view site) process payload.dfd undecoded).1 path = true := by
  cases hu : isUtf8 (path.take 255) with
  | false =>
    rw [eq_self_iff_true,true_and,← h.linkedPath_of_not_isUtf8 hu]
    exact recordsOpen_iff (view site) s payload hlive h.opened watchPrefixes
  | true =>
    refine (h.recordsOpen_cut watchPrefixes hu hlive).trans (iff_of_false h.cut_ne ?_)
    rintro ⟨hfalse,-⟩
    exact absurd hfalse (by decide)

end Opens

section Samples

/-- A directory and a file in it, 300 bytes together. -/
def longPath : Str := slash :: List.replicate 199 97 ++ slash :: List.replicate 99 98

/-- What the reader of the kernel makes of the path. -/
def longRead : StringRead := some ⟨longPath.take 255,by decide +kernel⟩

def longWorld : World Empty :=
  { bareWorld with readLink := fun path => if path = procFd 10 3 then some longPath else none }

def longOpenEvent : FileOpenEvent := ⟨10,10,3,atFdcwd,0,longRead.buffer,longRead.len⟩

theorem longOpen_longWorld : LongOpen longWorld longOpenEvent longPath where
  opened := by decide
  absolute := rfl
  nul := by decide +kernel
  long := by decide +kernel
  cut := pathBytes_read longRead
  link := by simp [longWorld,longOpenEvent]
  missing := rfl

theorem longOpen_recovered_iff_sample :
    RecordsOpen longOpenEvent ⟨⟨10,0⟩,0⟩ longPath
        (processEvent .stored (fun _ => longWorld) [] 0 ⟨0,5,.fileOpen longOpenEvent⟩ (.new 10 [slash])) ↔
      isUtf8 (longPath.take 255) = false ∧ stripDeletedSuffix (lossy longPath) = longPath ∧
        pathsAgree longWorld
          ((EventCollectorState.new 10 [slash]).resolvePath longWorld ⟨⟨10,0⟩,0⟩ atFdcwd undecoded).1 longPath =
            true :=
  longOpen_recovered_iff .stored (fun _ => longWorld) [] 0 5 (by decide +kernel) longOpen_longWorld

/-- The root opens a file whose path the link has in full. -/
theorem long_path_cut : ¬ ∀ (order : IterationOrder ℕ) (view : ℕ → World Empty) (watchPrefixes : List Str) (site : ℕ)
    (timestamp : UInt64) (s : EventCollectorState Empty) (process : ProcessInstance) (payload : FileOpenEvent)
    (path : Str), s.currentProcesses[payload.tgid]? = some process → LongOpen (view site) payload path →
      RecordsOpen payload process path
        (processEvent order view watchPrefixes site ⟨0,timestamp,.fileOpen payload⟩ s) := by
  intro h
  have hlive : (EventCollectorState.new 10 [slash] : EventCollectorState Empty).currentProcesses[(10 : UInt32)]? =
      some ⟨⟨10,0⟩,0⟩ := by decide +kernel
  have hrecords := h .stored (fun _ => longWorld) [] 0 5 (.new 10 [slash]) _ longOpenEvent longPath hlive
    longOpen_longWorld
  have hutf8 : isUtf8 (longPath.take 255) = true := by decide +kernel
  exact longOpen_longWorld.cut_ne ((longOpen_longWorld.recordsOpen_cut [] hutf8 hlive).mp hrecords)

end Samples

end Repx.Trace
