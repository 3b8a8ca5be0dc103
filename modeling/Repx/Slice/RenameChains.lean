import Repx.Slice.Authorship

/-! # Authorship along chains of renames

The scan records the renames of a trace in order, and the fixup applies them all
once more to the complete table of path writers. A process that is responsible for
a path is therefore responsible for every path that some of the renames, in order,
move it to, no matter where its close stands among them.
-/
namespace Repx.Slice
open ByteString Std Trace HashTables Sha256

/-- The move of a rename inside the process tree. -/
def renamePair : TracedEvent → Option (Str × Str)
  | .fileRename _ fromPath toPath _ false _ => some (fromPath,toPath)
  | _ => none

/-- The path after several renames, each of which moves it. -/
def rewriteChain : List (Str × Str) → Str → Option Str
  | [], path => some path
  | (fromPath,toPath) :: pairs, path => (rewritePathPrefix path fromPath toPath).bind (rewriteChain pairs)

section Pairs

/-- The move an effect records. -/
def ScanEffect.renamePair : ScanEffect → Option (Str × Str)
  | .move fromPath toPath => some (fromPath,toPath)
  | _ => none

theorem renamePairs_apply (order : IterationOrder Traversal) (site : ℕ) (s : ScanState) (effect : ScanEffect) :
    (s.apply order site effect).renamePairs = s.renamePairs ++ effect.renamePair.toList := by
  cases effect with
  | move fromPath toPath => rfl
  | exec | inherit | read | bind | release | author | write | rename | exit =>
    simp only [ScanEffect.renamePair,Option.toList_none,List.append_nil]
    rfl

theorem renamePairs_foldl (order : IterationOrder Traversal) (site : ℕ) (effects : List ScanEffect)
    (s : ScanState) :
    (effects.foldl (ScanState.apply order site) s).renamePairs =
      s.renamePairs ++ effects.filterMap ScanEffect.renamePair := by
  induction effects generalizing s with
  | nil => simp
  | cons effect effects ih =>
    rw [List.foldl_cons,ih,renamePairs_apply,List.append_assoc]
    cases h : effect.renamePair <;> simp [h]

/-- The effects of an event record its move and no other. -/
theorem filterMap_renamePair_scanEffects (rootProcess : ProcessInstance)
    (pending : ExtTreeMap Descriptor PendingWrite) (event : TracedEvent) :
    (scanEffects rootProcess pending event).filterMap ScanEffect.renamePair = (renamePair event).toList := by
  cases event with
  | fileRename process fromPath toPath flags external observation =>
    cases external with
    | true => rfl
    | false => cases h : observation.contentHash <;> simp [scanEffects,renamePair,h,ScanEffect.renamePair]
  | _ =>
    simp only [renamePair,Option.toList_none]
    rw [List.filterMap_eq_nil_iff]
    intro effect he
    unfold scanEffects settleEffects readEffects at he
    grind [ScanEffect.renamePair]

/-- The scan records the moves of the events in their order. -/
theorem renamePairs_scanFrom (order : IterationOrder Traversal) (rootProcess : ProcessInstance)
    (events : List TracedEvent) (site : ℕ) (s : ScanState) :
    (scanFrom order rootProcess site s events).renamePairs = s.renamePairs ++ events.filterMap renamePair := by
  induction events generalizing site s with
  | nil => simp [scanFrom]
  | cons event events ih =>
    rw [scanFrom,ih,scanEvent_eq_foldl,renamePairs_foldl,filterMap_renamePair_scanEffects,List.append_assoc]
    cases h : renamePair event <;> simp [h]

end Pairs

/-- The fixup follows every chain of renames that occurs in its list. -/
theorem pathWriter_rewriteChain (order : IterationOrder Traversal) {process : ProcessInstance}
    {chain pairs : List (Str × Str)} (hsub : chain.Sublist pairs) (pair : ℕ) {writers : Writers} {path last : Str}
    (hpath : process ∈ membersAt writers path) (hchain : rewriteChain chain path = some last) :
    process ∈ membersAt (renameFixup order pair pairs writers) last := by
  induction hsub generalizing pair writers path with
  | slnil =>
    obtain rfl := Option.some_inj.mp hchain
    exact hpath
  | cons p _ ih =>
    have hkept := (mem_membersAt_aliasWriters order (.fixupAliases pair) (.fixupMembers pair) p.1 p.2 writers
      path process).mpr (Or.inl hpath)
    exact ih (pair + 1) hkept hchain
  | cons_cons p _ ih =>
    obtain ⟨next,hnext,hrest⟩ := Option.bind_eq_some_iff.mp hchain
    have hmoved := (mem_membersAt_aliasWriters order (.fixupAliases pair) (.fixupMembers pair) p.1 p.2 writers
      next process).mpr (Or.inr ⟨path,hnext,hpath⟩)
    exact ih (pair + 1) hmoved hrest

/-- A close with an observation finds the write of a process pending under its
descriptor; the path is the one the close names, or else the recorded one. -/
inductive ResolvesWrite (order : IterationOrder Traversal) (rootProcess : ProcessInstance)
    (observation : FileObservation) : ProcessInstance → Str → List TracedEvent → Prop
  | intro {before after : List TracedEvent} {closer : ProcessInstance} {fd : Int} {closePath : Option Str}
      {write : PendingWrite} :
      (scanFrom order rootProcess 0 .initial before).pendingWrites[(⟨closer.lifetime,fd⟩ : Descriptor)]? =
        some write →
      ResolvesWrite order rootProcess observation write.process (closePath.getD write.path)
        (before ++ .fileClose closer fd closePath false (some observation) :: after)

theorem ResolvesWrite.pathWriter {order : IterationOrder Traversal} {rootProcess process : ProcessInstance}
    {observation : FileObservation} {path : Str} {events : List TracedEvent}
    (h : ResolvesWrite order rootProcess observation process path events) :
    process ∈ membersAt (scanFrom order rootProcess 0 .initial events).writersByPath path := by
  cases h with
  | @intro before after closer fd closePath write hpending =>
    rw [scanFrom_append,scanFrom]
    apply pathWriter_scanFrom
    have hcarries : Carries (scanFrom order rootProcess 0 .initial before) write.process (some write.path)
        ⟨closer.lifetime,fd⟩ := ⟨write,hpending,rfl,by simp⟩
    apply pathWriter_fileClose hcarries
    cases closePath with
    | none => exact Or.inr ⟨rfl,rfl⟩
    | some path => exact Or.inl rfl

/-- The process whose write a close resolves is responsible for every path that
renames of the trace, taken in order, move the file to, and it is in the slice of
every output there. The close may stand before, between or after the renames. -/
theorem renamed_write_included (order : IterationOrder Traversal) (events : List TracedEvent)
    (rootProcess process : ProcessInstance) (observation : FileObservation) (path last : Str)
    (h : ResolvesWrite order rootProcess observation process path events) (renames : List TracedEvent)
    (hsub : renames.Sublist events) (hchain : rewriteChain (renames.filterMap renamePair) path = some last) :
    process ∈ membersAt (scan order rootProcess events).writersByPath last ∧
      ∀ outputs : List OutputFile, ∀ output ∈ outputs, output.path = last →
        process ∈ includedProcesses order events rootProcess outputs := by
  have hpairs : (scanFrom order rootProcess 0 .initial events).renamePairs = events.filterMap renamePair := by
    rw [renamePairs_scanFrom]
    rfl
  have hlast : process ∈ membersAt (scan order rootProcess events).writersByPath last := by
    simp only [scan,hpairs]
    exact pathWriter_rewriteChain order (hsub.filterMap renamePair) 0 h.pathWriter hchain
  refine ⟨hlast,fun outputs output ho hp => mem_included.mpr (.start ⟨output,ho,?_⟩)⟩
  rw [hp]
  exact hlast

section Late

/-- A directory is renamed while a file in it is being written; the close arrives
with the old path, and the file is renamed once more. -/
def lateClose : List TracedEvent :=
  [.fileOpen writerProcess (utf8 "/t/x") 1 3 false (.missing writtenContent),
    .fileRename helperProcess (utf8 "/t") (utf8 "/b") 0 false (.missing writtenContent),
    .fileClose writerProcess 3 (some (utf8 "/t/x")) false (some (.content writtenContent)),
    .fileRename helperProcess (utf8 "/b/x") (utf8 "/o") 0 false (.content writtenContent)]

theorem renamed_write_included_sample :
    writerProcess ∈ includedProcesses .stored lateClose writerProcess [writtenOutput] := by
  have hresolves : ResolvesWrite .stored writerProcess (.content writtenContent) writerProcess (utf8 "/t/x")
      lateClose :=
    @ResolvesWrite.intro .stored writerProcess (.content writtenContent)
      [.fileOpen writerProcess (utf8 "/t/x") 1 3 false (.missing writtenContent),
        .fileRename helperProcess (utf8 "/t") (utf8 "/b") 0 false (.missing writtenContent)]
      [.fileRename helperProcess (utf8 "/b/x") (utf8 "/o") 0 false (.content writtenContent)]
      writerProcess 3 (some (utf8 "/t/x")) ⟨writerProcess,utf8 "/b/x"⟩ (by decide)
  have hincluded := renamed_write_included .stored lateClose writerProcess writerProcess (.content writtenContent)
    (utf8 "/t/x") (utf8 "/o") hresolves lateClose (List.Sublist.refl _) (by decide)
  exact hincluded.2 [writtenOutput] writtenOutput (List.mem_singleton_self _) rfl

end Late

end Repx.Slice
