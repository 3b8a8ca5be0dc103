import Repx.Commitment.AttestationBinding
import Repx.Commitment.OperationRoots
import Repx.Commitment.OperationSets
import Repx.Slice.OpBinding
import Repx.Trace.TraceCommand
import Repx.Workspace.OutputSelection

/-! # The attestation of a build

A tracing command takes a snapshot of the workspace, traces the build, takes another snapshot
and selects the outputs; the operations of the trace and the outputs go into the document. Two
documents with one root stand for one build: the flags as they are recorded, the outputs and
the operations agree, or two byte strings that were hashed for the documents collide.
-/
namespace Repx.Commands
open ByteString Utf8 Sha256 KeyedSort HashTables Merkle Attest Canonical CanonicalOp Trace Workspace

/-- The flags that the tracing commands share. -/
structure Flags where
  watchDirs : List Str
  artifacts : List Str
  outputRoots : List Str
  command : List Str
deriving DecidableEq

/-- What a tracing command finds around it: the directory it runs in, the snapshots, the traced build, the
resolution of the watched directories and the orders of the hash tables. -/
structure Run where
  workspaceRoot : Str
  before : Except Str Snapshot
  trace : Except Str TraceResult
  after : Except Str Snapshot
  canonicalize : Str → Option Str
  order : IterationOrder ℕ
  traversal : IterationOrder Slice.Traversal

/-- How a command ends early: with an error, or with an exit code behind the lines it has printed. -/
inductive Stop where
  | error (text : Str)
  | exit (lines : List Str)
deriving DecidableEq

/-- The end of a command at the first error. -/
def orStop {α : Type} : Except Str α → Except Stop α
  | .ok a => .ok a
  | .error text => .error (.error text)

@[simp] theorem orStop_eq_ok {α : Type} {x : Except Str α} {a : α} : orStop x = .ok a ↔ x = .ok a := by
  cases x <;> simp [orStop]

theorem bind_eq_ok {ε α β : Type} {x : Except ε α} {f : α → Except ε β} {b : β} :
    (x >>= f) = .ok b ↔ ∃ a, x = .ok a ∧ f a = .ok b := by
  cases x <;> simp [bind,Except.bind]

/-- A traced build with its outputs. -/
structure Built where
  result : TraceResult
  selected : SelectedOutputs

def Run.build (run : Run) (flags : Flags) : Except Stop Built := do
  let before ← orStop run.before
  let result ← orStop run.trace
  let after ← orStop run.after
  let selected ← orStop (selectOutputs before after run.workspaceRoot flags.artifacts flags.outputRoots)
  .ok ⟨result,selected⟩

def Run.watchPrefixes (run : Run) (flags : Flags) : List Str :=
  flags.watchDirs.map fun dir => lossy ((run.canonicalize dir).getD dir)

/-- What a document says about a build. -/
structure BuildRecord where
  command : List Str
  selection : OutputSelection
  outputs : List AttestedOutput
  operations : List CanonicalOp

def attestedOutputsMetadata (workspaceRoot : Str) (outputs : List Workspace.OutputFile) : List AttestedOutput :=
  outputs.map fun output => ⟨displayPath workspaceRoot output.path,output.hash⟩

section Documents
variable (sha256 : Str → Digest)

/-- All operations if no output was selected, else those the outputs depend on. -/
def canonicalOps (run : Run) (flags : Flags) (built : Built) : List CanonicalOp :=
  if built.selected.outputs.isEmpty then
    canonicalizeEvents sha256 ⟨built.result.rootProcess,run.watchPrefixes flags⟩ run.order built.result.events
  else
    Slice.canonicalizeOutputSlice sha256 run.traversal built.result.events built.result.rootProcess
      (built.selected.outputs.map fun output => ⟨output.path,output.hash⟩)

def buildRecord (run : Run) (flags : Flags) (built : Built) : BuildRecord where
  command := flags.command
  selection := outputSelectionMetadata built.selected.mode run.workspaceRoot flags.artifacts flags.outputRoots
  outputs := attestedOutputsMetadata run.workspaceRoot built.selected.outputs
  operations := canonicalOps sha256 run flags built

def BuildRecord.attestation (record : BuildRecord) : Attestation :=
  newWithOutputs sha256 (buildMerkleTree sha256 record.operations) record.command record.selection record.outputs

end Documents

/-- What the tracing command prints and writes. -/
structure Traced where
  warnings : List Str
  attestation : Attestation
  lines : List Str

def Built.report (built : Built) (att : Attestation) (output : Str) : Traced where
  warnings :=
    if 0 < built.result.droppedEvents then
      [utf8 "WARNING: " ++ numeral 10 built.result.droppedEvents.toNat ++
        utf8 " events dropped (ring buffer full). Attestation may be incomplete."]
    else []
  attestation := att
  lines := [utf8 "Attestation root: " ++ att.rootHash,utf8 "Written to: " ++ lossy output] ++
    if built.selected.outputs.isEmpty then []
    else [utf8 "Workspace outputs: " ++ numeral 10 built.selected.outputs.length]

def trace (sha256 : Str → Digest) (run : Run) (flags : Flags) (allowDroppedEvents : Bool) (output : Str) :
    Except Stop Traced := do
  let built ← run.build flags
  if 0 < built.result.droppedEvents ∧ ¬ allowDroppedEvents then
    .error (.exit [utf8 "FAILED: " ++ numeral 10 built.result.droppedEvents.toNat ++
      utf8 " events dropped during trace. " ++
      utf8 "Use --allow-dropped-events to write an incomplete attestation anyway."])
  else .ok (built.report ((buildRecord sha256 run flags built).attestation sha256) output)

theorem build_eq_ok {run : Run} {flags : Flags} {built : Built} :
    run.build flags = .ok built ↔ ∃ before after, run.before = .ok before ∧ run.trace = .ok built.result ∧
      run.after = .ok after ∧
      selectOutputs before after run.workspaceRoot flags.artifacts flags.outputRoots = .ok built.selected := by
  obtain ⟨result,selected⟩ := built
  simp only [Run.build,bind_eq_ok,orStop_eq_ok,Except.ok.injEq,Built.mk.injEq]
  constructor
  · rintro ⟨before,hb,_,ht,after,ha,_,hs,rfl,rfl⟩
    exact ⟨before,after,hb,ht,ha,hs⟩
  · rintro ⟨before,after,hb,ht,ha,hs⟩
    exact ⟨before,hb,_,ht,after,ha,_,hs,rfl,rfl⟩

/-! ## One root, one build -/

/-- Two operations that are hashed alike: they agree, or one is a write of an unknown tool and the other a write
of that content as a tool. -/
def Alike (a b : CanonicalOp) : Prop := SameContent a b ∨ AmbiguousPair a b ∨ AmbiguousPair b a

theorem preimage_eq_iff_alike {a b : CanonicalOp} (ha : WellShaped a) (hb : WellShaped b) :
    a.preimage = b.preimage ↔ Alike a b := by
  constructor
  · intro he
    by_contra hno
    obtain ⟨hsame,hpair⟩ := not_or.mp hno
    exact hsame ((sameContent_iff_not_ambiguous ha hb).mpr hpair he)
  · rintro (h | h | h)
    · exact h.preimage_eq
    · exact (h.preimage_eq ha hb).1
    · exact (h.preimage_eq hb ha).1.symm

/-- The builds agree in everything that is attested, up to the order of what has none. -/
structure SameBuild (r r' : BuildRecord) : Prop where
  command : r.command = r'.command
  mode : r.selection.mode = r'.selection.mode
  artifacts : r.selection.artifacts.Perm r'.selection.artifacts
  outputRoots : r.selection.outputRoots.Perm r'.selection.outputRoots
  outputs : r.outputs.Perm r'.outputs
  operations : List.Forall₂ Alike r.operations r'.operations

namespace BuildRecord

/-- The operations are as the tracer emits them. -/
def Shaped (r : BuildRecord) : Prop := ∀ op ∈ r.operations, WellShaped op

/-- Every string and every list fits the counts of the framing. The process root always does. -/
def Fits (r : BuildRecord) : Prop := FitsU32 [] r.command r.selection r.outputs

/-- The byte strings that are hashed for a document. -/
def hashed (sha256 : Str → Digest) (r : BuildRecord) : List Str :=
  encodeCommitmentV03 (r.attestation sha256).processRoot (r.attestation sha256).command
      (r.attestation sha256).outputSelection (r.attestation sha256).outputs ::
    treeInputs sha256 (r.operations.map preimage)

end BuildRecord

section Binding
variable {sha256 : Str → Digest} {r r' : BuildRecord}

theorem map_preimage_eq_iff {ops ops' : List CanonicalOp} (h : ∀ op ∈ ops, WellShaped op)
    (h' : ∀ op ∈ ops', WellShaped op) :
    ops.map preimage = ops'.map preimage ↔ List.Forall₂ Alike ops ops' := by
  induction ops generalizing ops' with
  | nil => cases ops' <;> simp
  | cons op ops ih =>
    cases ops' with
    | nil => simp
    | cons op' ops' =>
      have hhead := preimage_eq_iff_alike (h op List.mem_cons_self) (h' op' List.mem_cons_self)
      have htail := ih (fun x hx => h x (List.mem_cons_of_mem _ hx)) fun x hx => h' x (List.mem_cons_of_mem _ hx)
      rw [List.map_cons,List.map_cons,List.cons.injEq,List.forall₂_cons,hhead,htail]

theorem buildMerkleTree_eq_of_leaves {ops ops' : List CanonicalOp}
    (h : ops.map (CanonicalOp.hash sha256) = ops'.map (CanonicalOp.hash sha256)) :
    buildMerkleTree sha256 ops = buildMerkleTree sha256 ops' :=
  congrArg₂ (fun leaves count => MerkleTree.mk leaves [] count) h (by simpa using congrArg List.length h)

theorem buildMerkleTree_eq_of_alike {ops ops' : List CanonicalOp} (h : ∀ op ∈ ops, WellShaped op)
    (h' : ∀ op ∈ ops', WellShaped op) (halike : List.Forall₂ Alike ops ops') :
    buildMerkleTree sha256 ops = buildMerkleTree sha256 ops' := by
  have hleaves := congrArg (List.map fun text => digestText (sha256 text)) ((map_preimage_eq_iff h h').mpr halike)
  simp only [List.map_map] at hleaves
  exact buildMerkleTree_eq_of_leaves hleaves

/-- The document depends on nothing else. -/
theorem SameBuild.attestation_eq (h : SameBuild r r') (hr : r.Shaped) (hr' : r'.Shaped) :
    r.attestation sha256 = r'.attestation sha256 := by
  simp only [BuildRecord.attestation,newWithOutputs,buildMerkleTree_eq_of_alike hr hr' h.operations,h.command,h.mode,
    sortByKey_eq_of_perm h.artifacts,sortByKey_eq_of_perm h.outputRoots,sortOutputs_eq_of_perm h.outputs]

theorem processRoot_attestation :
    (r.attestation sha256).processRoot = rootFromLeaves sha256 (textLeaves sha256 (r.operations.map preimage)) := by
  have hroot : (r.attestation sha256).processRoot =
      (buildMerkleTree sha256 r.operations).rootHash sha256 := rfl
  rw [hroot,buildMerkleTree,MerkleTree.rootHash_of_no_nodes,textLeaves,List.map_map]
  rfl

theorem BuildRecord.Fits.framed (h : r.Fits) :
    FitsU32 (r.attestation sha256).processRoot (r.attestation sha256).command (r.attestation sha256).outputSelection
      (r.attestation sha256).outputs where
  processRoot := by
    rw [processRoot_attestation,(isDigestText_rootFromLeaves isDigestText_textLeaves).length]
    decide
  command := h.command
  mode := h.mode
  artifacts := by simpa [BuildRecord.attestation,newWithOutputs,sortByKey] using h.artifacts
  outputRoots := by simpa [BuildRecord.attestation,newWithOutputs,sortByKey] using h.outputRoots
  outputs := by simpa [BuildRecord.attestation,newWithOutputs] using h.outputs

theorem alike_or_collision (hr : r.Shaped) (hr' : r'.Shaped)
    (hprocess : (r.attestation sha256).processRoot = (r'.attestation sha256).processRoot) :
    List.Forall₂ Alike r.operations r'.operations ∨ Collision sha256 (r.hashed sha256 ++ r'.hashed sha256) := by
  rw [processRoot_attestation,processRoot_attestation] at hprocess
  have htext (r : BuildRecord) : ∀ text ∈ r.operations.map preimage, ¬ NodeText text := by
    intro text ht
    obtain ⟨op,-,rfl⟩ := List.mem_map.mp ht
    exact not_nodeText_preimage op
  have hsub (r : BuildRecord) : treeInputs sha256 (r.operations.map preimage) ⊆ r.hashed sha256 :=
    List.subset_cons_self _ _
  refine (texts_eq_or_collision (htext r) (htext r') hprocess).imp (map_preimage_eq_iff hr hr').mp fun hc => ?_
  exact hc.mono fun x hx => List.mem_append.mpr ((List.mem_append.mp hx).imp (fun h => hsub r h) fun h => hsub r' h)

/-- Two builds whose documents have one root are the same build, or the hash function collides. -/
theorem sameBuild_or_collision (hr : r.Shaped) (hr' : r'.Shaped) (hfits : r.Fits) (hfits' : r'.Fits)
    (hroot : (r.attestation sha256).rootHash = (r'.attestation sha256).rootHash) :
    SameBuild r r' ∨ Collision sha256 (r.hashed sha256 ++ r'.hashed sha256) := by
  by_cases hframe : (r.hashed sha256).head? = (r'.hashed sha256).head?
  · obtain ⟨hprocess,hcommand,hselection,houtputs⟩ :=
      encodeCommitmentV03_inj hfits.framed hfits'.framed (Option.some.inj hframe)
    refine (alike_or_collision hr hr' hprocess).imp (fun hoperations => ?_) fun hc => hc
    have hsort {l l' : List Str} (h : sortByKey (fun s => s) l = sortByKey (fun s => s) l') : l.Perm l' := by
      have hl : (sortByKey (fun s => s) l).Perm l := List.perm_insertionSort _ l
      rw [h] at hl
      exact hl.symm.trans (List.perm_insertionSort _ l')
    simp only [BuildRecord.attestation,newWithOutputs,OutputSelection.mk.injEq] at hselection houtputs
    exact
      { command := hcommand
        mode := hselection.1
        artifacts := hsort hselection.2.1
        outputRoots := hsort hselection.2.2
        outputs := (List.perm_insertionSort outputLe r.outputs).symm.trans
          (houtputs ▸ List.perm_insertionSort outputLe r'.outputs)
        operations := hoperations }
  · refine Or.inr ⟨_,List.mem_append_left _ List.mem_cons_self,_,List.mem_append_right _ List.mem_cons_self,
      fun he => hframe (congrArg some he),digestText_injective hroot⟩

end Binding

/-! ## Attested builds -/

/-- The hashes in the events and of the outputs are digest texts, as the hashing of files gives them. -/
structure Genuine (built : Built) : Prop where
  events : ∀ event ∈ built.result.events, event.WellFormed
  outputs : ∀ output ∈ built.selected.outputs, IsDigestText output.hash

/-- A build that a tracing command has carried through. -/
structure AttestedBuild where
  run : Run
  flags : Flags
  built : Built
  build_eq : run.build flags = .ok built
  genuine : Genuine built

namespace AttestedBuild
variable (sha256 : Str → Digest) (b : AttestedBuild)

def record : BuildRecord := buildRecord sha256 b.run b.flags b.built

def attestation : Attestation := (b.record sha256).attestation sha256

theorem shaped : (b.record sha256).Shaped := by
  intro op hop
  have hop : op ∈ canonicalOps sha256 b.run b.flags b.built := hop
  unfold canonicalOps at hop
  split_ifs at hop
  · exact wellShaped_of_mem_canonicalizeEvents b.genuine.events hop
  · refine Slice.wellShaped_of_mem_canonicalizeOutputSlice b.genuine.events ?_ hop
    intro output ho
    obtain ⟨selected,hs,rfl⟩ := List.mem_map.mp ho
    exact isIdentity_of_isDigestText (b.genuine.outputs selected hs)

/-- The mode follows from the flags. -/
theorem mode_eq : b.built.selected.mode = outputMode b.flags.artifacts b.flags.outputRoots := by
  obtain ⟨before,after,-,-,-,hs⟩ := build_eq_ok.mp b.build_eq
  simp only [selectOutputs] at hs
  split_ifs at hs
  · rw [← Except.ok.inj hs]
  · obtain ⟨selected,-,he⟩ := bind_eq_ok.mp hs
    rw [← Except.ok.inj he]

/-- The recorded selection is sorted already. -/
theorem outputSelection_attestation : (b.attestation sha256).outputSelection =
    outputSelectionMetadata (outputMode b.flags.artifacts b.flags.outputRoots) b.run.workspaceRoot b.flags.artifacts
      b.flags.outputRoots := by
  simp only [attestation,record,buildRecord,BuildRecord.attestation,newWithOutputs,outputSelectionMetadata,
    sortByKey_sortByKey,b.mode_eq]

end AttestedBuild

/-- What the tracing command writes is the document over its build. -/
theorem trace_eq_ok {sha256 : Str → Digest} {run : Run} {flags : Flags} {allowDroppedEvents : Bool} {output : Str}
    {traced : Traced} :
    trace sha256 run flags allowDroppedEvents output = .ok traced ↔
      ∃ built, run.build flags = .ok built ∧ (allowDroppedEvents ∨ built.result.droppedEvents = 0) ∧
        traced = built.report ((buildRecord sha256 run flags built).attestation sha256) output := by
  simp only [trace,bind_eq_ok]
  refine exists_congr fun built => and_congr_right fun _ => ?_
  split_ifs with hstop
  · refine iff_of_false (by simp) ?_
    rintro ⟨hallow | hnone,-⟩
    · exact hstop.2 hallow
    · simp [hnone] at hstop
  · have hgo : (allowDroppedEvents : Prop) ∨ built.result.droppedEvents = 0 := by
      rw [not_and_or,not_not,UInt64.not_lt,UInt64.le_zero_iff] at hstop
      exact hstop.symm
    simp [hgo,eq_comm]

end Repx.Commands
