import Repx.Commitment.OperationSets

/-! # The report on two attestations

`print_attestation_diff` compares two documents field by field and writes one
line after another. The committed lists are compared as sets of leaves and as
maps from paths to hashes, and at most twelve leaves and twenty outputs are
written out.
-/
namespace Repx.Merkle
open ByteString KeyedSort

structure LeafSetDiff where
  missing : List Str
  added : List Str
deriving DecidableEq, Repr

/-- The leaves of one tree that the other does not have, in both directions. -/
def diffLeafSets (expected actual : MerkleTree) : LeafSetDiff :=
  let expected := orderedSet expected.leafHashes
  let actual := orderedSet actual.leafHashes
  ⟨expected.filter (· ∉ actual),actual.filter (· ∉ expected)⟩

theorem mem_diffLeafSets_missing {expected actual : MerkleTree} {leaf : Str} :
    leaf ∈ (diffLeafSets expected actual).missing ↔ leaf ∈ expected.leafHashes ∧ leaf ∉ actual.leafHashes := by
  simp [diffLeafSets]

theorem mem_diffLeafSets_added {expected actual : MerkleTree} {leaf : Str} :
    leaf ∈ (diffLeafSets expected actual).added ↔ leaf ∈ actual.leafHashes ∧ leaf ∉ expected.leafHashes := by
  simp [diffLeafSets]

end Repx.Merkle

namespace Repx.Report
open ByteString KeyedSort Sha256 Merkle Canonical CanonicalOp Attest

/-- Letters, digits and the punctuation a shell takes literally. -/
def isPlainByte (c : UInt8) : Bool :=
  (48 ≤ c && c ≤ 57) || (65 ≤ c && c ≤ 90) || (97 ≤ c && c ≤ 122) || (utf8 "/._-=:+").contains c

def shellDisplayArg (arg : Str) : Str :=
  if arg.isEmpty then utf8 "''"
  else if arg.all isPlainByte then arg
  else utf8 "'" ++ arg.flatMap (fun c => if c = 39 then utf8 "'\"'\"'" else [c]) ++ utf8 "'"

def formatCommand (command : List Str) : Str := List.intercalate (utf8 " ") (command.map shellDisplayArg)

/-- The lines of values that only one of the two lists has. -/
def printStringListDelta (label : Str) (expected actual : List Str) : List Str :=
  let expected := orderedSet expected
  let actual := orderedSet actual
  ((expected.filter (· ∉ actual)).map fun value => utf8 "  missing " ++ label ++ utf8 ": " ++ value) ++
    ((actual.filter (· ∉ expected)).map fun value => utf8 "  added " ++ label ++ utf8 ": " ++ value)

/-- Collecting into a map keeps the last hash given for a path. -/
def outputsByPath (outputs : List AttestedOutput) (path : Str) : Option Str :=
  (outputs.reverse.find? (fun output => output.path = path)).map (·.hash)

/-- The kind of difference at one path, `none` where the two sides agree. -/
inductive OutputDelta where
  | changed (expected actual : Str)
  | missing (expected : Str)
  | added (actual : Str)
deriving DecidableEq, Repr

def outputDelta : Option Str → Option Str → Option OutputDelta
  | some e, some a => if e ≠ a then some (.changed e a) else none
  | some e, none => some (.missing e)
  | none, some a => some (.added a)
  | none, none => none

def OutputDelta.lines (path : Str) : OutputDelta → List Str
  | .changed e a => [utf8 "  changed: " ++ path,utf8 "    expected: " ++ e,utf8 "    actual:   " ++ a]
  | .missing e => [utf8 "  missing: " ++ e ++ utf8 " " ++ path]
  | .added a => [utf8 "  added:   " ++ a ++ utf8 " " ++ path]

def OutputDelta.isChanged : OutputDelta → Bool
  | .changed _ _ => true
  | _ => false

def OutputDelta.isMissing : OutputDelta → Bool
  | .missing _ => true
  | _ => false

def OutputDelta.isAdded : OutputDelta → Bool
  | .added _ => true
  | _ => false

/-- The printing loop stops behind the twentieth difference. -/
def shownDeltas (delta : Str → Option OutputDelta) : ℕ → List Str → List Str
  | _, [] => []
  | shown, path :: paths =>
    match delta path with
    | none => if 20 ≤ shown then [utf8 "  ... more output differences omitted"] else shownDeltas delta shown paths
    | some d =>
      d.lines path ++
        if 20 ≤ shown + 1 then [utf8 "  ... more output differences omitted"]
        else shownDeltas delta (shown + 1) paths

/-- The difference at one path of the two maps. -/
def deltaAt (expected actual : List AttestedOutput) (path : Str) : Option OutputDelta :=
  outputDelta (outputsByPath expected path) (outputsByPath actual path)

def printOutputDelta (expected actual : List AttestedOutput) : List Str :=
  let paths := orderedSet (expected.map (·.path) ++ actual.map (·.path))
  let delta := deltaAt expected actual
  if paths.isEmpty then [utf8 "Outputs: none recorded"]
  else
    let changed := (paths.filterMap delta).countP (·.isChanged)
    let missing := (paths.filterMap delta).countP (·.isMissing)
    let added := (paths.filterMap delta).countP (·.isAdded)
    if changed = 0 ∧ missing = 0 ∧ added = 0 then
      [utf8 "Outputs: all " ++ numeral 10 paths.length ++ utf8 " match"]
    else
      (utf8 "Outputs changed: " ++ numeral 10 changed ++ utf8 " changed, " ++ numeral 10 missing ++
        utf8 " missing, " ++ numeral 10 added ++ utf8 " added") :: shownDeltas delta 0 paths

/-- The lines on the operation leaves, twelve of each kind at most. -/
def printOperationDelta (diff : LeafSetDiff) : List Str :=
  if diff.missing.isEmpty ∧ diff.added.isEmpty then [utf8 "Operation set: no differences"]
  else
    let omitted := (diff.missing.length - 12) + (diff.added.length - 12)
    (utf8 "Operation set changed: " ++ numeral 10 diff.missing.length ++ utf8 " missing, " ++
        numeral 10 diff.added.length ++ utf8 " added") ::
      ((diff.missing.take 12).map fun hash => utf8 "  missing: " ++ hash) ++
      ((diff.added.take 12).map fun hash => utf8 "  added:   " ++ hash) ++
      if 0 < omitted then [utf8 "  ... " ++ numeral 10 omitted ++ utf8 " more"] else []

/-- A heading with the two values below it. -/
def printBoth (heading expected actual : Str) : List Str :=
  [heading,utf8 "  expected: " ++ expected,utf8 "  actual:   " ++ actual]

/-- The lines written for two documents. -/
def printAttestationDiff (expected actual : Attestation) : List Str :=
  (if expected.rootHash = actual.rootHash then [utf8 "Root hash: matches (" ++ expected.rootHash ++ utf8 ")"]
    else printBoth (utf8 "Root hash:") expected.rootHash actual.rootHash) ++
  (if expected.command ≠ actual.command then
      printBoth (utf8 "Command changed:") (formatCommand expected.command) (formatCommand actual.command)
    else []) ++
  (if expected.outputSelection ≠ actual.outputSelection then
      [utf8 "Output selection changed:",utf8 "  expected mode: " ++ expected.outputSelection.mode,
        utf8 "  actual mode:   " ++ actual.outputSelection.mode] ++
      printStringListDelta (utf8 "artifact") expected.outputSelection.artifacts
        actual.outputSelection.artifacts ++
      printStringListDelta (utf8 "output root") expected.outputSelection.outputRoots
        actual.outputSelection.outputRoots
    else []) ++
  printOutputDelta expected.outputs actual.outputs ++
  (if expected.tree.leafCount ≠ actual.tree.leafCount then
      printBoth (utf8 "Canonical op count changed:") (numeral 10 expected.tree.leafCount)
        (numeral 10 actual.tree.leafCount)
    else [utf8 "Canonical op count: " ++ numeral 10 expected.tree.leafCount]) ++
  printOperationDelta (diffLeafSets expected.tree actual.tree)

theorem outputsByPath_mem {outputs : List AttestedOutput} {path hash : Str}
    (h : outputsByPath outputs path = some hash) : ⟨path,hash⟩ ∈ outputs := by
  obtain ⟨o,ho,rfl⟩ := Option.map_eq_some_iff.mp h
  have hp := List.find?_some ho
  have hm := List.mem_of_find?_eq_some ho
  simp only [decide_eq_true_eq] at hp
  subst hp
  exact List.mem_reverse.mp hm

theorem outputsByPath_eq_none {outputs : List AttestedOutput} {path : Str} :
    outputsByPath outputs path = none ↔ ∀ o ∈ outputs, o.path ≠ path := by
  simp [outputsByPath]

/-- Where paths are distinct the map holds exactly the listed outputs. -/
theorem outputsByPath_of_mem {outputs : List AttestedOutput} (hd : (outputs.map (·.path)).Nodup)
    {o : AttestedOutput} (ho : o ∈ outputs) : outputsByPath outputs o.path = some o.hash := by
  cases hm : outputsByPath outputs o.path with
  | none => exact absurd rfl (outputsByPath_eq_none.mp hm o ho)
  | some hash =>
    have he := List.inj_on_of_nodup_map hd (outputsByPath_mem hm) ho rfl
    rw [← he]

theorem outputDelta_eq_none {e a : Option Str} : outputDelta e a = none ↔ e = a := by
  cases e <;> cases a <;> simp [outputDelta]

/-- The first difference of the loop is always written out. -/
theorem exists_shown {delta : Str → Option OutputDelta} {paths : List Str} {shown : ℕ} (hs : shown < 20)
    (h : ∃ path ∈ paths, delta path ≠ none) :
    ∃ path d, delta path = some d ∧ d.lines path ⊆ shownDeltas delta shown paths := by
  induction paths with
  | nil =>
    obtain ⟨path,hp,_⟩ := h
    simp at hp
  | cons p paths ih =>
    cases hd : delta p with
    | some d =>
      refine ⟨p,d,hd,?_⟩
      rw [shownDeltas,hd]
      exact List.subset_append_left _ _
    | none =>
      obtain ⟨path,hp,hne⟩ := h
      rcases List.mem_cons.mp hp with rfl | hp
      · exact absurd hd hne
      · obtain ⟨q,d,hq,hl⟩ := ih ⟨path,hp,hne⟩
        refine ⟨q,d,hq,?_⟩
        rw [shownDeltas,hd]
        simpa only [if_neg (by omega : ¬ 20 ≤ shown)] using hl

/-- Every difference is counted under one of the three kinds. -/
theorem counted_of_mem {ds : List OutputDelta} {d : OutputDelta} (h : d ∈ ds) :
    ¬ (ds.countP (·.isChanged) = 0 ∧ ds.countP (·.isMissing) = 0 ∧ ds.countP (·.isAdded) = 0) := by
  simp only [List.countP_eq_zero]
  rintro ⟨hc,hm,ha⟩
  cases d with
  | changed e a => exact hc _ h rfl
  | missing e => exact hm _ h rfl
  | added a => exact ha _ h rfl

/-- A path at which the two sides disagree is reported. -/
theorem printOutputDelta_reports {expected actual : List AttestedOutput} {path : Str}
    (hne : outputsByPath expected path ≠ outputsByPath actual path) :
    ∃ path d, deltaAt expected actual path = some d ∧ d.lines path ⊆ printOutputDelta expected actual := by
  have hd : deltaAt expected actual path ≠ none := fun h => hne (outputDelta_eq_none.mp h)
  have hmem : path ∈ orderedSet (expected.map (·.path) ++ actual.map (·.path)) := by
    rw [mem_orderedSet,List.mem_append,List.mem_map,List.mem_map]
    by_contra hnone
    simp only [not_or,not_exists,not_and] at hnone
    exact hne ((outputsByPath_eq_none.mpr hnone.1).trans (outputsByPath_eq_none.mpr hnone.2).symm)
  obtain ⟨d,hd'⟩ := Option.ne_none_iff_exists'.mp hd
  have hcount := counted_of_mem (List.mem_filterMap.mpr ⟨path,hmem,hd'⟩)
  obtain ⟨q,dq,hq,hl⟩ := exists_shown (by omega : 0 < 20) ⟨path,hmem,hd⟩
  refine ⟨q,dq,hq,?_⟩
  have hnonempty : (orderedSet (expected.map (·.path) ++ actual.map (·.path))).isEmpty = false := by
    rw [List.isEmpty_eq_false_iff]
    exact List.ne_nil_of_mem hmem
  simp only [printOutputDelta,hnonempty,Bool.false_eq_true,↓reduceIte]
  rw [if_neg hcount]
  exact fun line hline => List.mem_cons_of_mem _ (hl hline)

/-- A leaf that only one tree has is reported. -/
theorem printOperationDelta_reports {diff : LeafSetDiff} (h : ¬ (diff.missing = [] ∧ diff.added = [])) :
    (∃ leaf ∈ diff.missing, utf8 "  missing: " ++ leaf ∈ printOperationDelta diff) ∨
      ∃ leaf ∈ diff.added, utf8 "  added:   " ++ leaf ∈ printOperationDelta diff := by
  have hcond : ¬ (diff.missing.isEmpty = true ∧ diff.added.isEmpty = true) := by
    simpa only [List.isEmpty_iff] using h
  rw [printOperationDelta,if_neg hcond]
  cases hm : diff.missing with
  | cons leaf rest =>
    refine Or.inl ⟨leaf,List.mem_cons_self,?_⟩
    simp
  | nil =>
    cases ha : diff.added with
    | nil => exact absurd ⟨hm,ha⟩ h
    | cons leaf rest =>
      refine Or.inr ⟨leaf,List.mem_cons_self,?_⟩
      simp

/-- A concrete difference between the documents, with the line that names it. -/
inductive Explained (expected actual : Attestation) (report : List Str) : Prop
  | command (hne : expected.command ≠ actual.command) (hline : utf8 "Command changed:" ∈ report)
  | selection (hne : expected.outputSelection ≠ actual.outputSelection)
      (hline : utf8 "Output selection changed:" ∈ report)
  | outputChanged (path e a : Str) (he : ⟨path,e⟩ ∈ expected.outputs) (ha : ⟨path,a⟩ ∈ actual.outputs)
      (hne : e ≠ a) (hline : utf8 "  changed: " ++ path ∈ report)
  | outputMissing (path e : Str) (he : ⟨path,e⟩ ∈ expected.outputs) (ha : ∀ o ∈ actual.outputs, o.path ≠ path)
      (hline : utf8 "  missing: " ++ e ++ utf8 " " ++ path ∈ report)
  | outputAdded (path a : Str) (he : ∀ o ∈ expected.outputs, o.path ≠ path) (ha : ⟨path,a⟩ ∈ actual.outputs)
      (hline : utf8 "  added:   " ++ a ++ utf8 " " ++ path ∈ report)
  | leafMissing (leaf : Str) (he : leaf ∈ expected.tree.leafHashes) (ha : leaf ∉ actual.tree.leafHashes)
      (hline : utf8 "  missing: " ++ leaf ∈ report)
  | leafAdded (leaf : Str) (he : leaf ∉ expected.tree.leafHashes) (ha : leaf ∈ actual.tree.leafHashes)
      (hline : utf8 "  added:   " ++ leaf ∈ report)

section Explanation
variable {expected actual : Attestation}

theorem explained_of_command (hne : expected.command ≠ actual.command) :
    Explained expected actual (printAttestationDiff expected actual) :=
  .command hne (by simp [printAttestationDiff,hne,printBoth])

theorem explained_of_selection (hne : expected.outputSelection ≠ actual.outputSelection) :
    Explained expected actual (printAttestationDiff expected actual) :=
  .selection hne (by simp [printAttestationDiff,hne])

theorem printOutputDelta_subset :
    printOutputDelta expected.outputs actual.outputs ⊆ printAttestationDiff expected actual := by
  intro line hline
  simp only [printAttestationDiff,List.mem_append]
  exact Or.inl (Or.inl (Or.inr hline))

theorem printOperationDelta_subset :
    printOperationDelta (diffLeafSets expected.tree actual.tree) ⊆ printAttestationDiff expected actual :=
  List.subset_append_right _ _

theorem explained_of_output {path : Str}
    (hne : outputsByPath expected.outputs path ≠ outputsByPath actual.outputs path) :
    Explained expected actual (printAttestationDiff expected actual) := by
  obtain ⟨q,d,hd,hl⟩ := printOutputDelta_reports hne
  have hl := List.Subset.trans hl printOutputDelta_subset
  unfold deltaAt at hd
  cases he : outputsByPath expected.outputs q with
  | none =>
    cases ha : outputsByPath actual.outputs q with
    | none => simp [he,ha,outputDelta] at hd
    | some a =>
      simp only [he,ha,outputDelta,Option.some.injEq] at hd
      subst hd
      exact .outputAdded q a (outputsByPath_eq_none.mp he) (outputsByPath_mem ha) (hl List.mem_cons_self)
  | some e =>
    cases ha : outputsByPath actual.outputs q with
    | none =>
      simp only [he,ha,outputDelta,Option.some.injEq] at hd
      subst hd
      exact .outputMissing q e (outputsByPath_mem he) (outputsByPath_eq_none.mp ha) (hl List.mem_cons_self)
    | some a =>
      by_cases hea : e = a
      · simp [he,ha,outputDelta,hea] at hd
      · simp only [he,ha,outputDelta,ne_eq,hea,not_false_eq_true,↓reduceIte,Option.some.injEq] at hd
        subst hd
        exact .outputChanged q e a (outputsByPath_mem he) (outputsByPath_mem ha) hea (hl List.mem_cons_self)

theorem explained_of_leaves
    (hne : ¬ ∀ leaf, leaf ∈ expected.tree.leafHashes ↔ leaf ∈ actual.tree.leafHashes) :
    Explained expected actual (printAttestationDiff expected actual) := by
  have hdiff : ¬ ((diffLeafSets expected.tree actual.tree).missing = [] ∧
      (diffLeafSets expected.tree actual.tree).added = []) := by
    rintro ⟨hm,ha⟩
    refine hne (fun leaf => ⟨fun h => ?_,fun h => ?_⟩)
    · by_contra hno
      exact List.ne_nil_of_mem (mem_diffLeafSets_missing.mpr ⟨h,hno⟩) hm
    · by_contra hno
      exact List.ne_nil_of_mem (mem_diffLeafSets_added.mpr ⟨h,hno⟩) ha
  rcases printOperationDelta_reports hdiff with ⟨leaf,hleaf,hline⟩ | ⟨leaf,hleaf,hline⟩
  · obtain ⟨he,ha⟩ := mem_diffLeafSets_missing.mp hleaf
    exact .leafMissing leaf he ha (printOperationDelta_subset hline)
  · obtain ⟨ha,he⟩ := mem_diffLeafSets_added.mp hleaf
    exact .leafAdded leaf he ha (printOperationDelta_subset hline)

end Explanation

/-- Lists with distinct paths and equal maps hold the same outputs. -/
theorem outputs_perm_of_maps {E A : List AttestedOutput} (hE : (E.map (·.path)).Nodup)
    (hA : (A.map (·.path)).Nodup) (h : ∀ path, outputsByPath E path = outputsByPath A path) : E.Perm A := by
  rw [List.perm_ext_iff_of_nodup hE.of_map hA.of_map]
  intro o
  constructor
  · intro ho
    exact outputsByPath_mem ((h o.path).symm.trans (outputsByPath_of_mem hE ho))
  · intro ho
    exact outputsByPath_mem ((h o.path).trans (outputsByPath_of_mem hA ho))

/-- Two documents with different roots never get a report without a concrete
difference in it. -/
theorem mismatch_explained (sha256 : Str → Digest) (ops1 ops2 : List CanonicalOp)
    (command1 command2 : List Str) (selection1 selection2 : OutputSelection)
    (outputs1 outputs2 : List AttestedOutput) (hd1 : (outputs1.map (·.path)).Nodup)
    (hd2 : (outputs2.map (·.path)).Nodup)
    (hne : (attestOps sha256 ops1 command1 selection1 outputs1).rootHash ≠
      (attestOps sha256 ops2 command2 selection2 outputs2).rootHash) :
    Explained (attestOps sha256 ops1 command1 selection1 outputs1)
      (attestOps sha256 ops2 command2 selection2 outputs2)
      (printAttestationDiff (attestOps sha256 ops1 command1 selection1 outputs1)
        (attestOps sha256 ops2 command2 selection2 outputs2)) := by
  by_contra hno
  have hsorted : ∀ outputs : List AttestedOutput, (outputs.map (·.path)).Nodup →
      ((outputs.insertionSort outputLe).map (·.path)).Nodup := by
    intro outputs h
    exact (((List.perm_insertionSort outputLe outputs).map _).nodup_iff).mpr h
  have hcommand : command1 = command2 := by
    by_contra h
    exact hno (explained_of_command h)
  have hselection := by_contra (fun h => hno (explained_of_selection h))
  have hmaps : ∀ path, outputsByPath (outputs1.insertionSort outputLe) path =
      outputsByPath (outputs2.insertionSort outputLe) path := by
    intro path
    by_contra h
    exact hno (explained_of_output h)
  have houtputs := outputs_perm_of_maps (hsorted outputs1 hd1) (hsorted outputs2 hd2) hmaps
  have hleaves : leafHashes sha256 ops1 = leafHashes sha256 ops2 := by
    apply eq_of_increasing (leafHashes_strictly_increasing sha256 ops1) (leafHashes_strictly_increasing sha256 ops2)
    have hsets := by_contra (fun h => hno (explained_of_leaves h))
    simpa only [attestOps,newWithOutputs,leafHashes_buildMerkleTree] using hsets
  exact hne (attestOps_rootHash_congr sha256 hcommand hselection
    (((List.perm_insertionSort outputLe outputs1).symm.trans houtputs).trans
      (List.perm_insertionSort outputLe outputs2)) hleaves)

set_option maxRecDepth 8000 in
theorem mismatch_explained_sample :
    Explained
      (attestOps (fun s => Vector.replicate 32 s.length.toUInt8) [] [utf8 "make"] OutputSelection.default
        [⟨utf8 "a",[]⟩])
      (attestOps (fun s => Vector.replicate 32 s.length.toUInt8) [] [utf8 "make"] OutputSelection.default
        [⟨utf8 "ab",[]⟩])
      (printAttestationDiff
        (attestOps (fun s => Vector.replicate 32 s.length.toUInt8) [] [utf8 "make"] OutputSelection.default
          [⟨utf8 "a",[]⟩])
        (attestOps (fun s => Vector.replicate 32 s.length.toUInt8) [] [utf8 "make"] OutputSelection.default
          [⟨utf8 "ab",[]⟩])) :=
  mismatch_explained (fun s => Vector.replicate 32 s.length.toUInt8) [] [] [utf8 "make"] [utf8 "make"]
    OutputSelection.default OutputSelection.default [⟨utf8 "a",[]⟩] [⟨utf8 "ab",[]⟩] (by decide) (by decide)
    (by decide)

end Repx.Report
