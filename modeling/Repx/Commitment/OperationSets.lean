import Repx.Commitment.Attestation
import Repx.Operations.CanonicalOp

/-! # What an attestation root depends on

Operations are committed as the strictly increasing hashes of their normal
forms, and the metadata is sorted before it is framed. The root therefore
depends only on which operations occurred and on the metadata up to order.
-/
namespace Repx.Canonical
open ByteString KeyedSort Sha256 Merkle CanonicalOp

namespace CanonicalOp

/-- The parts of an operation that are hashed, with the unordered ones sorted. -/
def content (op : CanonicalOp) : OpType × Option Str × List Str × List Str × List Str :=
  (op.opType,op.toolHash,sortByKey (fun s => s) op.args,sortByKey (fun s => s) op.inputHashes,
    sortByKey (fun s => s) op.outputHashes)

theorem sameContent_normalize_iff {a b : CanonicalOp} :
    SameContent a.normalize b.normalize ↔ a.content = b.content := by
  simp only [SameContent,normalize,content,Prod.mk.injEq]

theorem normalize_normalize (op : CanonicalOp) : op.normalize.normalize = op.normalize := by
  simp only [normalize,sortByKey_sortByKey]

end CanonicalOp

variable (sha256 : Str → Digest)

/-- The leaves are a function of the set of contents. -/
theorem leafHashes_eq_of_content {ops ops' : List CanonicalOp}
    (h : ∀ k, k ∈ ops.map content ↔ k ∈ ops'.map content) : leafHashes sha256 ops = leafHashes sha256 ops' := by
  have key : ∀ {as bs : List CanonicalOp}, (∀ k, k ∈ as.map content → k ∈ bs.map content) →
      ∀ leaf, leaf ∈ (as.map normalize).map (hash sha256) → leaf ∈ (bs.map normalize).map (hash sha256) := by
    intro as bs hsub leaf hleaf
    simp only [List.mem_map,exists_exists_and_eq_and] at hleaf ⊢
    obtain ⟨a,ha,rfl⟩ := hleaf
    obtain ⟨b,hb,hc⟩ := List.mem_map.mp (hsub _ (List.mem_map_of_mem ha))
    exact ⟨b,hb,(sameContent_normalize_iff.mpr hc).hash_eq sha256⟩
  apply map_dedup_sort_eq
  intro leaf
  exact ⟨key (fun k => (h k).mp) leaf,key (fun k => (h k).mpr) leaf⟩

theorem leafHashes_strictly_increasing (ops : List CanonicalOp) :
    (leafHashes sha256 ops).Pairwise (fun a b => compare a b = .lt) :=
  pairwise_dedup_sort (hash sha256) (ops.map normalize)

/-- Finalized operations are in normal form, sorted and distinct already. -/
theorem finalizeOps_finalizeOps (ops : List CanonicalOp) :
    finalizeOps sha256 (finalizeOps sha256 ops) = finalizeOps sha256 ops := by
  have hnormal : (finalizeOps sha256 ops).map normalize = finalizeOps sha256 ops := by
    conv_rhs => rw [← List.map_id (finalizeOps sha256 ops)]
    apply List.map_congr_left
    intro op hop
    obtain ⟨raw,_,rfl⟩ := mem_finalizeOps hop
    exact normalize_normalize raw
  rw [finalizeOps,hnormal,finalizeOps]
  exact dedup_sort_dedup_sort (hash sha256) (ops.map normalize)

end Repx.Canonical

namespace Repx.Attest
open ByteString KeyedSort Sha256 Merkle Canonical CanonicalOp

theorem output_eq_of_compare {a b : AttestedOutput}
    (h : compareLex (compareOn AttestedOutput.path) (compareOn AttestedOutput.hash) a b = .eq) : a = b := by
  rw [compareLex_eq_eq] at h
  obtain ⟨pa,ha⟩ := a
  obtain ⟨pb,hb⟩ := b
  simp only [compareOn,Std.LawfulEqOrd.compare_eq_iff_eq] at h
  rw [h.1,h.2]

/-- Outputs are committed by path and hash, whatever order they were found in. -/
theorem sortOutputs_eq_of_perm {outputs outputs' : List AttestedOutput} (h : outputs.Perm outputs') :
    outputs.insertionSort outputLe = outputs'.insertionSort outputLe :=
  insertionSort_eq_of_perm (compareLex (compareOn AttestedOutput.path) (compareOn AttestedOutput.hash))
    (fun _ _ => output_eq_of_compare) h

/-- The document over the operations of a trace. -/
def attestOps (sha256 : Str → Digest) (ops : List CanonicalOp) (command : List Str) (selection : OutputSelection)
    (outputs : List AttestedOutput) : Attestation :=
  newWithOutputs sha256 (buildMerkleTree sha256 (finalizeOps sha256 ops)) command selection outputs

/-- The process root is the root over the leaves of the operations. -/
theorem attestOps_processRoot (sha256 : Str → Digest) (ops : List CanonicalOp) (command : List Str)
    (selection : OutputSelection) (outputs : List AttestedOutput) :
    (attestOps sha256 ops command selection outputs).processRoot =
      rootFromLeaves sha256 (leafHashes sha256 ops) :=
  MerkleTree.rootHash_of_no_nodes sha256 _ _

/-- The root of a document is the commitment to its other fields. -/
theorem attestOps_rootHash (sha256 : Str → Digest) (ops : List CanonicalOp) (command : List Str)
    (selection : OutputSelection) (outputs : List AttestedOutput) :
    (attestOps sha256 ops command selection outputs).rootHash =
      commitmentHashV03 (attestOps sha256 ops command selection outputs).processRoot command
        (attestOps sha256 ops command selection outputs).outputSelection
        (attestOps sha256 ops command selection outputs).outputs sha256 := rfl

/-- The same command, selection, outputs and leaves give the same root. -/
theorem attestOps_rootHash_congr (sha256 : Str → Digest) {ops1 ops2 : List CanonicalOp}
    {command1 command2 : List Str} {selection1 selection2 : OutputSelection}
    {outputs1 outputs2 : List AttestedOutput} (hcommand : command1 = command2)
    (hselection : (attestOps sha256 ops1 command1 selection1 outputs1).outputSelection =
      (attestOps sha256 ops2 command2 selection2 outputs2).outputSelection)
    (houtputs : outputs1.Perm outputs2) (hleaves : leafHashes sha256 ops1 = leafHashes sha256 ops2) :
    (attestOps sha256 ops1 command1 selection1 outputs1).rootHash =
      (attestOps sha256 ops2 command2 selection2 outputs2).rootHash := by
  have hroot : (attestOps sha256 ops1 command1 selection1 outputs1).processRoot =
      (attestOps sha256 ops2 command2 selection2 outputs2).processRoot := by
    rw [attestOps_processRoot,attestOps_processRoot,hleaves]
  have hout : (attestOps sha256 ops1 command1 selection1 outputs1).outputs =
      (attestOps sha256 ops2 command2 selection2 outputs2).outputs := sortOutputs_eq_of_perm houtputs
  rw [attestOps_rootHash,attestOps_rootHash,hroot,hselection,hout,hcommand]

/-- Order, repetition and process indices of the operations and the order of
the metadata leave no trace in the root. -/
theorem attestOps_root_of_content (sha256 : Str → Digest) (ops1 ops2 : List CanonicalOp) (command : List Str)
    (mode : Str) (artifacts1 artifacts2 outputRoots1 outputRoots2 : List Str)
    (outputs1 outputs2 : List AttestedOutput)
    (hops : ∀ k, k ∈ ops1.map content ↔ k ∈ ops2.map content) (hartifacts : artifacts1.Perm artifacts2)
    (hroots : outputRoots1.Perm outputRoots2) (houtputs : outputs1.Perm outputs2) :
    (attestOps sha256 ops1 command ⟨mode,artifacts1,outputRoots1⟩ outputs1).rootHash =
        (attestOps sha256 ops2 command ⟨mode,artifacts2,outputRoots2⟩ outputs2).rootHash ∧
      (buildMerkleTree sha256 (finalizeOps sha256 ops1)).leaves.Pairwise (fun a b => compare a b = .lt) ∧
      finalizeOps sha256 (finalizeOps sha256 ops1) = finalizeOps sha256 ops1 := by
  refine ⟨?_,leafHashes_strictly_increasing sha256 ops1,finalizeOps_finalizeOps sha256 ops1⟩
  have hselection : (attestOps sha256 ops1 command ⟨mode,artifacts1,outputRoots1⟩ outputs1).outputSelection =
      (attestOps sha256 ops2 command ⟨mode,artifacts2,outputRoots2⟩ outputs2).outputSelection := by
    simp only [attestOps,newWithOutputs,sortByKey_eq_of_perm hartifacts,sortByKey_eq_of_perm hroots]
  exact attestOps_rootHash_congr sha256 rfl hselection houtputs (leafHashes_eq_of_content sha256 hops)

/-- A write of `artifact` by the process with the given index. -/
def sampleOp (index : UInt32) (args : List Str) : CanonicalOp :=
  ⟨.fileWrite,index,none,args,[],[utf8 "sha256:0"]⟩

theorem attestOps_root_of_content_sample :
    (attestOps (fun s => Vector.replicate 32 s.length.toUInt8)
        [sampleOp 0 [utf8 "a",utf8 "b"],sampleOp 1 [utf8 "b",utf8 "a"],sampleOp 0 []] [utf8 "make"]
        ⟨utf8 "explicit",[utf8 "x",utf8 "y"],[]⟩ [⟨utf8 "y",[]⟩,⟨utf8 "x",[]⟩]).rootHash =
      (attestOps (fun s => Vector.replicate 32 s.length.toUInt8)
        [sampleOp 7 [],sampleOp 3 [utf8 "a",utf8 "b"]] [utf8 "make"]
        ⟨utf8 "explicit",[utf8 "y",utf8 "x"],[]⟩ [⟨utf8 "x",[]⟩,⟨utf8 "y",[]⟩]).rootHash :=
  (attestOps_root_of_content (fun s => Vector.replicate 32 s.length.toUInt8)
    [sampleOp 0 [utf8 "a",utf8 "b"],sampleOp 1 [utf8 "b",utf8 "a"],sampleOp 0 []]
    [sampleOp 7 [],sampleOp 3 [utf8 "a",utf8 "b"]] [utf8 "make"] (utf8 "explicit") [utf8 "x",utf8 "y"]
    [utf8 "y",utf8 "x"] [] [] [⟨utf8 "y",[]⟩,⟨utf8 "x",[]⟩] [⟨utf8 "x",[]⟩,⟨utf8 "y",[]⟩]
    (by
      intro k
      have hsort : sortByKey (fun s : Str => s) [utf8 "b",utf8 "a"] = sortByKey (fun s => s) [utf8 "a",utf8 "b"] :=
        sortByKey_eq_of_perm (List.Perm.swap _ _ _)
      simp only [List.map_cons,List.map_nil,content,sampleOp,hsort,List.mem_cons,List.not_mem_nil,or_false]
      tauto)
    (List.Perm.swap _ _ _) (List.Perm.refl _) (List.Perm.swap _ _ _)).1

end Repx.Attest
