import Repx.Foundation.KeyedSort
import Repx.Commitment.Merkle

/-! # Canonical operations

A covered operation, the byte string it is hashed from, and the normalization
that turns the operations of a trace into sorted distinct leaves. The process
index is diagnostic and never hashed.
-/
namespace Repx.Canonical
open ByteString KeyedSort Sha256 Merkle

inductive OpType where
  | exec
  | fileRead
  | fileWrite
  | fileRename
  | fileDelete
  | systemStateRead
  | exit
  | externalFileRead
  | externalFileWrite
  | externalFileRename
  | externalFileDelete
deriving DecidableEq, Repr

structure CanonicalOp where
  opType : OpType
  processIndex : UInt32
  toolHash : Option Str
  args : List Str
  inputHashes : List Str
  outputHashes : List Str
deriving DecidableEq, Repr

def opTag : OpType → Str
  | .exec => utf8 "exec"
  | .fileRead => utf8 "file_read"
  | .fileWrite => utf8 "file_write"
  | .fileRename => utf8 "file_rename"
  | .fileDelete => utf8 "file_delete"
  | .systemStateRead => utf8 "system_state_read"
  | .exit => utf8 "exit"
  | .externalFileRead => utf8 "external_file_read"
  | .externalFileWrite => utf8 "external_file_write"
  | .externalFileRename => utf8 "external_file_rename"
  | .externalFileDelete => utf8 "external_file_delete"

namespace CanonicalOp

/-- The bytes fed to SHA-256: tag, tool, NUL-terminated arguments, inputs and
outputs, with no counts and no separators between them. -/
def preimage (op : CanonicalOp) : Str :=
  opTag op.opType ++ (op.toolHash.getD [] ++ (op.args.flatMap (· ++ [0]) ++
    (op.inputHashes.flatten ++ op.outputHashes.flatten)))

def hash (sha256 : Str → Digest) (op : CanonicalOp) : Str := digestText (sha256 op.preimage)

/-- Agreement on every field but the process index. -/
def SameContent (a b : CanonicalOp) : Prop :=
  a.opType = b.opType ∧ a.toolHash = b.toolHash ∧ a.args = b.args ∧ a.inputHashes = b.inputHashes ∧
    a.outputHashes = b.outputHashes

theorem SameContent.symm {a b : CanonicalOp} (h : SameContent a b) : SameContent b a :=
  ⟨h.1.symm,h.2.1.symm,h.2.2.1.symm,h.2.2.2.1.symm,h.2.2.2.2.symm⟩

theorem SameContent.trans {a b c : CanonicalOp} (h : SameContent a b) (h' : SameContent b c) : SameContent a c :=
  ⟨h.1.trans h'.1,h.2.1.trans h'.2.1,h.2.2.1.trans h'.2.2.1,h.2.2.2.1.trans h'.2.2.2.1,
    h.2.2.2.2.trans h'.2.2.2.2⟩

theorem SameContent.preimage_eq {a b : CanonicalOp} (h : SameContent a b) : a.preimage = b.preimage := by
  obtain ⟨ht,hh,ha,hi,ho⟩ := h
  simp only [preimage,ht,hh,ha,hi,ho]

theorem SameContent.hash_eq {a b : CanonicalOp} (h : SameContent a b) (sha256 : Str → Digest) :
    a.hash sha256 = b.hash sha256 := by
  rw [hash,hash,h.preimage_eq]

/-- Sort the parts whose order carries no meaning. -/
def normalize (op : CanonicalOp) : CanonicalOp :=
  { op with
    args := sortByKey (fun s => s) op.args
    inputHashes := sortByKey (fun s => s) op.inputHashes
    outputHashes := sortByKey (fun s => s) op.outputHashes }

theorem SameContent.normalize {a b : CanonicalOp} (h : SameContent a b) :
    SameContent a.normalize b.normalize := by
  obtain ⟨ht,hh,ha,hi,ho⟩ := h
  exact ⟨ht,hh,by simp only [CanonicalOp.normalize,ha],by simp only [CanonicalOp.normalize,hi],
    by simp only [CanonicalOp.normalize,ho]⟩

/-- With at most one argument, input and output there is nothing to sort. -/
theorem normalize_eq_self {op : CanonicalOp} (ha : op.args.length ≤ 1) (hi : op.inputHashes.length ≤ 1)
    (ho : op.outputHashes.length ≤ 1) : op.normalize = op := by
  have hsort : ∀ l : List Str, l.length ≤ 1 → sortByKey (fun s => s) l = l := by
    intro l hl
    match l, hl with
    | [], _ => rfl
    | [_], _ => rfl
  simp only [normalize,hsort _ ha,hsort _ hi,hsort _ ho]

end CanonicalOp

open CanonicalOp

/-- Sorted distinct operations. -/
def finalizeOps (sha256 : Str → Digest) (ops : List CanonicalOp) : List CanonicalOp :=
  dedupByKey (hash sha256) (sortByKey (hash sha256) (ops.map normalize))

def buildMerkleTree (sha256 : Str → Digest) (ops : List CanonicalOp) : MerkleTree :=
  ⟨ops.map (hash sha256),[],ops.length⟩

/-- The leaves a list of raw operations is committed as. -/
def leafHashes (sha256 : Str → Digest) (ops : List CanonicalOp) : List Str :=
  (finalizeOps sha256 ops).map (hash sha256)

@[simp] theorem leafHashes_buildMerkleTree (sha256 : Str → Digest) (ops : List CanonicalOp) :
    (buildMerkleTree sha256 (finalizeOps sha256 ops)).leafHashes = leafHashes sha256 ops :=
  MerkleTree.leafHashes_of_no_nodes _ _

theorem mem_leafHashes {sha256 : Str → Digest} {ops : List CanonicalOp} {leaf : Str} :
    leaf ∈ leafHashes sha256 ops ↔ ∃ op ∈ ops, op.normalize.hash sha256 = leaf := by
  rw [leafHashes,finalizeOps,mem_map_dedup_sort]
  simp only [List.mem_map,exists_exists_and_eq_and]

/-- Every finalized operation is the normal form of one that was recorded. -/
theorem mem_finalizeOps {sha256 : Str → Digest} {ops : List CanonicalOp} {op : CanonicalOp}
    (h : op ∈ finalizeOps sha256 ops) : ∃ raw ∈ ops, raw.normalize = op := by
  have hs := (dedupByKey_sublist _ _).subset h
  rw [mem_sortByKey] at hs
  exact List.mem_map.mp hs

/-- The leaves depend only on which operations occurred, up to process index. -/
theorem leafHashes_eq_of_sameContent {sha256 : Str → Digest} {ops ops' : List CanonicalOp}
    (h : ∀ op ∈ ops, ∃ op' ∈ ops', SameContent op op')
    (h' : ∀ op ∈ ops', ∃ op' ∈ ops, SameContent op op') :
    leafHashes sha256 ops = leafHashes sha256 ops' := by
  apply map_dedup_sort_eq
  intro k
  simp only [List.mem_map,exists_exists_and_eq_and]
  constructor
  · rintro ⟨op,ho,rfl⟩
    obtain ⟨op',ho',hs⟩ := h op ho
    exact ⟨op',ho',(hs.normalize.hash_eq sha256).symm⟩
  · rintro ⟨op,ho,rfl⟩
    obtain ⟨op',ho',hs⟩ := h' op ho
    exact ⟨op',ho',(hs.normalize.hash_eq sha256).symm⟩

end Repx.Canonical
