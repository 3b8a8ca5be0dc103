import Repx.Commitment.Attestation
import Repx.Commitment.MerkleBinding

/-! # Accepted documents and the leaves they show

A document may carry its leaves directly or through legacy nodes. Validation
derives the process root from the first node when there is one, while the leaves
shown to a reader and written back to a file do not come from there.
-/
namespace Repx.Attest
open ByteString Sha256 Merkle
variable {sha256 : Str → Digest} {toJson : CommitmentV02 → Str}

/-- The first legacy node, if any, holds the root over `leaves`. -/
def NodesAgree (sha256 : Str → Digest) (tree : MerkleTree) (leaves : List Str) : Prop :=
  ∀ root ∈ tree.nodes.head?, root.hash = rootFromLeaves sha256 leaves

theorem nodesAgree_iff_rootHash {tree : MerkleTree} {leaves : List Str}
    (hl : tree.nodes = [] → tree.leafHashes = leaves) :
    NodesAgree sha256 tree leaves ↔ tree.rootHash sha256 = rootFromLeaves sha256 leaves := by
  unfold NodesAgree MerkleTree.rootHash
  cases hn : tree.nodes with
  | nil => simp [hl hn]
  | cons root rest => simp

/-- The accepted process root is the root of the shown leaves exactly when the
legacy nodes are absent or start with that root. -/
theorem validate_commits_leaves_iff (att att' : Attestation)
    (h : validate sha256 toJson att = .ok att') :
    att'.processRoot = rootFromLeaves sha256 att'.tree.leafHashes ↔
      NodesAgree sha256 att.tree att.tree.leafHashes := by
  obtain ⟨_,rfl⟩ := (validate_eq_ok sha256 toJson).mp h
  exact (nodesAgree_iff_rootHash fun _ => rfl).symm

/-- A version 0.1.0 document over a given tree. -/
def legacyDocument (root : Str) (tree : MerkleTree) : Attestation :=
  { version := utf8 "0.1.0"
    predicateType := utf8 "https://repx.dev/process-provenance/v0.1"
    rootHash := root
    processRoot := []
    command := [utf8 "true"]
    outputSelection := OutputSelection.default
    outputs := []
    tree := tree }

theorem validate_legacyDocument (sha256 : Str → Digest) (toJson : CommitmentV02 → Str)
    (tree : MerkleTree) : validate sha256 toJson (legacyDocument (tree.rootHash sha256) tree) =
      .ok { legacyDocument (tree.rootHash sha256) tree with processRoot := tree.rootHash sha256 } :=
  (validate_eq_ok sha256 toJson).mpr ⟨.legacy rfl rfl,rfl⟩

theorem rootFromLeaves_singleton (leaf : Str) : rootFromLeaves sha256 [leaf] = leaf := by
  simp [rootFromLeaves,padLevel,nextPowerOfTwo,PairedLevels.reduceLevels]

/-- One node over the leaf it holds. -/
def singleNode (node leaf : Str) : MerkleTree := ⟨[leaf],[⟨node,true⟩],1⟩

theorem validate_commits_leaves_sample :
    sampleLeaf 1 = rootFromLeaves (fun _ => blankDigest) [sampleLeaf 1] ↔
      NodesAgree (fun _ => blankDigest) (singleNode (sampleLeaf 1) (sampleLeaf 1)) [sampleLeaf 1] :=
  validate_commits_leaves_iff _ _
    (validate_legacyDocument (fun _ => blankDigest) (fun _ => []) (singleNode (sampleLeaf 1) (sampleLeaf 1)))

/-- A legacy node that is not the root over the single shown leaf is accepted,
whatever the hash function and the JSON encoder. -/
theorem forged_nodes_accepted :
    ¬ ∃ (sha256 : Str → Digest) (toJson : CommitmentV02 → Str), ∀ att att' : Attestation,
      validate sha256 toJson att = .ok att' →
      att'.processRoot = rootFromLeaves sha256 att'.tree.leafHashes := by
  rintro ⟨sha256,toJson,hall⟩
  have h : sampleLeaf 1 = rootFromLeaves sha256 [sampleLeaf 2] :=
    hall _ _ (validate_legacyDocument sha256 toJson (singleNode (sampleLeaf 1) (sampleLeaf 2)))
  rw [rootFromLeaves_singleton] at h
  exact absurd h (by decide)

/-- Writing an accepted document and reading it back is accepted again, with the
same root, process root and shown leaves. -/
def RoundTrips (sha256 : Str → Digest) (toJson : CommitmentV02 → Str) (att : Attestation) : Prop :=
  ∃ att', validate sha256 toJson (deserialize (serialize att)) = .ok att' ∧
    att'.rootHash = att.rootHash ∧ att'.processRoot = att.processRoot ∧
    att'.tree.leafHashes = att.tree.leafHashes

/-- Legacy nodes, when present, are not the only place the leaves are stored. -/
def LeavesStored (tree : MerkleTree) : Prop :=
  tree.nodes ≠ [] → tree.leaves ≠ [] ∨ tree.leafCount = 0

theorem leavesStored_iff {tree : MerkleTree} : LeavesStored tree ↔ tree.leafHashes = tree.leaves := by
  constructor
  · intro hs
    unfold MerkleTree.leafHashes
    split
    · rfl
    · next hc =>
      simp only [Bool.or_eq_true,Bool.not_eq_true',List.isEmpty_eq_false_iff,beq_iff_eq,not_or,
        not_not] at hc
      have hn : tree.nodes = [] := by
        by_contra hn
        exact (hs hn).elim (fun h => h hc.1) hc.2
      simp [hn,hc.1]
  · intro he hn
    by_contra hc
    obtain ⟨hl,hc⟩ := not_or.mp hc
    exact MerkleTree.leafHashes_ne_nil (not_not.mp hl) hc hn (he.trans (not_not.mp hl))

/-- Acceptance depends on the tree only through its root. -/
theorem Accepts.withTree {att : Attestation} (h : Accepts sha256 toJson att) {tree : MerkleTree}
    (hr : tree.rootHash sha256 = att.tree.rootHash sha256) :
    Accepts sha256 toJson { att with processRoot := att.tree.rootHash sha256, tree := tree } := by
  cases h with
  | legacy hv he => exact .legacy hv (he.trans hr.symm)
  | json hv _ he => exact .json hv (Or.inr hr.symm) (by simpa only [hr] using he)
  | binary hv _ he => exact .binary hv (Or.inr hr.symm) (by simpa only [hr] using he)

/-- What is read back shows the stored leaves and has their root. -/
theorem RoundTrips.shown {att : Attestation} (h : RoundTrips sha256 toJson att) :
    att.tree.leafHashes = att.tree.leaves ∧ att.processRoot = rootFromLeaves sha256 att.tree.leaves := by
  obtain ⟨att',hv,_,hp,hl⟩ := h
  obtain ⟨_,rfl⟩ := (validate_eq_ok sha256 toJson).mp hv
  simp only [deserialize_serialize,MerkleTree.rootHash_of_no_nodes,
    MerkleTree.leafHashes_of_no_nodes] at hp hl
  exact ⟨hl.symm,hp.symm⟩

/-- An accepted document survives writing and reading exactly when its leaves
are stored outside the skipped nodes and the nodes agree with them. -/
theorem validate_roundTrips_iff (att att' : Attestation) (h : validate sha256 toJson att = .ok att') :
    RoundTrips sha256 toJson att' ↔
      LeavesStored att.tree ∧ NodesAgree sha256 att.tree att.tree.leaves := by
  obtain ⟨ha,rfl⟩ := (validate_eq_ok sha256 toJson).mp h
  rw [leavesStored_iff,nodesAgree_iff_rootHash fun hn => leavesStored_iff.mp fun h => absurd hn h]
  constructor
  · exact fun hs => hs.shown
  · rintro ⟨hl,hr⟩
    simp only [RoundTrips,deserialize_serialize,validate_eq_ok]
    refine ⟨_,⟨ha.withTree ?_,rfl⟩,rfl,?_,?_⟩
    · rw [MerkleTree.rootHash_of_no_nodes,hr]
    · rw [MerkleTree.rootHash_of_no_nodes,hr]
    · rw [MerkleTree.leafHashes_of_no_nodes,hl]

/-- The heap of a two-leaf tree as 0.1.0 stored it, with no separate leaves. -/
def legacyHeap (sha256 : Str → Digest) (a b : Str) : MerkleTree :=
  ⟨[],[⟨hashPair sha256 a b,false⟩,⟨a,true⟩,⟨b,true⟩],2⟩

theorem validate_roundTrips_sample :
    RoundTrips (fun _ => blankDigest) (fun _ => [])
        { legacyDocument (sampleLeaf 1) (singleNode (sampleLeaf 1) (sampleLeaf 1)) with
          processRoot := sampleLeaf 1 } ↔
      LeavesStored (singleNode (sampleLeaf 1) (sampleLeaf 1)) ∧
        NodesAgree (fun _ => blankDigest) (singleNode (sampleLeaf 1) (sampleLeaf 1)) [sampleLeaf 1] :=
  validate_roundTrips_iff _ _
    (validate_legacyDocument (fun _ => blankDigest) (fun _ => []) (singleNode (sampleLeaf 1) (sampleLeaf 1)))

/-- An honest two-leaf legacy heap loses its leaves when it is written back. -/
theorem legacyHeap_not_roundTrips :
    ¬ ∃ (sha256 : Str → Digest) (toJson : CommitmentV02 → Str), ∀ att att' : Attestation,
      validate sha256 toJson att = .ok att' → RoundTrips sha256 toJson att' := by
  rintro ⟨sha256,toJson,hall⟩
  have hv := validate_legacyDocument sha256 toJson (legacyHeap sha256 (sampleLeaf 1) (sampleLeaf 2))
  have hl := (hall _ _ hv).shown.1
  simp [legacyDocument,legacyHeap,MerkleTree.leafHashes] at hl

end Repx.Attest
