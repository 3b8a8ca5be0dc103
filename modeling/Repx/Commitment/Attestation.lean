import Repx.Foundation.Framing
import Repx.Foundation.KeyedSort
import Repx.Commitment.Merkle

/-! # Attestation documents

The document produced by a trace, the commitment hashes of its schema versions,
its validation, and the serialized form in which it is stored and signed. The
JSON encoder of the frozen 0.2 commitment is a parameter, as is SHA-256.
-/
namespace Repx.Attest
open ByteString Framing KeyedSort Sha256 Merkle

structure OutputSelection where
  mode : Str
  artifacts : List Str
  outputRoots : List Str
deriving DecidableEq, Repr

def OutputSelection.default : OutputSelection := ⟨utf8 "inferred",[],[]⟩

structure AttestedOutput where
  path : Str
  hash : Str
deriving DecidableEq, Repr

structure Attestation where
  version : Str
  predicateType : Str
  rootHash : Str
  processRoot : Str
  command : List Str
  outputSelection : OutputSelection
  outputs : List AttestedOutput
  tree : MerkleTree
deriving DecidableEq, Repr

/-- The record whose JSON text the 0.2 commitment hashes. -/
structure CommitmentV02 where
  domain : Str
  processRoot : Str
  command : List Str
  outputSelection : OutputSelection
  outputs : List AttestedOutput
deriving DecidableEq, Repr

section Commitments
variable (processRoot : Str) (command : List Str) (selection : OutputSelection)
  (outputs : List AttestedOutput)

def commitmentV02 : CommitmentV02 :=
  ⟨utf8 "repx-attestation-v0.2",processRoot,command,selection,outputs⟩

def commitmentHashV02 (sha256 : Str → Digest) (toJson : CommitmentV02 → Str) : Str :=
  digestText (sha256 (toJson (commitmentV02 processRoot command selection outputs)))

def commitmentDomainV03 : Str := utf8 "repx-attestation-v0.3"

def writeOutput (o : AttestedOutput) : Str := lengthPrefixed o.path ++ lengthPrefixed o.hash

/-- The length-prefixed binary framing of the 0.3 commitment. -/
def encodeCommitmentV03 : Str :=
  lengthPrefixed commitmentDomainV03 ++ (lengthPrefixed processRoot ++
    (countPrefixed lengthPrefixed command ++ (lengthPrefixed selection.mode ++
      (countPrefixed lengthPrefixed selection.artifacts ++
        (countPrefixed lengthPrefixed selection.outputRoots ++ countPrefixed writeOutput outputs)))))

def commitmentHashV03 (sha256 : Str → Digest) : Str :=
  digestText (sha256 (encodeCommitmentV03 processRoot command selection outputs))

end Commitments

/-- Paths are compared first, hashes second. -/
def outputLe (a b : AttestedOutput) : Prop :=
  ((compare a.path b.path).then (compare a.hash b.hash)).isLE = true

instance : DecidableRel outputLe := fun a b =>
  inferInstanceAs (Decidable (((compare a.path b.path).then (compare a.hash b.hash)).isLE = true))

def newWithOutputs (sha256 : Str → Digest) (tree : MerkleTree) (command : List Str)
    (selection : OutputSelection) (outputs : List AttestedOutput) : Attestation :=
  let processRoot := tree.rootHash sha256
  let selection := { selection with
    artifacts := sortByKey (fun s => s) selection.artifacts
    outputRoots := sortByKey (fun s => s) selection.outputRoots }
  let outputs := outputs.insertionSort outputLe
  { version := utf8 "0.3.0"
    predicateType := utf8 "https://repx.dev/process-provenance/v0.3.0"
    rootHash := commitmentHashV03 processRoot command selection outputs sha256
    processRoot := processRoot
    command := command
    outputSelection := selection
    outputs := outputs
    tree := tree }

section Validation
variable (sha256 : Str → Digest) (toJson : CommitmentV02 → Str)

/-- The shared body of the 0.2 and 0.3 branches: a missing process root is
filled in, a present one must match, and the commitment must match the root. -/
def checkCommitment (att : Attestation) (derived : Str)
    (commit : Str → List Str → OutputSelection → List AttestedOutput → Str) : Except Str Attestation :=
  let att := if att.processRoot.isEmpty then { att with processRoot := derived } else att
  if derived ≠ att.processRoot then
    .error (utf8 "attestation process root does not match its operation leaves")
  else if commit att.processRoot att.command att.outputSelection att.outputs ≠ att.rootHash then
    .error (utf8 "attestation root does not match its command and predicate data")
  else .ok att

/-- Acceptance returns the document with its process root filled in. -/
def validate (att : Attestation) : Except Str Attestation :=
  let derived := att.tree.rootHash sha256
  if att.version = utf8 "0.1.0" then
    if att.rootHash ≠ derived then
      .error (utf8 "legacy attestation root does not match its operation tree")
    else .ok { att with processRoot := derived }
  else if att.version = utf8 "0.2.0" ∨ att.version = utf8 "0.2.1" then
    checkCommitment att derived (fun r c s o => commitmentHashV02 r c s o sha256 toJson)
  else if att.version = utf8 "0.3.0" then
    checkCommitment att derived (fun r c s o => commitmentHashV03 r c s o sha256)
  else .error (utf8 "unsupported attestation version: " ++ att.version)

/-- What each schema version demands of an accepted document. -/
inductive Accepts (att : Attestation) : Prop
  | legacy (hv : att.version = utf8 "0.1.0") (hr : att.rootHash = att.tree.rootHash sha256)
  | json (hv : att.version = utf8 "0.2.0" ∨ att.version = utf8 "0.2.1")
      (hp : att.processRoot = [] ∨ att.processRoot = att.tree.rootHash sha256)
      (hr : commitmentHashV02 (att.tree.rootHash sha256) att.command att.outputSelection att.outputs
        sha256 toJson = att.rootHash)
  | binary (hv : att.version = utf8 "0.3.0")
      (hp : att.processRoot = [] ∨ att.processRoot = att.tree.rootHash sha256)
      (hr : commitmentHashV03 (att.tree.rootHash sha256) att.command att.outputSelection att.outputs
        sha256 = att.rootHash)

omit sha256 toJson in
private theorem guard_eq_ok {p : Prop} [Decidable p] {e : Str} {x : Except Str Attestation}
    {att : Attestation} : (if p then .error e else x) = .ok att ↔ ¬ p ∧ x = .ok att := by
  by_cases hp : p <;> simp [hp]

theorem checkCommitment_eq_ok {att att' : Attestation} {derived : Str}
    {commit : Str → List Str → OutputSelection → List AttestedOutput → Str} :
    checkCommitment att derived commit = .ok att' ↔
      (att.processRoot = [] ∨ att.processRoot = derived) ∧
        commit derived att.command att.outputSelection att.outputs = att.rootHash ∧
        att' = { att with processRoot := derived } := by
  rcases att with ⟨v,t,r,p,c,s,o,tree⟩
  simp only [checkCommitment,guard_eq_ok,Except.ok.injEq,ne_eq,not_not]
  cases p with
  | nil => simp [eq_comm]
  | cons b p =>
    simp only [List.isEmpty_cons,Bool.false_eq_true,↓reduceIte,reduceCtorEq,false_or]
    constructor
    · rintro ⟨rfl,hc,rfl⟩
      exact ⟨rfl,hc,rfl⟩
    · rintro ⟨rfl,hc,rfl⟩
      exact ⟨rfl,hc,rfl⟩

omit sha256 toJson in
theorem versions_distinct : utf8 "0.2.0" ≠ utf8 "0.1.0" ∧ utf8 "0.2.1" ≠ utf8 "0.1.0" ∧
    utf8 "0.3.0" ≠ utf8 "0.1.0" ∧ utf8 "0.3.0" ≠ utf8 "0.2.0" ∧ utf8 "0.3.0" ≠ utf8 "0.2.1" := by
  decide

/-- Acceptance in one statement: the version's demands hold and the only field
that changes is the process root, which becomes the root of the tree. -/
theorem validate_eq_ok {att att' : Attestation} :
    validate sha256 toJson att = .ok att' ↔
      Accepts sha256 toJson att ∧ att' = { att with processRoot := att.tree.rootHash sha256 } := by
  obtain ⟨h20,h21,h30,h32,h33⟩ := versions_distinct
  unfold validate
  dsimp only
  constructor
  · intro h
    split at h
    · next hv =>
      obtain ⟨hr,he⟩ := guard_eq_ok.mp h
      exact ⟨.legacy hv (not_not.mp hr),(Except.ok.inj he).symm⟩
    · split at h
      · next hv =>
        obtain ⟨hp,hc,he⟩ := checkCommitment_eq_ok.mp h
        exact ⟨.json hv hp hc,he⟩
      · split at h
        · next hv =>
          obtain ⟨hp,hc,he⟩ := checkCommitment_eq_ok.mp h
          exact ⟨.binary hv hp hc,he⟩
        · simp at h
  · rintro ⟨hv | ⟨hv,hp,hc⟩ | ⟨hv,hp,hc⟩,rfl⟩
    · rw [if_pos hv,if_neg (not_not.mpr ‹_›)]
    · have hv1 : ¬ att.version = utf8 "0.1.0" := by
        rcases hv with hv | hv <;> simp [hv,h20,h21]
      rw [if_neg hv1,if_pos hv]
      exact checkCommitment_eq_ok.mpr ⟨hp,hc,rfl⟩
    · rw [if_neg (by simp [hv,h30]),if_neg (by simp [hv,h32,h33]),if_pos hv]
      exact checkCommitment_eq_ok.mpr ⟨hp,hc,rfl⟩

end Validation

/-- The `tree` object of the JSON text; absent fields are `none`. -/
structure TreeDocument where
  leaves : Option (List Str)
  nodes : Option (List MerkleNode)
  leafCount : ℕ
deriving DecidableEq, Repr

/-- The JSON object of an attestation; absent fields are `none`. -/
structure AttestationDocument where
  version : Str
  predicateType : Str
  rootHash : Str
  processRoot : Option Str
  command : List Str
  outputSelection : Option OutputSelection
  outputs : Option (List AttestedOutput)
  tree : TreeDocument
deriving DecidableEq, Repr

/-- Every field is written except `tree.nodes`, which is skipped. -/
def serialize (att : Attestation) : AttestationDocument :=
  { version := att.version
    predicateType := att.predicateType
    rootHash := att.rootHash
    processRoot := some att.processRoot
    command := att.command
    outputSelection := some att.outputSelection
    outputs := some att.outputs
    tree := ⟨some att.tree.leaves,none,att.tree.leafCount⟩ }

/-- Absent fields take their serde defaults; `nodes` is read when present. -/
def deserialize (doc : AttestationDocument) : Attestation :=
  { version := doc.version
    predicateType := doc.predicateType
    rootHash := doc.rootHash
    processRoot := doc.processRoot.getD []
    command := doc.command
    outputSelection := doc.outputSelection.getD OutputSelection.default
    outputs := doc.outputs.getD []
    tree := ⟨doc.tree.leaves.getD [],doc.tree.nodes.getD [],doc.tree.leafCount⟩ }

/-- A stored document is its original without the legacy nodes. -/
theorem deserialize_serialize (att : Attestation) :
    deserialize (serialize att) = { att with tree := { att.tree with nodes := [] } } := rfl

end Repx.Attest
