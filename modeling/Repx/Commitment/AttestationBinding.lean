import Repx.Foundation.JsonText
import Repx.Commitment.AttestationLeaves

/-! # What an attestation root binds

The 0.2 and 0.3 commitments determine every committed field up to a collision:
the JSON text because its encoder is injective, the binary framing because every
field is length-prefixed, and one never equals the other because their first
bytes differ. A legacy 0.1.0 root commits to the operation tree alone.
-/
namespace Repx.Attest
open ByteString Framing JsonText Sha256 Merkle
variable {sha256 : Str → Digest} {toJson : CommitmentV02 → Str}

/-- Every string and every list fits the 32-bit counts of the binary framing. -/
structure FitsU32 (processRoot : Str) (command : List Str) (selection : OutputSelection)
    (outputs : List AttestedOutput) : Prop where
  processRoot : processRoot.length < 2 ^ 32
  command : command.length < 2 ^ 32 ∧ ∀ arg ∈ command, arg.length < 2 ^ 32
  mode : selection.mode.length < 2 ^ 32
  artifacts : selection.artifacts.length < 2 ^ 32 ∧ ∀ a ∈ selection.artifacts, a.length < 2 ^ 32
  outputRoots : selection.outputRoots.length < 2 ^ 32 ∧ ∀ r ∈ selection.outputRoots, r.length < 2 ^ 32
  outputs : outputs.length < 2 ^ 32 ∧ ∀ o ∈ outputs, o.path.length < 2 ^ 32 ∧ o.hash.length < 2 ^ 32

theorem writeOutput_framed : Framed (fun o : AttestedOutput =>
    o.path.length < 2 ^ 32 ∧ o.hash.length < 2 ^ 32) writeOutput := by
  rintro ⟨p,h⟩ ⟨p',h'⟩ s t ho ho' he
  obtain ⟨hp,hs⟩ := lengthPrefixed_framed.append lengthPrefixed_framed (a := (p,h)) (b := (p',h')) ho ho' he
  obtain ⟨rfl,rfl⟩ := Prod.mk.inj hp
  exact ⟨rfl,hs⟩

/-- The binary framing is unambiguous as long as every count fits. -/
theorem encodeCommitmentV03_inj {r r' : Str} {c c' : List Str} {s s' : OutputSelection}
    {o o' : List AttestedOutput} (h : FitsU32 r c s o) (h' : FitsU32 r' c' s' o')
    (he : encodeCommitmentV03 r c s o = encodeCommitmentV03 r' c' s' o') :
    r = r' ∧ c = c' ∧ s = s' ∧ o = o' := by
  have hdomain : commitmentDomainV03.length < 2 ^ 32 := by decide
  rcases s with ⟨m,as,rs⟩
  rcases s' with ⟨m',as',rs'⟩
  obtain ⟨_,he1⟩ := lengthPrefixed_framed hdomain hdomain he
  obtain ⟨hr,he2⟩ := lengthPrefixed_framed h.processRoot h'.processRoot he1
  obtain ⟨hc,he3⟩ := countPrefixed_framed lengthPrefixed_framed h.command h'.command he2
  obtain ⟨hm,he4⟩ := lengthPrefixed_framed h.mode h'.mode he3
  obtain ⟨ha,he5⟩ := countPrefixed_framed lengthPrefixed_framed h.artifacts h'.artifacts he4
  obtain ⟨hs,he6⟩ := countPrefixed_framed lengthPrefixed_framed h.outputRoots h'.outputRoots he5
  have ho := (countPrefixed_framed writeOutput_framed).injOn h.outputs h'.outputs he6
  dsimp only at hm ha hs
  exact ⟨hr,hc,by rw [hm,ha,hs],ho⟩

/-- Within the range of its 32-bit counts the 0.3 commitment encoding determines
every committed field. -/
theorem encodeCommitmentV03_determines_fields (r r' : Str) (c c' : List Str) (s s' : OutputSelection)
    (o o' : List AttestedOutput) (h : FitsU32 r c s o) (h' : FitsU32 r' c' s' o')
    (he : encodeCommitmentV03 r c s o = encodeCommitmentV03 r' c' s' o') :
    r = r' ∧ c = c' ∧ s.mode = s'.mode ∧ s.artifacts = s'.artifacts ∧ s.outputRoots = s'.outputRoots ∧
      o.map (fun x => (x.path,x.hash)) = o'.map (fun x => (x.path,x.hash)) := by
  obtain ⟨hr,hc,hs,ho⟩ := encodeCommitmentV03_inj h h' he
  subst hs ho
  exact ⟨hr,hc,rfl,rfl,rfl,rfl⟩

/-- Only the fields count, not how they were built; moving the boundary between
two arguments changes the encoding although they hold the same bytes. -/
theorem encodeCommitmentV03_determines_fields_sample :
    encodeCommitmentV03 (utf8 "r") [utf8 "a" ++ utf8 "b",utf8 "c"] OutputSelection.default
        [⟨utf8 "o",utf8 "h"⟩] =
      encodeCommitmentV03 (utf8 "r") [utf8 "ab",utf8 "c"] OutputSelection.default [⟨utf8 "o",utf8 "h"⟩] ∧
    [utf8 "a" ++ utf8 "b",utf8 "c"] = [utf8 "ab",utf8 "c"] ∧
    encodeCommitmentV03 (utf8 "r") [utf8 "a",utf8 "bc"] OutputSelection.default [⟨utf8 "o",utf8 "h"⟩] ≠
      encodeCommitmentV03 (utf8 "r") [utf8 "ab",utf8 "c"] OutputSelection.default
        [⟨utf8 "o",utf8 "h"⟩] := by
  have hfits : ∀ command : List Str, command.length < 2 ^ 32 → (∀ arg ∈ command, arg.length < 2 ^ 32) →
      FitsU32 (utf8 "r") command OutputSelection.default [⟨utf8 "o",utf8 "h"⟩] := by
    intro command hl hc
    exact ⟨by decide,⟨hl,hc⟩,by decide,by decide,by decide,by decide⟩
  have h := hfits [utf8 "ab",utf8 "c"] (by decide) (by decide)
  have hbuilt := hfits [utf8 "a" ++ utf8 "b",utf8 "c"] (by decide) (by decide)
  have hmoved := hfits [utf8 "a",utf8 "bc"] (by decide) (by decide)
  have he : encodeCommitmentV03 (utf8 "r") [utf8 "a" ++ utf8 "b",utf8 "c"] OutputSelection.default
        [⟨utf8 "o",utf8 "h"⟩] =
      encodeCommitmentV03 (utf8 "r") [utf8 "ab",utf8 "c"] OutputSelection.default
        [⟨utf8 "o",utf8 "h"⟩] := rfl
  refine ⟨he,(encodeCommitmentV03_determines_fields _ _ _ _ _ _ _ _ hbuilt h he).2.1,fun hne => ?_⟩
  have hc := (encodeCommitmentV03_determines_fields _ _ _ _ _ _ _ _ hmoved h hne).2.1
  exact absurd hc (by decide)

/-- The byte string hashed for the commitment of the document's version. -/
def commitmentInput (sha256 : Str → Digest) (toJson : CommitmentV02 → Str) (att : Attestation) : List Str :=
  if att.version = utf8 "0.2.0" ∨ att.version = utf8 "0.2.1" then
    [toJson (commitmentV02 (att.tree.rootHash sha256) att.command att.outputSelection att.outputs)]
  else if att.version = utf8 "0.3.0" then
    [encodeCommitmentV03 (att.tree.rootHash sha256) att.command att.outputSelection att.outputs]
  else []

/-- The byte strings hashed while a document is validated. -/
def validationInputs (sha256 : Str → Digest) (toJson : CommitmentV02 → Str) (att : Attestation) : List Str :=
  (if att.tree.nodes.isEmpty then rootInputs sha256 att.tree.leafHashes else []) ++
    commitmentInput sha256 toJson att

/-- The counts of a 0.3.0 document fit its framing; other versions have none. -/
def CountsFit (sha256 : Str → Digest) (att : Attestation) : Prop :=
  att.version = utf8 "0.3.0" →
    FitsU32 (att.tree.rootHash sha256) att.command att.outputSelection att.outputs

/-- The fields a root is meant to commit to agree. -/
def SameCommitted (a b : Attestation) : Prop :=
  a.command = b.command ∧ a.outputSelection = b.outputSelection ∧ a.outputs = b.outputs ∧
    a.processRoot = b.processRoot

/-- Every committed version hashes one byte string to its root, and that string
determines the committed fields among documents of either encoding. -/
theorem accepted_commitment {att : Attestation} (h : Accepts sha256 toJson att)
    (hv : att.version ≠ utf8 "0.1.0") : ∃ x, commitmentInput sha256 toJson att = [x] ∧
      att.rootHash = digestText (sha256 x) := by
  obtain ⟨_,_,_,h32,h33⟩ := versions_distinct
  cases h with
  | legacy hv' _ => exact absurd hv' hv
  | json hv' _ hr => exact ⟨_,by rw [commitmentInput,if_pos hv'],hr.symm⟩
  | binary hv' _ hr =>
    exact ⟨_,by rw [commitmentInput,if_neg (by simp [hv',h32,h33]),if_pos hv'],hr.symm⟩

theorem sameCommitted_of_input {a b : Attestation} (hinj : Function.Injective toJson)
    (hobj : ∀ c, (toJson c).head? = some 123) (ha : CountsFit sha256 a) (hb : CountsFit sha256 b) {x : Str}
    (hx : commitmentInput sha256 toJson a = [x]) (hy : commitmentInput sha256 toJson b = [x]) :
    a.command = b.command ∧ a.outputSelection = b.outputSelection ∧ a.outputs = b.outputs ∧
      a.tree.rootHash sha256 = b.tree.rootHash sha256 := by
  have hmixed : ∀ c r s o p, toJson c ≠ encodeCommitmentV03 r s o p := by
    intro c r s o p he
    have hh := congrArg List.head? he
    have hd : (encodeCommitmentV03 r s o p).head? = some 21 := rfl
    rw [hobj,hd] at hh
    exact absurd hh (by decide)
  unfold commitmentInput at hx hy
  split_ifs at hx hy with hva hvb hvb hva hvb hvb
  · have he := hinj (List.singleton_inj.mp (hx.trans hy.symm))
    simp only [commitmentV02,CommitmentV02.mk.injEq,true_and] at he
    exact ⟨he.2.1,he.2.2.1,he.2.2.2,he.1⟩
  · exact absurd (List.singleton_inj.mp (hx.trans hy.symm)) (hmixed _ _ _ _ _)
  · exact absurd (List.singleton_inj.mp (hy.trans hx.symm)) (hmixed _ _ _ _ _)
  · obtain ⟨hr,hc,hs,ho⟩ := encodeCommitmentV03_inj (ha hva) (hb hvb)
      (List.singleton_inj.mp (hx.trans hy.symm))
    exact ⟨hc,hs,ho,hr⟩

/-- Two accepted documents with one root: the committed versions agree on every
committed field or hashed two distinct byte strings to one digest, and two
legacy documents agree on the process root. -/
theorem validate_binds_root (hinj : Function.Injective toJson)
    (hobj : ∀ c, (toJson c).head? = some 123) (a b a' b' : Attestation)
    (ha : validate sha256 toJson a = .ok a') (hb : validate sha256 toJson b = .ok b')
    (hr : a.rootHash = b.rootHash) :
    (a.version ≠ utf8 "0.1.0" → b.version ≠ utf8 "0.1.0" → CountsFit sha256 a → CountsFit sha256 b →
      SameCommitted a' b' ∨
        Collision sha256 (validationInputs sha256 toJson a ++ validationInputs sha256 toJson b)) ∧
    (a.version = utf8 "0.1.0" → b.version = utf8 "0.1.0" → a'.processRoot = b'.processRoot) := by
  obtain ⟨haa,rfl⟩ := (validate_eq_ok sha256 toJson).mp ha
  obtain ⟨hbb,rfl⟩ := (validate_eq_ok sha256 toJson).mp hb
  obtain ⟨h20,h21,h30,_,_⟩ := versions_distinct
  constructor
  · intro hva hvb hca hcb
    obtain ⟨x,hx,hrx⟩ := accepted_commitment haa hva
    obtain ⟨y,hy,hry⟩ := accepted_commitment hbb hvb
    by_cases hxy : x = y
    · exact Or.inl (sameCommitted_of_input hinj hobj hca hcb hx (hxy ▸ hy))
    · refine Or.inr ⟨x,?_,y,?_,hxy,digestText_injective (by rw [← hrx,hr,hry])⟩
      · simp [validationInputs,hx]
      · simp [validationInputs,hy]
  · intro hva hvb
    have hroot : ∀ {att : Attestation}, Accepts sha256 toJson att → att.version = utf8 "0.1.0" →
        att.tree.rootHash sha256 = att.rootHash := by
      intro att h hv
      cases h with
      | legacy _ he => exact he.symm
      | json hv' _ _ => rcases hv' with hv' | hv' <;> exact absurd (hv'.symm.trans hv) (by assumption)
      | binary hv' _ _ => exact absurd (hv'.symm.trans hv) h30
    exact (hroot haa hva).trans (hr.trans (hroot hbb hvb).symm)

section Json

def selectionJson (s : OutputSelection) : Str :=
  utf8 "\x7b\"mode\":" ++ (jsonString s.mode ++ (utf8 ",\"artifacts\":" ++
    (jsonArray jsonString s.artifacts ++ (utf8 ",\"output_roots\":" ++
      (jsonArray jsonString s.outputRoots ++ utf8 "\x7d")))))

def outputJson (o : AttestedOutput) : Str :=
  utf8 "\x7b\"path\":" ++ (jsonString o.path ++ (utf8 ",\"hash\":" ++ (jsonString o.hash ++ utf8 "\x7d")))

/-- Compact JSON of the commitment, in the order of the record's fields. -/
def commitmentJson (c : CommitmentV02) : Str :=
  utf8 "\x7b\"domain\":" ++ (jsonString c.domain ++ (utf8 ",\"process_root\":" ++
    (jsonString c.processRoot ++ (utf8 ",\"command\":" ++ (jsonArray jsonString c.command ++
      (utf8 ",\"output_selection\":" ++ (selectionJson c.outputSelection ++ (utf8 ",\"outputs\":" ++
        (jsonArray outputJson c.outputs ++ utf8 "\x7d")))))))))

theorem strings_framed : Framed (fun as : List Str => ∀ a ∈ as, True) (jsonArray jsonString) :=
  jsonArray_framed jsonString_framed (by simp [jsonString]) (by simp [jsonString])

theorem outputJson_framed : Framed (fun _ => True) outputJson := by
  rintro ⟨p,h⟩ ⟨p',h'⟩ s t _ _ he
  simp only [outputJson,List.append_assoc] at he
  obtain ⟨hp,he⟩ := jsonString_framed trivial trivial (List.append_cancel_left he)
  obtain ⟨hh,he⟩ := jsonString_framed trivial trivial (List.append_cancel_left he)
  exact ⟨by rw [hp,hh],List.append_cancel_left he⟩

theorem outputs_framed : Framed (fun os : List AttestedOutput => ∀ o ∈ os, True) (jsonArray outputJson) := by
  have hhead : ∀ o, (outputJson o).head? = some 123 := fun _ => rfl
  apply jsonArray_framed outputJson_framed
  · intro o ho
    exact absurd (hhead o) (by simp [ho])
  · intro o
    rw [hhead]
    decide

theorem selectionJson_framed : Framed (fun _ => True) selectionJson := by
  rintro ⟨m,as,rs⟩ ⟨m',as',rs'⟩ s t _ _ he
  simp only [selectionJson,List.append_assoc] at he
  obtain ⟨hm,he⟩ := jsonString_framed trivial trivial (List.append_cancel_left he)
  obtain ⟨ha,he⟩ := strings_framed (by simp) (by simp) (List.append_cancel_left he)
  obtain ⟨hr,he⟩ := strings_framed (by simp) (by simp) (List.append_cancel_left he)
  exact ⟨by rw [hm,ha,hr],List.append_cancel_left he⟩

theorem commitmentJson_injective : Function.Injective commitmentJson := by
  rintro ⟨d,r,c,s,o⟩ ⟨d',r',c',s',o'⟩ he
  simp only [commitmentJson] at he
  obtain ⟨hd,he⟩ := jsonString_framed trivial trivial (List.append_cancel_left he)
  obtain ⟨hr,he⟩ := jsonString_framed trivial trivial (List.append_cancel_left he)
  obtain ⟨hc,he⟩ := strings_framed (by simp) (by simp) (List.append_cancel_left he)
  obtain ⟨hs,he⟩ := selectionJson_framed trivial trivial (List.append_cancel_left he)
  obtain ⟨ho,_⟩ := outputs_framed (by simp) (by simp) (List.append_cancel_left he)
  rw [hd,hr,hc,hs,ho]

theorem commitmentJson_head (c : CommitmentV02) : (commitmentJson c).head? = some 123 := rfl

end Json

/-- A freshly built document is accepted unchanged. -/
theorem validate_newWithOutputs (sha256 : Str → Digest) (toJson : CommitmentV02 → Str) (tree : MerkleTree)
    (command : List Str) (selection : OutputSelection) (outputs : List AttestedOutput) :
    validate sha256 toJson (newWithOutputs sha256 tree command selection outputs) =
      .ok (newWithOutputs sha256 tree command selection outputs) :=
  (validate_eq_ok sha256 toJson).mpr ⟨.binary rfl (Or.inr rfl) rfl,rfl⟩

/-- A fresh document over one leaf, under the constant hash function. -/
def committedCommand (command : List Str) : Attestation :=
  newWithOutputs (fun _ => blankDigest) ⟨[sampleLeaf 1],[],1⟩ command OutputSelection.default []

theorem committedCommand_countsFit (command : List Str) (hl : command.length < 2 ^ 32)
    (hc : ∀ arg ∈ command, arg.length < 2 ^ 32) :
    CountsFit (fun _ => blankDigest) (committedCommand command) := by
  intro _
  refine ⟨?_,⟨hl,hc⟩,?_,?_,?_,?_⟩
  · simp only [committedCommand,newWithOutputs,MerkleTree.rootHash_of_no_nodes,rootFromLeaves_singleton]
    decide
  all_goals simp [committedCommand,newWithOutputs,OutputSelection.default]
  decide

theorem validate_binds_root_sample :
    SameCommitted (committedCommand [utf8 "make"]) (committedCommand [utf8 "make",utf8 "release"]) ∨
      Collision (fun _ => blankDigest)
        (validationInputs (fun _ => blankDigest) commitmentJson (committedCommand [utf8 "make"]) ++
          validationInputs (fun _ => blankDigest) commitmentJson
            (committedCommand [utf8 "make",utf8 "release"])) :=
  (validate_binds_root commitmentJson_injective commitmentJson_head
    (committedCommand [utf8 "make"]) (committedCommand [utf8 "make",utf8 "release"]) _ _
    (validate_newWithOutputs _ _ _ _ _ _) (validate_newWithOutputs _ _ _ _ _ _) rfl).1
    versions_distinct.2.2.1 versions_distinct.2.2.1
    (committedCommand_countsFit [utf8 "make"] (by decide) (by decide))
    (committedCommand_countsFit [utf8 "make",utf8 "release"] (by decide) (by decide))

/-- A 0.1.0 document over one leaf, recording the given command. -/
def legacyCommand (command : List Str) : Attestation :=
  { legacyDocument (sampleLeaf 1) ⟨[sampleLeaf 1],[],1⟩ with command := command }

theorem validate_legacyCommand (sha256 : Str → Digest) (toJson : CommitmentV02 → Str) (command : List Str) :
    validate sha256 toJson (legacyCommand command) =
      .ok { legacyCommand command with processRoot := sampleLeaf 1 } := by
  have hr : MerkleTree.rootHash sha256 ⟨[sampleLeaf 1],[],1⟩ = sampleLeaf 1 := by
    rw [MerkleTree.rootHash_of_no_nodes,rootFromLeaves_singleton]
  exact (validate_eq_ok sha256 toJson).mpr ⟨.legacy rfl hr.symm,by rw [← hr]; rfl⟩

/-- The legacy root ignores the command, and validating a one-leaf legacy
document hashes nothing at all. -/
theorem legacy_command_unbound :
    ¬ ∃ (sha256 : Str → Digest) (toJson : CommitmentV02 → Str), ∀ a b a' b' : Attestation,
      validate sha256 toJson a = .ok a' → validate sha256 toJson b = .ok b' → a.rootHash = b.rootHash →
      SameCommitted a' b' ∨
        Collision sha256 (validationInputs sha256 toJson a ++ validationInputs sha256 toJson b) := by
  rintro ⟨sha256,toJson,hall⟩
  have hinputs : ∀ c, validationInputs sha256 toJson (legacyCommand c) = [] := by
    intro c
    simp [validationInputs,commitmentInput,legacyCommand,legacyDocument,rootInputs,nextPowerOfTwo,
      padLevel,PairedLevels.reducePairs,versions_distinct.1.symm,versions_distinct.2.1.symm,
      versions_distinct.2.2.1.symm]
  rcases hall _ _ _ _ (validate_legacyCommand sha256 toJson [utf8 "true"])
    (validate_legacyCommand sha256 toJson [utf8 "false"]) rfl with hs | hc
  · exact absurd hs.1 (by decide)
  · rw [hinputs,hinputs] at hc
    obtain ⟨x,hx,_⟩ := hc
    simp at hx

end Repx.Attest
