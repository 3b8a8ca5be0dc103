import Repx.Commands.Machine
import Repx.Commitment.DiffReport
import Repx.Commitment.SignatureVerification

/-! # Verification by rebuilding

The build is run again and its document compared with a stored one. A rebuild verifies
against the document of a traced build if it is the same build, and only then, up to a
collision of the hash function. The stored file itself need not be trusted where its root is
pinned: a root that comes out of a signed attestation is enough.
-/
namespace Repx.Commands
open ByteString Sha256 Attest Report Dsse Workspace

section Verify
variable (sha256 : Str → Digest) (toJson : CommitmentV02 → Str) (parse : Str → Except Str AttestationDocument)

/-- The text of a file, or the reason why it cannot be read, parsed and validated. -/
def readFromFile (data : Except Str Str) : Except Str Attestation := do
  let text ← data
  let doc ← parse text
  validate sha256 toJson (deserialize doc)

def validateOutputSelection (expected : Attestation) (workspaceRoot : Str) (artifacts outputRoots : List Str) :
    Except Str Unit :=
  if expected.outputSelection.mode = utf8 "explicit" ∧ artifacts.isEmpty ∧ outputRoots.isEmpty then
    .error (utf8 "the attestation used explicit output selection; repeat its --artifact/--output-root flags " ++
      utf8 "rather than trusting policy from the attestation file")
  else if outputSelectionMetadata (outputMode artifacts outputRoots) workspaceRoot artifacts outputRoots ≠
      expected.outputSelection then
    .error (utf8 "verification output selection differs from the attestation")
  else .ok ()

def checkExpectedRoot (expected : Attestation) : Option Str → Except Str Unit
  | some pinnedRoot =>
    if expected.rootHash ≠ pinnedRoot then
      .error (utf8 "attestation root does not match --expected-root\n  expected: " ++ pinnedRoot ++
        utf8 "\n  file:     " ++ expected.rootHash)
    else .ok ()
  | none => .ok ()

def checkCommand (expected : Attestation) (command : List Str) : Except Str Unit :=
  if expected.command ≠ command then
    .error (utf8 "command differs from attestation\n  attestation: " ++ formatCommand expected.command ++
      utf8 "\n  current:     " ++ formatCommand command)
  else .ok ()

def rebuiltLines (root : Str) : List Str :=
  [utf8 "VERIFIED: Attestation matches.",utf8 "Root hash: " ++ root]

/-- The two documents are compared by their roots only. -/
def compareRebuilt (expected actual : Attestation) : Except Stop (List Str) :=
  if expected.rootHash = actual.rootHash then .ok (rebuiltLines actual.rootHash)
  else
    .error (.exit ([utf8 "MISMATCH: Attestation does not match.",utf8 "  Expected: " ++ expected.rootHash,
      utf8 "  Actual:   " ++ actual.rootHash,[]] ++ printAttestationDiff expected actual))

/-- The command that runs a build again, with the lines it prints. Dropped events are never accepted. -/
def verify (data : Except Str Str) (expectedRoot : Option Str) (run : Run) (flags : Flags) :
    Except Stop (List Str) := do
  let expected ← orStop (readFromFile sha256 toJson parse data)
  orStop (checkExpectedRoot expected expectedRoot)
  orStop (checkCommand expected flags.command)
  orStop (validateOutputSelection expected run.workspaceRoot flags.artifacts flags.outputRoots)
  let built ← run.build flags
  if 0 < built.result.droppedEvents then
    .error (.exit [utf8 "FAILED: " ++ numeral 10 built.result.droppedEvents.toNat ++
      utf8 " events dropped during verification. Cannot guarantee attestation integrity."])
  else compareRebuilt expected ((buildRecord sha256 run flags built).attestation sha256)

end Verify

section Success
variable {sha256 : Str → Digest} {toJson : CommitmentV02 → Str} {parse : Str → Except Str AttestationDocument}
  {expected actual : Attestation}

theorem validateOutputSelection_eq_ok {workspaceRoot : Str} {artifacts outputRoots : List Str} :
    validateOutputSelection expected workspaceRoot artifacts outputRoots = .ok () ↔
      outputSelectionMetadata (outputMode artifacts outputRoots) workspaceRoot artifacts outputRoots =
        expected.outputSelection := by
  unfold validateOutputSelection
  split_ifs with hexplicit hdiffers
  · refine iff_of_false (by simp) fun he => ?_
    have hmode := congrArg OutputSelection.mode he
    have hinferred : outputMode artifacts outputRoots = .inferred := by simp [outputMode,hexplicit.2]
    rw [hexplicit.1,hinferred] at hmode
    exact absurd hmode (by decide : utf8 "inferred" ≠ utf8 "explicit")
  · exact iff_of_false (by simp) hdiffers
  · exact iff_of_true rfl (not_not.mp hdiffers)

theorem checkExpectedRoot_eq_ok {expectedRoot : Option Str} :
    checkExpectedRoot expected expectedRoot = .ok () ↔
      ∀ pinnedRoot ∈ expectedRoot, expected.rootHash = pinnedRoot := by
  cases expectedRoot <;> simp [checkExpectedRoot]

theorem checkCommand_eq_ok {command : List Str} :
    checkCommand expected command = .ok () ↔ expected.command = command := by
  simp [checkCommand]

theorem compareRebuilt_eq_ok {lines : List Str} :
    compareRebuilt expected actual = .ok lines ↔
      expected.rootHash = actual.rootHash ∧ lines = rebuiltLines actual.rootHash := by
  unfold compareRebuilt
  split_ifs with h <;> simp [h,eq_comm]

/-- A rebuild is verified if the file can be read, the flags are those of the document, no events were dropped
and the roots agree. -/
theorem verify_eq_ok {data : Except Str Str} {expectedRoot : Option Str} {run : Run} {flags : Flags}
    {lines : List Str} :
    verify sha256 toJson parse data expectedRoot run flags = .ok lines ↔
      ∃ expected built, readFromFile sha256 toJson parse data = .ok expected ∧
        (∀ pinnedRoot ∈ expectedRoot, expected.rootHash = pinnedRoot) ∧ expected.command = flags.command ∧
        outputSelectionMetadata (outputMode flags.artifacts flags.outputRoots) run.workspaceRoot flags.artifacts
          flags.outputRoots = expected.outputSelection ∧
        run.build flags = .ok built ∧ built.result.droppedEvents = 0 ∧
        expected.rootHash = ((buildRecord sha256 run flags built).attestation sha256).rootHash ∧
        lines = rebuiltLines expected.rootHash := by
  simp only [verify,bind_eq_ok,orStop_eq_ok,Unique.exists_iff,PUnit.default_eq_unit,checkExpectedRoot_eq_ok,
    checkCommand_eq_ok,validateOutputSelection_eq_ok]
  constructor
  · rintro ⟨expected,hread,hpinned,hcommand,hselection,built,hbuild,h⟩
    split_ifs at h with hdropped
    obtain ⟨hroot,rfl⟩ := compareRebuilt_eq_ok.mp h
    refine ⟨expected,built,hread,hpinned,hcommand,hselection,hbuild,?_,hroot,by rw [hroot]⟩
    simpa using hdropped
  · rintro ⟨expected,built,hread,hpinned,hcommand,hselection,hbuild,hdropped,hroot,rfl⟩
    refine ⟨expected,hread,hpinned,hcommand,hselection,built,hbuild,?_⟩
    rw [if_neg (by simp [hdropped])]
    exact compareRebuilt_eq_ok.mpr ⟨hroot,by rw [hroot]⟩

variable {render : AttestationDocument → Str}

/-- What was written for a build is read back as it was. -/
theorem readFromFile_attestation {r : BuildRecord}
    (hparse : parse (render (serialize (r.attestation sha256))) = .ok (serialize (r.attestation sha256))) :
    readFromFile sha256 toJson parse (.ok (render (serialize (r.attestation sha256)))) =
      .ok (r.attestation sha256) := by
  refine bind_eq_ok.mpr ⟨_,rfl,bind_eq_ok.mpr ⟨_,hparse,?_⟩⟩
  exact validate_newWithOutputs sha256 toJson _ _ _ _

section Rebuild
variable (b b' : AttestedBuild) {data : Except Str Str} {expectedRoot : Option Str}

/-- Next to the document of the same build, a rebuild is verified. -/
theorem verify_of_sameBuild (hread : readFromFile sha256 toJson parse data = .ok (b.attestation sha256))
    (hpinned : ∀ pinnedRoot ∈ expectedRoot, (b.attestation sha256).rootHash = pinnedRoot)
    (hdropped : b'.built.result.droppedEvents = 0) (hsame : SameBuild (b.record sha256) (b'.record sha256)) :
    verify sha256 toJson parse data expectedRoot b'.run b'.flags =
      .ok (rebuiltLines (b.attestation sha256).rootHash) := by
  have heq : b.attestation sha256 = b'.attestation sha256 :=
    hsame.attestation_eq (b.shaped sha256) (b'.shaped sha256)
  refine verify_eq_ok.mpr ⟨_,b'.built,hread,hpinned,hsame.command,?_,b'.build_eq,hdropped,?_,rfl⟩
  · rw [← b'.outputSelection_attestation sha256,← heq]
  · exact congrArg Attestation.rootHash heq

/-- A rebuild that is verified has the root of the file, which is the pinned one. -/
theorem rootHash_of_verify {lines : List Str}
    (h : verify sha256 toJson parse data expectedRoot b'.run b'.flags = .ok lines) :
    ∃ expected, readFromFile sha256 toJson parse data = .ok expected ∧
      (∀ pinnedRoot ∈ expectedRoot, expected.rootHash = pinnedRoot) ∧
      expected.rootHash = (b'.attestation sha256).rootHash := by
  obtain ⟨expected,built,hread,hpinned,-,-,hbuild,-,hroot,-⟩ := verify_eq_ok.mp h
  obtain rfl : built = b'.built := Except.ok.inj (hbuild.symm.trans b'.build_eq)
  exact ⟨expected,hread,hpinned,hroot⟩

end Rebuild

/-- The rebuild of a traced build is verified if it is the same build, and only then, up to a collision. -/
theorem verify_traced (b b' : AttestedBuild) (hfits : (b.record sha256).Fits) (hfits' : (b'.record sha256).Fits)
    (hdropped : b'.built.result.droppedEvents = 0) {allowDroppedEvents : Bool} {output : Str} {traced : Traced}
    (htrace : trace sha256 b.run b.flags allowDroppedEvents output = .ok traced)
    (hparse : parse (render (serialize traced.attestation)) = .ok (serialize traced.attestation))
    {expectedRoot : Option Str} (hpinned : ∀ pinnedRoot ∈ expectedRoot, traced.attestation.rootHash = pinnedRoot) :
    (SameBuild (b.record sha256) (b'.record sha256) →
      verify sha256 toJson parse (.ok (render (serialize traced.attestation))) expectedRoot b'.run b'.flags =
        .ok (rebuiltLines traced.attestation.rootHash)) ∧
    ∀ lines, verify sha256 toJson parse (.ok (render (serialize traced.attestation))) expectedRoot b'.run b'.flags =
        .ok lines → SameBuild (b.record sha256) (b'.record sha256) ∨
          Collision sha256 ((b.record sha256).hashed sha256 ++ (b'.record sha256).hashed sha256) := by
  obtain ⟨built,hbuild,-,rfl⟩ := trace_eq_ok.mp htrace
  obtain rfl : built = b.built := Except.ok.inj (hbuild.symm.trans b.build_eq)
  have hread : readFromFile sha256 toJson parse (.ok (render (serialize (b.attestation sha256)))) =
      .ok (b.attestation sha256) := readFromFile_attestation hparse
  constructor
  · exact verify_of_sameBuild b b' hread hpinned hdropped
  · intro lines hverify
    obtain ⟨expected,hread',-,hroot⟩ := rootHash_of_verify b' hverify
    obtain rfl := Except.ok.inj (hread.symm.trans hread')
    exact sameBuild_or_collision (b.shaped sha256) (b'.shaped sha256) hfits hfits' hroot

end Success

section Signed
variable {VerifyingKey Signature : Type} {verifier : Verifier VerifyingKey Signature} {verifyingKey : VerifyingKey}
  {sha256 : Str → Digest} {toJson : CommitmentV02 → Str} {parse : Str → Except Str AttestationDocument}
  {render : AttestationDocument → Str}

/-- Every signature that verifies under the key covers one of the attestations, as the signing command signs it. -/
def SignsOnly (verifier : Verifier VerifyingKey Signature) (verifyingKey : VerifyingKey)
    (render : AttestationDocument → Str) (signed : List Attestation) : Prop :=
  ∀ message signature, verifier.verify verifyingKey message signature = .ok () →
    ∃ att ∈ signed, message = pae att.predicateType (render (serialize att))

/-- What is reported about an envelope is what was signed. -/
theorem SignsOnly.report_eq {signed : List Attestation} (hsigns : SignsOnly verifier verifyingKey render signed)
    (hparse : ∀ att ∈ signed, parse (render (serialize att)) = .ok (serialize att)) {key : Str}
    {envelope : Dsse.Envelope} {report : List Str}
    (h : verifySignature verifier verifyingKey sha256 toJson parse key envelope = .ok report) :
    ∃ att ∈ signed, report = verifiedLines key att := by
  obtain ⟨payload,doc,hc,rfl⟩ := (verifySignature_eq_ok verifier verifyingKey sha256 toJson parse).mp h
  obtain ⟨sig,-,_,_,-,-,hverify⟩ := hc.covered
  obtain ⟨att,hatt,hmessage⟩ := hsigns _ _ hverify
  obtain ⟨-,rfl⟩ := (pae_eq_iff _ _ _ _).mp hmessage
  obtain rfl := Except.ok.inj ((hparse att hatt).symm.trans hc.parses)
  exact ⟨att,hatt,rfl⟩

/-- The root is read off the line that prints it. -/
theorem rootHash_of_mem_verifiedLines {key root : Str} {att : Attestation}
    (h : utf8 "Root hash:  " ++ root ∈ verifiedLines key att) : root = att.rootHash := by
  have hother {text line : Str} (hne : text.take 2 ≠ utf8 "Ro") (hlen : 2 ≤ text.length) :
      utf8 "Root hash:  " ++ root ≠ text ++ line := by
    intro he
    have htake := congrArg (List.take 2) he
    rw [List.take_append_of_le_length (by decide),List.take_append_of_le_length hlen] at htake
    exact hne htake.symm
  simp only [verifiedLines,List.mem_cons,List.not_mem_nil,or_false] at h
  rcases h with h | h | h | h | h
  · exact absurd (h.trans (List.append_nil _).symm) (hother (by decide) (by decide))
  · exact absurd h (hother (by decide) (by decide))
  · exact absurd h (hother (by decide) (by decide))
  · exact List.append_cancel_left h
  · exact absurd h (hother (by decide) (by decide))

/-- A rebuild that is verified against a root out of a signed attestation, with any file next to it, is the same
build as one that the signer traced, up to a collision. -/
theorem verify_signed (builds : List AttestedBuild)
    (hparse : ∀ att ∈ builds.map (AttestedBuild.attestation sha256),
      parse (render (serialize att)) = .ok (serialize att))
    (hsigns : SignsOnly verifier verifyingKey render (builds.map (AttestedBuild.attestation sha256)))
    (hfits : ∀ b ∈ builds, (b.record sha256).Fits) (rebuild : AttestedBuild)
    (hfits' : (rebuild.record sha256).Fits) {key : Str} {envelope : Dsse.Envelope} {report : List Str}
    (hreport : verifySignature verifier verifyingKey sha256 toJson parse key envelope = .ok report) {root : Str}
    (hroot : utf8 "Root hash:  " ++ root ∈ report) {data : Except Str Str} {lines : List Str}
    (hverify : verify sha256 toJson parse data (some root) rebuild.run rebuild.flags = .ok lines) :
    ∃ b ∈ builds, SameBuild (b.record sha256) (rebuild.record sha256) ∨
      Collision sha256 ((b.record sha256).hashed sha256 ++ (rebuild.record sha256).hashed sha256) := by
  obtain ⟨att,hatt,rfl⟩ := hsigns.report_eq hparse hreport
  obtain ⟨b,hb,rfl⟩ := List.mem_map.mp hatt
  have hpinned := rootHash_of_mem_verifiedLines hroot
  obtain ⟨expected,-,hexpected,hequal⟩ := rootHash_of_verify rebuild hverify
  refine ⟨b,hb,sameBuild_or_collision (b.shaped sha256) (rebuild.shaped sha256) (hfits b hb) hfits' ?_⟩
  exact hpinned.symm.trans ((hexpected root rfl).symm.trans hequal)

end Signed

/-! ## A build and its rebuild -/

/-- The document of the command that leaves nothing behind. -/
def bareAttested : AttestedBuild :=
  bareMachine.attested bareFlags hashing_bareMachine bareBuilt build_bareMachine

theorem fits_bareAttested (sha256 : Str → Digest) : (bareAttested.record sha256).Fits :=
  show FitsU32 [] [utf8 "true"] ⟨utf8 "inferred",[],[]⟩ [] from
    ⟨by decide,by decide,by decide,by decide,by decide,by decide⟩

def treeJson (tree : TreeDocument) : Str :=
  utf8 "\x7b\"leaves\":" ++ JsonText.jsonArray JsonText.jsonString (tree.leaves.getD []) ++ utf8 ",\"leaf_count\":" ++
    numeral 10 tree.leafCount ++ utf8 "\x7d"

/-- The text of a document as it is signed, without blanks. -/
def documentJson (doc : AttestationDocument) : Str :=
  utf8 "\x7b\"version\":" ++ JsonText.jsonString doc.version ++
    utf8 ",\"predicate_type\":" ++ JsonText.jsonString doc.predicateType ++
    utf8 ",\"root_hash\":" ++ JsonText.jsonString doc.rootHash ++
    utf8 ",\"process_root\":" ++ JsonText.jsonString (doc.processRoot.getD []) ++
    utf8 ",\"command\":" ++ JsonText.jsonArray JsonText.jsonString doc.command ++
    utf8 ",\"output_selection\":" ++ selectionJson (doc.outputSelection.getD OutputSelection.default) ++
    utf8 ",\"outputs\":" ++ JsonText.jsonArray outputJson (doc.outputs.getD []) ++
    utf8 ",\"tree\":" ++ treeJson doc.tree ++ utf8 "\x7d"

def newline (depth : ℕ) : Str := 10 :: List.replicate (2 * depth) 32

/-- Items on lines of their own. -/
def prettyItems (opening closing : UInt8) (depth : ℕ) : List Str → Str
  | [] => [opening,closing]
  | item :: items =>
    opening :: (newline (depth + 1) ++ item ++ items.flatMap (fun item => 44 :: (newline (depth + 1) ++ item)) ++
      newline depth ++ [closing])

def prettyArray (depth : ℕ) (items : List Str) : Str := prettyItems 91 93 depth items

def prettyObject (depth : ℕ) (fields : List (Str × Str)) : Str :=
  prettyItems 123 125 depth (fields.map fun (name,value) => JsonText.jsonString name ++ utf8 ": " ++ value)

/-- The text of a document as it is written to a file. -/
def documentPretty (doc : AttestationDocument) : Str :=
  let selection := doc.outputSelection.getD OutputSelection.default
  prettyObject 0
    [(utf8 "version",JsonText.jsonString doc.version),(utf8 "predicate_type",JsonText.jsonString doc.predicateType),
      (utf8 "root_hash",JsonText.jsonString doc.rootHash),
      (utf8 "process_root",JsonText.jsonString (doc.processRoot.getD [])),
      (utf8 "command",prettyArray 1 (doc.command.map JsonText.jsonString)),
      (utf8 "output_selection",prettyObject 1
        [(utf8 "mode",JsonText.jsonString selection.mode),
          (utf8 "artifacts",prettyArray 2 (selection.artifacts.map JsonText.jsonString)),
          (utf8 "output_roots",prettyArray 2 (selection.outputRoots.map JsonText.jsonString))]),
      (utf8 "outputs",prettyArray 1 ((doc.outputs.getD []).map fun output => prettyObject 2
        [(utf8 "path",JsonText.jsonString output.path),(utf8 "hash",JsonText.jsonString output.hash)])),
      (utf8 "tree",prettyObject 1
        [(utf8 "leaves",prettyArray 2 ((doc.tree.leaves.getD []).map JsonText.jsonString)),
          (utf8 "leaf_count",numeral 10 doc.tree.leafCount)])]

theorem SameBuild.refl (r : BuildRecord) : SameBuild r r where
  command := rfl
  mode := rfl
  artifacts := .refl _
  outputRoots := .refl _
  outputs := .refl _
  operations := List.forall₂_same.mpr fun _ _ => Or.inl ⟨rfl,rfl,rfl,rfl,rfl⟩

def blank : Str → Digest := fun _ => Merkle.blankDigest

def bareTraced : Traced := bareBuilt.report (bareAttested.attestation blank) (utf8 "repx-attestation.json")

theorem trace_bare :
    trace blank bareAttested.run bareAttested.flags false (utf8 "repx-attestation.json") = .ok bareTraced :=
  trace_eq_ok.mpr ⟨bareBuilt,build_bareMachine,Or.inr rfl,rfl⟩

def bareDocument : AttestationDocument := serialize (bareAttested.attestation blank)

/-- A parser on the texts of one document. -/
def bareParse (text : Str) : Except Str AttestationDocument :=
  if text = documentJson bareDocument ∨ text = documentPretty bareDocument then .ok bareDocument
  else .error (utf8 "expected value at line 1 column 1")

theorem verify_traced_bare :
    verify blank commitmentJson bareParse (.ok (documentPretty bareDocument))
      (some (bareAttested.attestation blank).rootHash) bareAttested.run bareAttested.flags =
        .ok (rebuiltLines (bareAttested.attestation blank).rootHash) :=
  (verify_traced bareAttested bareAttested (fits_bareAttested _) (fits_bareAttested _) rfl trace_bare
    (if_pos (Or.inr rfl)) fun _ hpinned => Option.some.inj hpinned).1 (.refl _)

/-- The Ed25519 signature of the document. -/
def bareSignature : Str :=
  [113,44,196,13,111,95,193,113,249,245,31,243,236,110,251,220,122,196,131,40,56,31,32,154,223,103,98,99,214,60,225,
    137,143,177,52,139,253,55,1,71,111,224,20,40,155,60,79,202,219,38,247,236,226,186,24,9,75,183,133,66,92,8,58,15]

def bareSignatureText : Str :=
  utf8 "cSzEDW9fwXH59R/z7G773HrEgyg4HyCa32diY9Y84YmPsTSL/TcBR2/gFCibPE/K2yb37OK6GAlLt4VCXAg6Dw=="

def bareEnvelope : Dsse.Envelope :=
  { payloadType := utf8 "https://repx.dev/process-provenance/v0.3.0"
    payload :=
      utf8 "eyJ2ZXJzaW9uIjoiMC4zLjAiLCJwcmVkaWNhdGVfdHlwZSI6Imh0dHBzOi8vcmVweC5kZXYvcHJvY2Vzcy1wcm92" ++
        utf8 "ZW5hbmNlL3YwLjMuMCIsInJvb3RfaGFzaCI6InNoYTI1NjowMDAwMDAwMDAwMDAwMDAwMDAwMDAwMDAwMDAwMDAw" ++
        utf8 "MDAwMDAwMDAwMDAwMDAwMDAwMDAwMDAwMDAwMDAwMDAwIiwicHJvY2Vzc19yb290Ijoic2hhMjU2OjAwMDAwMDAw" ++
        utf8 "MDAwMDAwMDAwMDAwMDAwMDAwMDAwMDAwMDAwMDAwMDAwMDAwMDAwMDAwMDAwMDAwMDAwMDAwMDAiLCJjb21tYW5k" ++
        utf8 "IjpbInRydWUiXSwib3V0cHV0X3NlbGVjdGlvbiI6eyJtb2RlIjoiaW5mZXJyZWQiLCJhcnRpZmFjdHMiOltdLCJv" ++
        utf8 "dXRwdXRfcm9vdHMiOltdfSwib3V0cHV0cyI6W10sInRyZWUiOnsibGVhdmVzIjpbInNoYTI1NjowMDAwMDAwMDAw" ++
        utf8 "MDAwMDAwMDAwMDAwMDAwMDAwMDAwMDAwMDAwMDAwMDAwMDAwMDAwMDAwMDAwMDAwMDAwMDAwIl0sImxlYWZfY291" ++
        utf8 "bnQiOjF9fQ=="
    signatures := [⟨[],bareSignatureText⟩] }

/-- The primitives on the values of the example. -/
def bareVerifier : Verifier Str Str :=
  { decodeBase64 := fun text =>
      if text = bareEnvelope.payload then .ok (documentJson bareDocument)
      else if text = bareSignatureText then .ok bareSignature
      else .error (utf8 "Invalid symbol")
    fromSlice := fun bytes =>
      if bytes.length = 64 then .ok bytes else .error (utf8 "signature error")
    verify := fun key message signature =>
      if key = foreignKey ∧ signature = bareSignature ∧
          message = pae (utf8 "https://repx.dev/process-provenance/v0.3.0") (documentJson bareDocument) then .ok ()
      else .error (utf8 "signature error: Verification equation was not satisfied") }

theorem signsOnly_bareVerifier :
    SignsOnly bareVerifier foreignKey documentJson ([bareAttested].map (AttestedBuild.attestation blank)) := by
  intro message signature h
  simp only [bareVerifier] at h
  split_ifs at h with hsigned
  exact ⟨_,List.mem_singleton_self _,hsigned.2.2⟩

theorem verifySignature_bareEnvelope :
    verifySignature bareVerifier foreignKey blank commitmentJson bareParse (utf8 "repx.pub") bareEnvelope =
      .ok (verifiedLines (utf8 "repx.pub") (deserialize bareDocument)) := by
  refine (verifySignature_eq_ok _ _ _ _ _).mpr ⟨documentJson bareDocument,bareDocument,⟨?_,?_,?_,?_⟩,rfl⟩
  · simp only [bareVerifier,if_true]
  · have hother : bareSignatureText ≠ bareEnvelope.payload := by decide +kernel
    have hlength : bareSignature.length = 64 := by decide
    refine ⟨⟨[],bareSignatureText⟩,List.mem_singleton_self _,bareSignature,bareSignature,?_,?_,?_⟩
    · simp only [bareVerifier,hother,if_false,if_true]
    · simp only [bareVerifier,hlength,if_true]
    · simp only [bareVerifier,bareEnvelope,and_self,if_true]
  · simp only [bareParse,true_or,if_true]
  · exact .binary rfl (Or.inr rfl) rfl

/-- The rebuild of the same command, next to a copy of the file. -/
theorem verify_bare :
    verify blank commitmentJson bareParse (.ok (documentPretty bareDocument))
      (some (bareAttested.attestation blank).rootHash) bareAttested.run bareAttested.flags =
        .ok (rebuiltLines (bareAttested.attestation blank).rootHash) :=
  verify_eq_ok.mpr ⟨_,bareBuilt,readFromFile_attestation (if_pos (Or.inr rfl)),fun _ hpinned => Option.some.inj hpinned,rfl,
    (bareAttested.outputSelection_attestation blank).symm,build_bareMachine,rfl,rfl,rfl⟩

theorem mem_verifiedLines (key : Str) (att : Attestation) :
    utf8 "Root hash:  " ++ att.rootHash ∈ verifiedLines key att :=
  List.mem_cons_of_mem _ (List.mem_cons_of_mem _ (List.mem_cons_of_mem _ List.mem_cons_self))

theorem verify_signed_bare : ∃ b ∈ [bareAttested],
    SameBuild (b.record blank) (bareAttested.record blank) ∨
      Collision blank ((b.record blank).hashed blank ++ (bareAttested.record blank).hashed blank) := by
  refine verify_signed [bareAttested] (fun att hatt => ?_) signsOnly_bareVerifier (fun b hb => ?_) bareAttested
    (fits_bareAttested blank) verifySignature_bareEnvelope (mem_verifiedLines _ _) verify_bare
  · rw [List.mem_singleton.mp hatt]
    exact if_pos (Or.inl rfl)
  · rw [List.mem_singleton.mp hb]
    exact fits_bareAttested blank

end Repx.Commands
