import Repx.Commands.Verification
import Repx.Commitment.KeyFiles

/-! # From a key to a verified rebuild

Keys are generated into files, the document of a traced build is signed with the one and the
envelope verified with the other, and the root that is printed then pins a rebuild. Every
file is read by the command after the one that wrote it. Along this way a rebuild is verified
if it is the same build as the traced one, and only then, up to a collision.
-/
namespace Repx.Commands
open ByteString LineText Sha256 Attest Dsse

section Commands
variable {SigningKey VerifyingKey Signature : Type} (signer : Signer SigningKey VerifyingKey Signature)
  (keys : KeyBytes SigningKey VerifyingKey)

/-- The contents of the private and the public file. Existing files are left alone. -/
def generateKey (isThere : Str → Bool) (privateKey publicKey : Str) (seed : Vector UInt8 32) :
    Except Str (Text × Text) :=
  if isThere privateKey then .error (utf8 "private key file already exists: " ++ Utf8.lossy privateKey)
  else if isThere publicKey then .error (utf8 "public key file already exists: " ++ Utf8.lossy publicKey)
  else
    let signingKey := keys.signingFromBytes seed
    .ok (signingKeyText keys signingKey,verifyingKeyText keys (signer.verifyingKey signingKey))

variable (sha256 : Str → Digest) (toJson : CommitmentV02 → Str) (parse : Str → Except Str AttestationDocument)

/-- The text of the envelope. The payload is rendered without blanks, unlike the file. -/
def signFile (compact : AttestationDocument → Str) (envelopeJson : Dsse.Envelope → Str) (key : Except Str Text)
    (attestation : Except Str Str) : Except Str Str := do
  let signingKey ← readSigningKey keys key
  let att ← readFromFile sha256 toJson parse attestation
  .ok (envelopeJson (signAttestation signer signingKey compact att) ++ utf8 "\n")

/-- Errors of files and of the envelope are told apart from those of the verification. -/
def verifySignatureFile (parseEnvelope : Str → Except Str Dsse.Envelope) (keyPath : Str) (key : Except Str Text)
    (envelope : Except Str Str) : Except (List Str) (List Str) :=
  match readVerifyingKey keys key with
  | .error e => .error [e]
  | .ok verifyingKey =>
    match envelope with
    | .error e => .error [e]
    | .ok data =>
      match parseEnvelope data with
      | .error e => .error [utf8 "deserializing DSSE envelope",e]
      | .ok envelope =>
        verifySignature signer.toVerifier verifyingKey sha256 toJson parse (Utf8.lossy keyPath) envelope

end Commands

section Pipeline
variable {SigningKey VerifyingKey Signature : Type} {signer : Signer SigningKey VerifyingKey Signature}
  {keys : KeyBytes SigningKey VerifyingKey} {sha256 : Str → Digest} {toJson : CommitmentV02 → Str}
  {parse : Str → Except Str AttestationDocument}

/-- The files of a key pair belong together. -/
theorem readKeys_generateKey (hkeys : keys.Lawful) {isThere : Str → Bool} {privateKey publicKey : Str}
    {seed : Vector UInt8 32} {files : Text × Text}
    (h : generateKey signer keys isThere privateKey publicKey seed = .ok files) :
    readSigningKey keys (.ok files.1) = .ok (keys.signingFromBytes seed) ∧
      readVerifyingKey keys (.ok files.2) = .ok (signer.verifyingKey (keys.signingFromBytes seed)) := by
  unfold generateKey at h
  split_ifs at h
  obtain rfl := Except.ok.inj h
  exact ⟨parseSigningKey_signingKeyText hkeys _,parseVerifyingKey_verifyingKeyText hkeys _⟩

theorem verifySignature_signAttestation (hsigner : signer.Lawful) {compact : AttestationDocument → Str}
    {r : BuildRecord} (hparse : parse (compact (serialize (r.attestation sha256))) =
      .ok (serialize (r.attestation sha256))) (signingKey : SigningKey) (key : Str) :
    verifySignature signer.toVerifier (signer.verifyingKey signingKey) sha256 toJson parse key
      (signAttestation signer signingKey compact (r.attestation sha256)) =
        .ok (verifiedLines key (r.attestation sha256)) := by
  obtain ⟨hdecodes,hcovered⟩ := (Dsse.verify_eq_ok _ _).mp (verify_sign signer signingKey hsigner
    (compact (serialize (r.attestation sha256))) (r.attestation sha256).predicateType)
  have hvalid : validate sha256 toJson (deserialize (serialize (r.attestation sha256))) =
      .ok (r.attestation sha256) :=
    validate_newWithOutputs sha256 toJson _ _ _ _
  obtain ⟨haccepts,-⟩ := (validate_eq_ok sha256 toJson).mp hvalid
  exact (verifySignature_eq_ok _ _ sha256 toJson parse).mpr ⟨_,_,⟨hdecodes,hcovered,hparse,haccepts⟩,rfl⟩

/-- Generated keys, a traced build and what is written for them go through all commands, and the root that is
printed at the end pins the build. -/
theorem signed_pipeline (hsigner : signer.Lawful) (hkeys : keys.Lawful) {isThere : Str → Bool}
    {privateKey publicKey : Str} {seed : Vector UInt8 32} {files : Text × Text}
    (hgenerate : generateKey signer keys isThere privateKey publicKey seed = .ok files) (b : AttestedBuild)
    {allowDroppedEvents : Bool} {output : Str} {traced : Traced}
    (htrace : trace sha256 b.run b.flags allowDroppedEvents output = .ok traced)
    {pretty compact : AttestationDocument → Str}
    (hpretty : parse (pretty (serialize traced.attestation)) = .ok (serialize traced.attestation))
    (hcompact : parse (compact (serialize traced.attestation)) = .ok (serialize traced.attestation))
    {envelopeJson : Dsse.Envelope → Str} {parseEnvelope : Str → Except Str Dsse.Envelope}
    (henvelope : parseEnvelope (envelopeJson
        (signAttestation signer (keys.signingFromBytes seed) compact traced.attestation) ++ utf8 "\n") =
      .ok (signAttestation signer (keys.signingFromBytes seed) compact traced.attestation)) :
    ∃ envelope report root,
      signFile signer keys sha256 toJson parse compact envelopeJson (.ok files.1)
        (.ok (pretty (serialize traced.attestation))) = .ok envelope ∧
      verifySignatureFile signer keys sha256 toJson parse parseEnvelope publicKey (.ok files.2) (.ok envelope) =
        .ok report ∧
      utf8 "Root hash:  " ++ root ∈ report ∧
      ∀ rebuild : AttestedBuild, (b.record sha256).Fits → (rebuild.record sha256).Fits →
        rebuild.built.result.droppedEvents = 0 →
        (SameBuild (b.record sha256) (rebuild.record sha256) →
          verify sha256 toJson parse (.ok (pretty (serialize traced.attestation))) (some root) rebuild.run rebuild.flags =
            .ok (rebuiltLines root)) ∧
        ∀ data lines, verify sha256 toJson parse data (some root) rebuild.run rebuild.flags = .ok lines →
          SameBuild (b.record sha256) (rebuild.record sha256) ∨
            Collision sha256 ((b.record sha256).hashed sha256 ++ (rebuild.record sha256).hashed sha256) := by
  obtain ⟨built,hbuild,-,rfl⟩ := trace_eq_ok.mp htrace
  obtain rfl : built = b.built := Except.ok.inj (hbuild.symm.trans b.build_eq)
  obtain ⟨hprivate,hpublic⟩ := readKeys_generateKey hkeys hgenerate
  have hread : readFromFile sha256 toJson parse (.ok (pretty (serialize (b.attestation sha256)))) =
      .ok (b.attestation sha256) := readFromFile_attestation hpretty
  refine ⟨_,verifiedLines (Utf8.lossy publicKey) (b.attestation sha256),(b.attestation sha256).rootHash,
    bind_eq_ok.mpr ⟨_,hprivate,bind_eq_ok.mpr ⟨_,hread,rfl⟩⟩,?_,mem_verifiedLines _ _,?_⟩
  · simp only [verifySignatureFile,hpublic]
    have hparsed : parseEnvelope (envelopeJson (signAttestation signer (keys.signingFromBytes seed) compact
        (b.attestation sha256)) ++ utf8 "\n") = _ := henvelope
    rw [hparsed]
    exact verifySignature_signAttestation hsigner hcompact (keys.signingFromBytes seed) (Utf8.lossy publicKey)
  · intro rebuild hfits hfits' hdropped
    refine ⟨verify_of_sameBuild b rebuild hread (fun _ hpinned => Option.some.inj hpinned) hdropped,?_⟩
    intro data lines hverify
    obtain ⟨expected,-,hpinned,hroot⟩ := rootHash_of_verify rebuild hverify
    exact sameBuild_or_collision (b.shaped sha256) (rebuild.shaped sha256) hfits hfits'
      ((hpinned _ rfl).symm.trans hroot)

end Pipeline

/-! ## Signing the document of a command -/

/-- The seed of the key under which the document is signed. -/
def bareSeed : Vector UInt8 32 :=
  ⟨⟨[157,97,177,157,239,253,90,96,186,132,74,244,146,236,44,196,68,73,197,105,123,50,105,25,112,59,172,3,28,174,127,
    96]⟩,rfl⟩

def barePublicKey : Vector UInt8 32 := ⟨⟨foreignKey⟩,rfl⟩

def bareMessage : Str := pae (utf8 "https://repx.dev/process-provenance/v0.3.0") (documentJson bareDocument)

def blankSignature : Vector UInt8 64 := Vector.replicate 64 0

/-- The primitives on the values of the example, and stand-ins elsewhere. -/
def bareSigner : Signer (Vector UInt8 32) (Vector UInt8 32) (Vector UInt8 64) where
  decodeBase64 text :=
    if text = bareEnvelope.payload then .ok (documentJson bareDocument)
    else if text = bareSignatureText then .ok bareSignature
    else
      match text with
      | 0 :: bytes => .ok bytes
      | _ => .error (utf8 "Invalid symbol")
  fromSlice bytes := if h : bytes.length = 64 then .ok ⟨⟨bytes⟩,h⟩ else .error (utf8 "signature error")
  verify key message signature :=
    if (key = barePublicKey ∧ message = bareMessage) ∧ signature.toList ≠ bareSignature then
      .error (utf8 "signature error: Verification equation was not satisfied")
    else .ok ()
  encodeBase64 bytes :=
    if bytes = documentJson bareDocument then bareEnvelope.payload
    else if bytes = bareSignature then bareSignatureText
    else 0 :: bytes
  toBytes signature := signature.toList
  verifyingKey seed := if seed = bareSeed then barePublicKey else Vector.replicate 32 0
  sign seed message := if seed = bareSeed ∧ message = bareMessage then ⟨⟨bareSignature⟩,rfl⟩ else blankSignature

theorem lawful_bareSigner : bareSigner.Lawful where
  decodeBase64_encodeBase64 bytes := by
    have hother : bareSignatureText ≠ bareEnvelope.payload := by decide +kernel
    have hmarked : 0 :: bytes ≠ bareEnvelope.payload ∧ 0 :: bytes ≠ bareSignatureText :=
      ⟨fun h => absurd (List.cons.inj h).1 (by decide),fun h => absurd (List.cons.inj h).1 (by decide)⟩
    simp only [bareSigner]
    by_cases hdocument : bytes = documentJson bareDocument
    · simp only [hdocument,if_true]
    · by_cases hsignature : bytes = bareSignature
      · have hsigned : bareSignature ≠ documentJson bareDocument := by decide +kernel
        simp only [hsignature,hsigned,hother,if_true,if_false]
      · simp only [hdocument,hsignature,hmarked.1,hmarked.2,if_false]
  fromSlice_toBytes signature := by
    have hlength : signature.toList.length = 64 := Vector.length_toList
    simp only [bareSigner,hlength,dif_pos]
    rfl
  verify_sign key message := by
    have hother : (Vector.replicate 32 0 : Vector UInt8 32) ≠ barePublicKey := by decide
    by_cases hkey : key = bareSeed
    · by_cases hmessage : message = bareMessage
      · have hsigned : (Vector.mk (Array.mk bareSignature) rfl : Vector UInt8 64).toList = bareSignature := rfl
        simp [bareSigner,hkey,hmessage,hsigned]
      · simp [bareSigner,hmessage]
    · simp [bareSigner,hkey,hother]

def bareKeys : KeyBytes (Vector UInt8 32) (Vector UInt8 32) := ⟨id,id,.ok,id⟩

def envelopePretty (envelope : Dsse.Envelope) : Str :=
  prettyObject 0
    [(utf8 "payloadType",JsonText.jsonString envelope.payloadType),
      (utf8 "payload",JsonText.jsonString envelope.payload),
      (utf8 "signatures",prettyArray 1 (envelope.signatures.map fun signature => prettyObject 2
        [(utf8 "keyid",JsonText.jsonString signature.keyid),(utf8 "sig",JsonText.jsonString signature.sig)]))]

def bareParseEnvelope (text : Str) : Except Str Dsse.Envelope :=
  if text = envelopePretty bareEnvelope ++ utf8 "\n" then .ok bareEnvelope
  else .error (utf8 "expected value at line 1 column 1")

theorem signAttestation_bare :
    signAttestation bareSigner bareSeed documentJson (bareAttested.attestation blank) = bareEnvelope := by
  decide +kernel

theorem signed_pipeline_bare : ∃ files envelope report root,
    generateKey bareSigner bareKeys (fun _ => false) (utf8 "repx.key") (utf8 "repx.pub") bareSeed = .ok files ∧
    signFile bareSigner bareKeys blank commitmentJson bareParse documentJson envelopePretty (.ok files.1)
      (.ok (documentPretty bareDocument)) = .ok envelope ∧
    verifySignatureFile bareSigner bareKeys blank commitmentJson bareParse bareParseEnvelope (utf8 "repx.pub")
      (.ok files.2) (.ok envelope) = .ok report ∧
    utf8 "Root hash:  " ++ root ∈ report ∧
    verify blank commitmentJson bareParse (.ok (documentPretty bareDocument)) (some root) bareAttested.run
      bareAttested.flags = .ok (rebuiltLines root) := by
  have hkeys : bareKeys.Lawful := ⟨fun _ => rfl,fun _ => rfl⟩
  have henvelope : bareParseEnvelope (envelopePretty (signAttestation bareSigner (bareKeys.signingFromBytes bareSeed)
      documentJson bareTraced.attestation) ++ utf8 "\n") =
      .ok (signAttestation bareSigner (bareKeys.signingFromBytes bareSeed) documentJson bareTraced.attestation) := by
    have hsigned : signAttestation bareSigner (bareKeys.signingFromBytes bareSeed) documentJson
        bareTraced.attestation = bareEnvelope := signAttestation_bare
    rw [hsigned,bareParseEnvelope,if_pos rfl]
  obtain ⟨envelope,report,root,hsign,hreport,hroot,hverify⟩ :=
    @signed_pipeline _ _ _ bareSigner bareKeys blank commitmentJson bareParse lawful_bareSigner hkeys (fun _ => false)
      (utf8 "repx.key") (utf8 "repx.pub") bareSeed _ rfl bareAttested _ _ _ trace_bare documentPretty documentJson
      (if_pos (Or.inr rfl)) (if_pos (Or.inl rfl)) envelopePretty bareParseEnvelope henvelope
  exact ⟨_,envelope,report,root,rfl,hsign,hreport,hroot,
    (hverify bareAttested (fits_bareAttested _) (fits_bareAttested _) rfl).1 (.refl _)⟩

end Repx.Commands
