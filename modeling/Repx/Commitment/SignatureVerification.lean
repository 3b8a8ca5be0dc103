import Repx.Commitment.DiffReport
import Repx.Commitment.Envelope

/-! # Verifying a signed attestation

A signature covers the payload type of its envelope, and one good signature is enough. The
attestation is then read from the payload and validated, but the payload type is not compared
with the predicate type it states: a document signed as something else is reported as verified.
-/
namespace Repx.Dsse
open ByteString Framing Sha256 Attest

structure DsseSignature where
  keyid : Str
  sig : Str
deriving DecidableEq, Repr

structure Envelope where
  payloadType : Str
  payload : Str
  signatures : List DsseSignature
deriving DecidableEq, Repr

/-- Decoding of base64 and of signatures, and Ed25519 verification, with the texts of their errors. -/
structure Verifier (VerifyingKey Signature : Type) where
  decodeBase64 : Str → Except Str Str
  fromSlice : Str → Except Str Signature
  verify : VerifyingKey → Str → Signature → Except Str Unit

/-- The counterparts that signing uses. -/
structure Signer (SigningKey VerifyingKey Signature : Type) extends Verifier VerifyingKey Signature where
  encodeBase64 : Str → Str
  toBytes : Signature → Str
  verifyingKey : SigningKey → VerifyingKey
  sign : SigningKey → Str → Signature

structure Signer.Lawful {SigningKey VerifyingKey Signature : Type}
    (signer : Signer SigningKey VerifyingKey Signature) : Prop where
  decodeBase64_encodeBase64 : ∀ bytes, signer.decodeBase64 (signer.encodeBase64 bytes) = .ok bytes
  fromSlice_toBytes : ∀ signature, signer.fromSlice (signer.toBytes signature) = .ok signature
  verify_sign : ∀ key message, signer.verify (signer.verifyingKey key) message (signer.sign key message) = .ok ()

section Verification
variable {VerifyingKey Signature : Type} (verifier : Verifier VerifyingKey Signature) (verifyingKey : VerifyingKey)

/-- One turn of the loop over the signatures, with the error it leaves behind. -/
def checkSignature (paeBytes : Str) (i : ℕ) (sig : DsseSignature) : Except Str Unit :=
  match verifier.decodeBase64 sig.sig with
  | .error e => .error (utf8 "signature " ++ numeral 10 i ++ utf8 ": invalid base64: " ++ e)
  | .ok sigBytes =>
    match verifier.fromSlice sigBytes with
    | .error e => .error (utf8 "signature " ++ numeral 10 i ++ utf8 ": invalid ed25519: " ++ e)
    | .ok signature =>
      match verifier.verify verifyingKey paeBytes signature with
      | .error e => .error (utf8 "signature " ++ numeral 10 i ++ utf8 ": verification failed: " ++ e)
      | .ok () => .ok ()

/-- The loop keeps the last error and ends at the first signature that verifies. -/
def verifyLoop (paeBytes : Str) : ℕ → Option Str → List DsseSignature → Except (List Str) Unit
  | _,lastErr,[] => .error [lastErr.getD (utf8 "no valid signature found")]
  | i,_,sig :: rest =>
    match checkSignature verifier verifyingKey paeBytes i sig with
    | .ok () => .ok ()
    | .error e => verifyLoop paeBytes (i + 1) (some e) rest

/-- The payload on success. An error is a list of messages, each the context of the next. -/
def verify (envelope : Envelope) : Except (List Str) Str :=
  match verifier.decodeBase64 envelope.payload with
  | .error e => .error [utf8 "invalid base64 in DSSE payload",e]
  | .ok payload =>
    let paeBytes := pae envelope.payloadType payload
    if envelope.signatures.isEmpty then .error [utf8 "DSSE envelope has no signatures"]
    else (verifyLoop verifier verifyingKey paeBytes 0 none envelope.signatures).map fun _ => payload

/-- A signature that decodes and verifies over the given bytes. -/
def Covers (paeBytes : Str) (sig : DsseSignature) : Prop :=
  ∃ sigBytes signature, verifier.decodeBase64 sig.sig = .ok sigBytes ∧ verifier.fromSlice sigBytes = .ok signature ∧
    verifier.verify verifyingKey paeBytes signature = .ok ()

theorem checkSignature_eq_ok {paeBytes : Str} {i : ℕ} {sig : DsseSignature} :
    checkSignature verifier verifyingKey paeBytes i sig = .ok () ↔ Covers verifier verifyingKey paeBytes sig := by
  unfold checkSignature Covers
  cases hd : verifier.decodeBase64 sig.sig with
  | error e => simp
  | ok sigBytes =>
    cases hs : verifier.fromSlice sigBytes with
    | error e => simp [hs]
    | ok signature => cases hv : verifier.verify verifyingKey paeBytes signature <;> simp [hs,hv]

/-- Bad signatures in front of or behind a good one make no difference. -/
theorem verifyLoop_eq_ok {paeBytes : Str} {sigs : List DsseSignature} {i : ℕ} {lastErr : Option Str} :
    verifyLoop verifier verifyingKey paeBytes i lastErr sigs = .ok () ↔
      ∃ sig ∈ sigs, Covers verifier verifyingKey paeBytes sig := by
  induction sigs generalizing i lastErr with
  | nil => simp [verifyLoop]
  | cons sig rest ih =>
    rw [List.exists_mem_cons_iff,← checkSignature_eq_ok verifier verifyingKey (i := i),verifyLoop]
    cases checkSignature verifier verifyingKey paeBytes i sig with
    | ok u => exact iff_of_true rfl (.inl rfl)
    | error e => simpa using ih

theorem verify_eq_ok {envelope : Envelope} {payload : Str} :
    verify verifier verifyingKey envelope = .ok payload ↔
      verifier.decodeBase64 envelope.payload = .ok payload ∧
        ∃ sig ∈ envelope.signatures, Covers verifier verifyingKey (pae envelope.payloadType payload) sig := by
  unfold verify
  cases hd : verifier.decodeBase64 envelope.payload with
  | error e => simp
  | ok decoded =>
    simp only [Except.ok.injEq]
    split_ifs with he
    · have hnone : envelope.signatures = [] := List.isEmpty_iff.mp he
      simp [hnone]
    · constructor
      · intro h
        cases hl : verifyLoop verifier verifyingKey (pae envelope.payloadType decoded) 0 none envelope.signatures with
        | error e => simp [hl,Except.map] at h
        | ok u =>
          rw [hl] at h
          obtain rfl : decoded = payload := by simpa [Except.map] using h
          exact ⟨rfl,(verifyLoop_eq_ok verifier verifyingKey).mp hl⟩
      · rintro ⟨rfl,hsig⟩
        rw [(verifyLoop_eq_ok verifier verifyingKey).mpr hsig]
        rfl

variable (sha256 : Str → Digest) (toJson : CommitmentV02 → Str)
  (parse : Str → Except Str AttestationDocument)

/-- What is printed about a verified attestation. -/
def verifiedLines (key : Str) (att : Attestation) : List Str :=
  [utf8 "Signature: VERIFIED",utf8 "Signer key: " ++ key,utf8 "Predicate:  " ++ att.predicateType,
    utf8 "Root hash:  " ++ att.rootHash,utf8 "Command:    " ++ Report.formatCommand att.command]

/-- The command that verifies an envelope, with the lines it prints. -/
def verifySignature (key : Str) (envelope : Envelope) : Except (List Str) (List Str) :=
  match verify verifier verifyingKey envelope with
  | .error e => .error e
  | .ok payload =>
    match parse payload with
    | .error e => .error [utf8 "deserializing attestation from verified payload",e]
    | .ok doc =>
      match validate sha256 toJson (deserialize doc) with
      | .error e => .error [e]
      | .ok att => .ok (verifiedLines key att)

/-- The envelope carries an accepted document under a signature for its payload type. -/
structure Carries (envelope : Envelope) (payload : Str) (doc : AttestationDocument) : Prop where
  decodes : verifier.decodeBase64 envelope.payload = .ok payload
  covered : ∃ sig ∈ envelope.signatures, Covers verifier verifyingKey (pae envelope.payloadType payload) sig
  parses : parse payload = .ok doc
  accepted : Accepts sha256 toJson (deserialize doc)

/-- Success means that the envelope carries a document, which is then printed. The payload type
is looked at nowhere else. -/
theorem verifySignature_eq_ok {key : Str} {envelope : Envelope} {report : List Str} :
    verifySignature verifier verifyingKey sha256 toJson parse key envelope = .ok report ↔
      ∃ payload doc, Carries verifier verifyingKey sha256 toJson parse envelope payload doc ∧
        report = verifiedLines key (deserialize doc) := by
  constructor
  · intro h
    unfold verifySignature at h
    split at h
    · simp at h
    · next payload hv =>
      obtain ⟨hd,hs⟩ := (verify_eq_ok verifier verifyingKey).mp hv
      split at h
      · simp at h
      · next doc hp =>
        split at h
        · simp at h
        · next att ha =>
          obtain ⟨haccepts,rfl⟩ := (validate_eq_ok sha256 toJson).mp ha
          exact ⟨payload,doc,⟨hd,hs,hp,haccepts⟩,(Except.ok.inj h).symm⟩
  · rintro ⟨payload,doc,⟨hd,hs,hp,ha⟩,rfl⟩
    have hv := (verify_eq_ok verifier verifyingKey).mpr ⟨hd,hs⟩
    have hatt := (validate_eq_ok sha256 toJson).mpr ⟨ha,rfl⟩
    simp only [verifySignature,hv,hp,hatt]
    rfl

/-- A reported success stands for a covering signature and for a payload type that is the predicate type. -/
def SuccessBindsType (key : Str) (envelope : Envelope) : Prop :=
  ∀ report, verifySignature verifier verifyingKey sha256 toJson parse key envelope = .ok report →
    ∃ payload doc, verifier.decodeBase64 envelope.payload = .ok payload ∧ parse payload = .ok doc ∧
      (∃ sig ∈ envelope.signatures, Covers verifier verifyingKey (pae envelope.payloadType payload) sig) ∧
      envelope.payloadType = (deserialize doc).predicateType

/-- The type is bound exactly in the envelopes whose document, if they carry one, states it. -/
theorem successBindsType_iff (key : Str) (envelope : Envelope) :
    SuccessBindsType verifier verifyingKey sha256 toJson parse key envelope ↔
      ∀ payload doc, Carries verifier verifyingKey sha256 toJson parse envelope payload doc →
        envelope.payloadType = doc.predicateType := by
  constructor
  · intro h payload doc hc
    have hr : verifySignature verifier verifyingKey sha256 toJson parse key envelope =
        .ok (verifiedLines key (deserialize doc)) :=
      (verifySignature_eq_ok verifier verifyingKey sha256 toJson parse).mpr ⟨payload,doc,hc,rfl⟩
    obtain ⟨payload',doc',hd,hp,_,ht⟩ := h _ hr
    obtain rfl := Except.ok.inj (hc.decodes.symm.trans hd)
    obtain rfl := Except.ok.inj (hc.parses.symm.trans hp)
    exact ht
  · intro h report hr
    obtain ⟨payload,doc,hc,_⟩ := (verifySignature_eq_ok verifier verifyingKey sha256 toJson parse).mp hr
    exact ⟨payload,doc,hc.decodes,hc.parses,hc.covered,h payload doc hc⟩

end Verification

section Signing
variable {SigningKey VerifyingKey Signature : Type} (signer : Signer SigningKey VerifyingKey Signature)
  (signingKey : SigningKey)

def sign (payload payloadType : Str) : Envelope :=
  { payloadType := payloadType
    payload := signer.encodeBase64 payload
    signatures := [⟨[],signer.encodeBase64 (signer.toBytes (signer.sign signingKey (pae payloadType payload)))⟩] }

theorem verify_sign (lawful : signer.Lawful) (payload payloadType : Str) :
    verify signer.toVerifier (signer.verifyingKey signingKey) (sign signer signingKey payload payloadType) =
      .ok payload := by
  have hcovers : Covers signer.toVerifier (signer.verifyingKey signingKey) (pae payloadType payload)
      ⟨[],signer.encodeBase64 (signer.toBytes (signer.sign signingKey (pae payloadType payload)))⟩ :=
    ⟨_,_,lawful.decodeBase64_encodeBase64 _,lawful.fromSlice_toBytes _,lawful.verify_sign _ _⟩
  exact (verify_eq_ok _ _).mpr ⟨lawful.decodeBase64_encodeBase64 payload,_,List.mem_cons_self,hcovers⟩

variable (render : AttestationDocument → Str)

/-- The command that signs an attestation states its predicate type as the payload type. -/
def signAttestation (att : Attestation) : Envelope :=
  sign signer signingKey (render (serialize att)) att.predicateType

/-- What the signing command writes is verified, and the type is then bound. -/
theorem carries_signAttestation {sha256 : Str → Digest} {toJson : CommitmentV02 → Str}
    {parse : Str → Except Str AttestationDocument} {att : Attestation} (lawful : signer.Lawful)
    (hparse : ∀ doc, parse (render doc) = .ok doc) (hnodes : att.tree.nodes = [])
    (haccepts : Accepts sha256 toJson att) :
    Carries signer.toVerifier (signer.verifyingKey signingKey) sha256 toJson parse
      (signAttestation signer signingKey render att) (render (serialize att)) (serialize att) := by
  have hverify := verify_sign signer signingKey lawful (render (serialize att)) att.predicateType
  obtain ⟨hd,hs⟩ := (verify_eq_ok _ _).mp hverify
  have hsame : deserialize (serialize att) = att := by
    rw [deserialize_serialize,← hnodes]
  exact ⟨hd,hs,hparse _,by rwa [hsame]⟩

end Signing

/-! ## A document signed as something else -/

def foreignPayload : Str :=
  utf8 "\x7b\"version\":\"0.1.0\",\"predicate_type\":\"https://repx.dev/process-provenance/v0.1\"," ++
    utf8 "\"root_hash\":\"ab\",\"command\":[\"true\"],\"tree\":\x7b\"leaves\":[\"ab\"],\"leaf_count\":1\x7d\x7d"

def foreignDocument : AttestationDocument :=
  { version := utf8 "0.1.0"
    predicateType := utf8 "https://repx.dev/process-provenance/v0.1"
    rootHash := utf8 "ab"
    processRoot := none
    command := [utf8 "true"]
    outputSelection := none
    outputs := none
    tree := ⟨some [utf8 "ab"],none,1⟩ }

/-- The Ed25519 signature of the payload as plain text. -/
def foreignSignature : Str :=
  [37,204,99,234,252,10,143,254,73,227,227,30,2,29,231,1,245,9,2,133,16,220,126,248,154,55,45,243,151,142,149,24,
    35,115,154,4,6,117,50,80,106,33,18,0,29,113,47,250,151,151,49,230,101,115,167,251,34,46,37,124,66,33,137,6]

def foreignKey : Str :=
  [215,90,152,1,130,177,10,183,213,75,254,211,201,100,7,58,14,225,114,243,218,166,35,37,175,2,26,104,247,7,81,26]

def foreignEnvelope : Envelope :=
  { payloadType := utf8 "text/plain"
    payload :=
      utf8 "eyJ2ZXJzaW9uIjoiMC4xLjAiLCJwcmVkaWNhdGVfdHlwZSI6Imh0dHBzOi8vcmVweC5kZXYvcHJvY2Vzcy1wcm92ZW5hbmNl" ++
        utf8 "L3YwLjEiLCJyb290X2hhc2giOiJhYiIsImNvbW1hbmQiOlsidHJ1ZSJdLCJ0cmVlIjp7ImxlYXZlcyI6WyJhYiJdLCJsZWFm" ++
        utf8 "X2NvdW50IjoxfX0="
    signatures :=
      [⟨[],utf8 "Jcxj6vwKj/5J4+MeAh3nAfUJAoUQ3H74mjct85eOlRgjc5oEBnUyUGohEgAdcS/6l5cx5mVzp/siLiV8QiGJBg=="⟩] }

/-- The primitives on the values of the example. -/
def foreignVerifier : Verifier Str Str :=
  { decodeBase64 := fun text =>
      if text = foreignEnvelope.payload then .ok foreignPayload
      else if some text = (foreignEnvelope.signatures.map DsseSignature.sig).head? then .ok foreignSignature
      else .error (utf8 "Invalid symbol")
    fromSlice := fun bytes =>
      if bytes.length = 64 then .ok bytes else .error (utf8 "signature error")
    verify := fun key message signature =>
      if key = foreignKey ∧ message = pae (utf8 "text/plain") foreignPayload ∧ signature = foreignSignature then
        .ok ()
      else .error (utf8 "signature error: Verification equation was not satisfied") }

def foreignParse (payload : Str) : Except Str AttestationDocument :=
  if payload = foreignPayload then .ok foreignDocument else .error (utf8 "expected value at line 1 column 1")

theorem foreign_carried (sha256 : Str → Digest) (toJson : CommitmentV02 → Str) :
    Carries foreignVerifier foreignKey sha256 toJson foreignParse foreignEnvelope foreignPayload foreignDocument := by
  refine ⟨by decide +kernel,?_,by decide +kernel,?_⟩
  · refine ⟨_,List.mem_cons_self,foreignSignature,foreignSignature,?_,?_,?_⟩ <;> decide +kernel
  · have hroot : (deserialize foreignDocument).tree.rootHash sha256 = utf8 "ab" := by
      show Merkle.MerkleTree.rootHash sha256 ⟨[utf8 "ab"],[],1⟩ = utf8 "ab"
      rw [Merkle.MerkleTree.rootHash_of_no_nodes,Merkle.rootFromLeaves_singleton]
    exact .legacy rfl hroot.symm

/-- A signature for plain text passes as a signature for an attestation. -/
theorem foreign_type_verified : ¬ ∃ (sha256 : Str → Digest) (toJson : CommitmentV02 → Str),
    SuccessBindsType foreignVerifier foreignKey sha256 toJson foreignParse (utf8 "repx.pub") foreignEnvelope := by
  rintro ⟨sha256,toJson,h⟩
  have ht := (successBindsType_iff foreignVerifier foreignKey sha256 toJson foreignParse _ _).mp h _ _
    (foreign_carried sha256 toJson)
  exact absurd ht (by decide +kernel)

end Repx.Dsse
