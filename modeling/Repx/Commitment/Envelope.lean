import Repx.Foundation.Framing

/-! # The signed envelope around an attestation

A signature covers the pre-authentication encoding of the payload type and the
payload. Both are written behind their decimal lengths, so the encoding
determines them whatever blanks and digits they contain themselves.
-/
namespace Repx.Dsse
open ByteString Framing

/-- Version tag in front of everything a signature covers. -/
def paePrefix : Str := utf8 "DSSEv1"

/-- The bytes that are signed for a payload of the given type. -/
def pae (payloadType payload : Str) : Str :=
  paePrefix ++ [32] ++ numeral 10 payloadType.length ++ [32] ++ payloadType ++ [32] ++
    numeral 10 payload.length ++ [32] ++ payload

theorem pae_eq_decimalPrefixed (payloadType payload : Str) :
    pae payloadType payload =
      paePrefix ++ [32] ++ (decimalPrefixed payloadType ++ ([32] ++ decimalPrefixed payload)) := by
  simp only [pae,decimalPrefixed,List.append_assoc]

/-- Neither the payload type nor the payload can be exchanged under one encoding. -/
theorem pae_eq_iff (t1 t2 p1 p2 : Str) : pae t1 p1 = pae t2 p2 ↔ t1 = t2 ∧ p1 = p2 := by
  constructor
  · intro h
    rw [pae_eq_decimalPrefixed,pae_eq_decimalPrefixed] at h
    have htail := List.append_cancel_left h
    obtain ⟨ht,hrest⟩ := decimalPrefixed_framed trivial trivial htail
    have hp := List.append_cancel_left hrest
    exact ⟨ht,decimalPrefixed_framed.injOn trivial trivial hp⟩
  · rintro ⟨rfl,rfl⟩
    rfl

example : pae (utf8 "1 a") (utf8 "b") = utf8 "DSSEv1 3 1 a 1 b" := by decide

end Repx.Dsse
