import Repx.Foundation.ByteString

/-! # SHA-256 digests as text

The hash function itself is a parameter of the development. What is fixed here
is its 32-byte output and the textual form `sha256:<64 hex digits>` in which
every digest is stored, compared and hashed again.
-/
namespace Repx.Sha256
open ByteString

abbrev Digest := Vector UInt8 32

/-- `format!("sha256:{:x}", digest)`. -/
def digestText (d : Digest) : Str := utf8 "sha256:" ++ lowerHex d.toList

/-- A string of the form `sha256:` followed by 64 hexadecimal digits. -/
def IsDigestText (s : Str) : Prop :=
  ∃ h : Str, s = utf8 "sha256:" ++ h ∧ h.length = 64 ∧ ∀ c ∈ h, isHexDigit c = true

theorem digestText_injective : Function.Injective digestText := by
  intro d e h
  exact Vector.toList_inj.mp (lowerHex_injective (List.append_cancel_left h))

theorem isDigestText_digestText (d : Digest) : IsDigestText (digestText d) :=
  ⟨lowerHex d.toList,rfl,by simp,lowerHex_isHexDigit _⟩

theorem IsDigestText.length {s : Str} (h : IsDigestText s) : s.length = 71 := by
  obtain ⟨t,rfl,ht,_⟩ := h
  rw [List.length_append,ht]
  rfl

end Repx.Sha256
