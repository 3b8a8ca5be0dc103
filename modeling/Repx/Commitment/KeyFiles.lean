import Repx.Foundation.LineText
import Repx.Commitment.SignatureVerification

/-! # Key files

A key is kept as a line of hexadecimal digits. A file holds a key if there are 64 digits of
either case between blanks, and the file that is written for a key is read as that key.
-/
namespace Repx.Dsse
open ByteString LineText

/-- Ed25519 keys as bytes. Not every byte string is a public key. -/
structure KeyBytes (SigningKey VerifyingKey : Type) where
  signingFromBytes : Vector UInt8 32 → SigningKey
  signingToBytes : SigningKey → Vector UInt8 32
  verifyingFromBytes : Vector UInt8 32 → Except Str VerifyingKey
  verifyingToBytes : VerifyingKey → Vector UInt8 32

structure KeyBytes.Lawful {SigningKey VerifyingKey : Type} (keys : KeyBytes SigningKey VerifyingKey) : Prop where
  signing : ∀ key, keys.signingFromBytes (keys.signingToBytes key) = key
  verifying : ∀ key, keys.verifyingFromBytes (keys.verifyingToBytes key) = .ok key

/-! ## Hexadecimal texts -/

/-- The value of a digit of either case. -/
def hexValue (c : Char) : Option UInt8 :=
  if '0' ≤ c ∧ c ≤ '9' then some (c.toNat - 48).toUInt8
  else if 'a' ≤ c ∧ c ≤ 'f' then some (c.toNat - 87).toUInt8
  else if 'A' ≤ c ∧ c ≤ 'F' then some (c.toNat - 55).toUInt8
  else none

def decodeHex : Text → Option Str
  | [] => some []
  | [_] => none
  | c :: d :: text => do
    let high ← hexValue c
    let low ← hexValue d
    let bytes ← decodeHex text
    some ((high <<< 4 ||| low) :: bytes)

def encodeHex (bytes : Str) : Text := (lowerHex bytes).map fun b => Char.ofNat b.toNat

/-- A text spells bytes with digits of either case, two for each. -/
inductive SpellsHex : Text → Str → Prop
  | nil : SpellsHex [] []
  | cons {c d : Char} {high low : UInt8} {text : Text} {bytes : Str} : hexValue c = some high → hexValue d = some low →
      SpellsHex text bytes → SpellsHex (c :: d :: text) ((high <<< 4 ||| low) :: bytes)

theorem decodeHex_eq_some {text : Text} {bytes : Str} : decodeHex text = some bytes ↔ SpellsHex text bytes := by
  constructor
  · intro h
    induction text using decodeHex.induct generalizing bytes with
    | case1 =>
      obtain rfl := Option.some.inj h
      exact .nil
    | case2 c => cases h
    | case3 c d text ih =>
      simp only [decodeHex,Option.bind_eq_bind,Option.bind_eq_some_iff] at h
      obtain ⟨high,hc,low,hd,rest,hrest,h⟩ := h
      obtain rfl := Option.some.inj h
      exact .cons hc hd (ih hrest)
  · intro h
    induction h with
    | nil => rfl
    | cons hc hd _ ih => simp [decodeHex,hc,hd,ih]

/-- Both digits of a byte are read, and they are no blanks. -/
theorem hexByte_spelled (b : UInt8) : ∃ c d high low, hexByte b = [c,d] ∧
    hexValue (Char.ofNat c.toNat) = some high ∧ hexValue (Char.ofNat d.toNat) = some low ∧ high <<< 4 ||| low = b ∧
    isWhitespace (Char.ofNat c.toNat) = false ∧ isWhitespace (Char.ofNat d.toNat) = false := by
  have h : ∀ n : Fin 256, hexValue (Char.ofNat (hexDigit (UInt8.ofFin n >>> 4)).toNat) = some (UInt8.ofFin n >>> 4) ∧
      hexValue (Char.ofNat (hexDigit (UInt8.ofFin n &&& 15)).toNat) = some (UInt8.ofFin n &&& 15) ∧
      (UInt8.ofFin n >>> 4) <<< 4 ||| (UInt8.ofFin n &&& 15) = UInt8.ofFin n ∧
      isWhitespace (Char.ofNat (hexDigit (UInt8.ofFin n >>> 4)).toNat) = false ∧
      isWhitespace (Char.ofNat (hexDigit (UInt8.ofFin n &&& 15)).toNat) = false := by decide +kernel
  obtain ⟨hhigh,hlow,hbyte,hsolid,hsolid'⟩ := h b.toFin
  exact ⟨_,_,_,_,rfl,hhigh,hlow,hbyte,hsolid,hsolid'⟩

theorem spellsHex_encodeHex (bytes : Str) : SpellsHex (encodeHex bytes) bytes := by
  induction bytes with
  | nil => exact .nil
  | cons b bytes ih =>
    obtain ⟨c,d,high,low,hbyte,hc,hd,hb,-,-⟩ := hexByte_spelled b
    have hspell := SpellsHex.cons hc hd ih
    rw [hb] at hspell
    rwa [encodeHex,lowerHex,List.flatMap_cons,hbyte]

theorem encodeHex_solid {bytes : Str} : ∀ c ∈ encodeHex bytes, isWhitespace c = false := by
  intro c hc
  obtain ⟨digit,hdigit,rfl⟩ := List.mem_map.mp hc
  obtain ⟨b,-,hb⟩ := List.mem_flatMap.mp hdigit
  obtain ⟨c,d,-,-,hbyte,-,-,-,hsolid,hsolid'⟩ := hexByte_spelled b
  rw [hbyte] at hb
  rcases List.mem_pair.mp hb with rfl | rfl
  · exact hsolid
  · exact hsolid'

/-! ## Reading and writing -/

/-- What both kinds of keys are read by, with the name of the kind. -/
def parseKey {Key : Type} (kind : Str) (fromBytes : Vector UInt8 32 → Except Str Key) (hex : Text) : Except Str Key :=
  match decodeHex (trim hex) with
  | none => .error (kind ++ utf8 " key is not valid hex")
  | some bytes =>
    if h : bytes.length = 32 then fromBytes ⟨bytes.toArray,by simpa using h⟩
    else
      .error (kind ++ utf8 " key must be 32 bytes (" ++ numeral 10 64 ++ utf8 " hex chars), got " ++
        numeral 10 bytes.length ++ utf8 " bytes")

section Keys
variable {SigningKey VerifyingKey : Type} (keys : KeyBytes SigningKey VerifyingKey)

def parseSigningKey (hex : Text) : Except Str SigningKey :=
  parseKey (utf8 "signing") (fun bytes => .ok (keys.signingFromBytes bytes)) hex

def parseVerifyingKey (hex : Text) : Except Str VerifyingKey :=
  parseKey (utf8 "verifying")
    (fun bytes =>
      match keys.verifyingFromBytes bytes with
      | .ok key => .ok key
      | .error _ => .error (utf8 "invalid ed25519 verifying key"))
    hex

def readSigningKey (data : Except Str Text) : Except Str SigningKey := data >>= parseSigningKey keys

def readVerifyingKey (data : Except Str Text) : Except Str VerifyingKey := data >>= parseVerifyingKey keys

def signingKeyText (key : SigningKey) : Text := encodeHex (keys.signingToBytes key).toList ++ ['\n']

def verifyingKeyText (key : VerifyingKey) : Text := encodeHex (keys.verifyingToBytes key).toList ++ ['\n']

end Keys

theorem parseKey_eq_ok {Key : Type} {kind : Str} {fromBytes : Vector UInt8 32 → Except Str Key} {hex : Text}
    {key : Key} : parseKey kind fromBytes hex = .ok key ↔
      ∃ bytes : Vector UInt8 32, SpellsHex (trim hex) bytes.toList ∧ fromBytes bytes = .ok key := by
  unfold parseKey
  constructor
  · intro h
    cases hdecode : decodeHex (trim hex) with
    | none => simp [hdecode] at h
    | some bytes =>
      simp only [hdecode] at h
      split_ifs at h with hlength
      exact ⟨_,decodeHex_eq_some.mp (by simpa using hdecode),h⟩
  · rintro ⟨bytes,hspell,h⟩
    have hsame (hlength : bytes.toList.toArray.size = 32) :
        (⟨bytes.toList.toArray,hlength⟩ : Vector UInt8 32) = bytes :=
      Vector.toArray_inj.mp (@Array.toArray_toList _ bytes.toArray)
    rw [decodeHex_eq_some.mpr hspell]
    simpa only [Vector.length_toList,dif_pos,hsame] using h

/-- A key between blanks is read back. -/
theorem parseKey_encodeHex {Key : Type} {kind : Str} {fromBytes : Vector UInt8 32 → Except Str Key}
    {bytes : Vector UInt8 32} {key : Key} (h : fromBytes bytes = .ok key) {front back : Text}
    (hfront : ∀ c ∈ front, isWhitespace c = true) (hback : ∀ c ∈ back, isWhitespace c = true) :
    parseKey kind fromBytes (front ++ encodeHex bytes.toList ++ back) = .ok key := by
  have hne : encodeHex bytes.toList ≠ [] := by
    intro he
    have hlength := congrArg List.length he
    simp [encodeHex] at hlength
  have htrim := trim_of_ends hfront hback hne (encodeHex_solid _ (List.head_mem hne))
    (encodeHex_solid _ (List.getLast_mem hne))
  exact parseKey_eq_ok.mpr ⟨bytes,by rw [htrim]; exact spellsHex_encodeHex _,h⟩

section Written
variable {SigningKey VerifyingKey : Type} {keys : KeyBytes SigningKey VerifyingKey} (hkeys : keys.Lawful)
include hkeys

theorem parseSigningKey_signingKeyText (key : SigningKey) :
    parseSigningKey keys (signingKeyText keys key) = .ok key :=
  @parseKey_encodeHex _ _ (fun bytes => .ok (keys.signingFromBytes bytes)) _ _ (by rw [hkeys.signing key]) [] ['\n']
    nofun (by simp [isWhitespace])

theorem parseVerifyingKey_verifyingKeyText (key : VerifyingKey) :
    parseVerifyingKey keys (verifyingKeyText keys key) = .ok key :=
  @parseKey_encodeHex _ _ _ _ _ (by rw [hkeys.verifying key]) [] ['\n'] nofun (by simp [isWhitespace])

end Written

end Repx.Dsse
