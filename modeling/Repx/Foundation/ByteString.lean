import Mathlib.Data.List.Basic
import Mathlib.Logic.Function.Basic

/-! # Byte strings and their textual rendering

Text is held as its literal UTF-8 bytes, so that equality, concatenation and
lexicographic comparison are those of the byte sequences a hash function reads.
Hexadecimal rendering is injective and doubles the length.
-/
namespace Repx.ByteString

abbrev Str := List UInt8

/-- The UTF-8 bytes of a literal. -/
def utf8 (s : String) : Str := s.toUTF8.data.toList

/-- Lower-case digit of a half-byte. -/
def hexDigit (n : UInt8) : UInt8 := if n < 10 then 48 + n else 87 + n

def hexByte (b : UInt8) : Str := [hexDigit (b >>> 4),hexDigit (b &&& 15)]

/-- `{:x}` of a byte array: two lower-case digits for each byte. -/
def lowerHex (bs : List UInt8) : Str := bs.flatMap hexByte

def isHexDigit (c : UInt8) : Bool :=
  (48 ≤ c && c ≤ 57) || (97 ≤ c && c ≤ 102) || (65 ≤ c && c ≤ 70)

private def unhexDigit (c : UInt8) : UInt8 := if c < 58 then c - 48 else c - 87

private theorem unhexByte (b : UInt8) :
    unhexDigit (hexDigit (b >>> 4)) <<< 4 ||| unhexDigit (hexDigit (b &&& 15)) = b := by
  have h : ∀ n : Fin 256, unhexDigit (hexDigit (UInt8.ofFin n >>> 4)) <<< 4 |||
      unhexDigit (hexDigit (UInt8.ofFin n &&& 15)) = UInt8.ofFin n := by decide +kernel
  exact h b.toFin

theorem hexByte_injective : Function.Injective hexByte := by
  intro a b h
  simp only [hexByte,List.cons.injEq,and_true] at h
  rw [← unhexByte a,← unhexByte b,h.1,h.2]

theorem hexByte_isHexDigit (b : UInt8) : ∀ c ∈ hexByte b, isHexDigit c = true := by
  have h : ∀ n : Fin 256, (hexByte (UInt8.ofFin n)).all isHexDigit = true := by decide +kernel
  exact List.all_eq_true.mp (h b.toFin)

@[simp] theorem lowerHex_length (bs : List UInt8) : (lowerHex bs).length = 2 * bs.length := by
  induction bs with
  | nil => rfl
  | cons b bs ih =>
    simp only [lowerHex,List.flatMap_cons,List.length_append,List.length_cons] at ih ⊢
    simp only [hexByte,List.length_cons,List.length_nil]
    omega

theorem lowerHex_injective : Function.Injective lowerHex := by
  intro as bs h
  induction as generalizing bs with
  | nil =>
    have hl := congrArg List.length h
    simp only [lowerHex_length,List.length_nil] at hl
    exact (List.length_eq_zero_iff.mp (by omega)).symm
  | cons a as ih =>
    cases bs with
    | nil => simp [lowerHex,hexByte] at h
    | cons b bs =>
      simp only [lowerHex,List.flatMap_cons] at h
      obtain ⟨ha,hs⟩ := List.append_inj h (by simp [hexByte])
      rw [hexByte_injective ha,ih hs]

theorem lowerHex_isHexDigit (bs : List UInt8) : ∀ c ∈ lowerHex bs, isHexDigit c = true := by
  intro c hc
  obtain ⟨b,_,hb⟩ := List.mem_flatMap.mp hc
  exact hexByte_isHexDigit b c hb

/-- A number in the given base, lower-case and without leading zeros. -/
def numeral (base n : ℕ) : Str := (Nat.toDigits base n).map fun c => c.toNat.toUInt8

/-- `{}` of a signed integer. -/
def decimal : Int → Str
  | .ofNat n => numeral 10 n
  | .negSucc n => utf8 "-" ++ numeral 10 (n + 1)

private theorem digitChar_ge (n : ℕ) : 42 ≤ (Nat.digitChar n).toNat.toUInt8 := by
  by_cases h : n < 16
  · have hsmall : ∀ d : Fin 16, 42 ≤ (Nat.digitChar d).toNat.toUInt8 := by decide
    exact hsmall ⟨n,h⟩
  · have hstar : Nat.digitChar n = '*' := by
      simp only [Nat.digitChar]
      repeat rw [if_neg (by omega)]
    rw [hstar]
    decide

private theorem mem_toDigitsCore {base fuel n : ℕ} {acc : List Char} {c : Char}
    (h : c ∈ Nat.toDigitsCore base fuel n acc) : c ∈ acc ∨ ∃ d, c = Nat.digitChar d := by
  induction fuel generalizing n acc with
  | zero => exact Or.inl h
  | succ fuel ih =>
    rw [Nat.toDigitsCore] at h
    have hcons : c ∈ Nat.digitChar (n % base) :: acc → c ∈ acc ∨ ∃ d, c = Nat.digitChar d := by
      intro hc
      rcases List.mem_cons.mp hc with rfl | hc
      · exact Or.inr ⟨_,rfl⟩
      · exact Or.inl hc
    split_ifs at h with hz
    · exact hcons h
    · rcases ih h with h | h
      · exact hcons h
      · exact Or.inr h

/-- No control character, blank or sign occurs in a numeral. -/
theorem not_mem_numeral_of_lt {e : UInt8} (he : e < 42) (base n : ℕ) : e ∉ numeral base n := by
  intro h
  obtain ⟨c,hc,rfl⟩ := List.mem_map.mp h
  rcases mem_toDigitsCore hc with hc | ⟨d,rfl⟩
  · simp at hc
  · exact absurd he (UInt8.not_lt.mpr (digitChar_ge d))

theorem nul_not_mem_numeral (base n : ℕ) : (0 : UInt8) ∉ numeral base n :=
  not_mem_numeral_of_lt (by decide) base n

private theorem widen_digit {c : Char} (hc : c.isDigit = true) : Char.ofNat c.toNat.toUInt8.toNat = c := by
  have hb : c.toNat ≤ 57 := (Char.isDigit_iff_toNat.mp hc).2
  have hw : c.toNat.toUInt8.toNat = c.toNat := by
    simp only [Nat.toUInt8_eq,UInt8.toNat_ofNat']
    exact Nat.mod_eq_of_lt (by omega)
  rw [hw]
  exact Char.ofNat_toNat c

/-- Decimal numerals are read back to the number they were written for. -/
theorem ofDigitChars_numeral (n : ℕ) :
    Nat.ofDigitChars 10 ((numeral 10 n).map fun b => Char.ofNat b.toNat) 0 = n := by
  have hd : (numeral 10 n).map (fun b => Char.ofNat b.toNat) = Nat.toDigits 10 n := by
    rw [numeral,List.map_map]
    conv_rhs => rw [← List.map_id (Nat.toDigits 10 n)]
    apply List.map_congr_left
    intro c hc
    exact widen_digit (Nat.isDigit_of_mem_toDigits (by decide) (by decide) hc)
  rw [hd,Nat.ofDigitChars_ten_toDigits]

theorem numeral_ten_injective : Function.Injective (numeral 10) := by
  intro m n h
  rw [← ofDigitChars_numeral m,← ofDigitChars_numeral n,h]

theorem nul_not_mem_decimal (n : Int) : (0 : UInt8) ∉ decimal n := by
  cases n with
  | ofNat n => exact nul_not_mem_numeral 10 n
  | negSucc n =>
    intro h
    rcases List.mem_append.mp h with h | h
    · exact absurd h (by decide)
    · exact nul_not_mem_numeral 10 (n + 1) h

/-- Two distinct members of `inputs` receive one digest. -/
def Collision {δ : Type*} (digest : Str → δ) (inputs : List Str) : Prop :=
  ∃ x ∈ inputs, ∃ y ∈ inputs, x ≠ y ∧ digest x = digest y

theorem Collision.mono {δ : Type*} {digest : Str → δ} {xs ys : List Str}
    (h : Collision digest xs) (hs : xs ⊆ ys) : Collision digest ys := by
  obtain ⟨x,hx,y,hy,hne,heq⟩ := h
  exact ⟨x,hs hx,y,hs hy,hne,heq⟩

theorem Collision.comm {δ : Type*} {digest : Str → δ} {xs ys : List Str} (h : Collision digest (xs ++ ys)) :
    Collision digest (ys ++ xs) :=
  h.mono fun _ hx => List.mem_append.mpr (List.mem_append.mp hx).symm

end Repx.ByteString
