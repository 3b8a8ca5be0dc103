import Repx.Foundation.ByteString

/-! # Well-formed UTF-8

Validation of a byte sequence, and the lossy decoding that puts U+FFFD in the place
of every maximal ill-formed part.
-/
namespace Repx.Utf8
open ByteString

/-- How many bytes follow a lead byte, and the range of the first of them. -/
def leadRange (lead : UInt8) : Option (ℕ × UInt8 × UInt8) :=
  if lead < 0x80 then some (0,0x80,0xBF)
  else if 0xC2 ≤ lead && lead ≤ 0xDF then some (1,0x80,0xBF)
  else if lead == 0xE0 then some (2,0xA0,0xBF)
  else if lead == 0xED then some (2,0x80,0x9F)
  else if 0xE1 ≤ lead && lead ≤ 0xEF then some (2,0x80,0xBF)
  else if lead == 0xF0 then some (3,0x90,0xBF)
  else if 0xF1 ≤ lead && lead ≤ 0xF3 then some (3,0x80,0xBF)
  else if lead == 0xF4 then some (3,0x80,0x8F)
  else none

/-- Validation inside a sequence that lacks `owed` bytes, the next one in a range. -/
def isUtf8From : ℕ → UInt8 → UInt8 → Str → Bool
  | owed, _, _, [] => owed == 0
  | 0, _, _, b :: rest =>
    match leadRange b with
    | some (owed,low,high) => isUtf8From owed low high rest
    | none => false
  | owed + 1, low, high, b :: rest => low ≤ b && b ≤ high && isUtf8From owed 0x80 0xBF rest

def isUtf8 (bytes : Str) : Bool := isUtf8From 0 0x80 0xBF bytes

/-- A sequence that has begun: its bytes so far, and what it lacks. -/
structure Decoder where
  pending : Str
  owed : ℕ
  low : UInt8
  high : UInt8
deriving DecidableEq

namespace Decoder

def start : Decoder := ⟨[],0,0x80,0xBF⟩

def replacement : Str := [0xEF,0xBF,0xBD]

def lead (b : UInt8) : Str × Decoder :=
  match leadRange b with
  | some (0,_,_) => ([b],start)
  | some (owed + 1,low,high) => ([],⟨[b],owed + 1,low,high⟩)
  | none => (replacement,start)

/-- A byte that does not continue the sequence ends it and is read as a lead byte. -/
def next (d : Decoder) (b : UInt8) : Str × Decoder :=
  match d.owed with
  | 0 => lead b
  | owed + 1 =>
    if d.low ≤ b && b ≤ d.high then
      if owed = 0 then (d.pending ++ [b],start) else ([],⟨d.pending ++ [b],owed,0x80,0xBF⟩)
    else ((replacement ++ (lead b).1),(lead b).2)

def decode : Decoder → Str → Str
  | d, [] => if d.owed = 0 then [] else replacement
  | d, b :: rest => (d.next b).1 ++ decode (d.next b).2 rest

end Decoder

/-- `to_string_lossy`. -/
def lossy (bytes : Str) : Str := Decoder.start.decode bytes

/-- A byte below 128 stands for itself. -/
theorem lossy_cons {b : UInt8} (h : b < 0x80) (rest : Str) : lossy (b :: rest) = b :: lossy rest := by
  simp [lossy,Decoder.decode,Decoder.next,Decoder.start,Decoder.lead,leadRange,h]

/-- A character may start at the index: `str::is_char_boundary`. -/
def isCharBoundary (text : Str) (i : ℕ) : Bool :=
  if i = 0 then true
  else match text[i]? with
    | some b => !(0x80 ≤ b && b < 0xC0)
    | none => i == text.length

theorem leadRange_low {b low high : UInt8} {owed : ℕ} (h : leadRange b = some (owed,low,high)) :
    0x80 ≤ low := by
  simp only [leadRange] at h
  split_ifs at h <;> obtain ⟨-,rfl,-⟩ := by simpa using h
  all_goals decide

/-- What follows a whole number of characters is validated on its own. -/
theorem isUtf8From_append {owed : ℕ} {low high : UInt8} {a : Str} (h : isUtf8From owed low high a = true)
    (b : Str) : isUtf8From owed low high (a ++ b) = isUtf8 b := by
  induction a generalizing owed low high with
  | nil =>
    obtain rfl : owed = 0 := by simpa [isUtf8From] using h
    cases b <;> rfl
  | cons c a ih =>
    cases owed with
    | zero =>
      simp only [isUtf8From,List.cons_append] at h ⊢
      cases hl : leadRange c with
      | none => simp [hl] at h
      | some lead =>
        simp only [hl] at h ⊢
        exact ih h
    | succ owed =>
      simp only [isUtf8From,List.cons_append,Bool.and_eq_true] at h ⊢
      simp only [h.1,Bool.true_and,ih h.2,Bool.and_self]

theorem isUtf8_append {a b : Str} (ha : isUtf8 a = true) : isUtf8 (a ++ b) = isUtf8 b :=
  isUtf8From_append ha b

/-- A byte below 128 begins and ends a character. -/
theorem isUtf8From_of_append_ascii {owed : ℕ} {low high b : UInt8} {a rest : Str} (hlow : 0x80 ≤ low)
    (hb : b < 0x80) (h : isUtf8From owed low high (a ++ b :: rest) = true) :
    isUtf8From owed low high a = true := by
  induction a generalizing owed low high with
  | nil =>
    cases owed with
    | zero => rfl
    | succ owed =>
      simp only [List.nil_append,isUtf8From,Bool.and_eq_true,decide_eq_true_eq] at h
      exact absurd (UInt8.le_trans hlow h.1.1) (UInt8.not_le.mpr hb)
  | cons c a ih =>
    cases owed with
    | zero =>
      simp only [isUtf8From,List.cons_append] at h ⊢
      cases hl : leadRange c with
      | none => simp [hl] at h
      | some lead =>
        simp only [hl] at h ⊢
        exact ih (leadRange_low hl) h
    | succ owed =>
      simp only [isUtf8From,List.cons_append,Bool.and_eq_true] at h ⊢
      exact ⟨h.1,ih (by decide) h.2⟩

theorem isUtf8_append_ascii {b : UInt8} (hb : b < 0x80) {a rest : Str}
    (h : isUtf8 (a ++ b :: rest) = true) : isUtf8 a = true ∧ isUtf8 (b :: rest) = true := by
  have ha := isUtf8From_of_append_ascii (by decide) hb h
  exact ⟨ha,by rwa [isUtf8_append ha] at h⟩

theorem isUtf8_cons_ascii {b : UInt8} (hb : b < 0x80) (rest : Str) : isUtf8 (b :: rest) = isUtf8 rest := by
  simp [isUtf8,isUtf8From,leadRange,hb]

theorem isUtf8_of_ascii {a : Str} (h : ∀ b ∈ a, b < 0x80) : isUtf8 a = true := by
  induction a with
  | nil => rfl
  | cons b a ih =>
    rw [isUtf8_cons_ascii (h b (by simp))]
    exact ih fun c hc => h c (by simp [hc])

/-- Texts joined by an ASCII separator are well formed exactly when all of them are. -/
theorem isUtf8_intercalate {sep : UInt8} (hs : sep < 0x80) {pieces : List Str} :
    isUtf8 ([sep].intercalate pieces) = true ↔ ∀ piece ∈ pieces, isUtf8 piece = true := by
  induction pieces with
  | nil => simp [isUtf8,isUtf8From]
  | cons piece pieces ih =>
    cases pieces with
    | nil => simp
    | cons next pieces =>
      rw [List.intercalate_cons_cons,List.append_assoc,List.singleton_append,List.forall_mem_cons,← ih]
      constructor
      · intro h
        obtain ⟨hl,hr⟩ := isUtf8_append_ascii hs h
        rw [isUtf8_cons_ascii hs] at hr
        exact ⟨hl,hr⟩
      · rintro ⟨hl,hr⟩
        rw [isUtf8_append hl,isUtf8_cons_ascii hs,hr]

private theorem decode_of_isUtf8From {d : Decoder} {rest : Str} (hd : d.owed = 0 → d = Decoder.start)
    (h : isUtf8From d.owed d.low d.high rest = true) : d.decode rest = d.pending ++ rest := by
  induction rest generalizing d with
  | nil =>
    have ho : d.owed = 0 := by simpa [isUtf8From] using h
    simp [Decoder.decode,hd ho,Decoder.start]
  | cons b rest ih =>
    cases ho : d.owed with
    | zero =>
      obtain rfl := hd ho
      simp only [isUtf8From,Decoder.start] at h
      simp only [Decoder.decode,Decoder.next,Decoder.start,Decoder.lead]
      cases hl : leadRange b with
      | none => simp [hl] at h
      | some lead =>
        obtain ⟨owed,low,high⟩ := lead
        simp only [hl] at h
        cases owed with
        | zero => simpa [Decoder.start] using ih (d := Decoder.start) (fun _ => rfl) (by
            cases rest with
            | nil => rfl
            | cons c rest => simpa [isUtf8From,Decoder.start] using h)
        | succ owed => simpa using ih (d := ⟨[b],owed + 1,low,high⟩) (fun h0 => by simp at h0) h
    | succ owed =>
      simp only [ho,isUtf8From,Bool.and_eq_true,decide_eq_true_eq] at h
      simp only [Decoder.decode,Decoder.next,ho,h.1]
      by_cases h0 : owed = 0
      · subst h0
        simpa [Decoder.start] using ih (d := Decoder.start) (fun _ => rfl) (by
            cases rest with
            | nil => rfl
            | cons c rest => simpa [isUtf8From,Decoder.start] using h.2)
      · simpa [h0] using ih (d := ⟨d.pending ++ [b],owed,0x80,0xBF⟩) (fun h1 => absurd h1 h0) h.2

/-- Well-formed text is decoded to itself. -/
theorem lossy_of_isUtf8 {text : Str} (h : isUtf8 text = true) : lossy text = text := by
  simpa [lossy,Decoder.start] using decode_of_isUtf8From (d := Decoder.start) (fun _ => rfl) h

namespace Decoder

/-- What a decoder has read since the last character: `owed` bytes of the ranges it names complete it. -/
structure Begun (d : Decoder) : Prop where
  low : 0x80 ≤ d.low
  completes : ∀ rest, isUtf8 (d.pending ++ rest) = isUtf8From d.owed d.low d.high rest

theorem begun_start : start.Begun := ⟨by decide,fun _ => rfl⟩

theorem lead_spec (b : UInt8) : isUtf8 (lead b).1 = true ∧ (lead b).2.Begun := by
  unfold lead
  split
  · next hl => exact ⟨by simp [isUtf8,isUtf8From,hl],begun_start⟩
  · next owed low high hl => exact ⟨rfl,leadRange_low hl,fun rest => by simp [isUtf8,isUtf8From,hl]⟩
  · exact ⟨by decide,begun_start⟩

/-- Every step writes whole characters. -/
theorem next_spec {d : Decoder} (h : d.Begun) (b : UInt8) : isUtf8 (d.next b).1 = true ∧ (d.next b).2.Begun := by
  unfold next
  split
  · exact lead_spec b
  · next owed ho =>
    have hnext (rest : Str) : isUtf8 (d.pending ++ [b] ++ rest) =
        (d.low ≤ b && b ≤ d.high && isUtf8From owed 0x80 0xBF rest) := by
      rw [List.append_assoc,h.completes,ho]
      rfl
    split_ifs with hb h0
    · have hwhole := hnext []
      rw [hb,h0,List.append_nil] at hwhole
      exact ⟨by simpa [isUtf8From] using hwhole,begun_start⟩
    · refine ⟨rfl,UInt8.le_refl _,fun rest => ?_⟩
      rw [hnext,hb,Bool.true_and]
    · have hreplacement : isUtf8 replacement = true := by decide
      obtain ⟨hlead,hbegun⟩ := lead_spec b
      exact ⟨by rw [isUtf8_append hreplacement,hlead],hbegun⟩

theorem isUtf8_decode {d : Decoder} (h : d.Begun) (bytes : Str) : isUtf8 (d.decode bytes) = true := by
  induction bytes generalizing d with
  | nil =>
    unfold decode
    split_ifs <;> decide
  | cons b bytes ih =>
    obtain ⟨hwritten,hbegun⟩ := next_spec h b
    rw [decode,isUtf8_append hwritten,ih hbegun]

theorem decode_concat_ascii {d : Decoder} (h : d.Begun) {b : UInt8} (hb : b < 0x80) (bytes : Str) :
    d.decode (bytes ++ [b]) = d.decode bytes ++ [b] := by
  induction bytes generalizing d with
  | nil =>
    have hlead : lead b = ([b],start) := by simp [lead,leadRange,hb]
    have hrange : ¬ d.low ≤ b := fun hle => UInt8.not_le.mpr hb (UInt8.le_trans h.low hle)
    cases ho : d.owed <;> simp [decode,next,ho,hlead,hrange,start]
  | cons c bytes ih =>
    simp only [List.cons_append,decode,ih (next_spec h c).2,List.append_assoc]

end Decoder

theorem isUtf8_lossy (bytes : Str) : isUtf8 (lossy bytes) = true :=
  Decoder.isUtf8_decode Decoder.begun_start bytes

/-- A byte below 128 stands for itself behind anything. -/
theorem lossy_concat_ascii {b : UInt8} (hb : b < 0x80) (bytes : Str) : lossy (bytes ++ [b]) = lossy bytes ++ [b] :=
  Decoder.decode_concat_ascii Decoder.begun_start hb bytes

example : isUtf8 (utf8 "/tmp/größe") = true ∧ lossy (utf8 "/tmp/größe") = utf8 "/tmp/größe" := by
  decide

example : isUtf8 [47,0xE2,0x82,97] = false ∧ lossy [47,0xE2,0x82,97] = [47,0xEF,0xBF,0xBD,97] := by
  decide

end Repx.Utf8
