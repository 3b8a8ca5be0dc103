import Mathlib.Algebra.Group.Nat.Defs
import Repx.Foundation.ByteString

/-! # Self-delimiting encodings

An encoding is framed on a domain when, in front of an arbitrary rest, it still
determines both the value and the rest. Framing is preserved by sequencing, and
counts written in four little-endian bytes frame strings and lists shorter than
`2 ^ 32`.
-/
namespace Repx.Framing
open ByteString
variable {α β : Type*}

/-- On `P`, the encoding in front of any rest determines the value and the rest. -/
def Framed (P : α → Prop) (enc : α → Str) : Prop :=
  ∀ ⦃a b : α⦄ ⦃s t : Str⦄, P a → P b → enc a ++ s = enc b ++ t → a = b ∧ s = t

theorem Framed.injOn {P : α → Prop} {enc : α → Str} (h : Framed P enc) {a b : α}
    (ha : P a) (hb : P b) (he : enc a = enc b) : a = b :=
  (h (s := []) (t := []) ha hb (by simpa using he)).1

/-- Encodings of one fixed width are framed as soon as they are injective. -/
theorem framed_of_width {P : α → Prop} {enc : α → Str} (w : ℕ) (hw : ∀ a, P a → (enc a).length = w)
    (hinj : ∀ a b, P a → P b → enc a = enc b → a = b) : Framed P enc := by
  intro a b s t ha hb h
  obtain ⟨he,hs⟩ := List.append_inj h (by rw [hw a ha,hw b hb])
  exact ⟨hinj a b ha hb he,hs⟩

/-- `to_le_bytes` of a 32-bit word. -/
def leBytes (v : UInt32) : Str :=
  [v.toUInt8,(v >>> 8).toUInt8,(v >>> 16).toUInt8,(v >>> 24).toUInt8]

theorem leBytes_injective : Function.Injective leBytes := by
  intro v w h
  simp only [leBytes,List.cons.injEq,and_true,← UInt8.toNat_inj] at h
  simp only [UInt32.toNat_toUInt8,UInt32.toNat_shiftRight] at h
  obtain ⟨h0,h1,h2,h3⟩ := h
  rw [← UInt32.toNat_inj]
  have hv := v.toNat_lt
  have hw := w.toNat_lt
  simp only [Nat.shiftRight_eq_div_pow] at h1 h2 h3
  simp at h1 h2 h3
  omega

/-- A count, narrowed to 32 bits as `as u32` does. -/
def leCount (n : ℕ) : Str := leBytes (UInt32.ofNat n)

theorem leCount_framed : Framed (· < 2 ^ 32) leCount := by
  apply framed_of_width 4
  · intro n _
    rfl
  · intro m n hm hn h
    have hw := congrArg UInt32.toNat (leBytes_injective h)
    rwa [UInt32.toNat_ofNat',UInt32.toNat_ofNat',Nat.mod_eq_of_lt hm,Nat.mod_eq_of_lt hn] at hw

/-- A byte string behind its length. -/
def lengthPrefixed (s : Str) : Str := leCount s.length ++ s

theorem lengthPrefixed_framed : Framed (fun s : Str => s.length < 2 ^ 32) lengthPrefixed := by
  intro a b s t ha hb h
  simp only [lengthPrefixed,List.append_assoc] at h
  obtain ⟨hl,hr⟩ := leCount_framed ha hb h
  exact List.append_inj hr hl

/-- A string that does not contain its end mark ends at the first one. -/
theorem terminated_framed (e : UInt8) : Framed (fun s : Str => e ∉ s) (· ++ [e]) := by
  intro a b s t ha hb h
  simp only [List.append_assoc,List.singleton_append] at h
  induction a generalizing b with
  | nil =>
    cases b with
    | nil => exact ⟨rfl,by simpa using h⟩
    | cons y b =>
      rw [List.nil_append,List.cons_append,List.cons.injEq] at h
      exact absurd (h.1 ▸ List.mem_cons_self) hb
  | cons x a ih =>
    cases b with
    | nil =>
      rw [List.nil_append,List.cons_append,List.cons.injEq] at h
      exact absurd (h.1 ▸ List.mem_cons_self) ha
    | cons y b =>
      rw [List.cons_append,List.cons_append,List.cons.injEq] at h
      obtain ⟨rfl,hr⟩ := h
      obtain ⟨rfl,hs⟩ := ih (List.not_mem_of_not_mem_cons ha) (List.not_mem_of_not_mem_cons hb) hr
      exact ⟨rfl,hs⟩

/-- A byte string behind its length in decimal and a blank. -/
def decimalPrefixed (s : Str) : Str := numeral 10 s.length ++ [32] ++ s

/-- The blank ends the length wherever blanks and digits stand in the string
itself, and no bound on the length is needed. -/
theorem decimalPrefixed_framed : Framed (fun _ : Str => True) decimalPrefixed := by
  intro a b s t _ _ h
  have hblank : ∀ n, (32 : UInt8) ∉ numeral 10 n := fun n => not_mem_numeral_of_lt (by decide) 10 n
  simp only [decimalPrefixed,List.append_assoc] at h
  rw [← List.append_assoc,← List.append_assoc (numeral 10 b.length)] at h
  obtain ⟨hl,hr⟩ := terminated_framed 32 (hblank a.length) (hblank b.length) h
  exact List.append_inj hr (numeral_ten_injective hl)

/-- Equally many framed elements can be split off one by one. -/
theorem flatMap_framed {P : α → Prop} {enc : α → Str} (h : Framed P enc) {as bs : List α} {s t : Str}
    (hl : as.length = bs.length) (ha : ∀ a ∈ as, P a) (hb : ∀ b ∈ bs, P b)
    (he : as.flatMap enc ++ s = bs.flatMap enc ++ t) : as = bs ∧ s = t := by
  induction as generalizing bs with
  | nil =>
    obtain rfl := List.length_eq_zero_iff.mp hl.symm
    exact ⟨rfl,by simpa using he⟩
  | cons a as ih =>
    cases bs with
    | nil => simp at hl
    | cons b bs =>
      simp only [List.flatMap_cons,List.append_assoc] at he
      obtain ⟨rfl,hr⟩ := h (ha a List.mem_cons_self) (hb b List.mem_cons_self) he
      obtain ⟨rfl,rfl⟩ := ih (by simpa using hl) (fun x hx => ha x (List.mem_cons_of_mem _ hx))
        (fun x hx => hb x (List.mem_cons_of_mem _ hx)) hr
      exact ⟨rfl,rfl⟩

/-- Without a count, a sequence of framed non-empty elements that ends with the
text is still determined. -/
theorem flatMap_inj_of_framed {P : α → Prop} {enc : α → Str} (h : Framed P enc)
    (hne : ∀ a, P a → enc a ≠ []) {as bs : List α} (ha : ∀ a ∈ as, P a) (hb : ∀ b ∈ bs, P b)
    (he : as.flatMap enc = bs.flatMap enc) : as = bs := by
  induction as generalizing bs with
  | nil =>
    cases bs with
    | nil => rfl
    | cons b bs =>
      rw [List.flatMap_nil,List.flatMap_cons] at he
      exact absurd (List.append_eq_nil_iff.mp he.symm).1 (hne b (hb b List.mem_cons_self))
  | cons a as ih =>
    cases bs with
    | nil =>
      rw [List.flatMap_nil,List.flatMap_cons] at he
      exact absurd (List.append_eq_nil_iff.mp he).1 (hne a (ha a List.mem_cons_self))
    | cons b bs =>
      simp only [List.flatMap_cons] at he
      obtain ⟨rfl,hr⟩ := h (ha a List.mem_cons_self) (hb b List.mem_cons_self) he
      rw [ih (fun x hx => ha x (List.mem_cons_of_mem _ hx)) (fun x hx => hb x (List.mem_cons_of_mem _ hx)) hr]

/-- A list behind its number of elements. -/
def countPrefixed (enc : α → Str) (as : List α) : Str := leCount as.length ++ as.flatMap enc

theorem countPrefixed_framed {P : α → Prop} {enc : α → Str} (h : Framed P enc) :
    Framed (fun as : List α => as.length < 2 ^ 32 ∧ ∀ a ∈ as, P a) (countPrefixed enc) := by
  intro as bs s t ha hb he
  simp only [countPrefixed,List.append_assoc] at he
  obtain ⟨hl,hr⟩ := leCount_framed ha.1 hb.1 he
  exact flatMap_framed h hl ha.2 hb.2 hr

/-- Two framed encodings in sequence. -/
theorem Framed.append {P : α → Prop} {Q : β → Prop} {enc : α → Str} {enc' : β → Str}
    (h : Framed P enc) (h' : Framed Q enc') :
    Framed (fun p : α × β => P p.1 ∧ Q p.2) (fun p => enc p.1 ++ enc' p.2) := by
  rintro ⟨a,a'⟩ ⟨b,b'⟩ s t ha hb he
  simp only [List.append_assoc] at he
  obtain ⟨rfl,hr⟩ := h ha.1 hb.1 he
  obtain ⟨rfl,rfl⟩ := h' ha.2 hb.2 hr
  exact ⟨rfl,rfl⟩

end Repx.Framing
