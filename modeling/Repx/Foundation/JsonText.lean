import Repx.Foundation.Framing

/-! # Compact JSON text

Strings are quoted and escaped byte by byte, arrays are comma separated without
blanks. Both forms are framed, so an object written as fixed key text around
framed values determines those values.
-/
namespace Repx.JsonText
open ByteString Framing
variable {α : Type*}

/-- Short escapes where JSON has one, `\u00XX` for other control bytes, and the
byte itself everywhere else. -/
def escapeByte (b : UInt8) : Str :=
  if b = 34 then utf8 "\\\""
  else if b = 92 then utf8 "\\\\"
  else if b = 8 then utf8 "\\b"
  else if b = 9 then utf8 "\\t"
  else if b = 10 then utf8 "\\n"
  else if b = 12 then utf8 "\\f"
  else if b = 13 then utf8 "\\r"
  else if b < 32 then utf8 "\\u00" ++ hexByte b
  else [b]

def jsonString (s : Str) : Str := 34 :: (s.flatMap escapeByte ++ [34])

def jsonArray (enc : α → Str) : List α → Str
  | [] => utf8 "[]"
  | a :: as => 91 :: (enc a ++ (as.flatMap (fun b => 44 :: enc b) ++ [93]))

private def escaped : List UInt8 := 34 :: 92 :: (List.range 32).map UInt8.ofNat

private theorem escapeByte_cases (b : UInt8) :
    (b ∈ escaped ∧ (escapeByte b).head? = some 92) ∨ (b ≠ 92 ∧ b ≠ 34 ∧ escapeByte b = [b]) := by
  have h : ∀ n : Fin 256, (UInt8.ofFin n ∈ escaped ∧ (escapeByte (UInt8.ofFin n)).head? = some 92) ∨
      (UInt8.ofFin n ≠ 92 ∧ UInt8.ofFin n ≠ 34 ∧ escapeByte (UInt8.ofFin n) = [UInt8.ofFin n]) := by
    decide +kernel
  exact h b.toFin

private theorem escaped_prefix_eq : ∀ a ∈ escaped, ∀ b ∈ escaped,
    escapeByte a <+: escapeByte b → a = b := by decide +kernel

theorem escapeByte_ne_nil (b : UInt8) : escapeByte b ≠ [] := by
  rcases escapeByte_cases b with ⟨_,h⟩ | ⟨_,_,h⟩
  · intro he
    simp [he] at h
  · simp [h]

theorem escapeByte_head (b : UInt8) : (escapeByte b).head? ≠ some 34 := by
  rcases escapeByte_cases b with ⟨_,h⟩ | ⟨_,hq,h⟩
  · rw [h]
    decide
  · simpa [h] using hq

theorem escapeByte_eq_of_isPrefix_code {a b : UInt8} (h : escapeByte a <+: escapeByte b) : a = b := by
  have hhead : (escapeByte a).head? = (escapeByte b).head? := by
    obtain ⟨t,ht⟩ := h
    rw [← ht,List.head?_append_of_ne_nil _ (escapeByte_ne_nil a)]
  rcases escapeByte_cases a with ⟨ha,hca⟩ | ⟨ha,_,hca⟩
  · rcases escapeByte_cases b with ⟨hb,_⟩ | ⟨hb,_,hcb⟩
    · exact escaped_prefix_eq a ha b hb h
    · rw [hca,hcb] at hhead
      exact absurd (Option.some.inj hhead).symm hb
  · rcases escapeByte_cases b with ⟨_,hcb⟩ | ⟨_,_,hcb⟩
    · rw [hca,hcb] at hhead
      exact absurd (Option.some.inj hhead) ha
    · rw [hca,hcb] at hhead
      exact Option.some.inj hhead

theorem escapeByte_framed : Framed (fun _ => True) escapeByte := by
  intro a b s t _ _ h
  have hab : a = b := by
    rcases Nat.le_total (escapeByte a).length (escapeByte b).length with hle | hle
    · exact escapeByte_eq_of_isPrefix_code (List.prefix_of_prefix_length_le (List.prefix_append _ s)
        (h ▸ List.prefix_append _ t) hle)
    · exact (escapeByte_eq_of_isPrefix_code (List.prefix_of_prefix_length_le (List.prefix_append _ t)
        (h ▸ List.prefix_append _ s) hle)).symm
  subst hab
  exact ⟨rfl,List.append_cancel_left h⟩

/-- Elements that never start with the closing byte can be read up to it. -/
theorem closed_flatMap_framed {P : α → Prop} {enc : α → Str} {close : UInt8} (h : Framed P enc)
    (hne : ∀ a, enc a ≠ []) (hhead : ∀ a, (enc a).head? ≠ some close) {as bs : List α} {s t : Str}
    (ha : ∀ a ∈ as, P a) (hb : ∀ b ∈ bs, P b)
    (he : as.flatMap enc ++ close :: s = bs.flatMap enc ++ close :: t) : as = bs ∧ s = t := by
  induction as generalizing bs with
  | nil =>
    cases bs with
    | nil => exact ⟨rfl,by simpa using he⟩
    | cons b bs =>
      have hh := congrArg List.head? he
      rw [List.flatMap_cons,List.append_assoc,List.head?_append_of_ne_nil _ (hne b)] at hh
      exact absurd hh.symm (by simpa using hhead b)
  | cons a as ih =>
    cases bs with
    | nil =>
      have hh := congrArg List.head? he
      rw [List.flatMap_cons,List.append_assoc,List.head?_append_of_ne_nil _ (hne a)] at hh
      exact absurd hh (by simpa using hhead a)
    | cons b bs =>
      simp only [List.flatMap_cons,List.append_assoc] at he
      obtain ⟨rfl,hr⟩ := h (ha a List.mem_cons_self) (hb b List.mem_cons_self) he
      obtain ⟨rfl,rfl⟩ := ih (fun x hx => ha x (List.mem_cons_of_mem _ hx))
        (fun x hx => hb x (List.mem_cons_of_mem _ hx)) hr
      exact ⟨rfl,rfl⟩

theorem jsonString_framed : Framed (fun _ => True) jsonString := by
  intro a b s t _ _ h
  simp only [jsonString,List.cons_append,List.append_assoc,List.cons.injEq,true_and,
    List.nil_append] at h
  exact closed_flatMap_framed escapeByte_framed escapeByte_ne_nil escapeByte_head
    (fun _ _ => trivial) (fun _ _ => trivial) h

theorem jsonArray_framed {P : α → Prop} {enc : α → Str} (h : Framed P enc)
    (hne : ∀ a, enc a ≠ []) (hhead : ∀ a, (enc a).head? ≠ some 93) :
    Framed (fun as : List α => ∀ a ∈ as, P a) (jsonArray enc) := by
  have hcomma : Framed P (fun b => 44 :: enc b) := by
    intro a b s t ha hb he
    exact h ha hb (by simpa using he)
  have hempty : ∀ (a : α) (x s : Str), enc a ++ x ≠ 93 :: s := by
    intro a x s he
    have hh := congrArg List.head? he
    rw [List.head?_append_of_ne_nil _ (hne a)] at hh
    exact hhead a hh
  intro as bs s t ha hb he
  cases as with
  | nil =>
    cases bs with
    | nil => exact ⟨rfl,List.append_cancel_left he⟩
    | cons b bs =>
      have he' : (91 :: 93 :: s : Str) = 91 :: (enc b ++ (bs.flatMap (fun b => 44 :: enc b) ++ [93])) ++ t := he
      simp only [List.cons_append,List.append_assoc,List.cons.injEq,true_and] at he'
      exact absurd he'.symm (hempty b _ s)
  | cons a as =>
    cases bs with
    | nil =>
      have he' : 91 :: (enc a ++ (as.flatMap (fun b => 44 :: enc b) ++ [93])) ++ s = (91 :: 93 :: t : Str) := he
      simp only [List.cons_append,List.append_assoc,List.cons.injEq,true_and] at he'
      exact absurd he' (hempty a _ t)
    | cons b bs =>
      simp only [jsonArray,List.cons_append,List.append_assoc,List.cons.injEq,true_and,
        List.nil_append] at he
      obtain ⟨rfl,hr⟩ := h (ha a List.mem_cons_self) (hb b List.mem_cons_self) he
      obtain ⟨rfl,rfl⟩ := closed_flatMap_framed hcomma (by simp) (by simp)
        (fun x hx => ha x (List.mem_cons_of_mem _ hx)) (fun x hx => hb x (List.mem_cons_of_mem _ hx)) hr
      exact ⟨rfl,rfl⟩

end Repx.JsonText
