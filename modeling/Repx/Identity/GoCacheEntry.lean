import Mathlib.Data.List.DropRight
import Repx.Foundation.Utf8

/-! # Go action-cache entries

An index entry of the Go build cache is hashed with its put timestamp zeroed. The
entry is cut at fixed byte offsets of a text, where a cut inside a character does
not return.
-/
namespace Repx.Identity
open ByteString Utf8

/-- The two ways in which reading an entry ends without a result. -/
inductive Stop where
  | rejected
  | panicked
deriving DecidableEq

/-- `str::split_at`. -/
def splitAt (text : Str) (mid : ℕ) : Except Stop (Str × Str) :=
  if isCharBoundary text mid then .ok (text.take mid,text.drop mid) else .error .panicked

/-- The question mark after an `Option`. -/
def orReject {α : Type} : Option α → Except Stop α
  | some value => .ok value
  | none => .error .rejected

def blank : UInt8 := 32

def newline : UInt8 := 10

def isLowerHex (byte : UInt8) : Bool := (48 ≤ byte && byte ≤ 57) || (97 ≤ byte && byte ≤ 102)

def isAsciiDigit (byte : UInt8) : Bool := 48 ≤ byte && byte ≤ 57

def isPaddedDecimal (field : Str) : Bool :=
  let digits := field.dropWhile (· == blank)
  !digits.isEmpty && digits.all isAsciiDigit

/-- `{:>20}` of a text. -/
def padLeft20 (text : Str) : Str := List.replicate (20 - text.length) blank ++ text

def versionTag : Str := utf8 "v1 "

/-- A field of the given width, and what stands behind the blank after it. -/
def cutField (text : Str) (width : ℕ) : Except Stop (Str × Str) := do
  let (field,rest) ← splitAt text width
  let rest ← orReject (rest.dropPrefix? [blank])
  return (field,rest)

def renderEntry (actionId outputId size timestamp : Str) : Str :=
  versionTag ++ actionId ++ [blank] ++ outputId ++ [blank] ++ size ++ [blank] ++ timestamp ++ [newline]

def fieldsAccepted (actionId outputId size timestamp : Str) : Bool :=
  actionId.all isLowerHex && outputId.all isLowerHex && isPaddedDecimal size && isPaddedDecimal timestamp

/-- The fields between the version tag and the final newline. -/
def normalizeFields (rest : Str) : Except Stop Str := do
  let (actionId,rest) ← cutField rest 64
  let (outputId,rest) ← cutField rest 64
  let (size,timestamp) ← cutField rest 20
  if !fieldsAccepted actionId outputId size timestamp then throw .rejected
  return renderEntry actionId outputId size (padLeft20 (utf8 "0"))

def normalizeGoCacheEntry (contents : Str) : Except Stop Str := do
  let text ← orReject (if isUtf8 contents then some contents else none)
  let rest ← orReject (text.dropPrefix? versionTag)
  let rest ← orReject (rest.dropSuffix? [newline])
  if rest.length ≠ 64 + 1 + 64 + 1 + 20 + 1 + 20 then throw .rejected
  normalizeFields rest

/-- The byte at the index is inside a character. -/
def continues (text : Str) (i : ℕ) : Bool :=
  match text[i]? with
  | some b => 0x80 ≤ b && b < 0xC0
  | none => false

theorem cutField_eq (text : Str) {width : ℕ} (hw : 0 < width) (hl : width < text.length) :
    cutField text width = if continues text width then .error .panicked
      else if text[width]? = some blank then .ok (text.take width,text.drop (width + 1))
      else .error .rejected := by
  have hb : isCharBoundary text width = !continues text width := by
    simp only [isCharBoundary,continues,List.getElem?_eq_getElem hl]
    rw [if_neg (by omega)]
  have hs : (text.drop width).dropPrefix? [blank] =
      if text[width] = blank then some (text.drop (width + 1)) else none := by
    rw [List.drop_eq_getElem_cons hl]
    simp [List.dropPrefix?]
  simp only [List.getElem?_eq_getElem hl,Option.some.injEq]
  cases hc : continues text width with
  | true => simp [cutField,splitAt,hb,hc,bind,Except.bind]
  | false =>
    by_cases hblank : text[width] = blank
    · simp [cutField,splitAt,hb,hc,hs,hblank,orReject,bind,Except.bind,pure,Except.pure]
    · simp [cutField,splitAt,hb,hc,hs,hblank,orReject,bind,Except.bind]

/-- A text of the length of an entry, between the version tag and a newline. -/
def Framed (contents rest : Str) : Prop :=
  isUtf8 contents = true ∧ contents = versionTag ++ rest ++ [newline] ∧ rest.length = 171

theorem normalizeGoCacheEntry_of_framed {contents rest : Str} (h : Framed contents rest) :
    normalizeGoCacheEntry contents = normalizeFields rest := by
  obtain ⟨hu,hc,hl⟩ := h
  have hp : contents.dropPrefix? versionTag = some (rest ++ [newline]) := by
    rw [List.dropPrefix?_eq_some_iff]
    exact ⟨versionTag,by rw [hc,List.append_assoc],by simp⟩
  have hs : (rest ++ [newline]).dropSuffix? [newline] = some rest := by
    rw [List.dropSuffix?_eq_some_iff]
    exact ⟨[newline],rfl,by simp⟩
  simp [normalizeGoCacheEntry,hu,hp,hs,hl,orReject,bind,Except.bind]

theorem normalizeGoCacheEntry_of_not_framed {contents : Str} (h : ∀ rest, ¬ Framed contents rest) :
    normalizeGoCacheEntry contents = .error .rejected := by
  simp only [normalizeGoCacheEntry]
  by_cases hu : isUtf8 contents = true
  · cases hp : contents.dropPrefix? versionTag with
    | none => simp [hu,hp,orReject,bind,Except.bind]
    | some tail =>
      cases hs : tail.dropSuffix? [newline] with
      | none => simp [hu,hp,hs,orReject,bind,Except.bind]
      | some rest =>
        by_cases hl : rest.length = 171
        · obtain ⟨p,hc,hp⟩ := List.dropPrefix?_eq_some_iff.mp hp
          obtain ⟨s,ht,hs⟩ := List.dropSuffix?_eq_some_iff.mp hs
          obtain rfl := eq_of_beq hp
          obtain rfl := eq_of_beq hs
          exact absurd ⟨hu,by rw [hc,ht,List.append_assoc],hl⟩ (h rest)
        · simp [hu,hp,hs,hl,orReject,bind,Except.bind,throw,throwThe,MonadExceptOf.throw]
  · simp [hu,orReject,bind,Except.bind]

/-- What is not rejected is framed. -/
theorem exists_framed {contents : Str} (h : normalizeGoCacheEntry contents ≠ .error .rejected) :
    ∃ rest, Framed contents rest := by
  by_contra hf
  exact h (normalizeGoCacheEntry_of_not_framed (not_exists.mp hf))

theorem continues_drop (text : Str) (n i : ℕ) : continues (text.drop n) i = continues text (n + i) := by
  simp [continues]

theorem normalizeFields_eq {rest : Str} (hl : rest.length = 171) :
    normalizeFields rest =
      if continues rest 64 then .error .panicked
      else if rest[64]? ≠ some blank then .error .rejected
      else if continues rest 129 then .error .panicked
      else if rest[129]? ≠ some blank then .error .rejected
      else if continues rest 150 then .error .panicked
      else if rest[150]? ≠ some blank then .error .rejected
      else if fieldsAccepted (rest.take 64) ((rest.drop 65).take 64) ((rest.drop 130).take 20)
        (rest.drop 151) then
        .ok (renderEntry (rest.take 64) ((rest.drop 65).take 64) ((rest.drop 130).take 20)
          (padLeft20 (utf8 "0")))
      else .error .rejected := by
  have h1 := cutField_eq rest (by decide : 0 < 64) (by omega)
  have h2 := cutField_eq (rest.drop 65) (by decide : 0 < 64) (by rw [List.length_drop]; omega)
  have h3 := cutField_eq (rest.drop 130) (by decide : 0 < 20) (by rw [List.length_drop]; omega)
  simp only [continues_drop,List.getElem?_drop,List.drop_drop] at h2 h3
  cases c1 : continues rest 64 with
  | true => simp [normalizeFields,h1,c1,bind,Except.bind]
  | false =>
  by_cases s1 : rest[64]? = some blank
  case neg => simp [normalizeFields,h1,c1,s1,bind,Except.bind]
  cases c2 : continues rest 129 with
  | true => simp [normalizeFields,h1,c1,s1,h2,c2,bind,Except.bind]
  | false =>
  by_cases s2 : rest[129]? = some blank
  case neg => simp [normalizeFields,h1,c1,s1,h2,c2,s2,bind,Except.bind]
  cases c3 : continues rest 150 with
  | true => simp [normalizeFields,h1,c1,s1,h2,c2,s2,h3,c3,bind,Except.bind]
  | false =>
  by_cases s3 : rest[150]? = some blank
  case neg => simp [normalizeFields,h1,c1,s1,h2,c2,s2,h3,c3,s3,bind,Except.bind]
  cases hf : fieldsAccepted (rest.take 64) ((rest.drop 65).take 64) ((rest.drop 130).take 20)
      (rest.drop 151) with
  | true => simp [normalizeFields,h1,c1,s1,h2,c2,s2,h3,c3,s3,hf,bind,Except.bind,pure,Except.pure]
  | false =>
    simp [normalizeFields,h1,c1,s1,h2,c2,s2,h3,c3,s3,hf,bind,Except.bind,throw,throwThe,
      MonadExceptOf.throw]

/-- A framed text of which a cut falls inside a character, every earlier separator being there. -/
def CutsCharacter (contents : Str) : Prop :=
  ∃ rest, Framed contents rest ∧ (continues rest 64 = true ∨ rest[64]? = some blank ∧
    (continues rest 129 = true ∨ rest[129]? = some blank ∧ continues rest 150 = true))

theorem normalizeFields_panicked_iff {rest : Str} (hl : rest.length = 171) :
    normalizeFields rest = .error .panicked ↔ continues rest 64 = true ∨ rest[64]? = some blank ∧
      (continues rest 129 = true ∨ rest[129]? = some blank ∧ continues rest 150 = true) := by
  rw [normalizeFields_eq hl]
  split_ifs <;> simp_all

/-- Normalization returns unless a cut falls inside a character. -/
theorem normalizeGoCacheEntry_returns_iff (contents : Str) :
    normalizeGoCacheEntry contents ≠ .error .panicked ↔ ¬ CutsCharacter contents := by
  rw [not_iff_not]
  constructor
  · intro h
    obtain ⟨rest,hf⟩ := exists_framed (by rw [h]; simp)
    rw [normalizeGoCacheEntry_of_framed hf] at h
    exact ⟨rest,hf,(normalizeFields_panicked_iff hf.2.2).mp h⟩
  · rintro ⟨rest,hf,h⟩
    rw [normalizeGoCacheEntry_of_framed hf]
    exact (normalizeFields_panicked_iff hf.2.2).mpr h

/-- Sixty-three letters and a letter of two bytes where the action identifier ends. -/
def misalignedEntry : Str :=
  versionTag ++ List.replicate 63 97 ++ utf8 "é" ++ List.replicate 106 97 ++ [newline]

theorem misalignedEntry_panics : isUtf8 misalignedEntry = true ∧ misalignedEntry.length = 175 ∧
    normalizeGoCacheEntry misalignedEntry = .error .panicked := by
  decide +kernel

def IsHashField (field : Str) : Prop := field.length = 64 ∧ ∀ b ∈ field, isLowerHex b = true

/-- Blanks and then at least one digit, twenty bytes in all. -/
def IsPaddedField (field : Str) : Prop :=
  field.length = 20 ∧ ∃ blanks digits, field = List.replicate blanks blank ++ digits ∧
    digits ≠ [] ∧ ∀ b ∈ digits, isAsciiDigit b = true

theorem isPaddedDecimal_iff {field : Str} (hl : field.length = 20) :
    isPaddedDecimal field = true ↔ IsPaddedField field := by
  simp only [isPaddedDecimal,Bool.and_eq_true,Bool.not_eq_true',List.isEmpty_eq_false_iff,
    List.all_eq_true]
  constructor
  · rintro ⟨hne,hd⟩
    refine ⟨hl,(field.takeWhile (· == blank)).length,field.dropWhile (· == blank),?_,hne,hd⟩
    have ht : field.takeWhile (· == blank) =
        List.replicate (field.takeWhile (· == blank)).length blank := by
      rw [List.eq_replicate_iff]
      exact ⟨rfl,fun b hb => by simpa using List.mem_takeWhile_imp hb⟩
    rw [← ht,List.takeWhile_append_dropWhile]
  · rintro ⟨-,blanks,digits,rfl,hne,hd⟩
    have hdrop : (List.replicate blanks blank ++ digits).dropWhile (· == blank) = digits := by
      rw [List.dropWhile_append_of_pos fun b hb => by simp [List.eq_of_mem_replicate hb]]
      cases digits with
      | nil => rfl
      | cons d digits =>
        have hb : (d == blank) = false := by
          have hdigit := hd d (by simp)
          rw [beq_eq_false_iff_ne]
          rintro rfl
          exact absurd hdigit (by decide)
        rw [List.dropWhile_cons_of_neg (by simp [hb])]
    rw [hdrop]
    exact ⟨hne,hd⟩

/-- An index entry of the Go build cache. -/
structure GoCacheEntry where
  actionId : Str
  outputId : Str
  size : Str
  timestamp : Str
  actionId_hash : IsHashField actionId
  outputId_hash : IsHashField outputId
  size_padded : IsPaddedField size
  timestamp_padded : IsPaddedField timestamp

namespace GoCacheEntry

def text (entry : GoCacheEntry) : Str :=
  renderEntry entry.actionId entry.outputId entry.size entry.timestamp

def zeroed (entry : GoCacheEntry) : GoCacheEntry :=
  { entry with
    timestamp := padLeft20 (utf8 "0")
    timestamp_padded := ⟨by decide,19,utf8 "0",by decide,by decide,List.all_eq_true.mp (by decide)⟩ }

end GoCacheEntry

theorem IsHashField.accepted {field : Str} (h : IsHashField field) : field.all isLowerHex = true :=
  List.all_eq_true.mpr h.2

/-- The field in front of a separator, and the text behind it. -/
theorem cut_separated {field : Str} {width : ℕ} (h : field.length = width) (rest : Str) :
    continues (field ++ blank :: rest) width = false ∧
      (field ++ blank :: rest)[width]? = some blank ∧
      (field ++ blank :: rest).take width = field ∧
      (field ++ blank :: rest).drop (width + 1) = rest := by
  subst h
  have hb : (field ++ blank :: rest)[field.length]? = some blank := by simp
  refine ⟨?_,hb,by simp,?_⟩
  · simp only [continues,hb]
    rfl
  · rw [List.drop_append]
    simp

theorem take_cut_drop {rest : Str} {width : ℕ} (h : rest[width]? = some blank) :
    rest = rest.take width ++ blank :: rest.drop (width + 1) := by
  obtain ⟨hl,hb⟩ := List.getElem?_eq_some_iff.mp h
  rw [← hb,← List.drop_eq_getElem_cons hl,List.take_append_drop]

/-- Three blanks between the fields of an entry. -/
def joinFields (actionId outputId size timestamp : Str) : Str :=
  actionId ++ blank :: (outputId ++ blank :: (size ++ blank :: timestamp))

theorem renderEntry_eq (actionId outputId size timestamp : Str) :
    renderEntry actionId outputId size timestamp =
      versionTag ++ joinFields actionId outputId size timestamp ++ [newline] := by
  simp [renderEntry,joinFields]

theorem normalizeFields_joinFields (entry : GoCacheEntry) :
    normalizeFields (joinFields entry.actionId entry.outputId entry.size entry.timestamp) =
      .ok entry.zeroed.text := by
  obtain ⟨actionId,outputId,size,timestamp,ha,ho,hs,ht⟩ := entry
  have hl : (joinFields actionId outputId size timestamp).length = 171 := by
    simp only [joinFields,List.length_append,List.length_cons,ha.1,ho.1,hs.1,ht.1]
  obtain ⟨c1,b1,t1,d1⟩ := cut_separated ha.1 (outputId ++ blank :: (size ++ blank :: timestamp))
  obtain ⟨c2,b2,t2,d2⟩ := cut_separated ho.1 (size ++ blank :: timestamp)
  obtain ⟨c3,b3,t3,d3⟩ := cut_separated hs.1 timestamp
  rw [← joinFields] at c1 b1 t1 d1
  rw [← d1,continues_drop] at c2
  rw [← d1,List.getElem?_drop] at b2
  rw [← d1] at t2
  rw [← d1,List.drop_drop] at d2
  rw [← d2,continues_drop] at c3
  rw [← d2,List.getElem?_drop] at b3
  rw [← d2] at t3
  rw [← d2,List.drop_drop] at d3
  have hf : fieldsAccepted actionId outputId size timestamp = true := by
    simp only [fieldsAccepted,ha.accepted,ho.accepted,(isPaddedDecimal_iff hs.1).mpr hs,
      (isPaddedDecimal_iff ht.1).mpr ht,Bool.and_self]
  rw [normalizeFields_eq hl]
  simp only [Nat.reduceAdd] at c1 b1 t1 d1 c2 b2 t2 d2 c3 b3 t3 d3
  simp only [c1,b1,c2,b2,c3,b3,t1,t2,t3,d3,hf]
  rfl

theorem fields_of_ok {rest output : Str} (hl : rest.length = 171) (h : normalizeFields rest = .ok output) :
    ∃ entry : GoCacheEntry,
      rest = joinFields entry.actionId entry.outputId entry.size entry.timestamp := by
  rw [normalizeFields_eq hl] at h
  split_ifs at h with c1 b1 c2 b2 c3 b3 hf
  have e1 := take_cut_drop (not_not.mp b1)
  have s2 : (rest.drop 65)[64]? = some blank := by
    rw [List.getElem?_drop]
    exact not_not.mp b2
  have s3 : (rest.drop 130)[20]? = some blank := by
    rw [List.getElem?_drop]
    exact not_not.mp b3
  have e2 := take_cut_drop s2
  have e3 := take_cut_drop s3
  simp only [List.drop_drop,Nat.reduceAdd] at e1 e2 e3
  simp only [fieldsAccepted,Bool.and_eq_true,List.all_eq_true] at hf
  obtain ⟨⟨⟨ha,ho⟩,hs⟩,ht⟩ := hf
  rw [isPaddedDecimal_iff (by simp only [List.length_take,List.length_drop]; omega)] at hs
  rw [isPaddedDecimal_iff (by rw [List.length_drop]; omega)] at ht
  refine ⟨⟨_,_,_,_,⟨?_,ha⟩,⟨?_,ho⟩,hs,ht⟩,?_⟩
  · rw [List.length_take]
    omega
  · rw [List.length_take,List.length_drop]
    omega
  · rw [joinFields,← e3,← e2,← e1]

theorem isUtf8_renderEntry (entry : GoCacheEntry) : isUtf8 entry.text = true := by
  have hash {field : Str} (h : IsHashField field) : ∀ b ∈ field, b < 0x80 := by
    intro b hb
    have hx := h.2 b hb
    simp only [isLowerHex,Bool.or_eq_true,Bool.and_eq_true,decide_eq_true_eq] at hx
    rcases hx with hx | hx
    · exact UInt8.lt_of_le_of_lt hx.2 (by decide)
    · exact UInt8.lt_of_le_of_lt hx.2 (by decide)
  have padded {field : Str} (h : IsPaddedField field) : ∀ b ∈ field, b < 0x80 := by
    obtain ⟨-,blanks,digits,rfl,-,hd⟩ := h
    intro b hb
    rcases List.mem_append.mp hb with hb | hb
    · rw [List.eq_of_mem_replicate hb]
      decide
    · have hx := hd b hb
      simp only [isAsciiDigit,Bool.and_eq_true,decide_eq_true_eq] at hx
      exact UInt8.lt_of_le_of_lt hx.2 (by decide)
  have tag : ∀ b ∈ versionTag, b < 0x80 := by
    intro b hb
    have ht : versionTag.all (· < 0x80) = true := by decide
    exact of_decide_eq_true (List.all_eq_true.mp ht b hb)
  have separator {c : UInt8} (hc : c < 0x80) : ∀ b ∈ [c], b < 0x80 := List.forall_mem_singleton.mpr hc
  apply isUtf8_of_ascii
  intro b hb
  simp only [GoCacheEntry.text,renderEntry,List.mem_append,or_assoc] at hb
  rcases hb with hb | hb | hb | hb | hb | hb | hb | hb | hb
  · exact tag b hb
  · exact hash entry.actionId_hash b hb
  · exact separator (by decide : blank < 0x80) b hb
  · exact hash entry.outputId_hash b hb
  · exact separator (by decide : blank < 0x80) b hb
  · exact padded entry.size_padded b hb
  · exact separator (by decide : blank < 0x80) b hb
  · exact padded entry.timestamp_padded b hb
  · exact separator (by decide : newline < 0x80) b hb

theorem normalizeGoCacheEntry_text (entry : GoCacheEntry) :
    normalizeGoCacheEntry entry.text = .ok entry.zeroed.text := by
  have hl : (joinFields entry.actionId entry.outputId entry.size entry.timestamp).length = 171 := by
    simp only [joinFields,List.length_append,List.length_cons,entry.actionId_hash.1,
      entry.outputId_hash.1,entry.size_padded.1,entry.timestamp_padded.1]
  rw [normalizeGoCacheEntry_of_framed ⟨isUtf8_renderEntry entry,renderEntry_eq _ _ _ _,hl⟩]
  exact normalizeFields_joinFields entry

/-- What is accepted is an entry, and its put timestamp is what is lost. -/
theorem normalizeGoCacheEntry_ok {contents output : Str} :
    normalizeGoCacheEntry contents = .ok output ↔
      ∃ entry : GoCacheEntry, contents = entry.text ∧ output = entry.zeroed.text := by
  constructor
  · intro h
    obtain ⟨rest,hf⟩ := exists_framed (by rw [h]; simp)
    rw [normalizeGoCacheEntry_of_framed hf] at h
    obtain ⟨entry,rfl⟩ := fields_of_ok hf.2.2 h
    refine ⟨entry,hf.2.1.trans (renderEntry_eq _ _ _ _).symm,?_⟩
    rw [normalizeFields_joinFields,Except.ok.injEq] at h
    exact h.symm
  · rintro ⟨entry,rfl,rfl⟩
    exact normalizeGoCacheEntry_text entry

/-- Two entries are written alike when and only when their four fields are. -/
theorem GoCacheEntry.text_inj {a b : GoCacheEntry} :
    a.text = b.text ↔ a.actionId = b.actionId ∧ a.outputId = b.outputId ∧ a.size = b.size ∧
      a.timestamp = b.timestamp := by
  constructor
  · intro h
    simp only [GoCacheEntry.text,renderEntry_eq,List.append_left_inj,List.append_right_inj,
      joinFields] at h
    obtain ⟨ha,h⟩ := List.append_inj h (a.actionId_hash.1.trans b.actionId_hash.1.symm)
    obtain ⟨ho,h⟩ := List.append_inj (List.cons.inj h).2 (a.outputId_hash.1.trans b.outputId_hash.1.symm)
    obtain ⟨hs,h⟩ := List.append_inj (List.cons.inj h).2 (a.size_padded.1.trans b.size_padded.1.symm)
    exact ⟨ha,ho,hs,(List.cons.inj h).2⟩
  · rintro ⟨ha,ho,hs,ht⟩
    simp only [GoCacheEntry.text,ha,ho,hs,ht]

/-- The accepted language, the dependence on the fields, and idempotence. -/
theorem normalizeGoCacheEntry_exact :
    (∀ contents output, normalizeGoCacheEntry contents = .ok output ↔
      ∃ entry : GoCacheEntry, contents = entry.text ∧ output = entry.zeroed.text) ∧
    (∀ a b : GoCacheEntry, normalizeGoCacheEntry a.text = normalizeGoCacheEntry b.text ↔
      a.actionId = b.actionId ∧ a.outputId = b.outputId ∧ a.size = b.size) ∧
    ∀ contents output, normalizeGoCacheEntry contents = .ok output →
      normalizeGoCacheEntry output = .ok output := by
  refine ⟨fun contents output => normalizeGoCacheEntry_ok,fun a b => ?_,fun contents output h => ?_⟩
  · rw [normalizeGoCacheEntry_text a,normalizeGoCacheEntry_text b,Except.ok.injEq,
      GoCacheEntry.text_inj]
    simp only [GoCacheEntry.zeroed,and_true]
  · obtain ⟨entry,-,rfl⟩ := normalizeGoCacheEntry_ok.mp h
    exact normalizeGoCacheEntry_text entry.zeroed

end Repx.Identity
