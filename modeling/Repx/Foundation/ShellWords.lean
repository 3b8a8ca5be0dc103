import Repx.Foundation.ByteString

/-! # Shell words

A command line is read byte by byte, as the quoting rules of a POSIX shell prescribe: blanks
outside quotes separate words, single quotes keep everything, double quotes all but a few
escapes. What spells a word is composed of pieces, quoted or not.
-/
namespace Repx.ShellWords
open ByteString

def singleQuote : UInt8 := 39

def doubleQuote : UInt8 := 34

def backslash : UInt8 := 92

def space : UInt8 := 32

def newline : UInt8 := 10

def isBlank (byte : UInt8) : Bool := byte == space || byte == 9 || byte == newline

/-- What a backslash between double quotes takes the meaning of: `$`, a back quote, a double
quote and a backslash. -/
def isEscapable (byte : UInt8) : Bool := byte == 36 || byte == 96 || byte == doubleQuote || byte == backslash

inductive Quoting where
  | plain
  | escaped
  | single
  | double
  | doubleEscaped
deriving DecidableEq

/-- The words that are complete and the one that has begun. -/
structure Reader where
  quoting : Quoting
  word : Option Str
  words : List Str
deriving DecidableEq

namespace Reader

def start : Reader := ⟨.plain,none,[]⟩

/-- The word goes on with these bytes; an empty piece begins a word too. -/
def take (r : Reader) (quoting : Quoting) (bytes : Str) : Reader :=
  { r with quoting := quoting, word := some (r.word.getD [] ++ bytes) }

/-- A blank ends the word if one has begun. -/
def finish (r : Reader) : Reader := ⟨.plain,none,r.words ++ r.word.toList⟩

def step (r : Reader) (byte : UInt8) : Reader :=
  match r.quoting with
  | .plain =>
    if isBlank byte then r.finish
    else if byte = singleQuote then r.take .single []
    else if byte = doubleQuote then r.take .double []
    else if byte = backslash then { r with quoting := .escaped }
    else r.take .plain [byte]
  | .escaped => if byte = newline then { r with quoting := .plain } else r.take .plain [byte]
  | .single => if byte = singleQuote then { r with quoting := .plain } else r.take .single [byte]
  | .double =>
    if byte = doubleQuote then { r with quoting := .plain }
    else if byte = backslash then { r with quoting := .doubleEscaped }
    else r.take .double [byte]
  | .doubleEscaped =>
    if byte = newline then { r with quoting := .double }
    else if isEscapable byte then r.take .double [byte]
    else r.take .double [backslash,byte]

def run (r : Reader) (text : Str) : Reader := text.foldl step r

theorem run_append (r : Reader) (a b : Str) : r.run (a ++ b) = (r.run a).run b := List.foldl_append

@[simp] theorem run_cons (r : Reader) (byte : UInt8) (text : Str) :
    r.run (byte :: text) = (r.step byte).run text := rfl

@[simp] theorem run_nil (r : Reader) : r.run [] = r := rfl

theorem take_take (r : Reader) (quoting quoting' : Quoting) (a b : Str) :
    (r.take quoting a).take quoting' b = r.take quoting' (a ++ b) := by
  simp [take,List.append_assoc]

end Reader

/-- The words of a text, if no quote is left open. -/
def splitWords (text : Str) : Option (List Str) :=
  let r := Reader.start.run text
  if r.quoting = .plain then some r.finish.words else none

example : splitWords (utf8 "a 'b c'\"d\" \\'") = some [utf8 "a",utf8 "b cd",utf8 "'"] := by decide

/-- Outside quotes the text adds the word to what has begun. -/
def Spells (text word : Str) : Prop :=
  ∀ r : Reader, r.quoting = .plain → r.run text = r.take .plain word

/-- A byte that stands for itself outside quotes. -/
def IsOrdinary (byte : UInt8) : Prop :=
  isBlank byte = false ∧ byte ≠ singleQuote ∧ byte ≠ doubleQuote ∧ byte ≠ backslash

theorem step_ordinary {r : Reader} (hr : r.quoting = .plain) {byte : UInt8} (h : IsOrdinary byte) :
    r.step byte = r.take .plain [byte] := by
  obtain ⟨hb,hs,hd,he⟩ := h
  simp [Reader.step,hr,hb,hs,hd,he]

namespace Spells

theorem append {a b word word' : Str} (ha : Spells a word) (hb : Spells b word') :
    Spells (a ++ b) (word ++ word') := by
  intro r hr
  rw [Reader.run_append,ha r hr,hb (r.take .plain word) rfl,Reader.take_take]

/-- Bytes that stand for themselves. -/
theorem ordinary {text : Str} (hne : text ≠ []) (h : ∀ byte ∈ text, IsOrdinary byte) : Spells text text := by
  intro r hr
  induction text generalizing r with
  | nil => exact absurd rfl hne
  | cons byte text ih =>
    rw [Reader.run_cons,step_ordinary hr (h byte (by simp))]
    by_cases ht : text = []
    · subst ht
      rfl
    · rw [ih ht (fun b hb => h b (by simp [hb])) _ rfl,Reader.take_take]
      rfl

/-- Between two marks every byte adds itself while the reader is in the state the first one opens. -/
theorem enclosed {mark : UInt8} {quoting : Quoting} {text : Str}
    (hopen : ∀ r : Reader, r.quoting = .plain → r.step mark = r.take quoting [])
    (hbyte : ∀ byte ∈ text, ∀ r : Reader, r.quoting = quoting → r.step byte = r.take quoting [byte])
    (hclose : ∀ r : Reader, r.quoting = quoting → r.step mark = { r with quoting := .plain }) :
    Spells (mark :: (text ++ [mark])) text := by
  have hinner (r : Reader) (hr : r.quoting = quoting) (hw : r.word.isSome = true) :
      r.run (text ++ [mark]) = r.take .plain text := by
    induction text generalizing r with
    | nil =>
      obtain ⟨begun,hbegun⟩ := Option.isSome_iff_exists.mp hw
      rw [List.nil_append,Reader.run_cons,hclose r hr]
      simp [Reader.take,hbegun]
    | cons byte text ih =>
      rw [List.cons_append,Reader.run_cons,hbyte byte (by simp) r hr,
        ih (fun b hb => hbyte b (by simp [hb])) (r.take quoting [byte]) rfl rfl,Reader.take_take]
      rfl
  intro r hr
  rw [Reader.run_cons,hopen r hr,hinner (r.take quoting []) rfl rfl,Reader.take_take]
  rfl

/-- Between single quotes only a single quote does not stand for itself. -/
theorem single {text : Str} (h : singleQuote ∉ text) : Spells (singleQuote :: (text ++ [singleQuote])) text := by
  have hblank : isBlank singleQuote = false := by decide
  apply @enclosed _ .single
  · intro r hr
    simp [Reader.step,hr,hblank]
  · intro byte hb r hr
    have hne : byte ≠ singleQuote := fun he => h (he ▸ hb)
    simp [Reader.step,hr,hne]
  · intro r hr
    simp [Reader.step,hr]

/-- Between double quotes a double quote and a backslash do not stand for themselves. -/
theorem double {text : Str} (hq : doubleQuote ∉ text) (hs : backslash ∉ text) :
    Spells (doubleQuote :: (text ++ [doubleQuote])) text := by
  have hblank : isBlank doubleQuote = false := by decide
  have hmark : doubleQuote ≠ singleQuote := by decide
  apply @enclosed _ .double
  · intro r hr
    simp [Reader.step,hr,hblank,hmark]
  · intro byte hb r hr
    have hne : byte ≠ doubleQuote := fun he => hq (he ▸ hb)
    have hne' : byte ≠ backslash := fun he => hs (he ▸ hb)
    simp [Reader.step,hr,hne,hne']
  · intro r hr
    simp [Reader.step,hr]

end Spells

/-- Spelled words with blanks between them are read back. -/
theorem splitWords_intercalate {texts words : List Str} (h : List.Forall₂ Spells texts words) :
    splitWords ([space].intercalate texts) = some words := by
  have hrun (r : Reader) (hr : r.quoting = .plain) (hw : r.word = none) :
      (r.run ([space].intercalate texts)).quoting = .plain ∧
        (r.run ([space].intercalate texts)).finish.words = r.words ++ words := by
    induction h generalizing r with
    | nil => simp [hr,hw,Reader.finish]
    | @cons text word texts words hspell hrest ih =>
      by_cases hne : texts = []
      · subst hne
        cases hrest
        rw [List.intercalate_singleton,hspell r hr]
        simp [Reader.take,Reader.finish,hw]
      · rw [List.intercalate_cons_of_ne_nil hne,Reader.run_append,Reader.run_append,hspell r hr]
        obtain ⟨hq,hwords⟩ := ih (((r.take .plain word).run [space])) rfl rfl
        refine ⟨hq,hwords.trans ?_⟩
        simp [Reader.step,Reader.take,Reader.finish,hw,isBlank]
  obtain ⟨hq,hwords⟩ := hrun .start rfl rfl
  rw [splitWords,if_pos hq,hwords]
  rfl

end Repx.ShellWords
