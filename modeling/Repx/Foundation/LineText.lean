import Mathlib.Data.List.DropRight
import Repx.Foundation.TextSearch

/-! # Texts by characters

The operations on strings that a reader of line-oriented files uses: lines, words, what stands
in front of a character and behind a pattern, and decimal numbers. Each of them takes apart
what was put together from pieces without the separator.
-/
namespace Repx.LineText
open TextSearch

abbrev Text := List Char

/-- White space as Unicode has it. -/
def isWhitespace (c : Char) : Bool :=
  let n := c.toNat
  (9 ≤ n && n ≤ 13) || n == 0x20 || n == 0x85 || n == 0xA0 || n == 0x1680 || (0x2000 ≤ n && n ≤ 0x200A) ||
    n == 0x2028 || n == 0x2029 || n == 0x202F || n == 0x205F || n == 0x3000

def trim (text : Text) : Text := (text.dropWhile isWhitespace).rdropWhile isWhitespace

def splitWhitespace (text : Text) : List Text := (text.splitOnP isWhitespace).filter (· ≠ [])

def stripPrefix : Text → Text → Option Text
  | [], text => some text
  | _ :: _, [] => none
  | c :: pattern, d :: text => if c = d then stripPrefix pattern text else none

def stripEnd (c : Char) (text : Text) : Option Text := if text.getLast? = some c then some text.dropLast else none

/-- A line without the newline that ends it, and without a carriage return in front of that. -/
def dropEnding (line : Text) : Text :=
  match stripEnd '\n' line with
  | none => line
  | some line => (stripEnd '\r' line).getD line

def lines (text : Text) : List Text := (splitInclusive '\n' text).map dropEnding

/-- The text in front of the first `c`, and the text from there on. -/
def cutAt (c : Char) (text : Text) : Option (Text × Text) :=
  if c ∈ text then some (text.takeWhile (· ≠ c),text.dropWhile (· ≠ c)) else none

/-- The text behind the first place where the pattern stands. -/
def afterFirst (pattern : Text) : Text → Option Text
  | [] => stripPrefix pattern []
  | c :: text => (stripPrefix pattern (c :: text)).or (afterFirst pattern text)

/-- A plus sign is accepted, and a number that does not fit is not. -/
def parseU32 (text : Text) : Option UInt32 :=
  let digits := (stripPrefix ['+'] text).getD text
  if digits.isEmpty || !digits.all Char.isDigit then none
  else if Nat.ofDigitChars 10 digits 0 < UInt32.size then some (Nat.ofDigitChars 10 digits 0).toUInt32
  else none

/-! ## Texts that were put together -/

theorem trim_of_ends {front body back : Text} (hfront : ∀ c ∈ front, isWhitespace c)
    (hback : ∀ c ∈ back, isWhitespace c) (hne : body ≠ []) (hfirst : isWhitespace (body.head hne) = false)
    (hlast : isWhitespace (body.getLast hne) = false) : trim (front ++ body ++ back) = body := by
  have hstart : (front ++ body ++ back).dropWhile isWhitespace = body ++ back := by
    rw [List.append_assoc,List.dropWhile_append_of_pos hfront]
    cases body with
    | nil => exact absurd rfl hne
    | cons c body => rw [List.cons_append,List.dropWhile_cons_of_neg (by simpa using hfirst)]
  have hend : back.reverse.dropWhile isWhitespace = [] :=
    List.dropWhile_eq_nil_iff.mpr fun c hc => hback c (List.mem_reverse.mp hc)
  rw [trim,hstart,List.rdropWhile,List.reverse_append,List.dropWhile_append,hend]
  simp only [List.isEmpty_nil,if_true]
  exact List.rdropWhile_eq_self_iff.mpr fun _ => by simpa using hlast

theorem trim_of_solid {text : Text} (h : ∀ c ∈ text, isWhitespace c = false) : trim text = text := by
  by_cases hne : text = []
  · rw [hne]
    rfl
  · have hends := @trim_of_ends [] text [] nofun nofun hne (h _ (List.head_mem hne)) (h _ (List.getLast_mem hne))
    simpa using hends

/-- The last word of a text that ends with it. -/
theorem getLast?_splitWhitespace {c : Char} (hc : isWhitespace c = true) {word : Text} (hne : word ≠ [])
    (hword : ∀ c ∈ word, isWhitespace c = false) (front : Text) :
    (splitWhitespace (front ++ c :: word)).getLast? = some word := by
  rw [splitWhitespace,List.splitOnP_append_cons _ _ hc,List.splitOnP_eq_singleton hword,List.filter_append]
  simp [hne]

@[simp] theorem stripPrefix_append (pattern text : Text) : stripPrefix pattern (pattern ++ text) = some text := by
  induction pattern with
  | nil => rfl
  | cons c pattern ih => simp [stripPrefix,ih]

theorem cutAt_append {c : Char} {front : Text} (h : c ∉ front) (back : Text) :
    cutAt c (front ++ c :: back) = some (front,c :: back) := by
  have hfront : ∀ d ∈ front, (d ≠ c : Bool) := fun d hd => decide_eq_true fun he => h (he ▸ hd)
  rw [cutAt,if_pos (by simp),List.takeWhile_append_of_pos hfront,List.dropWhile_append_of_pos hfront]
  simp

theorem parseU32_toDigits (n : UInt32) : parseU32 (Nat.toDigits 10 n.toNat) = some n := by
  have hdigit : ∀ c ∈ Nat.toDigits 10 n.toNat, c.isDigit = true := fun c hc =>
    Nat.isDigit_of_mem_toDigits (by decide) (by decide) hc
  have hne : Nat.toDigits 10 n.toNat ≠ [] := Nat.toDigits_ne_nil
  have hplus : stripPrefix ['+'] (Nat.toDigits 10 n.toNat) = none := by
    cases hd : Nat.toDigits 10 n.toNat with
    | nil => rfl
    | cons c digits =>
      have hc := hdigit c (by rw [hd]; exact List.mem_cons_self)
      rw [stripPrefix,if_neg]
      rintro rfl
      exact absurd hc (by decide)
  rw [parseU32,hplus,Option.getD_none,if_neg (by simpa [hne] using hdigit),Nat.ofDigitChars_ten_toDigits,
    if_pos n.toNat_lt_size]
  simp

/-- Lines that were ended one by one are found again. -/
theorem lines_flatMap {pieces : List Text} (hline : ∀ line ∈ pieces, '\n' ∉ line)
    (hreturn : ∀ line ∈ pieces, line.getLast? ≠ some '\r') :
    lines (pieces.flatMap fun line => line ++ ['\n']) = pieces := by
  induction pieces with
  | nil => rfl
  | cons line pieces ih =>
    have hending : dropEnding (line ++ ['\n']) = line := by
      simp [dropEnding,stripEnd,hreturn line List.mem_cons_self]
    have hrest := ih (fun l hl => hline l (List.mem_cons_of_mem _ hl))
      fun l hl => hreturn l (List.mem_cons_of_mem _ hl)
    rw [lines,splitInclusive,List.flatMap_cons,List.append_assoc,List.singleton_append,
      List.splitOn_append_cons_self_of_not_mem (hline line List.mem_cons_self),
      endPieces_cons (List.splitOn_ne_nil _ _),List.map_cons,hending]
    exact congrArg _ hrest

end Repx.LineText
