import Repx.Foundation.ShellWords
import Repx.Commitment.DiffReport

/-! # The displayed command

The traced command is printed as a line for a shell: arguments of harmless bytes as they
are, all others between single quotes, which are closed and opened again around an embedded
quote. Reading the line back gives the command. The harness has a copy of the printer.
-/
namespace Repx.Display
open ByteString ShellWords Report

/-- `str::replace` of a quote: the quoted part is closed and opened again behind it. -/
def escapeQuotes (arg : Str) : Str := arg.flatMap fun c => if c = 39 then utf8 "'\"'\"'" else [c]

namespace Harness

def shellDisplayArg (arg : Str) : Str :=
  if arg.isEmpty then utf8 "''"
  else if arg.all isPlainByte then arg
  else utf8 "'" ++ escapeQuotes arg ++ utf8 "'"

def formatCommand (command : List Str) : Str := (utf8 " ").intercalate (command.map shellDisplayArg)

end Harness

/-- A byte that may stand without quotes has no meaning for the shell. -/
theorem isOrdinary_of_isPlainByte {c : UInt8} (h : isPlainByte c = true) : IsOrdinary c := by
  refine ⟨?_,?_,?_,?_⟩
  · rw [Bool.eq_false_iff]
    intro hb
    simp only [isBlank,Bool.or_eq_true,beq_iff_eq] at hb
    rcases hb with (rfl | rfl) | rfl <;> exact absurd h (by decide)
  all_goals
    rintro rfl
    exact absurd h (by decide)

/-- The pieces of a quoted argument, where `begun` has been read since the last quote was opened. -/
theorem spells_quoted {begun : Str} (hb : singleQuote ∉ begun) (arg : Str) :
    Spells (singleQuote :: (begun ++ escapeQuotes arg ++ [singleQuote])) (begun ++ arg) := by
  induction arg generalizing begun with
  | nil => simpa [escapeQuotes] using Spells.single hb
  | cons ch arg ih =>
    by_cases hch : ch = singleQuote
    · subst hch
      have hpieces : singleQuote :: (begun ++ escapeQuotes (singleQuote :: arg) ++ [singleQuote]) =
          singleQuote :: (begun ++ [singleQuote]) ++ (doubleQuote :: ([singleQuote] ++ [doubleQuote]) ++
            singleQuote :: ([] ++ escapeQuotes arg ++ [singleQuote])) := by
        have hfive : utf8 "'\"'\"'" = [singleQuote,doubleQuote,singleQuote,doubleQuote,singleQuote] := by decide
        simp [escapeQuotes,hfive,singleQuote]
      rw [hpieces]
      have hquote : Spells (doubleQuote :: ([singleQuote] ++ [doubleQuote])) [singleQuote] :=
        Spells.double (by decide) (by decide)
      simpa using (Spells.single hb).append (hquote.append (ih List.not_mem_nil))
    · have hnot : singleQuote ∉ begun ++ [ch] := by simp [hb,Ne.symm hch]
      have hnext := ih hnot
      have hkept : escapeQuotes (ch :: arg) = ch :: escapeQuotes arg := by
        simp only [escapeQuotes,List.flatMap_cons]
        rw [if_neg (show ch ≠ 39 from hch)]
        rfl
      rw [hkept]
      simpa using hnext

theorem spells_shellDisplayArg (arg : Str) : Spells (shellDisplayArg arg) arg := by
  unfold shellDisplayArg
  split_ifs with he hall
  · rw [List.isEmpty_iff.mp he]
    exact Spells.single List.not_mem_nil
  · refine Spells.ordinary (by simpa using he) fun c hm => ?_
    exact isOrdinary_of_isPlainByte (List.all_eq_true.mp hall c hm)
  · exact spells_quoted List.not_mem_nil arg

theorem splitWords_formatCommand (command : List Str) : splitWords (formatCommand command) = some command := by
  refine splitWords_intercalate ?_
  rw [List.forall₂_map_left_iff]
  exact List.forall₂_same.mpr fun arg _ => spells_shellDisplayArg arg

/-- The displayed line is read back as the command, so no two commands are displayed alike. -/
theorem formatCommand_faithful :
    (∀ command, splitWords (formatCommand command) = some command) ∧ Function.Injective formatCommand ∧
      ∀ command, Harness.formatCommand command = formatCommand command := by
  refine ⟨splitWords_formatCommand,fun command command' h => ?_,fun _ => rfl⟩
  have hread := splitWords_formatCommand command
  rw [h,splitWords_formatCommand command'] at hread
  exact (Option.some.inj hread).symm

example : formatCommand [utf8 "sh",utf8 "-c",utf8 "it's",[]] = utf8 "sh -c 'it'\"'\"'s' ''" := by decide

end Repx.Display
