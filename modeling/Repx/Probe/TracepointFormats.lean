import Std.Data.ExtTreeMap
import Std.Data.ExtTreeMap.Lemmas
import Repx.Foundation.LineText
import Repx.Foundation.RecordLayout
import Repx.Foundation.UnixPaths

/-! # Offsets of tracepoint fields

Where a field lies in the record of a tracepoint differs between kernels. The tracer reads it
off the format files and loads the offsets into a map of the probes. What a probe reads is
the field that the kernel has declared under the name; a declaration that is missing stops
the tracer, unless the field is optional.
-/
namespace Repx.Probe
open Std ByteString UnixPaths LineText RecordLayout

/-! ## Keys and fields -/

namespace TpOffsets

def openatEnterDfd : UInt32 := 0

def openatEnterFilename : UInt32 := 1

def openatEnterFlags : UInt32 := 2

def openatExitRet : UInt32 := 3

def renameEnterOldPath : UInt32 := 4

def renameEnterNewPath : UInt32 := 5

def renameatEnterOldDfd : UInt32 := 6

def renameatEnterOldPath : UInt32 := 7

def renameatEnterNewDfd : UInt32 := 8

def renameatEnterNewPath : UInt32 := 9

def renameat2EnterFlags : UInt32 := 10

def unlinkEnterPath : UInt32 := 11

def unlinkatEnterDfd : UInt32 := 12

def unlinkatEnterPath : UInt32 := 13

def unlinkatEnterFlags : UInt32 := 14

def closeEnterFd : UInt32 := 15

def mmapEnterProt : UInt32 := 16

def mmapEnterFlags : UInt32 := 17

def mmapEnterFd : UInt32 := 18

def execDataLocFilename : UInt32 := 19

def forkChildPid : UInt32 := 20

def cloneExitRet : UInt32 := 21

def clone3ExitRet : UInt32 := 22

def renameExitRet : UInt32 := 23

def renameatExitRet : UInt32 := 24

def renameat2ExitRet : UInt32 := 25

def unlinkExitRet : UInt32 := 26

def unlinkatExitRet : UInt32 := 27

def maxOffsetKey : UInt32 := 28

end TpOffsets

structure OffsetSpec where
  key : UInt32
  system : String
  event : String
  field : String
  required : Bool
deriving DecidableEq

/-- Only the returns of `clone` and `clone3` may be missing. -/
def allOffsetSpecs : List OffsetSpec :=
  [⟨TpOffsets.openatEnterDfd,"syscalls","sys_enter_openat","dfd",true⟩,
    ⟨TpOffsets.openatEnterFilename,"syscalls","sys_enter_openat","filename",true⟩,
    ⟨TpOffsets.openatEnterFlags,"syscalls","sys_enter_openat","flags",true⟩,
    ⟨TpOffsets.openatExitRet,"syscalls","sys_exit_openat","ret",true⟩,
    ⟨TpOffsets.renameEnterOldPath,"syscalls","sys_enter_rename","oldname",true⟩,
    ⟨TpOffsets.renameEnterNewPath,"syscalls","sys_enter_rename","newname",true⟩,
    ⟨TpOffsets.renameatEnterOldDfd,"syscalls","sys_enter_renameat","olddfd",true⟩,
    ⟨TpOffsets.renameatEnterOldPath,"syscalls","sys_enter_renameat","oldname",true⟩,
    ⟨TpOffsets.renameatEnterNewDfd,"syscalls","sys_enter_renameat","newdfd",true⟩,
    ⟨TpOffsets.renameatEnterNewPath,"syscalls","sys_enter_renameat","newname",true⟩,
    ⟨TpOffsets.renameat2EnterFlags,"syscalls","sys_enter_renameat2","flags",true⟩,
    ⟨TpOffsets.unlinkEnterPath,"syscalls","sys_enter_unlink","pathname",true⟩,
    ⟨TpOffsets.unlinkatEnterDfd,"syscalls","sys_enter_unlinkat","dfd",true⟩,
    ⟨TpOffsets.unlinkatEnterPath,"syscalls","sys_enter_unlinkat","pathname",true⟩,
    ⟨TpOffsets.unlinkatEnterFlags,"syscalls","sys_enter_unlinkat","flag",true⟩,
    ⟨TpOffsets.closeEnterFd,"syscalls","sys_enter_close","fd",true⟩,
    ⟨TpOffsets.mmapEnterProt,"syscalls","sys_enter_mmap","prot",true⟩,
    ⟨TpOffsets.mmapEnterFlags,"syscalls","sys_enter_mmap","flags",true⟩,
    ⟨TpOffsets.mmapEnterFd,"syscalls","sys_enter_mmap","fd",true⟩,
    ⟨TpOffsets.renameExitRet,"syscalls","sys_exit_rename","ret",true⟩,
    ⟨TpOffsets.renameatExitRet,"syscalls","sys_exit_renameat","ret",true⟩,
    ⟨TpOffsets.renameat2ExitRet,"syscalls","sys_exit_renameat2","ret",true⟩,
    ⟨TpOffsets.unlinkExitRet,"syscalls","sys_exit_unlink","ret",true⟩,
    ⟨TpOffsets.unlinkatExitRet,"syscalls","sys_exit_unlinkat","ret",true⟩,
    ⟨TpOffsets.execDataLocFilename,"sched","sched_process_exec","filename",true⟩,
    ⟨TpOffsets.forkChildPid,"sched","sched_process_fork","child_pid",true⟩,
    ⟨TpOffsets.cloneExitRet,"syscalls","sys_exit_clone","ret",false⟩,
    ⟨TpOffsets.clone3ExitRet,"syscalls","sys_exit_clone3","ret",false⟩]

/-- The offsets of a typical machine. -/
def fallbackEntries : List (UInt32 × UInt32) :=
  [(TpOffsets.openatEnterDfd,16),(TpOffsets.openatEnterFilename,24),(TpOffsets.openatEnterFlags,32),
    (TpOffsets.openatExitRet,16),(TpOffsets.renameEnterOldPath,16),(TpOffsets.renameEnterNewPath,24),
    (TpOffsets.renameatEnterOldDfd,16),(TpOffsets.renameatEnterOldPath,24),(TpOffsets.renameatEnterNewDfd,32),
    (TpOffsets.renameatEnterNewPath,40),(TpOffsets.renameat2EnterFlags,48),(TpOffsets.unlinkEnterPath,16),
    (TpOffsets.unlinkatEnterDfd,16),(TpOffsets.unlinkatEnterPath,24),(TpOffsets.unlinkatEnterFlags,32),
    (TpOffsets.closeEnterFd,16),(TpOffsets.mmapEnterProt,32),(TpOffsets.mmapEnterFlags,40),
    (TpOffsets.mmapEnterFd,48),(TpOffsets.execDataLocFilename,8),(TpOffsets.forkChildPid,44),
    (TpOffsets.cloneExitRet,16),(TpOffsets.clone3ExitRet,16),(TpOffsets.renameExitRet,16),
    (TpOffsets.renameatExitRet,16),(TpOffsets.renameat2ExitRet,16),(TpOffsets.unlinkExitRet,16),
    (TpOffsets.unlinkatExitRet,16)]

def fallbackOffsets : ExtTreeMap UInt32 UInt32 := ExtTreeMap.ofList fallbackEntries

/-! ## Discovery -/

def fieldMark : Text := ['f','i','e','l','d',':']

def offsetMark : Text := ['o','f','f','s','e','t',':']

/-- The offset on a line that declares the named field. -/
def parseFormatFieldOffset (line targetName : Text) : Option UInt32 := do
  let afterField ← stripPrefix fieldMark (trim line)
  let (fieldDecl,rest) ← cutAt ';' afterField
  let name ← (splitWhitespace fieldDecl).getLast?
  if name ≠ targetName then none
  else do
    let afterOffset ← afterFirst offsetMark rest
    let (offsetStr,_) ← cutAt ';' afterOffset
    parseU32 (trim offsetStr)

def debugfsEvents : Str := utf8 "/sys/kernel/debug/tracing/events"

def OffsetSpec.formatPath (spec : OffsetSpec) : Str :=
  push (push (push debugfsEvents (utf8 spec.system)) (utf8 spec.event)) (utf8 "format")

section Discovery
variable (readToString : Str → Except Str Text)

/-- A field that cannot be found is skipped if it is optional. -/
def discoverField (offsets : ExtTreeMap UInt32 UInt32) (spec : OffsetSpec) :
    Except Str (ExtTreeMap UInt32 UInt32) :=
  match readToString spec.formatPath with
  | .error e =>
    if spec.required then
      .error (utf8 "cannot read tracepoint format file " ++ spec.formatPath ++ utf8 ": " ++ e)
    else .ok offsets
  | .ok content =>
    match (lines content).findSome? fun line => parseFormatFieldOffset line spec.field.toList with
    | some offset => .ok (offsets.insert spec.key offset)
    | none =>
      if spec.required then
        .error (utf8 "required field '" ++ utf8 spec.field ++ utf8 "' not found in " ++ spec.formatPath)
      else .ok offsets

/-- Without the file system of the tracer, built-in offsets are used if the environment allows for them. -/
def discoverTracepointOffsets (debugfs fallback : Bool) : Except Str (ExtTreeMap UInt32 UInt32) :=
  if debugfs then allOffsetSpecs.foldlM (discoverField readToString) ∅
  else if fallback then .ok fallbackOffsets
  else
    .error (debugfsEvents ++ utf8 " not found.\nMount debugfs to enable portable tracepoint field discovery:\n" ++
      utf8 "$ mount -t debugfs none /sys/kernel/debug\nSet REPX_FALLBACK_OFFSETS=1 to use built-in x86-64 " ++
      utf8 "offsets (not portable across architectures or kernel configs).")

end Discovery

/-- The record is read by offset and size, and the read may fail. -/
def readField {α : Type} (offsets : ExtTreeMap UInt32 UInt32) (key : UInt32) (codec : Codec α)
    (record : ℕ → ℕ → Except Int64 Str) : Except Int64 α :=
  let offset := offsets[key]?.getD 0
  if offset = 0 then .error (-1) else (record offset.toNat codec.size).map codec.decode

/-! ## Declarations -/

/-- A field as a format file declares it. -/
structure Declaration where
  type : Text
  name : Text
  offset : UInt32
  size : ℕ
  signed : Bool
  type_plain : ';' ∉ type ∧ '\n' ∉ type
  name_ne : name ≠ []
  name_solid : ∀ c ∈ name, isWhitespace c = false ∧ c ≠ ';'

namespace Declaration
variable (d : Declaration)

/-- The line between its first and its last character that is not blank. -/
def body : Text :=
  fieldMark ++ (d.type ++ ' ' :: d.name ++ ';' :: '\t' :: (offsetMark ++ (Nat.toDigits 10 d.offset.toNat ++
    ';' :: '\t' :: (['s','i','z','e',':'] ++ Nat.toDigits 10 d.size ++ ';' :: '\t' ::
      (['s','i','g','n','e','d',':'] ++ [if d.signed then '1' else '0',';'])))))

def text : Text := '\t' :: d.body

end Declaration

/-- Besides declarations, a file has lines that are none. -/
inductive FormatLine where
  | declaration (d : Declaration)
  | other (line : Text) (plain : '\n' ∉ line ∧ line.getLast? ≠ some '\r')
    (unmarked : stripPrefix fieldMark (trim line) = none)

namespace FormatLine

def text : FormatLine → Text
  | declaration d => d.text
  | other line _ _ => line

def declares (target : Text) : FormatLine → Option UInt32
  | declaration d => if d.name = target then some d.offset else none
  | other _ _ _ => none

end FormatLine

/-- The file system of the tracer: the lines of each file, or the reason why it cannot be read. -/
abbrev Tracefs := Str → Except Str (List FormatLine)

namespace Tracefs
variable (tracefs : Tracefs)

def readToString (path : Str) : Except Str Text :=
  (tracefs path).map fun file => file.flatMap fun line => line.text ++ ['\n']

/-- The first declaration of a field. -/
def declared (spec : OffsetSpec) : Option UInt32 :=
  match tracefs spec.formatPath with
  | .error _ => none
  | .ok file => file.findSome? (FormatLine.declares spec.field.toList)

/-- Why a field was not found. -/
def missing (spec : OffsetSpec) : Str :=
  match tracefs spec.formatPath with
  | .error e => utf8 "cannot read tracepoint format file " ++ spec.formatPath ++ utf8 ": " ++ e
  | .ok _ => utf8 "required field '" ++ utf8 spec.field ++ utf8 "' not found in " ++ spec.formatPath

/-- A required field that is not declared. -/
def lacks (spec : OffsetSpec) : Bool := spec.required && (tracefs.declared spec).isNone

/-- The offsets of those fields that are declared. -/
def insertDeclared (offsets : ExtTreeMap UInt32 UInt32) (spec : OffsetSpec) : ExtTreeMap UInt32 UInt32 :=
  (tracefs.declared spec).elim offsets (offsets.insert spec.key)

end Tracefs

/-! ## Lines of a format file -/

section Lines
variable (d : Declaration)

theorem isDigit_plain {c : Char} (h : c.isDigit = true) : isWhitespace c = false ∧ c ≠ ';' ∧ c ≠ '\n' := by
  have hlow : 48 ≤ c.toNat := (Char.isDigit_iff_toNat.mp h).1
  have hhigh : c.toNat ≤ 57 := (Char.isDigit_iff_toNat.mp h).2
  refine ⟨?_,?_,?_⟩
  · simp only [isWhitespace,Bool.or_eq_false_iff,Bool.and_eq_false_iff,decide_eq_false_iff_not,beq_eq_false_iff_ne]
    omega
  · rintro rfl
    exact absurd hhigh (by decide)
  · rintro rfl
    exact absurd hlow (by decide)

theorem plain_of_mem_toDigits {n : ℕ} {c : Char} (h : c ∈ Nat.toDigits 10 n) :
    isWhitespace c = false ∧ c ≠ ';' ∧ c ≠ '\n' :=
  isDigit_plain (Nat.isDigit_of_mem_toDigits (by decide) (by decide) h)

theorem body_ne : d.body ≠ [] := by simp [Declaration.body,fieldMark]

theorem getLast_body : d.body.getLast (body_ne d) = ';' := by simp [Declaration.body]

theorem trim_text : trim d.text = d.body := by
  have hends := @trim_of_ends ['\t'] d.body [] (by simp [isWhitespace]) nofun (body_ne d) rfl
    (by rw [getLast_body]; rfl)
  simpa [Declaration.text] using hends

/-- A declaration gives its offset to those who ask for its name. -/
theorem parse_declaration (target : Text) :
    parseFormatFieldOffset d.text target = if d.name = target then some d.offset else none := by
  have hsemicolon : ';' ∉ d.type ++ ' ' :: d.name := by
    simp only [List.mem_append,List.mem_cons,not_or]
    exact ⟨d.type_plain.1,by decide,fun hm => (d.name_solid _ hm).2 rfl⟩
  have hname : (splitWhitespace (d.type ++ ' ' :: d.name)).getLast? = some d.name :=
    getLast?_splitWhitespace rfl d.name_ne (fun c hc => (d.name_solid c hc).1) d.type
  have hdigits : ';' ∉ Nat.toDigits 10 d.offset.toNat := fun hm => (plain_of_mem_toDigits hm).2.1 rfl
  have htrim : trim (Nat.toDigits 10 d.offset.toNat) = Nat.toDigits 10 d.offset.toNat :=
    trim_of_solid fun c hc => (plain_of_mem_toDigits hc).1
  have hoffset (rest : Text) : afterFirst offsetMark (';' :: '\t' :: (offsetMark ++ rest)) = some rest := by
    have hhere : afterFirst offsetMark (offsetMark ++ rest) = some rest := by
      rw [offsetMark,List.cons_append,afterFirst,← List.cons_append,stripPrefix_append]
      rfl
    rw [afterFirst,afterFirst,hhere]
    rfl
  rw [parseFormatFieldOffset,trim_text,Declaration.body,stripPrefix_append]
  simp only [Option.bind_eq_bind,Option.bind_some,cutAt_append hsemicolon,hname,hoffset,cutAt_append hdigits,htrim,
    parseU32_toDigits]
  split_ifs with hdiffers <;> simp_all

theorem parse_text (line : FormatLine) (target : Text) :
    parseFormatFieldOffset line.text target = line.declares target := by
  cases line with
  | declaration d => exact parse_declaration d target
  | other text plain unmarked =>
    rw [FormatLine.text,parseFormatFieldOffset,unmarked]
    rfl

theorem text_plain (line : FormatLine) : '\n' ∉ line.text ∧ line.text.getLast? ≠ some '\r' := by
  cases line with
  | declaration d =>
    refine ⟨?_,?_⟩
    · have hname : '\n' ∉ d.name := fun hm => absurd (d.name_solid _ hm).1 (by decide)
      have hnumeral (n : ℕ) : '\n' ∉ Nat.toDigits 10 n := fun hm => (plain_of_mem_toDigits hm).2.2 rfl
      have hsigned : '\n' ≠ if d.signed then '1' else '0' := by split <;> decide
      simp [FormatLine.text,Declaration.text,Declaration.body,fieldMark,offsetMark,hname,hnumeral,d.type_plain.2,
        hsigned]
    · rw [FormatLine.text,Declaration.text,List.getLast?_cons_of_ne_nil (body_ne d),
        List.getLast?_eq_some_getLast (body_ne d),getLast_body]
      decide
  | other text plain unmarked => exact plain

end Lines

/-! ## The fields that a probe reads -/

section Fields
variable (tracefs : Tracefs)

theorem discoverField_eq (offsets : ExtTreeMap UInt32 UInt32) (spec : OffsetSpec) :
    discoverField tracefs.readToString offsets spec =
      if tracefs.lacks spec then .error (tracefs.missing spec) else .ok (tracefs.insertDeclared offsets spec) := by
  have hfind (file : List FormatLine) :
      (lines (file.flatMap fun line => line.text ++ ['\n'])).findSome?
          (fun line => parseFormatFieldOffset line spec.field.toList) =
        file.findSome? (FormatLine.declares spec.field.toList) := by
    have hlines : lines ((file.map FormatLine.text).flatMap fun line => line ++ ['\n']) = file.map FormatLine.text :=
      lines_flatMap (List.forall_mem_map.mpr fun line _ => (text_plain line).1)
        (List.forall_mem_map.mpr fun line _ => (text_plain line).2)
    rw [List.flatMap_map] at hlines
    rw [hlines,List.findSome?_map]
    exact congrArg (fun f => file.findSome? f) (funext fun line => parse_text line _)
  unfold discoverField Tracefs.readToString Tracefs.lacks Tracefs.missing Tracefs.insertDeclared Tracefs.declared
  cases tracefs spec.formatPath with
  | error e => cases spec.required <;> rfl
  | ok file =>
    simp only [Except.map,hfind]
    cases file.findSome? (FormatLine.declares spec.field.toList) <;> cases spec.required <;> rfl

/-- The first required field that is missing stops the discovery. -/
theorem foldlM_discoverField (specs : List OffsetSpec) (offsets : ExtTreeMap UInt32 UInt32) :
    specs.foldlM (discoverField tracefs.readToString) offsets =
      match specs.find? tracefs.lacks with
      | some spec => .error (tracefs.missing spec)
      | none => .ok (specs.foldl tracefs.insertDeclared offsets) := by
  induction specs generalizing offsets with
  | nil => rfl
  | cons spec specs ih =>
    rw [List.foldlM_cons,discoverField_eq,List.find?_cons]
    cases tracefs.lacks spec with
    | true => rfl
    | false => exact ih _

theorem getElem?_insertDeclared (offsets : ExtTreeMap UInt32 UInt32) (spec : OffsetSpec) (key : UInt32) :
    (tracefs.insertDeclared offsets spec)[key]? =
      if spec.key = key then (tracefs.declared spec).or offsets[key]? else offsets[key]? := by
  unfold Tracefs.insertDeclared
  cases tracefs.declared spec with
  | none => simp
  | some offset => simp [ExtTreeMap.getElem?_insert]

theorem getElem?_foldl_of_not_mem {specs : List OffsetSpec} {key : UInt32} (hk : key ∉ specs.map OffsetSpec.key)
    (offsets : ExtTreeMap UInt32 UInt32) : (specs.foldl tracefs.insertDeclared offsets)[key]? = offsets[key]? := by
  induction specs generalizing offsets with
  | nil => rfl
  | cons head specs ih =>
    obtain ⟨hne,hrest⟩ := not_or.mp (List.mem_cons.not.mp hk)
    rw [List.foldl_cons,ih hrest,getElem?_insertDeclared,if_neg (Ne.symm hne)]

theorem getElem?_foldl_insertDeclared {specs : List OffsetSpec} (hkeys : (specs.map OffsetSpec.key).Nodup)
    (offsets : ExtTreeMap UInt32 UInt32) {spec : OffsetSpec} (hspec : spec ∈ specs) :
    (specs.foldl tracefs.insertDeclared offsets)[spec.key]? = (tracefs.declared spec).or offsets[spec.key]? := by
  induction specs generalizing offsets with
  | nil => cases hspec
  | cons head specs ih =>
    obtain ⟨hhead,hrest⟩ := List.nodup_cons.mp hkeys
    rcases List.mem_cons.mp hspec with rfl | hspec
    · rw [List.foldl_cons,getElem?_foldl_of_not_mem tracefs hhead,getElem?_insertDeclared,if_pos rfl]
    · have hne : head.key ≠ spec.key := fun he => hhead (he ▸ List.mem_map_of_mem hspec)
      rw [List.foldl_cons,ih hrest _ hspec,getElem?_insertDeclared,if_neg hne]

theorem nodup_keys : (allOffsetSpecs.map OffsetSpec.key).Nodup := by decide

/-- Every key fits the map of the probes, and the built-in offsets serve every field. -/
theorem fallbackOffsets_serve : ∀ spec ∈ allOffsetSpecs, spec.key < TpOffsets.maxOffsetKey ∧
    (fallbackOffsets[spec.key]?.getD 0) ≠ 0 := by
  decide +kernel

/-- Discovery ends at the first required field that no file declares. Otherwise a probe that asks for a field
reads what the kernel stored at the declared offset, and nothing where an optional field is not declared. -/
theorem fields_read (fallback : Bool) :
    match discoverTracepointOffsets tracefs.readToString true fallback with
    | .error text => ∃ before spec after, allOffsetSpecs = before ++ spec :: after ∧ spec.required ∧
        tracefs.declared spec = none ∧ (∀ other ∈ before, other.required → tracefs.declared other ≠ none) ∧
        text = tracefs.missing spec
    | .ok offsets => ∀ spec ∈ allOffsetSpecs, (spec.required → tracefs.declared spec ≠ none) ∧
        ∀ {α : Type} (codec : Codec α) (record : ℕ → ℕ → Except Int64 Str),
          (∀ offset value, tracefs.declared spec = some offset → offset ≠ 0 →
            record offset.toNat codec.size = .ok (codec.encode value) →
              readField offsets spec.key codec record = .ok value) ∧
          (tracefs.declared spec = none → readField offsets spec.key codec record = .error (-1)) := by
  have hlacks {spec : OffsetSpec} : tracefs.lacks spec = false ↔ (spec.required → tracefs.declared spec ≠ none) := by
    cases hr : spec.required <;> simp [Tracefs.lacks,hr,Option.isSome_iff_ne_none]
  rw [discoverTracepointOffsets,if_pos rfl,foldlM_discoverField]
  cases hfind : allOffsetSpecs.find? tracefs.lacks with
  | some spec =>
    obtain ⟨hspec,before,after,hsplit,hbefore⟩ := List.find?_eq_some_iff_append.mp hfind
    obtain ⟨hrequired,hnone⟩ := Bool.and_eq_true_iff.mp hspec
    refine ⟨before,spec,after,hsplit,hrequired,Option.isNone_iff_eq_none.mp hnone,fun other ho => ?_,rfl⟩
    exact hlacks.mp (by simpa using hbefore other ho)
  | none =>
    intro spec hspec
    have hget := getElem?_foldl_insertDeclared tracefs nodup_keys ∅ hspec
    have hempty : (∅ : ExtTreeMap UInt32 UInt32)[spec.key]? = none := ExtTreeMap.getElem?_empty
    rw [hempty,Option.or_none] at hget
    refine ⟨hlacks.mp (by simpa using List.find?_eq_none.mp hfind spec hspec),fun codec record => ⟨?_,?_⟩⟩
    · intro offset value hdeclared hoffset hrecord
      simp only [readField,hget,hdeclared,Option.getD_some,if_neg hoffset,hrecord,Except.map,codec.decode_encode]
    · intro hdeclared
      simp only [readField,hget,hdeclared,Option.getD_none,if_true]

end Fields

end Repx.Probe
