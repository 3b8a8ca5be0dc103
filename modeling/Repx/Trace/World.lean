import Repx.Foundation.UnixPaths
import Repx.Foundation.Utf8
import Repx.Trace.FileIdentity

/-! # The machine as the collector sees it

The collector looks at the machine while it processes a record: at symbolic links, at
canonical paths and at the contents of files. All of this is a parameter; paths are
byte strings, joined and compared by components.
-/
namespace Repx.Trace
open ByteString Utf8

/-- What the file system answers at one moment; `H` are open file handles. -/
structure World (H : Type) where
  readLink : Str → Option Str
  canonicalize : Str → Option Str
  openRegular : Str → Option H
  tryClone : H → Option H
  observeFile : H → Str → FileObservation
  observePath : Str → FileObservation

/-- `Path::join`: an absolute path replaces the base. -/
def joinPath (base path : Str) : Str :=
  if path.head? = some slash then path
  else if base.isEmpty || base.getLast? = some slash then base ++ path
  else base ++ [slash] ++ path

/-- `Path::components`: the root, and the names between slashes. A dot counts at the
beginning of a relative path only. -/
def pathComponents (path : Str) : List Str :=
  let names := (path.splitOn slash).zipIdx.filterMap fun (name,i) =>
    if name.isEmpty || name = utf8 "." && i != 0 then none else some name
  if path.head? = some slash then [slash] :: names else names

/-- The link of a descriptor and the path of its record name the same file. -/
def pathsAgree {H : Type} (w : World H) (rawPath procTarget : Str) : Bool :=
  rawPath == procTarget ||
    (match w.canonicalize rawPath, w.canonicalize procTarget with
      | some raw, some target => raw == target
      | _, _ => false) ||
    (rawPath.head? != some slash && (pathComponents rawPath).isSuffixOf (pathComponents procTarget))

def deletedSuffix : Str := utf8 " (deleted)"

def stripDeletedSuffix (path : Str) : Str :=
  if deletedSuffix.isSuffixOf path then path.take (path.length - deletedSuffix.length) else path

def procEntry (pid : UInt32) (entry : Str) : Str := utf8 "/proc/" ++ numeral 10 pid.toNat ++ entry

def procCwd (pid : UInt32) : Str := procEntry pid (utf8 "/cwd")

def procExe (pid : UInt32) : Str := procEntry pid (utf8 "/exe")

def procFd (pid : UInt32) (fd : Int32) : Str := procEntry pid (utf8 "/fd/" ++ decimal fd.toInt)

/-- The target of a link under `/proc`, as text. -/
def World.procTarget {H : Type} (w : World H) (link : Str) : Option Str :=
  (w.readLink link).map fun path => stripDeletedSuffix (lossy path)

section Components
open UnixPaths TextSearch

/-- The collector joins paths as the library does, and compares the components it has there. -/
theorem joinPath_eq_push (base path : Str) : joinPath base path = push base path := by
  by_cases hp : path.head? = some slash
  · simp [joinPath,push,isAbsolute,hp,show separator = slash from rfl]
  · by_cases hb : base = []
    · subst hb
      simp [joinPath,push,isAbsolute,hp,show separator = slash from rfl]
    · simp [joinPath,push,isAbsolute,hp,hb,show separator = slash from rfl]

/-- Behind the first name a dot counts for nothing. -/
theorem filterMap_zipIdx_names (names : List Str) {n : ℕ} (hn : n ≠ 0) :
    ((names.zipIdx n).filterMap fun (name,i) =>
      if name.isEmpty || name = utf8 "." && i != 0 then none else some name) =
        (names.filterMap component?).map Component.asOsStr := by
  induction names generalizing n with
  | nil => rfl
  | cons name names ih =>
    have htext := component?_text name
    have hdot : utf8 "." = [dot] := rfl
    rw [List.zipIdx_cons,List.filterMap_cons,List.filterMap_cons,ih n.succ_ne_zero]
    have hif : (if name.isEmpty || name = utf8 "." && n != 0 then none else some name) =
        (component? name).map Component.asOsStr := by
      rw [htext,hdot]
      simp [hn]
    simp only [hif]
    cases component? name <;> rfl

theorem pathComponents_eq_parts (path : Str) : pathComponents path = parts path := by
  have hdot : utf8 "." = [dot] := rfl
  rw [parts,components_eq,List.map_append,bodyComponents]
  simp only [pathComponents,show slash = separator from rfl]
  by_cases ha : isAbsolute path = true
  · obtain ⟨rest,rfl⟩ := isAbsolute_iff.mp ha
    have hsplit : (separator :: rest).splitOn separator = [] :: rest.splitOn separator := by
      simpa using List.splitOn_append_cons_self [] rest
    rw [hsplit,List.zipIdx_cons,List.filterMap_cons,filterMap_zipIdx_names _ (by simp),List.filterMap_cons]
    simp [lead,ha,Component.asOsStr,component?]
  · have hhead : path.head? ≠ some separator := by simpa [isAbsolute] using ha
    rw [if_neg hhead]
    obtain ⟨first,rest,hsplit⟩ := List.exists_cons_of_ne_nil (List.splitOn_ne_nil separator path)
    have hpath : [separator].intercalate (first :: rest) = path := by rw [← hsplit,List.intercalate_splitOn]
    rw [hsplit,List.zipIdx_cons,List.filterMap_cons,filterMap_zipIdx_names _ (by simp),List.filterMap_cons]
    have hmem : first ∈ path.splitOn separator := by simp [hsplit]
    have hnot : separator ∉ first := not_mem_of_mem_splitOn hmem
    have hlead := @lead_of_first first rest hnot (by rwa [hpath])
    rw [hpath] at hlead
    rw [hlead]
    by_cases h0 : first = []
    · simp [h0,component?]
    · by_cases h1 : first = [dot]
      · simp [h1,component?,Component.asOsStr,hdot]
      · have hc := component?_text first
        rw [if_neg (by simp [h0,h1])] at hc
        obtain ⟨c,hfirst,htext⟩ := Option.map_eq_some_iff.mp hc
        simp [h0,h1,hfirst,htext]

end Components

end Repx.Trace
