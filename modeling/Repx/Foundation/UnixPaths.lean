import Repx.Foundation.ByteString
import Repx.Foundation.TextSearch

/-! # Unix paths

The components of a path as the iterator of the standard library yields them, the
operations that build a path from others, and the lexical normal form in which a
parent component takes back the one before it. All of them work on the text.
-/
namespace Repx.UnixPaths
open ByteString TextSearch

def separator : UInt8 := 47

def dot : UInt8 := 46

inductive Component where
  | rootDir
  | curDir
  | parentDir
  | normal (name : Str)
deriving DecidableEq

def Component.asOsStr : Component → Str
  | rootDir => [separator]
  | curDir => [dot]
  | parentDir => [dot,dot]
  | normal name => name

/-- What a piece between separators stands for: nothing when it is empty or a dot. -/
def component? (piece : Str) : Option Component :=
  if piece = [] ∨ piece = [dot] then none
  else if piece = [dot,dot] then some .parentDir
  else some (.normal piece)

def skipped (piece : Str) : Bool := (component? piece).isNone

def isAbsolute (path : Str) : Bool := path.head? == some separator

/-- A relative path that begins with a dot component. -/
def includesCurDir (path : Str) : Bool :=
  path.head? == some dot && (path.tail == [] || path.tail.head? == some separator)

/-- An iterator over components: the root or leading dot if it is still to come, and the
pieces behind it. -/
structure Unread where
  front : Option Component
  body : List Str
deriving DecidableEq

def unread (path : Str) : Unread :=
  if isAbsolute path then ⟨some .rootDir,path.tail.splitOn separator⟩
  else if includesCurDir path then ⟨some .curDir,path.tail.splitOn separator⟩
  else ⟨none,path.splitOn separator⟩

def Unread.toList (u : Unread) : List Component := u.front.toList ++ u.body.filterMap component?

/-- `Path::components`. -/
def components (path : Str) : List Component := (unread path).toList

/-- `Components::as_path`. -/
def Unread.asPath (u : Unread) : Str :=
  let body := u.body.rdropWhile skipped
  match u.front with
  | some c => c.asOsStr ++ [separator].intercalate body
  | none => [separator].intercalate (body.dropWhile skipped)

def nextPiece : List Str → Option (Component × List Str)
  | [] => none
  | piece :: body =>
    match component? piece with
    | some c => some (c,body)
    | none => nextPiece body

def Unread.next (u : Unread) : Option (Component × Unread) :=
  match u.front with
  | some c => some (c,⟨none,u.body⟩)
  | none => (nextPiece u.body).map fun (c,body) => (c,⟨none,body⟩)

/-- What is left of an iterator behind the given components. -/
def iterAfter : Unread → List Component → Option Unread
  | u, [] => some u
  | u, c :: base =>
    match u.next with
    | some (x,rest) => if x = c then iterAfter rest base else none
    | none => none

/-- `Path::strip_prefix`. -/
def stripBase (path base : Str) : Option Str := (iterAfter (unread path) (components base)).map Unread.asPath

/-- `Path::starts_with`. -/
def startsWith (path base : Str) : Bool := (iterAfter (unread path) (components base)).isSome

/-- `Path::file_name`. -/
def fileName (path : Str) : Option Str :=
  match (components path).getLast? with
  | some (.normal name) => some name
  | _ => none

/-- `Path::parent`. -/
def parent (path : Str) : Option Str :=
  let u := unread path
  match (u.body.rdropWhile skipped).reverse with
  | _ :: before => some (Unread.mk u.front before.reverse).asPath
  | [] => if u.front = some .curDir then some [] else none

/-- `PathBuf::push`, and `Path::join`: an absolute path replaces what it is added to. -/
def push (base path : Str) : Str :=
  if isAbsolute path then path
  else if base = [] ∨ base.getLast? = some separator then base ++ path
  else base ++ [separator] ++ path

/-- `PathBuf::pop`. -/
def pop (path : Str) : Str := (parent path).getD path

def collect (parts : List Str) : Str := parts.foldl push []

/-- The lexical normal form, component by component. -/
def normalizePath (path : Str) : Str :=
  (components path).foldl
    (fun normalized component =>
      match component with
      | .curDir => normalized
      | .parentDir => pop normalized
      | other => push normalized other.asOsStr) []

/-- The components of a text behind the beginning of a path. -/
def bodyComponents (text : Str) : List Component := (text.splitOn separator).filterMap component?

@[simp] theorem bodyComponents_nil : bodyComponents [] = [] := rfl

theorem bodyComponents_append_separator (a b : Str) :
    bodyComponents (a ++ separator :: b) = bodyComponents a ++ bodyComponents b := by
  rw [bodyComponents,List.splitOn_append_cons_self,List.filterMap_append]
  rfl

theorem bodyComponents_separator_cons (b : Str) : bodyComponents (separator :: b) = bodyComponents b := by
  simpa using bodyComponents_append_separator [] b

def lead (path : Str) : List Component :=
  if isAbsolute path then [.rootDir] else if includesCurDir path then [.curDir] else []

theorem isAbsolute_iff {path : Str} : isAbsolute path = true ↔ ∃ rest, path = separator :: rest := by
  cases path with
  | nil => simp [isAbsolute]
  | cons b rest => simp [isAbsolute]

theorem components_eq (path : Str) : components path = lead path ++ bodyComponents path := by
  by_cases ha : isAbsolute path = true
  · obtain ⟨rest,rfl⟩ := isAbsolute_iff.mp ha
    simp [components,unread,Unread.toList,lead,ha,bodyComponents_separator_cons]
    rfl
  · by_cases hc : includesCurDir path = true
    · cases path with
      | nil => simp [includesCurDir] at hc
      | cons b rest =>
        simp only [includesCurDir,List.head?_cons,List.tail_cons,Bool.and_eq_true,beq_iff_eq,
          Option.some.injEq,Bool.or_eq_true] at hc
        obtain ⟨rfl,rfl | hr⟩ := hc
        · decide
        · cases rest with
          | nil => simp at hr
          | cons b rest =>
            rw [List.head?_cons,Option.some.injEq] at hr
            subst hr
            have hu : components (dot :: separator :: rest) =
                .curDir :: bodyComponents (separator :: rest) := rfl
            have hl : lead (dot :: separator :: rest) = [.curDir] := rfl
            have hb : bodyComponents (dot :: separator :: rest) =
                bodyComponents [dot] ++ bodyComponents rest := bodyComponents_append_separator [dot] rest
            rw [hu,hl,hb,bodyComponents_separator_cons]
            rfl
    · simp [components,unread,Unread.toList,lead,ha,hc,bodyComponents]

theorem lead_append_separator {base : Str} (hb : base ≠ []) (tail : Str) :
    lead (base ++ separator :: tail) = lead base := by
  cases base with
  | nil => exact absurd rfl hb
  | cons b rest => cases rest <;> simp [lead,isAbsolute,includesCurDir]

/-- A separator after the last component counts for nothing. -/
theorem components_append_separator {base : Str} (hb : base ≠ []) (tail : Str) :
    components (base ++ separator :: tail) = components base ++ bodyComponents tail := by
  rw [components_eq,components_eq base,bodyComponents_append_separator,List.append_assoc,
    lead_append_separator hb]

/-- A relative path is added behind the components there are. -/
theorem components_push {base path : Str} (hb : base ≠ []) (hp : isAbsolute path = false) :
    components (push base path) = components base ++ bodyComponents path := by
  simp only [push,hp,hb,false_or,Bool.false_eq_true,if_false]
  split_ifs with hs
  · obtain ⟨front,rfl⟩ := List.getLast?_eq_some_iff.mp hs
    by_cases hf : front = []
    · subst hf
      rw [List.nil_append,List.singleton_append,components_eq,bodyComponents_separator_cons]
      rfl
    · have hd := components_append_separator hf []
      rw [bodyComponents_nil,List.append_nil] at hd
      rw [List.append_assoc,List.singleton_append,components_append_separator hf,hd]
  · rw [List.append_assoc,List.singleton_append,components_append_separator hb]

theorem splitOn_intercalate_body {body : List Str} (h : ∀ piece ∈ body, separator ∉ piece) :
    bodyComponents ([separator].intercalate body) = body.filterMap component? := by
  by_cases hb : body = []
  · subst hb
    rfl
  · rw [bodyComponents,List.splitOn_intercalate separator h hb]

theorem component?_eq_none_of_skipped {piece : Str} (h : skipped piece = true) :
    component? piece = none := by
  simpa [skipped] using h

theorem filterMap_rdropWhile_skipped (body : List Str) :
    (body.rdropWhile skipped).filterMap component? = body.filterMap component? := by
  induction body using List.reverseRecOn with
  | nil => rfl
  | append_singleton body piece ih =>
    by_cases hs : skipped piece = true
    · rw [List.rdropWhile_concat_pos skipped body piece hs,ih]
      simp [component?_eq_none_of_skipped hs]
    · rw [List.rdropWhile_concat_neg skipped body piece hs]

theorem filterMap_dropWhile_skipped (body : List Str) :
    (body.dropWhile skipped).filterMap component? = body.filterMap component? := by
  induction body with
  | nil => rfl
  | cons piece body ih =>
    by_cases hs : skipped piece = true
    · rw [List.dropWhile_cons_of_pos hs,ih]
      simp [component?_eq_none_of_skipped hs]
    · rw [List.dropWhile_cons_of_neg hs]

/-- Pieces of a path: none of them holds a separator. -/
def Unread.Separated (u : Unread) : Prop := ∀ piece ∈ u.body, separator ∉ piece

/-- The text of an iterator past the beginning is a relative path of what it still yields. -/
theorem Unread.asPath_body {u : Unread} (hf : u.front = none) (hs : u.Separated) :
    bodyComponents u.asPath = u.toList ∧ isAbsolute u.asPath = false := by
  have hp : u.asPath = [separator].intercalate ((u.body.rdropWhile skipped).dropWhile skipped) := by
    simp only [asPath,hf]
  have hmem : ∀ piece ∈ (u.body.rdropWhile skipped).dropWhile skipped, separator ∉ piece :=
    fun piece hm => hs piece ((List.rdropWhile_prefix skipped u.body).subset
      ((List.dropWhile_suffix skipped).subset hm))
  constructor
  · rw [hp,splitOn_intercalate_body hmem,filterMap_dropWhile_skipped,filterMap_rdropWhile_skipped]
    simp [toList,hf]
  · rw [hp]
    cases hl : (u.body.rdropWhile skipped).dropWhile skipped with
    | nil => rfl
    | cons piece body =>
      have hpiece : skipped piece = false := by
        have hh := List.head?_dropWhile_not skipped (u.body.rdropWhile skipped)
        simpa [hl] using hh
      cases piece with
      | nil => simp [skipped,component?] at hpiece
      | cons b rest =>
        have hb : b ≠ separator := by
          rintro rfl
          exact hmem (separator :: rest) (by simp [hl]) (by simp)
        cases body <;> simp [List.intercalate_cons_cons,isAbsolute,hb]

theorem nextPiece_eq_some {body rest : List Str} {c : Component} (h : nextPiece body = some (c,rest)) :
    body.filterMap component? = c :: rest.filterMap component? ∧ rest <:+ body := by
  induction body with
  | nil => simp [nextPiece] at h
  | cons piece body ih =>
    cases hp : component? piece with
    | none =>
      simp only [nextPiece,hp] at h
      obtain ⟨hf,hs⟩ := ih h
      exact ⟨by simp [hp,hf],hs.trans (List.suffix_cons piece body)⟩
    | some x =>
      simp only [nextPiece,hp,Option.some.injEq,Prod.mk.injEq] at h
      obtain ⟨rfl,rfl⟩ := h
      exact ⟨by simp [hp],List.suffix_cons piece body⟩

theorem Unread.next_eq_some {u rest : Unread} {c : Component} (h : u.next = some (c,rest)) :
    u.toList = c :: rest.toList ∧ rest.front = none ∧ rest.body <:+ u.body := by
  cases hf : u.front with
  | some x =>
    simp only [next,hf,Option.some.injEq,Prod.mk.injEq] at h
    obtain ⟨rfl,rfl⟩ := h
    exact ⟨by simp [toList,hf],rfl,List.suffix_rfl⟩
  | none =>
    simp only [next,hf,Option.map_eq_some_iff] at h
    obtain ⟨⟨x,body⟩,hn,he⟩ := h
    simp only [Prod.mk.injEq] at he
    obtain ⟨rfl,rfl⟩ := he
    obtain ⟨hl,hs⟩ := nextPiece_eq_some hn
    exact ⟨by simp [toList,hf,hl],rfl,hs⟩

/-- What is left behind some components is the rest of the components. -/
theorem iterAfter_eq_some {base : List Component} {u rest : Unread} (h : iterAfter u base = some rest) :
    u.toList = base ++ rest.toList ∧ rest.body <:+ u.body ∧ (base ≠ [] → rest.front = none) := by
  induction base generalizing u with
  | nil =>
    obtain rfl := Option.some.inj h
    exact ⟨rfl,List.suffix_rfl,fun hn => absurd rfl hn⟩
  | cons c base ih =>
    cases hn : u.next with
    | none => simp [iterAfter,hn] at h
    | some step =>
      obtain ⟨x,next⟩ := step
      simp only [iterAfter,hn] at h
      split_ifs at h with hx
      subst hx
      obtain ⟨hl,hf,hs⟩ := Unread.next_eq_some hn
      obtain ⟨hr,hb,hfront⟩ := ih h
      refine ⟨by rw [hl,hr,List.cons_append],hb.trans hs,fun _ => ?_⟩
      cases base with
      | nil =>
        obtain rfl := Option.some.inj h
        exact hf
      | cons d base => exact hfront (by simp)

theorem nextPiece_eq_none {body : List Str} (h : nextPiece body = none) : body.filterMap component? = [] := by
  induction body with
  | nil => rfl
  | cons piece body ih =>
    cases hp : component? piece with
    | none =>
      simp only [nextPiece,hp] at h
      rw [List.filterMap_cons_none hp,ih h]
    | some c => simp [nextPiece,hp] at h

theorem Unread.next_eq_none {u : Unread} (h : u.next = none) : u.toList = [] := by
  cases hf : u.front with
  | some c => simp [next,hf] at h
  | none =>
    simp only [next,hf,Option.map_eq_none_iff] at h
    rw [toList,hf,nextPiece_eq_none h]
    rfl

theorem isSome_iterAfter {u : Unread} {base : List Component} :
    (iterAfter u base).isSome = true ↔ base <+: u.toList := by
  induction base generalizing u with
  | nil => simp [iterAfter]
  | cons c base ih =>
    cases hn : u.next with
    | none => simp [iterAfter,hn,Unread.next_eq_none hn]
    | some step =>
      obtain ⟨x,rest⟩ := step
      rw [(Unread.next_eq_some hn).1,List.cons_prefix_cons]
      by_cases hx : x = c
      · simp [iterAfter,hn,hx,ih]
      · simp [iterAfter,hn,hx,Ne.symm hx]

/-- A path starts with another one when its components do. -/
theorem startsWith_iff {path base : Str} : startsWith path base = true ↔ components base <+: components path :=
  isSome_iterAfter

/-- A path stripped of a base is the relative path that leads to it from there. -/
theorem stripBase_eq_some {path base rest : Str} (hb : components base ≠ [])
    (h : stripBase path base = some rest) :
    components path = components base ++ bodyComponents rest ∧ isAbsolute rest = false := by
  simp only [stripBase,Option.map_eq_some_iff] at h
  obtain ⟨u,hu,rfl⟩ := h
  obtain ⟨hl,hs,hf⟩ := iterAfter_eq_some hu
  have hsep : u.Separated := fun piece hm => by
    have hp := hs.subset hm
    simp only [unread] at hp
    split_ifs at hp <;> exact not_mem_of_mem_splitOn hp
  obtain ⟨hbody,ha⟩ := Unread.asPath_body (hf hb) hsep
  exact ⟨by rw [hbody]; exact hl,ha⟩

/-- Only whole pieces of an absolute path are left when a base is taken off it. -/
theorem stripBase_pieces {path base rest : Str} (hp : isAbsolute path = true) (hb : components base ≠ [])
    (h : stripBase path base = some rest) :
    ∃ pieces, rest = [separator].intercalate pieces ∧ ∀ piece ∈ pieces, piece ∈ path.splitOn separator := by
  simp only [stripBase,Option.map_eq_some_iff] at h
  obtain ⟨u,hu,rfl⟩ := h
  obtain ⟨-,hs,hf⟩ := iterAfter_eq_some hu
  obtain ⟨text,rfl⟩ := isAbsolute_iff.mp hp
  have hbody : (unread (separator :: text)).body = text.splitOn separator := rfl
  have hsplit : (separator :: text).splitOn separator = [] :: text.splitOn separator := by
    simpa using List.splitOn_append_cons_self [] text
  refine ⟨(u.body.rdropWhile skipped).dropWhile skipped,by simp only [Unread.asPath,hf hb],fun piece hm => ?_⟩
  have hu := hs.subset ((List.rdropWhile_prefix skipped u.body).subset ((List.dropWhile_suffix skipped).subset hm))
  rw [hbody] at hu
  rw [hsplit]
  exact List.mem_cons_of_mem _ hu

/-- The name of a component: a piece that is not skipped. -/
def IsName (name : Str) : Prop := name ≠ [] ∧ separator ∉ name ∧ name ≠ [dot]

def ofName (name : Str) : Component := if name = [dot,dot] then .parentDir else .normal name

theorem component?_ofName {name : Str} (h : IsName name) : component? name = some (ofName name) := by
  simp only [component?,ofName,h.1,h.2.2,or_self,if_false]
  split_ifs <;> rfl

theorem asOsStr_ofName (name : Str) : (ofName name).asOsStr = name := by
  simp only [ofName]
  split_ifs with h
  · exact h.symm
  · rfl

theorem bodyComponents_name {name : Str} (h : IsName name) : bodyComponents name = [ofName name] := by
  rw [bodyComponents,List.splitOn_eq_singleton h.2.1]
  simp [component?_ofName h]

theorem isAbsolute_name {name : Str} (h : separator ∉ name) : isAbsolute name = false := by
  cases name with
  | nil => rfl
  | cons b rest =>
    simp only [List.mem_cons,not_or] at h
    simpa [isAbsolute] using Ne.symm h.1

/-- The components behind the beginning are names. -/
theorem exists_name_of_mem {text : Str} {c : Component} (h : c ∈ bodyComponents text) :
    ∃ name, IsName name ∧ c = ofName name := by
  obtain ⟨piece,hp,hc⟩ := List.mem_filterMap.mp h
  have hsep := not_mem_of_mem_splitOn hp
  simp only [component?] at hc
  split_ifs at hc with hs hd
  · exact ⟨piece,⟨fun h0 => hs (Or.inl h0),hsep,fun h1 => hs (Or.inr h1)⟩,by simpa [ofName,hd] using hc.symm⟩
  · exact ⟨piece,⟨fun h0 => hs (Or.inl h0),hsep,fun h1 => hs (Or.inr h1)⟩,by simpa [ofName,hd] using hc.symm⟩

theorem lead_name {name : Str} (h : IsName name) : lead name = [] := by
  obtain ⟨hne,hsep,hdot⟩ := h
  have hc : includesCurDir name = false := by
    cases name with
    | nil => rfl
    | cons b rest =>
      cases rest with
      | nil => simpa [includesCurDir] using hdot
      | cons c rest =>
        simp only [List.mem_cons,not_or] at hsep
        simp [includesCurDir,Ne.symm hsep.2.1]
  simp [lead,isAbsolute_name hsep,hc]

/-- How a path begins: with the root, with a dot, or with its first name. -/
def IsLead (front : Option Component) : Prop := front = none ∨ front = some .rootDir ∨ front = some .curDir

theorem lead_isLead (path : Str) : ∃ front, IsLead front ∧ lead path = front.toList := by
  simp only [lead]
  split_ifs
  · exact ⟨some .rootDir,by simp [IsLead],rfl⟩
  · exact ⟨some .curDir,by simp [IsLead],rfl⟩
  · exact ⟨none,by simp [IsLead],rfl⟩

/-- A path built of components has these components. -/
theorem components_collect {front : Option Component} (hf : IsLead front) {names : List Str}
    (hn : ∀ name ∈ names, IsName name) :
    components (collect (front.toList.map Component.asOsStr ++ names)) =
      front.toList ++ names.map ofName := by
  induction names using List.reverseRecOn with
  | nil => rcases hf with rfl | rfl | rfl <;> decide
  | append_singleton names name ih =>
    have hname := hn name (by simp)
    have ih := ih fun n hm => hn n (by simp [hm])
    rw [← List.append_assoc,collect,List.foldl_append,List.foldl_cons,List.foldl_nil,← collect]
    by_cases h0 : collect (front.toList.map Component.asOsStr ++ names) = []
    · have he := ih
      rw [h0] at he
      have hempty : front.toList ++ names.map ofName = [] := he.symm
      obtain ⟨hfront,hnames⟩ := List.append_eq_nil_iff.mp hempty
      rw [h0,List.map_append,hnames,hfront,push,isAbsolute_name hname.2.1]
      simp [components_eq,lead_name hname,bodyComponents_name hname]
    · rw [components_push h0 (isAbsolute_name hname.2.1),ih,bodyComponents_name hname,List.map_append,
        List.append_assoc,List.map_singleton]

theorem ofName_injective : Function.Injective ofName :=
  fun a b h => by rw [← asOsStr_ofName a,h,asOsStr_ofName]

theorem push_ne_nil {base path : Str} (h : base ≠ []) (hp : isAbsolute path = false) : push base path ≠ [] := by
  rw [push,hp,if_neg (by simp)]
  split_ifs <;> simp [h]

/-- Relative paths are told apart below any directory. -/
theorem push_injective_of_relative {base path path' : Str} (hp : isAbsolute path = false)
    (hp' : isAbsolute path' = false) (h : push base path = push base path') : path = path' := by
  simp only [push,hp,hp',Bool.false_eq_true,if_false] at h
  split_ifs at h <;> exact List.append_cancel_left h

/-- Going down by names adds them to the components. -/
theorem components_foldl_push {base : Str} (hb : base ≠ []) {names : List Str} (hn : ∀ name ∈ names, IsName name) :
    components (names.foldl push base) = components base ++ names.map ofName := by
  induction names generalizing base with
  | nil => simp
  | cons name names ih =>
    have hname := hn name List.mem_cons_self
    have hrel := isAbsolute_name hname.2.1
    rw [List.foldl_cons,ih (push_ne_nil hb hrel) fun n hm => hn n (List.mem_cons_of_mem _ hm),
      components_push hb hrel,bodyComponents_name hname,List.append_assoc,List.map_cons,List.singleton_append]

/-- The components of a path as text. -/
def parts (path : Str) : List Str := (components path).map Component.asOsStr

theorem component?_text (name : Str) :
    (component? name).map Component.asOsStr = if name = [] ∨ name = [dot] then none else some name := by
  simp only [component?]
  split_ifs with h hd
  · rfl
  · rw [hd]
    rfl
  · rfl

/-- A relative path begins with a dot component when its first name is a dot. -/
theorem lead_of_first {first : Str} {rest : List Str} (hf : separator ∉ first)
    (h : ([separator].intercalate (first :: rest)).head? ≠ some separator) :
    lead ([separator].intercalate (first :: rest)) = if first = [dot] then [.curDir] else [] := by
  have habs : isAbsolute ([separator].intercalate (first :: rest)) = false := by simpa [isAbsolute] using h
  have hcur : includesCurDir ([separator].intercalate (first :: rest)) = decide (first = [dot]) := by
    cases first with
    | nil =>
      cases rest with
      | nil => rfl
      | cons next rest => simp [List.intercalate_cons_cons] at h
    | cons c first =>
      cases first with
      | nil =>
        have hc : (c == dot) = decide (c = dot) := rfl
        cases rest <;> simp [includesCurDir,List.intercalate_cons_cons,hc]
      | cons c' first =>
        have hc' : c' ≠ separator := by
          rintro rfl
          simp at hf
        cases rest <;> simp [includesCurDir,List.intercalate_cons_cons,hc']
  simp [lead,habs,hcur]

/-- The parts of some path: how it begins, and names. -/
def Parted (texts : List Str) : Prop :=
  ∃ front, IsLead front ∧ ∃ names, (∀ name ∈ names, IsName name) ∧
    texts = front.toList.map Component.asOsStr ++ names

theorem parts_parted (path : Str) : Parted (parts path) := by
  obtain ⟨front,hf,hl⟩ := lead_isLead path
  refine ⟨front,hf,(bodyComponents path).map Component.asOsStr,fun name hm => ?_,?_⟩
  · obtain ⟨c,hc,rfl⟩ := List.mem_map.mp hm
    obtain ⟨name,hn,rfl⟩ := exists_name_of_mem hc
    rwa [asOsStr_ofName]
  · rw [parts,components_eq,hl,List.map_append]

theorem Parted.parts_collect {texts : List Str} (h : Parted texts) : parts (collect texts) = texts := by
  obtain ⟨front,hf,names,hn,rfl⟩ := h
  rw [parts,components_collect hf hn,List.map_append,List.map_map]
  congr 1
  conv_rhs => rw [← List.map_id names]
  exact List.map_congr_left fun name _ => asOsStr_ofName name

/-- A text put in the place of every name leaves the parts of a path. -/
theorem Parted.map {texts : List Str} (h : Parted texts) {f : Str → Str} (hroot : f [separator] = [separator])
    (hdot : f [dot] = [dot]) (hname : ∀ name, IsName name → IsName (f name)) : Parted (texts.map f) := by
  obtain ⟨front,hf,names,hn,rfl⟩ := h
  refine ⟨front,hf,names.map f,fun name hm => ?_,?_⟩
  · obtain ⟨old,ho,rfl⟩ := List.mem_map.mp hm
    exact hname old (hn old ho)
  · rw [List.map_append]
    rcases hf with rfl | rfl | rfl <;> simp [Component.asOsStr,hroot,hdot]

theorem Parted.names_of_root {texts : List Str} (h : Parted ([separator] :: texts)) :
    ∀ name ∈ texts, IsName name := by
  obtain ⟨front,hf,names,hn,he⟩ := h
  rcases hf with rfl | rfl | rfl
  · simp only [Option.toList_none,List.map_nil,List.nil_append] at he
    have hroot := hn [separator] (by simp [← he])
    exact absurd hroot.2.1 (by decide)
  · simp only [Option.toList_some,List.map_cons,List.map_nil,List.singleton_append,List.cons.injEq] at he
    rw [he.2]
    exact hn
  · simp only [Option.toList_some,List.map_cons,List.map_nil,List.singleton_append,List.cons.injEq] at he
    exact absurd he.1 (by decide)

theorem collect_concat (front : List Str) (name : Str) : collect (front ++ [name]) = push (collect front) name := by
  simp [collect,List.foldl_append]

theorem collect_prefix {front names : List Str} (hn : ∀ name ∈ names, IsName name) :
    collect front <+: collect (front ++ names) := by
  induction names using List.reverseRecOn with
  | nil => simp
  | append_singleton names name ih =>
    have hname := hn name (by simp)
    refine (ih fun n hm => hn n (by simp [hm])).trans ?_
    rw [← List.append_assoc,collect_concat,push,isAbsolute_name hname.2.1,if_neg (by simp)]
    split
    · exact List.prefix_append _ _
    · rw [List.append_assoc]
      exact List.prefix_append _ _

/-- Names are added behind a separator. -/
theorem separator_prefix_collect {front names : List Str} {dir name : Str} (hc : collect front = dir)
    (hd : dir ≠ []) (hl : dir.getLast? ≠ some separator) (hn : ∀ n ∈ name :: names, IsName n) :
    dir ++ separator :: name <+: collect (front ++ name :: names) := by
  have hname := hn name (by simp)
  have hstep : collect (front ++ [name]) = dir ++ separator :: name := by
    rw [collect_concat,hc,push,isAbsolute_name hname.2.1,if_neg (by simp),if_neg (by simp [hd,hl])]
    simp
  rw [← hstep,show front ++ name :: names = front ++ [name] ++ names by simp]
  exact collect_prefix fun n hm => hn n (by simp [hm])

/-- An absolute path without a separator at its end, or the root. -/
def Canonical (path : Str) : Prop :=
  isAbsolute path = true ∧ (path = [separator] ∨ path.getLast? ≠ some separator)

theorem canonical_root : Canonical [separator] := ⟨rfl,Or.inl rfl⟩

theorem Canonical.push {path name : Str} (h : Canonical path) (hn : IsName name) :
    Canonical (push path name) := by
  have hlast (front : Str) : (front ++ name).getLast? ≠ some separator := by
    rw [List.getLast?_append_of_ne_nil front hn.1]
    exact fun hl => hn.2.1 (List.mem_of_getLast? hl)
  obtain ⟨rest,rfl⟩ := isAbsolute_iff.mp h.1
  rw [UnixPaths.push,isAbsolute_name hn.2.1,if_neg (by simp)]
  split
  · exact ⟨rfl,Or.inr (hlast _)⟩
  · exact ⟨rfl,Or.inr (hlast _)⟩

theorem suffix_intercalate (front : List Str) (piece : Str) :
    piece <:+ [separator].intercalate (front ++ [piece]) := by
  induction front with
  | nil => simp
  | cons first front ih =>
    rw [List.cons_append,List.intercalate_cons_of_ne_nil (by simp)]
    exact ih.trans (List.suffix_append _ _)

/-- The text of an iterator that still has its root to yield. -/
theorem Unread.asPath_root {body : List Str} (hs : ∀ piece ∈ body, separator ∉ piece) :
    Canonical (Unread.asPath ⟨some .rootDir,body⟩) := by
  simp only [asPath,Component.asOsStr]
  refine ⟨rfl,?_⟩
  cases hl : body.rdropWhile skipped using List.reverseRecOn with
  | nil => exact Or.inl rfl
  | append_singleton front piece =>
    refine Or.inr ?_
    have hpiece : skipped piece = false := by
      have hne : body.rdropWhile skipped ≠ [] := by simp [hl]
      have hh := List.rdropWhile_last_not skipped body hne
      simpa [hl] using hh
    have hne : piece ≠ [] := by
      rintro rfl
      simp [skipped,component?] at hpiece
    have hmem : piece ∈ body := (List.rdropWhile_prefix skipped body).subset (by simp [hl])
    obtain ⟨text,ht⟩ := suffix_intercalate front piece
    rw [← ht,← List.append_assoc,List.getLast?_append_of_ne_nil _ hne]
    exact fun hlast => hs piece hmem (List.mem_of_getLast? hlast)

theorem Canonical.pop {path : Str} (h : Canonical path) : Canonical (pop path) := by
  obtain ⟨rest,rfl⟩ := isAbsolute_iff.mp h.1
  have hu : unread (separator :: rest) = ⟨some .rootDir,rest.splitOn separator⟩ := rfl
  cases hb : ((rest.splitOn separator).rdropWhile skipped).reverse with
  | nil => simpa [UnixPaths.pop,parent,hu,hb] using h
  | cons piece before =>
    simp only [UnixPaths.pop,parent,hu,hb,Option.getD_some]
    apply Unread.asPath_root
    intro piece' hm
    have hr : piece' ∈ ((rest.splitOn separator).rdropWhile skipped).reverse := by
      rw [hb]
      exact List.mem_cons_of_mem _ (List.mem_reverse.mp hm)
    exact not_mem_of_mem_splitOn ((List.rdropWhile_prefix skipped _).subset (List.mem_reverse.mp hr))

/-- The lexical normal form of an absolute path is canonical. -/
theorem canonical_normalizePath {path : Str} (h : isAbsolute path = true) :
    Canonical (normalizePath path) := by
  have hl : lead path = [.rootDir] := by simp [lead,h]
  have hstart : push [] (Component.rootDir).asOsStr = [separator] := rfl
  simp only [normalizePath,components_eq,hl,List.singleton_append,List.foldl_cons,hstart]
  have hnames : ∀ c ∈ bodyComponents path, ∃ name, IsName name ∧ c = ofName name :=
    fun c hc => exists_name_of_mem hc
  generalize bodyComponents path = body at hnames
  have hinv := canonical_root
  generalize [separator] = normalized at hinv
  induction body generalizing normalized with
  | nil => exact hinv
  | cons c body ih =>
    rw [List.foldl_cons]
    apply ih (fun d hd => hnames d (by simp [hd]))
    obtain ⟨name,hn,rfl⟩ := hnames c (by simp)
    simp only [ofName]
    split_ifs with hd
    · exact hinv.pop
    · exact hinv.push hn

example : normalizePath (utf8 "/a/./b//../c/") = utf8 "/a/c" := by decide +kernel

end Repx.UnixPaths
