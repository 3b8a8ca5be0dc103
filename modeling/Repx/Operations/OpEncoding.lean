import Repx.Foundation.Framing
import Repx.Operations.CanonicalizeEvents

/-! # Reading operations back from their hashed bytes

The hashed bytes of an operation are its tag followed by a sequence of tokens:
file identities, whose first two bytes determine their length, and arguments,
which end in a zero byte. Tokens and tags can be read back one by one; what the
bytes do not say is where the tool ends and the outputs begin.
-/
namespace Repx.Canonical
open ByteString Framing Trace Sha256 CanonicalOp

/-- The strings recorded as tools, inputs and outputs. -/
def IsIdentity (s : Str) : Prop :=
  (∃ o : FileObservation, o.WellFormed ∧ o.identity = s) ∨ s = systemStateSentinel

theorem isIdentity_identity {o : FileObservation} (h : o.WellFormed) : IsIdentity o.identity :=
  Or.inl ⟨o,h,rfl⟩

theorem isIdentity_of_isDigestText {s : Str} (h : IsDigestText s) : IsIdentity s :=
  Or.inl ⟨.content s,h,rfl⟩

theorem isIdentity_sentinel : IsIdentity systemStateSentinel := Or.inr rfl

/-- The width of the identities with the given first two bytes. -/
def identityWidth (lead : Str) : Option ℕ :=
  if lead = utf8 "sh" then some 71
  else if lead = utf8 "mi" then some 79
  else if lead = utf8 "un" then some 82
  else if lead = utf8 "no" then some 83
  else if lead = utf8 "SY" then some 77
  else none

theorem IsIdentity.width {s : Str} (h : IsIdentity s) : identityWidth (s.take 2) = some s.length := by
  rcases h with ⟨o,ho,rfl⟩ | rfl
  · cases o with
    | content hash =>
      obtain ⟨t,rfl,ht,-⟩ := ho
      rw [FileObservation.identity,List.length_append,ht,List.take_append_of_le_length (by decide)]
      decide
    | missing pathHash =>
      rw [FileObservation.identity,List.length_append,ho.length,List.take_append_of_le_length (by decide)]
      decide
    | unreadable pathHash =>
      rw [FileObservation.identity,List.length_append,ho.length,List.take_append_of_le_length (by decide)]
      decide
    | nonRegular pathHash =>
      rw [FileObservation.identity,List.length_append,ho.length,List.take_append_of_le_length (by decide)]
      decide
  · decide

theorem identityWidth_two_le {lead : Str} {w : ℕ} (h : identityWidth lead = some w) : 2 ≤ w := by
  unfold identityWidth at h
  split_ifs at h <;> simp only [Option.some_inj] at h <;> omega

theorem IsIdentity.two_le_length {s : Str} (h : IsIdentity s) : 2 ≤ s.length := identityWidth_two_le h.width

/-- The first two bytes of the arguments. -/
def argLeads : List Str := [utf8 "mm",utf8 "ou",utf8 "fl",utf8 "ex"]

structure IsArg (s : Str) : Prop where
  noNul : (0 : UInt8) ∉ s
  lead : s.take 2 ∈ argLeads

theorem IsArg.two_le_length {s : Str} (h : IsArg s) : 2 ≤ s.length := by
  have hlen : ∀ lead ∈ argLeads, lead.length = 2 := by decide
  have h2 := hlen _ h.lead
  rw [List.length_take] at h2
  omega

theorem isArg_flagsArg (flags : UInt32) : IsArg (flagsArg flags) where
  noNul h := by
    rcases List.mem_append.mp h with h | h
    · exact absurd h (by decide)
    · exact nul_not_mem_numeral _ _ h
  lead := by
    rw [flagsArg,List.take_append_of_le_length (by decide)]
    decide

theorem isArg_exitArg (exitCode : Int) : IsArg (exitArg exitCode) where
  noNul h := by
    rcases List.mem_append.mp h with h | h
    · exact absurd h (by decide)
    · exact nul_not_mem_decimal _ h
  lead := by
    rw [exitArg,List.take_append_of_le_length (by decide)]
    decide

theorem isArg_mmapArg : IsArg mmapArg := ⟨by decide,by decide⟩

inductive Token where
  | identity (s : Str)
  | arg (s : Str)

namespace Token

def Valid : Token → Prop
  | identity s => IsIdentity s
  | arg s => IsArg s

def bytes : Token → Str
  | identity s => s
  | arg s => s ++ [0]

def lead : Token → Str
  | identity s => s.take 2
  | arg s => s.take 2

theorem take_two_bytes {t : Token} (h : t.Valid) (r : Str) : (t.bytes ++ r).take 2 = t.lead := by
  cases t with
  | identity s => exact List.take_append_of_le_length (IsIdentity.two_le_length h)
  | arg s =>
    rw [bytes,List.append_assoc]
    exact List.take_append_of_le_length (IsArg.two_le_length h)

theorem bytes_ne_nil {t : Token} (h : t.Valid) : t.bytes ≠ [] := by
  cases t with
  | identity s =>
    rintro rfl
    exact absurd (IsIdentity.two_le_length h) (by decide)
  | arg s => simp [bytes]

theorem framed : Framed Valid bytes := by
  intro a b s t ha hb h
  have hlead : a.lead = b.lead := by
    rw [← take_two_bytes ha s,h,take_two_bytes hb t]
  have hmixed : ∀ {x y : Str}, IsIdentity x → IsArg y → x.take 2 ≠ y.take 2 := by
    intro x y hx hy hxy
    have hnone : ∀ lead ∈ argLeads, identityWidth lead = none := by decide
    have hw := hx.width
    rw [hxy,hnone _ hy.lead] at hw
    cases hw
  cases a with
  | identity x =>
    cases b with
    | identity y =>
      have hw := (IsIdentity.width ha).symm.trans ((congrArg identityWidth hlead).trans (IsIdentity.width hb))
      obtain ⟨rfl,rfl⟩ := List.append_inj h (Option.some_inj.mp hw)
      exact ⟨rfl,rfl⟩
    | arg y => exact absurd hlead (hmixed ha hb)
  | arg x =>
    cases b with
    | identity y => exact absurd hlead.symm (hmixed hb ha)
    | arg y =>
      obtain ⟨rfl,rfl⟩ := terminated_framed 0 ha.noNul hb.noNul h
      exact ⟨rfl,rfl⟩

end Token

/-- The tokens of an operation, in the order in which they are hashed. -/
def tokens (op : CanonicalOp) : List Token :=
  op.toolHash.toList.map .identity ++ (op.args.map .arg ++ (op.inputHashes ++ op.outputHashes).map .identity)

theorem preimage_eq_tokens (op : CanonicalOp) :
    op.preimage = opTag op.opType ++ (tokens op).flatMap Token.bytes := by
  have hid : ∀ l : List Str, (l.map Token.identity).flatMap Token.bytes = l.flatten := by
    intro l
    rw [List.flatMap_map]
    exact List.flatMap_id
  have harg : ∀ l : List Str, (l.map Token.arg).flatMap Token.bytes = l.flatMap (· ++ [0]) := by
    intro l
    rw [List.flatMap_map]
    rfl
  have htool : op.toolHash.toList.flatten = op.toolHash.getD [] := by cases op.toolHash <;> simp
  simp only [preimage,tokens,List.flatMap_append,hid,harg,htool,List.flatten_append]

theorem opTag_framed : Framed (fun _ => True) opTag := by
  have hcode : ∀ a b : OpType, opTag a <+: opTag b → a = b := by
    intro a b
    cases a <;> cases b <;> first | exact fun _ => rfl | decide
  intro a b s t _ _ h
  have hab : a = b := by
    rcases List.prefix_or_prefix_of_prefix (List.prefix_append (opTag a) s)
        (h ▸ List.prefix_append (opTag b) t) with hp | hp
    · exact hcode a b hp
    · exact (hcode b a hp).symm
  subst hab
  exact ⟨rfl,List.append_cancel_left h⟩

/-- What is recorded about an operation can be hashed unambiguously token by
token. -/
structure TokensValid (op : CanonicalOp) : Prop where
  tool : ∀ t ∈ op.toolHash, IsIdentity t
  args : ∀ a ∈ op.args, IsArg a
  files : ∀ h ∈ op.inputHashes ++ op.outputHashes, IsIdentity h

theorem TokensValid.valid {op : CanonicalOp} (h : TokensValid op) : ∀ t ∈ tokens op, t.Valid := by
  intro t ht
  simp only [tokens,List.mem_append,List.mem_map] at ht
  rcases ht with ⟨x,hx,rfl⟩ | ⟨x,hx,rfl⟩ | ⟨x,hx,rfl⟩
  · exact h.tool x (by simpa using hx)
  · exact h.args x hx
  · exact h.files x (List.mem_append.mpr hx)

/-- Equal bytes mean one tag and one sequence of tokens. -/
theorem tokens_eq_of_preimage_eq {a b : CanonicalOp} (ha : TokensValid a) (hb : TokensValid b)
    (h : a.preimage = b.preimage) : a.opType = b.opType ∧ tokens a = tokens b := by
  rw [preimage_eq_tokens,preimage_eq_tokens] at h
  obtain ⟨ht,hs⟩ := opTag_framed trivial trivial h
  exact ⟨ht,flatMap_inj_of_framed Token.framed (fun _ => Token.bytes_ne_nil) ha.valid hb.valid hs⟩

end Repx.Canonical
