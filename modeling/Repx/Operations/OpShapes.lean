import Repx.Operations.EventEffects
import Repx.Operations.OpEncoding

/-! # The shapes of emitted operations

Which parts an operation of each type can have. Given the number of inputs and
outputs, the tokens determine every field; only write operations leave the
number of outputs open, and a lone identity in one of them is read either as a
tool without outputs or as an output without a tool.
-/
namespace Repx.Canonical
open ByteString Std Trace HashTables CanonicalOp CanonState Sha256

/-- The parts an operation of a given type has. -/
def HasShape (op : CanonicalOp) : Prop :=
  match op.opType with
  | .exec => op.args = [] ∧ op.inputHashes = [] ∧ op.outputHashes = []
  | .exit => op.inputHashes = [] ∧ op.outputHashes = []
  | .fileRead => op.inputHashes.length = 1 ∧ op.outputHashes = []
  | .systemStateRead => op.inputHashes.length = 1 ∧ op.outputHashes = []
  | .externalFileRead => op.inputHashes.length = 1 ∧ op.outputHashes = []
  | .fileDelete => op.inputHashes.length = 1 ∧ op.outputHashes = []
  | .externalFileDelete => op.inputHashes.length = 1 ∧ op.outputHashes = []
  | .fileRename => op.inputHashes.length = 1 ∧ op.outputHashes.length = 1
  | .externalFileRename => op.inputHashes.length = 1 ∧ op.outputHashes.length = 1
  | .fileWrite => op.inputHashes = [] ∧ op.outputHashes.length ≤ 1 ∧
      (op.args = [] ∨ op.outputHashes.length = 1)
  | .externalFileWrite => op.toolHash = none ∧ op.args = [] ∧ op.inputHashes = [] ∧
      op.outputHashes.length ≤ 1

structure WellShaped (op : CanonicalOp) : Prop extends TokensValid op where
  oneArg : op.args.length ≤ 1
  shape : HasShape op

/-- Nothing is left to sort in an emitted operation. -/
theorem WellShaped.normalize {op : CanonicalOp} (h : WellShaped op) : op.normalize = op := by
  have hs := h.shape
  apply normalize_eq_self h.oneArg
  all_goals
    revert hs
    unfold HasShape
    cases op.opType <;> grind

/-- With equally many inputs and outputs the tokens determine the fields. -/
theorem sameContent_of_tokens {a b : CanonicalOp} (ht : a.opType = b.opType) (h : tokens a = tokens b)
    (hi : a.inputHashes.length = b.inputHashes.length) (ho : a.outputHashes.length = b.outputHashes.length) :
    SameContent a b := by
  rw [tokens,tokens,← List.append_assoc,← List.append_assoc] at h
  obtain ⟨hhead,hfiles⟩ := List.append_inj' h (by simp [hi,ho])
  have hfiles : a.inputHashes ++ a.outputHashes = b.inputHashes ++ b.outputHashes :=
    List.map_injective_iff.mpr (fun _ _ h => Token.identity.inj h) hfiles
  obtain ⟨hin,hout⟩ := List.append_inj hfiles hi
  have hargs : ∀ l l' : List Str, l.map Token.arg = l'.map Token.arg → l = l' :=
    fun l l' h => List.map_injective_iff.mpr (fun _ _ h => Token.arg.inj h) h
  have htool : a.toolHash = b.toolHash ∧ a.args = b.args := by
    cases hta : a.toolHash with
    | none =>
      cases htb : b.toolHash with
      | none =>
        rw [hta,htb] at hhead
        exact ⟨rfl,hargs _ _ (by simpa using hhead)⟩
      | some t =>
        rw [hta,htb] at hhead
        cases hb : a.args <;> simp [hb] at hhead
    | some t =>
      cases htb : b.toolHash with
      | none =>
        rw [hta,htb] at hhead
        cases hb : b.args <;> simp [hb] at hhead
      | some t' =>
        rw [hta,htb] at hhead
        simp only [Option.toList_some,List.map_cons,List.map_nil,List.singleton_append,List.cons.injEq,
          Token.identity.injEq] at hhead
        exact ⟨by rw [hhead.1],hargs _ _ hhead.2⟩
  exact ⟨ht,htool.1,htool.2,hin,hout⟩

/-- One write of an unknown tool to an identity, and one write of that identity
as a tool whose output was never seen. -/
structure AmbiguousPair (a b : CanonicalOp) : Prop where
  writes : a.opType = .fileWrite ∧ b.opType = .fileWrite
  noArgs : a.args = [] ∧ b.args = []
  noTool : a.toolHash = none
  noOutput : b.outputHashes = []
  exchanged : ∃ h, a.outputHashes = [h] ∧ b.toolHash = some h

theorem ambiguousPair_of_lengths {a b : CanonicalOp} (ha : WellShaped a) (hb : WellShaped b)
    (hwrite : a.opType = .fileWrite) (ht : a.opType = b.opType) (h : tokens a = tokens b)
    (hoa : a.outputHashes.length = 1) (hob : b.outputHashes.length = 0) : AmbiguousPair a b := by
  have hsa := ha.shape
  have hsb := hb.shape
  rw [HasShape,hwrite] at hsa
  rw [HasShape,← ht,hwrite] at hsb
  have hargs : b.args = [] := by
    rcases hsb.2.2 with h | h
    · exact h
    · omega
  obtain ⟨out,hout⟩ := List.length_eq_one_iff.mp hoa
  have hlen := congrArg List.length h
  have hnil := List.length_eq_zero_iff.mp hob
  simp only [tokens,hsa.1,hsb.1,hout,hargs,hnil,List.nil_append,List.map_nil,List.append_nil,List.map_cons,
    List.length_append,List.length_map,List.length_singleton,Option.length_toList] at hlen h
  cases hta : a.toolHash with
  | some t =>
    cases htb : b.toolHash <;> simp [hta,htb] at hlen
  | none =>
    cases htb : b.toolHash with
    | none => simp [hta,htb] at hlen
    | some t =>
      rw [hta,htb] at h hlen
      have hz : a.args = [] := by
        apply List.length_eq_zero_iff.mp
        simpa using hlen
      rw [hz] at h
      simp only [Option.toList_none,List.map_nil,List.nil_append,Option.toList_some,List.map_cons,
        List.cons.injEq,Token.identity.injEq,and_true] at h
      exact ⟨⟨hwrite,ht ▸ hwrite⟩,⟨hz,hargs⟩,hta,hnil,⟨out,hout,by rw [htb,h]⟩⟩

theorem AmbiguousPair.preimage_eq {a b : CanonicalOp} (ha : WellShaped a) (hb : WellShaped b)
    (h : AmbiguousPair a b) : a.preimage = b.preimage ∧ ¬ SameContent a b := by
  obtain ⟨x,hx,hy⟩ := h.exchanged
  have hsa := ha.shape
  have hsb := hb.shape
  rw [HasShape,h.writes.1] at hsa
  rw [HasShape,h.writes.2] at hsb
  constructor
  · simp [preimage,h.writes.1,h.writes.2,h.noArgs.1,h.noArgs.2,h.noTool,h.noOutput,hx,hy,hsa.1,hsb.1]
  · intro hs
    have ht := hs.2.1
    rw [h.noTool,hy] at ht
    cases ht

/-- Equal bytes determine a well-shaped operation up to the exchange of a lone
tool and a lone output. -/
theorem sameContent_iff_not_ambiguous {a b : CanonicalOp} (ha : WellShaped a) (hb : WellShaped b) :
    (a.preimage = b.preimage → SameContent a b) ↔ ¬ (AmbiguousPair a b ∨ AmbiguousPair b a) := by
  constructor
  · rintro h (hab | hba)
    · obtain ⟨he,hne⟩ := hab.preimage_eq ha hb
      exact hne (h he)
    · obtain ⟨he,hne⟩ := hba.preimage_eq hb ha
      exact hne (h he.symm).symm
  · intro hno he
    obtain ⟨ht,htok⟩ := tokens_eq_of_preimage_eq ha.toTokensValid hb.toTokensValid he
    have hsa := ha.shape
    have hsb := hb.shape
    have hin : a.inputHashes.length = b.inputHashes.length := by
      revert hsa hsb
      unfold HasShape
      rw [← ht]
      cases a.opType <;> grind
    by_cases hout : a.outputHashes.length = b.outputHashes.length
    · exact sameContent_of_tokens ht htok hin hout
    by_cases hw : a.opType = .fileWrite
    · exfalso
      have hsa' := hsa
      have hsb' := hsb
      rw [HasShape,hw] at hsa'
      rw [HasShape,← ht,hw] at hsb'
      rcases Nat.lt_or_gt_of_ne hout with hlt | hgt
      · exact hno (Or.inr (ambiguousPair_of_lengths hb ha (ht ▸ hw) ht.symm htok.symm (by omega) (by omega)))
      · exact hno (Or.inl (ambiguousPair_of_lengths ha hb hw ht htok (by omega) (by omega)))
    · by_cases hx : a.opType = .externalFileWrite
      · rw [HasShape,hx] at hsa
        rw [HasShape,← ht,hx] at hsb
        have hlen := congrArg List.length htok
        simp only [tokens,hsa.1,hsb.1,hsa.2.1,hsb.2.1,hsa.2.2.1,hsb.2.2.1,List.nil_append,List.map_nil,
          Option.toList_none,List.length_map] at hlen
        exact absurd hlen hout
      · exfalso
        apply hout
        revert hsa hsb
        unfold HasShape
        rw [← ht]
        cases hta : a.opType <;> simp only [hta,reduceCtorEq,not_true_eq_false,not_false_eq_true] at hw hx ⊢ <;>
          grind

section Emission

/-- A write operation whose output a close may fill in. -/
def Fillable (op : CanonicalOp) : Prop :=
  op.args = [] ∧ op.inputHashes = [] ∧
    (op.opType = .fileWrite ∨ op.opType = .externalFileWrite ∧ op.toolHash = none)

theorem WellShaped.withIndex {op : CanonicalOp} (h : WellShaped op) (index : UInt32) :
    WellShaped { op with processIndex := index } :=
  ⟨⟨h.tool,h.args,h.files⟩,h.oneArg,h.shape⟩

theorem WellShaped.fill {op : CanonicalOp} (h : WellShaped op) (hf : Fillable op) {s : Str}
    (hs : IsIdentity s) : WellShaped { op with outputHashes := [s] } := by
  refine ⟨⟨h.tool,h.args,?_⟩,h.oneArg,?_⟩
  · intro x hx
    rw [hf.2.1] at hx
    rw [List.mem_singleton.mp hx]
    exact hs
  · rcases hf with ⟨ha,hi,ht | ⟨ht,hn⟩⟩ <;> simp_all [HasShape]

/-- An effect that keeps recorded operations in shape. -/
def Effect.Sound : Effect → Prop
  | .setToolHash _ toolHash => IsIdentity toolHash
  | .push _ _ op => WellShaped op
  | .openWrite _ _ _ op => WellShaped op ∧ Fillable op
  | .closeWrite _ _ observation => ∀ o ∈ observation, IsIdentity o.identity
  | _ => True

structure ShapedState (s : CanonState) : Prop where
  tools : ∀ (process : ProcessInstance) toolHash, s.processToToolHash[process]? = some toolHash →
    IsIdentity toolHash
  ops : ∀ side, ∀ op ∈ s.recorded side, WellShaped op
  writes : ∀ side (d : Descriptor) i, (s.pending side)[d]? = some i →
    ∃ op, (s.recorded side)[i]? = some op ∧ Fillable op

namespace ShapedState
variable {s : CanonState}

theorem of_same (h : ShapedState s) {s' : CanonState} (ht : s'.processToToolHash = s.processToToolHash)
    (hr : ∀ side, s'.recorded side = s.recorded side) (hp : ∀ side, s'.pending side = s.pending side) :
    ShapedState s' where
  tools := by rw [ht]; exact h.tools
  ops side := by rw [hr]; exact h.ops side
  writes side := by rw [hr,hp]; exact h.writes side

/-- Replacing the records of one side. -/
theorem setSide (h : ShapedState s) (side : Side) {ops : List CanonicalOp} {table : ExtTreeMap Descriptor ℕ}
    (ho : ∀ op ∈ ops, WellShaped op)
    (hw : ∀ (d : Descriptor) i, table[d]? = some i → ∃ op, ops[i]? = some op ∧ Fillable op) :
    ShapedState (s.setSide side ops table) where
  tools := by
    have ht : (s.setSide side ops table).processToToolHash = s.processToToolHash := by cases side <;> rfl
    rw [ht]
    exact h.tools
  ops side' := by
    rw [setSide_recorded]
    by_cases hs : side' = side
    · subst hs
      rwa [Function.update_self]
    · rw [Function.update_of_ne hs]
      exact h.ops side'
  writes side' := by
    rw [setSide_recorded,setSide_pending]
    by_cases hs : side' = side
    · subst hs
      rwa [Function.update_self,Function.update_self]
    · rw [Function.update_of_ne hs,Function.update_of_ne hs]
      exact h.writes side'

theorem writes_append (h : ShapedState s) (side : Side) (op : CanonicalOp) (d : Descriptor) (i : ℕ)
    (hi : (s.pending side)[d]? = some i) : ∃ x, (s.recorded side ++ [op])[i]? = some x ∧ Fillable x := by
  obtain ⟨x,hx,hf⟩ := h.writes side d i hi
  exact ⟨x,by rw [List.getElem?_append_left (List.getElem?_eq_some_iff.mp hx).1,hx],hf⟩

theorem wellShaped_append (h : ShapedState s) (side : Side) (process : ProcessInstance) {op : CanonicalOp}
    (hop : WellShaped op) : ∀ x ∈ s.recorded side ++ [s.indexed side process op], WellShaped x := by
  intro x hx
  rcases List.mem_append.mp hx with hx | hx
  · exact h.ops side x hx
  · rw [List.mem_singleton.mp hx]
    cases side <;> exact hop.withIndex _

theorem push (h : ShapedState s) (side : Side) (process : ProcessInstance) {op : CanonicalOp}
    (hop : WellShaped op) : ShapedState (s.apply (.push side process op)) :=
  h.setSide side (h.wellShaped_append side process hop) fun d i hi => h.writes_append side _ d i hi

theorem openWrite (h : ShapedState s) (side : Side) (process : ProcessInstance) (fd : Int) {op : CanonicalOp}
    (hop : WellShaped op) (hf : Fillable op) : ShapedState (s.apply (.openWrite side process fd op)) := by
  refine h.setSide side (h.wellShaped_append side process hop) fun d i hi => ?_
  rw [ExtTreeMap.getElem?_insert] at hi
  split_ifs at hi with hd
  · obtain rfl := Option.some_inj.mp hi
    refine ⟨_,List.getElem?_concat_length,?_⟩
    cases side <;> exact hf
  · exact h.writes_append side _ d i hi

theorem closeWrite (h : ShapedState s) (side : Side) (descriptor : Descriptor)
    {observation : Option FileObservation} (ho : ∀ o ∈ observation, IsIdentity o.identity) :
    ShapedState (s.apply (.closeWrite side descriptor observation)) := by
  rw [apply]
  split
  · rename_i index hindex
    obtain ⟨target,htarget,hfill⟩ := h.writes side descriptor index hindex
    have herase : ∀ (d : Descriptor) i, ((s.pending side).erase descriptor)[d]? = some i →
        (s.pending side)[d]? = some i := by
      intro d i hi
      rw [ExtTreeMap.getElem?_erase] at hi
      split_ifs at hi
      exact hi
    cases observation with
    | none => exact h.setSide side (h.ops side) fun d i hi => h.writes side d i (herase d i hi)
    | some o =>
      have hid := ho o rfl
      refine h.setSide side ?_ ?_
      · intro x hx
        obtain ⟨j,hj⟩ := List.mem_iff_getElem?.mp hx
        rw [fillOutput,List.getElem?_modify] at hj
        obtain ⟨y,hy,rfl⟩ := Option.map_eq_some_iff.mp hj
        have hys := h.ops side y (List.mem_iff_getElem?.mpr ⟨j,hy⟩)
        split_ifs with hij
        · subst hij
          obtain rfl := Option.some_inj.mp (hy.symm.trans htarget)
          exact hys.fill hfill hid
        · exact hys
      · intro d i hi
        obtain ⟨y,hy,hf⟩ := h.writes side d i (herase d i hi)
        rw [fillOutput,List.getElem?_modify,hy]
        refine ⟨_,rfl,?_⟩
        split_ifs
        · exact hf
        · exact hf
  · exact h

theorem inheritWrites (h : ShapedState s) (parent child : ProcessLifetime) :
    ShapedState (s.apply (.inheritWrites parent child)) := by
  refine h.setSide .tree (h.ops .tree) fun d i hi => ?_
  rw [getElem?_inheritWrites] at hi
  split_ifs at hi
  · rcases Option.or_eq_some_iff.mp hi with hi | ⟨-,hi⟩
    · exact h.writes .tree _ i hi
    · exact h.writes .tree _ i hi
  · exact h.writes .tree _ i hi

/-- Effect by effect, recorded operations keep their shape. -/
theorem apply (h : ShapedState s) {effect : Effect} (hs : effect.Sound) : ShapedState (s.apply effect) := by
  cases effect with
  | assignIndex process =>
    refine h.of_same ?_ ?_ ?_
    · exact assignIndex_toolHash s process
    all_goals
      intro side
      rw [CanonState.apply,CanonState.assignIndex]
      cases side <;> split_ifs <;> rfl
  | setToolHash process toolHash =>
    refine ⟨?_,fun side => ?_,fun side => ?_⟩
    · intro process' toolHash' ht
      rw [CanonState.apply,CanonState.setToolHash,ExtTreeMap.getElem?_insert] at ht
      split_ifs at ht
      · rw [← Option.some_inj.mp ht]
        exact hs
      · exact h.tools process' toolHash' ht
    · cases side with
      | tree => exact h.ops .tree
      | outside => exact h.ops .outside
    · cases side with
      | tree => exact h.writes .tree
      | outside => exact h.writes .outside
  | markFallback lifetime =>
    refine h.of_same rfl ?_ ?_
    all_goals
      intro side
      cases side <;> rfl
  | inheritWrites parent child => exact h.inheritWrites parent child
  | push side process op => exact h.push side process hs
  | openWrite side process fd op => exact h.openWrite side process fd hs.1 hs.2
  | closeWrite side descriptor observation => exact h.closeWrite side descriptor hs

theorem foldl (h : ShapedState s) {l : List Effect} (hl : ∀ effect ∈ l, effect.Sound) :
    ShapedState (l.foldl CanonState.apply s) := by
  induction l generalizing s with
  | nil => exact h
  | cons effect l ih =>
    exact ih (h.apply (hl effect List.mem_cons_self)) fun e he => hl e (List.mem_cons_of_mem _ he)

end ShapedState

theorem wellShaped_unindexed {opType : OpType} {toolHash : Option Str} {args inputHashes outputHashes : List Str}
    (ht : ∀ t ∈ toolHash, IsIdentity t) (ha : ∀ a ∈ args, IsArg a)
    (hf : ∀ h ∈ inputHashes ++ outputHashes, IsIdentity h) (h1 : args.length ≤ 1)
    (hs : HasShape (unindexed opType toolHash args inputHashes outputHashes)) :
    WellShaped (unindexed opType toolHash args inputHashes outputHashes) :=
  ⟨⟨ht,ha,hf⟩,h1,hs⟩

theorem externalWrite_sound :
    WellShaped (unindexed .externalFileWrite none [] [] []) ∧
      Fillable (unindexed .externalFileWrite none [] [] []) :=
  ⟨wellShaped_unindexed (by simp) (by simp) (by simp) (by simp) ⟨rfl,rfl,rfl,by simp [unindexed]⟩,
    rfl,rfl,Or.inr ⟨rfl,rfl⟩⟩

theorem treeWrite_sound {toolHash : Option Str} (ht : ∀ t ∈ toolHash, IsIdentity t) :
    WellShaped (unindexed .fileWrite toolHash [] [] []) ∧
      Fillable (unindexed .fileWrite toolHash [] [] []) :=
  ⟨wellShaped_unindexed ht (by simp) (by simp) (by simp) ⟨rfl,by simp [unindexed],Or.inl rfl⟩,
    rfl,rfl,Or.inl rfl⟩

/-- Reads of either side have one input and at most one argument. -/
theorem read_sound {opType : OpType} {toolHash : Option Str} {args : List Str} {identity : Str}
    (htype : opType = .fileRead ∨ opType = .systemStateRead ∨ opType = .externalFileRead)
    (ht : ∀ t ∈ toolHash, IsIdentity t) (ha : ∀ a ∈ args, IsArg a) (h1 : args.length ≤ 1)
    (hi : IsIdentity identity) : WellShaped (unindexed opType toolHash args [identity] []) := by
  refine wellShaped_unindexed ht ha (by simpa using hi) h1 ?_
  rcases htype with rfl | rfl | rfl <;> exact ⟨rfl,rfl⟩

section Sound
variable {scope : TraceScope} {view : ProcessView} (hv : ∀ t ∈ view.toolHash, IsIdentity t)
include hv

theorem fileOpenEffects_sound {process : ProcessInstance} {path : Str} {flags : UInt32} {fd : Int}
    {external : Bool} {identity : Str} (hi : IsIdentity identity) :
    ∀ effect ∈ fileOpenEffects scope view process path flags fd external identity, effect.Sound := by
  have hnone : ∀ t ∈ (none : Option Str), IsIdentity t := by simp
  have hnil : ∀ a ∈ ([] : List Str), IsArg a := by simp
  have hext := read_sound (Or.inr (Or.inr rfl)) hnone hnil (by simp) hi
  have hextw := externalWrite_sound
  have hsys := read_sound (Or.inr (Or.inl rfl)) hv hnil (by simp) isIdentity_sentinel
  have hread := read_sound (Or.inl rfl) hv hnil (by simp) hi
  have hwrite := treeWrite_sound hv
  intro effect he
  unfold fileOpenEffects at he
  split_ifs at he <;> grind [Effect.Sound]

theorem mappingEffects_sound {process : ProcessInstance} {fd : Int} {isWrite : Bool} {path : Str}
    {external : Bool} {identity : Str} (hi : IsIdentity identity) :
    ∀ effect ∈ mappingEffects scope view process fd isWrite path external identity, effect.Sound := by
  have hnone : ∀ t ∈ (none : Option Str), IsIdentity t := by simp
  have hmmap : ∀ a ∈ [mmapArg], IsArg a := by simpa using isArg_mmapArg
  have hext := read_sound (Or.inr (Or.inr rfl)) hnone hmmap (by simp) hi
  have hextw := externalWrite_sound
  have hnil : ∀ a ∈ ([] : List Str), IsArg a := by simp
  have hsys := read_sound (Or.inr (Or.inl rfl)) hv hnil (by simp) isIdentity_sentinel
  have hread := read_sound (Or.inl rfl) hv hmmap (by simp) hi
  have hwrite := treeWrite_sound hv
  intro effect he
  unfold mappingEffects at he
  split_ifs at he <;> grind [Effect.Sound]

theorem pathEventEffects_sound {opType externalType : OpType} {process : ProcessInstance} {watched : Bool}
    {flags : UInt32} {external : Bool} {inputHashes outputHashes : List Str}
    (hf : ∀ h ∈ inputHashes ++ outputHashes, IsIdentity h)
    (ht : ∀ toolHash, HasShape (unindexed opType toolHash [flagsArg flags] inputHashes outputHashes))
    (he : HasShape (unindexed externalType none [flagsArg flags] inputHashes outputHashes)) :
    ∀ effect ∈ pathEventEffects scope view opType externalType process watched flags external inputHashes
      outputHashes, effect.Sound := by
  have hargs : ∀ a ∈ [flagsArg flags], IsArg a := by simpa using isArg_flagsArg flags
  have hout := wellShaped_unindexed (by simp) hargs hf (by simp) he
  have htree := wellShaped_unindexed hv hargs hf (by simp) (ht view.toolHash)
  intro effect heff
  unfold pathEventEffects at heff
  split_ifs at heff <;> grind [Effect.Sound]

/-- The effects of an event on a well-formed trace are sound. -/
theorem effects_sound {event : TracedEvent} (hw : event.WellFormed) :
    ∀ effect ∈ effects scope view event, effect.Sound := by
  have hid : ∀ o ∈ event.observations, IsIdentity o.identity := fun o ho => isIdentity_identity (hw o ho)
  cases event with
  | exec process observation =>
    have hobs := hid observation (by simp [TracedEvent.observations])
    have hexec : WellShaped (unindexed .exec (some observation.identity) [] [] []) :=
      wellShaped_unindexed (by simpa using hobs) (by simp) (by simp) (by simp) ⟨rfl,rfl,rfl⟩
    intro effect he
    unfold effects at he
    grind [Effect.Sound]
  | fork parent child =>
    intro effect he
    rcases List.mem_cons.mp he with rfl | he
    · trivial
    · obtain ⟨t,ht,rfl⟩ := Option.map_eq_some_iff.mp (Option.mem_toList.mp he)
      exact hv t ht
  | fileOpen process path flags fd external observation =>
    exact fileOpenEffects_sound hv (hid observation (by simp [TracedEvent.observations]))
  | fileClose process fd path external observation =>
    intro effect he
    cases path with
    | none => simp [effects,fileCloseEffects] at he
    | some path =>
      simp only [effects,fileCloseEffects,List.mem_singleton] at he
      subst he
      exact fun o ho => hid o (by simpa [TracedEvent.observations] using ho)
  | fileMmap process fd prot flags path external observation =>
    intro effect he
    simp only [effects] at he
    split_ifs at he
    · simp at he
    cases path with
    | none => simp at he
    | some path =>
      cases observation with
      | none => simp at he
      | some observation =>
        exact mappingEffects_sound hv (hid observation (by simp [TracedEvent.observations])) effect he
  | fileRename process fromPath toPath flags external observation =>
    have hobs := hid observation (by simp [TracedEvent.observations])
    exact pathEventEffects_sound hv (by simpa using hobs) (fun _ => ⟨rfl,rfl⟩) ⟨rfl,rfl⟩
  | fileUnlink process path flags external observation =>
    have hobs := hid observation (by simp [TracedEvent.observations])
    exact pathEventEffects_sound hv (by simpa using hobs) (fun _ => ⟨rfl,rfl⟩) ⟨rfl,rfl⟩
  | exit process exitCode =>
    have hexit : ∀ args, (∀ a ∈ args, IsArg a) → args.length ≤ 1 →
        WellShaped (unindexed .exit view.toolHash args [] []) :=
      fun args ha h1 => wellShaped_unindexed hv ha (by simp) h1 ⟨rfl,rfl⟩
    intro effect he
    simp only [effects] at he
    split_ifs at he
    · rw [List.mem_singleton.mp he]
      exact hexit _ (by simpa using isArg_exitArg exitCode) (by simp)
    · rw [List.mem_singleton.mp he]
      exact hexit _ (by simp) (by simp)
    · simp at he

end Sound

theorem shapedState_initial (scope : TraceScope) : ShapedState (initial scope) := by
  refine ⟨?_,fun side => ?_,fun side => ?_⟩
  · simp [initial]
  · cases side <;> simp [initial,recorded]
  · cases side <;> simp [initial,pending]

theorem ShapedState.run {s : CanonState} (scope : TraceScope) (h : ShapedState s) {events : List TracedEvent}
    (hw : ∀ event ∈ events, event.WellFormed) : ShapedState (events.foldl (turn scope) s) := by
  induction events generalizing s with
  | nil => exact h
  | cons event events ih =>
    refine ih (h.foldl (effects_sound ?_ (hw event List.mem_cons_self)))
      fun e he => hw e (List.mem_cons_of_mem _ he)
    exact fun t ht => h.tools _ t ht

/-- Every operation of a canonicalized trace is well shaped. -/
theorem wellShaped_of_mem_canonicalizeEvents {sha256 : Str → Digest} {scope : TraceScope}
    {order : IterationOrder ℕ} {events : List TracedEvent} (hw : ∀ event ∈ events, event.WellFormed)
    {op : CanonicalOp} (h : op ∈ canonicalizeEvents sha256 scope order events) : WellShaped op := by
  obtain ⟨raw,hraw,rfl⟩ := mem_finalizeOps h
  have hs := (shapedState_initial scope).run scope hw
  rw [recordedOps,canonicalizeFrom_eq_foldl] at hraw
  have hshape : WellShaped raw := by
    rcases List.mem_append.mp hraw with hraw | hraw
    · exact hs.ops .tree raw hraw
    · exact hs.ops .outside raw hraw
  rw [hshape.normalize]
  exact hshape

end Emission

end Repx.Canonical
