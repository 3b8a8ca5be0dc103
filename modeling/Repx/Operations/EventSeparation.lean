import Repx.Foundation.SharedLog
import Repx.Operations.EventInterleaving

/-! # Separation of external events

When no lifetime acts both inside and outside the fork tree, the loop over the
whole trace is two loops side by side. What the tree records is what it records
alone; the operations of external processes are a shared log of which each loop
holds its share.
-/
namespace Repx.Canonical
open ByteString Std Trace HashTables CanonicalOp Sha256 CanonState SharedLog

/-- The flag of an event; events without one belong to the fork tree. -/
def isExternal : TracedEvent → Bool
  | .fileOpen _ _ _ _ external _ => external
  | .fileClose _ _ _ external _ => external
  | .fileMmap _ _ _ _ _ external _ => external
  | .fileRename _ _ _ _ external _ => external
  | .fileUnlink _ _ _ external _ => external
  | _ => false

/-- No lifetime occurs in events of both kinds. -/
def Separated (events : List TracedEvent) : Prop :=
  ∀ l, ∀ e ∈ events, ∀ e' ∈ events, concerns l e = true → concerns l e' = true → isExternal e = isExternal e'

/-- Whether an effect changes what the fork tree records. -/
def Effect.onTree : Effect → Bool
  | .markFallback _ => false
  | .push side _ _ => side = .tree
  | .openWrite side _ _ _ => side = .tree
  | .closeWrite side _ _ => side = .tree
  | _ => true

/-- What the fork tree has recorded. -/
def treePart (s : CanonState) : CanonState :=
  { s with externalOps := [], externalPendingWrites := ∅, fallbackExternalProcesses := ∅ }

section Parts
variable (s : CanonState)

theorem treePart_apply_of_onTree {effect : Effect} (h : effect.onTree = true) :
    treePart (s.apply effect) = (treePart s).apply effect ∧
      (s.apply effect).externalOps = s.externalOps ∧
      (s.apply effect).externalPendingWrites = s.externalPendingWrites ∧
      (s.apply effect).fallbackExternalProcesses = s.fallbackExternalProcesses := by
  cases effect with
  | assignIndex p =>
    simp only [CanonState.apply,CanonState.assignIndex]
    by_cases hp : p ∈ s.processToIndex
    · rw [if_pos hp,if_pos (show p ∈ (treePart s).processToIndex from hp)]
      exact ⟨rfl,rfl,rfl,rfl⟩
    · rw [if_neg hp,if_neg (show p ∉ (treePart s).processToIndex from hp)]
      exact ⟨rfl,rfl,rfl,rfl⟩
  | setToolHash | inheritWrites => exact ⟨rfl,rfl,rfl,rfl⟩
  | markFallback => simp [Effect.onTree] at h
  | push side p op | openWrite side p fd op =>
    cases side with
    | tree => exact ⟨rfl,rfl,rfl,rfl⟩
    | outside => simp [Effect.onTree] at h
  | closeWrite side d o =>
    cases side with
    | tree =>
      have hpending : (treePart s).pending .tree = s.pending .tree := rfl
      simp only [CanonState.apply,hpending]
      cases (s.pending .tree)[d]? <;> exact ⟨rfl,rfl,rfl,rfl⟩
    | outside => simp [Effect.onTree] at h

theorem treePart_apply_of_outside {effect : Effect} (h : effect.onTree = false) :
    treePart (s.apply effect) = treePart s := by
  cases effect with
  | assignIndex | setToolHash | inheritWrites => simp [Effect.onTree] at h
  | markFallback => rfl
  | push side p op | openWrite side p fd op =>
    cases side with
    | tree => simp [Effect.onTree] at h
    | outside => rfl
  | closeWrite side d o =>
    cases side with
    | tree => simp [Effect.onTree] at h
    | outside =>
      simp only [CanonState.apply]
      cases (s.pending .outside)[d]? <;> rfl

/-- Filling in an output changes one entry of the list, whatever the list. -/
theorem fillOutput_eq_modify (o : Option FileObservation) :
    ∃ f, ∀ ops index, fillOutput ops index o = ops.modify index f := by
  cases o with
  | none => exact ⟨id,fun ops index => by simp [fillOutput]⟩
  | some o => exact ⟨_,fun _ _ => rfl⟩

/-- An external operation is recorded, and a descriptor refers to it, if given. -/
def appendExternal (op : CanonicalOp) : Option Descriptor → CanonState
  | some d => s.pushExternalWrite d op
  | none => s.pushExternal op

theorem appendExternal_fields (op : CanonicalOp) (descriptor : Option Descriptor) :
    (appendExternal s op descriptor).externalOps = s.externalOps ++ [op] ∧
      (appendExternal s op descriptor).fallbackExternalProcesses = s.fallbackExternalProcesses := by
  cases descriptor <;> exact ⟨rfl,rfl⟩

end Parts

section Views
variable {scope : TraceScope} {view view' : ProcessView} {event : TracedEvent}

/-- An external event reads nothing but the external writes of its process. -/
theorem effects_external (h : isExternal event = true)
    (hw : view'.hasWrite .outside = view.hasWrite .outside) :
    effects scope view' event = effects scope view event ∧
      ∀ effect ∈ effects scope view event, effect.onTree = false := by
  cases event with
  | exec | fork | exit => simp [isExternal] at h
  | fileOpen p path flags fd external o =>
    obtain rfl : external = true := h
    simp only [effects,fileOpenEffects,ProcessView.isOutside,Bool.true_or,if_true,true_and]
    split_ifs <;> simp [Effect.onTree]
  | fileClose p fd path external o =>
    obtain rfl : external = true := h
    cases path <;> simp [effects,fileCloseEffects,Effect.onTree]
  | fileMmap p fd prot flags path external o =>
    obtain rfl : external = true := h
    simp only [effects]
    split_ifs
    · simp
    cases path with
    | none => simp
    | some path =>
      cases o with
      | none => simp
      | some o =>
        simp only [mappingEffects,ProcessView.isOutside,Bool.true_or,if_true,hw,true_and]
        split_ifs <;> simp [Effect.onTree]
  | fileRename p fromPath toPath flags external o =>
    obtain rfl : external = true := h
    simp [effects,pathEventEffects,ProcessView.isOutside,Effect.onTree]
  | fileUnlink p path flags external o =>
    obtain rfl : external = true := h
    simp [effects,pathEventEffects,ProcessView.isOutside,Effect.onTree]

end Views

/-- A state of the whole loop against the states of the two loops: `part false`
over the events of the fork tree and `part true` over the external ones. Lifetimes
are owned by the loop whose events they occur in. -/
structure Splits (owned : Bool → ProcessLifetime → Prop) (whole : CanonState) (part : Bool → CanonState) :
    Prop where
  tree : treePart whole = treePart (part false)
  quiet : (part true).ops = []
  fallback : ∀ k l, owned k l → (l ∈ whole.fallbackExternalProcesses ↔ l ∈ (part k).fallbackExternalProcesses)
  outside : ∃ log : List (Bool × CanonicalOp), whole.externalOps = log.map Prod.snd ∧
    (∀ k, (part k).externalOps = share log k) ∧
    ∀ k (d : Descriptor), owned k d.lifetime →
      Option.Rel (Locates k log) whole.externalPendingWrites[d]? (part k).externalPendingWrites[d]?

namespace Splits
variable {owned : Bool → ProcessLifetime → Prop} {whole : CanonState} {part : Bool → CanonState}

theorem tables (h : Splits owned whole part) :
    whole.ops = (part false).ops ∧ whole.processToIndex = (part false).processToIndex ∧
      whole.pendingWrites = (part false).pendingWrites ∧
      whole.processToToolHash = (part false).processToToolHash := by
  have htree := h.tree
  simp only [treePart,CanonState.mk.injEq,true_and] at htree
  exact ⟨htree.1,htree.2.1,htree.2.2.2.1,htree.2.2.2.2⟩

/-- Both loops see the same of a process of the fork tree. -/
theorem view_tree (h : Splits owned whole part) {p : ProcessInstance} (hp : owned false p.lifetime) :
    whole.view p = (part false).view p := by
  obtain ⟨log,-,-,hpending⟩ := h.outside
  obtain ⟨-,hindex,hwrites,htool⟩ := h.tables
  have hfallback : whole.fallbackExternalProcesses.contains p.lifetime =
      (part false).fallbackExternalProcesses.contains p.lifetime := by
    rw [Bool.eq_iff_iff,ExtTreeSet.contains_iff_mem,ExtTreeSet.contains_iff_mem]
    exact h.fallback false p.lifetime hp
  have hhas : (fun side fd => (whole.pending side).contains (⟨p.lifetime,fd⟩ : Descriptor)) =
      fun side fd => ((part false).pending side).contains ⟨p.lifetime,fd⟩ := by
    funext side fd
    cases side with
    | tree => simp only [CanonState.pending,hwrites]
    | outside =>
      have hrel := hpending false ⟨p.lifetime,fd⟩ hp
      simp only [CanonState.pending,ExtTreeMap.contains_eq_isSome_getElem?]
      exact Records.isSome_eq_of_rel hrel
  simp only [CanonState.view,htool,hindex,hfallback,hhas]

theorem hasWrite_outside (h : Splits owned whole part) {p : ProcessInstance} {k : Bool}
    (hp : owned k p.lifetime) : (whole.view p).hasWrite .outside = ((part k).view p).hasWrite .outside := by
  obtain ⟨log,-,-,hpending⟩ := h.outside
  funext fd
  have hrel := hpending k ⟨p.lifetime,fd⟩ hp
  simp only [CanonState.view,CanonState.pending,ExtTreeMap.contains_eq_isSome_getElem?]
  exact Records.isSome_eq_of_rel hrel

/-- An effect on the fork tree changes the whole and the loop of the tree alike. -/
theorem applyOnTree (h : Splits owned whole part) {effect : Effect} (ht : effect.onTree = true) :
    Splits owned (whole.apply effect) (Function.update part false ((part false).apply effect)) := by
  obtain ⟨htree,hops,hpending,hfallback⟩ := treePart_apply_of_onTree whole ht
  obtain ⟨htree',hops',hpending',hfallback'⟩ := treePart_apply_of_onTree (part false) ht
  have hsame : ∀ k, (Function.update part false ((part false).apply effect) k).externalOps =
        (part k).externalOps ∧
      (Function.update part false ((part false).apply effect) k).externalPendingWrites =
        (part k).externalPendingWrites ∧
      (Function.update part false ((part false).apply effect) k).fallbackExternalProcesses =
        (part k).fallbackExternalProcesses := by
    intro k
    cases k with
    | false => simpa using ⟨hops',hpending',hfallback'⟩
    | true => simp
  constructor
  · rw [htree,h.tree,Function.update_self,htree']
  · simpa using h.quiet
  · intro k l hl
    rw [hfallback,(hsame k).2.2]
    exact h.fallback k l hl
  · obtain ⟨log,hlog,hshare,hlocates⟩ := h.outside
    refine ⟨log,?_,fun k => ?_,fun k d hd => ?_⟩
    · rw [hops,hlog]
    · rw [(hsame k).1,hshare]
    · rw [hpending,(hsame k).2.1]
      exact hlocates k d hd

/-- Outside the tree it is enough to look at the fallback marks and at the log. -/
theorem of_outside (h : Splits owned whole part) {effect : Effect} {k : Bool} (ho : effect.onTree = false)
    (hf : ∀ k' l, owned k' l → (l ∈ (whole.apply effect).fallbackExternalProcesses ↔
      l ∈ (Function.update part k ((part k).apply effect) k').fallbackExternalProcesses))
    (hlog : ∃ log : List (Bool × CanonicalOp), (whole.apply effect).externalOps = log.map Prod.snd ∧
      (∀ k', (Function.update part k ((part k).apply effect) k').externalOps = share log k') ∧
      ∀ k' (d : Descriptor), owned k' d.lifetime →
        Option.Rel (Locates k' log) (whole.apply effect).externalPendingWrites[d]?
          (Function.update part k ((part k).apply effect) k').externalPendingWrites[d]?) :
    Splits owned (whole.apply effect) (Function.update part k ((part k).apply effect)) := by
  have hpart : ∀ k', treePart (Function.update part k ((part k).apply effect) k') = treePart (part k') := by
    intro k'
    by_cases hk : k' = k
    · subst hk
      rw [Function.update_self,treePart_apply_of_outside _ ho]
    · rw [Function.update_of_ne hk]
  refine ⟨?_,?_,hf,hlog⟩
  · rw [treePart_apply_of_outside _ ho,h.tree,hpart]
  · have hquiet := congrArg CanonState.ops (hpart true)
    exact hquiet.trans h.quiet

theorem applyMark (h : Splits owned whole part) (hd : ∀ k k' l, owned k l → owned k' l → k = k') {k : Bool}
    {l : ProcessLifetime} (hl : owned k l) :
    Splits owned (whole.apply (.markFallback l)) (Function.update part k ((part k).apply (.markFallback l))) := by
  refine h.of_outside rfl ?_ ?_
  · intro k' l' hl'
    have hrest := h.fallback k' l' hl'
    by_cases hk : k' = k
    · subst hk
      simp only [Function.update_self,CanonState.apply,CanonState.markFallback,ExtTreeSet.mem_insert,hrest]
    · have hne : ¬ compare l l' = .eq := by
        rw [Std.compare_eq_iff_eq]
        rintro rfl
        exact hk (hd k' k l hl' hl)
      simp only [Function.update_of_ne hk,CanonState.apply,CanonState.markFallback,ExtTreeSet.mem_insert,hne,
        false_or,hrest]
  · obtain ⟨log,hlog,hshare,hlocates⟩ := h.outside
    have hsame : ∀ k', (Function.update part k ((part k).apply (.markFallback l)) k').externalOps =
          (part k').externalOps ∧
        (Function.update part k ((part k).apply (.markFallback l)) k').externalPendingWrites =
          (part k').externalPendingWrites := by
      intro k'
      by_cases hk : k' = k
      · subst hk
        rw [Function.update_self]
        exact ⟨rfl,rfl⟩
      · rw [Function.update_of_ne hk]
        exact ⟨rfl,rfl⟩
    refine ⟨log,hlog,fun k' => ?_,fun k' d hd' => ?_⟩
    · rw [(hsame k').1,hshare]
    · rw [(hsame k').2]
      exact hlocates k' d hd'

/-- An external operation is appended to the log and to one of the shares; a
descriptor may refer to it from now on. -/
theorem applyAppend (h : Splits owned whole part) (hd : ∀ k k' l, owned k l → owned k' l → k = k') {k : Bool}
    {effect : Effect} (op : CanonicalOp) (descriptor : Option Descriptor)
    (hown : ∀ d ∈ descriptor, owned k d.lifetime) (ho : effect.onTree = false)
    (he : ∀ s : CanonState, s.apply effect = appendExternal s op descriptor) :
    Splits owned (whole.apply effect) (Function.update part k ((part k).apply effect)) := by
  obtain ⟨log,hlog,hshare,hlocates⟩ := h.outside
  refine h.of_outside ho ?_ ⟨log ++ [(k,op)],?_,fun k' => ?_,fun k' d hd' => ?_⟩
  · intro k' l hl
    rw [he,(appendExternal_fields whole op descriptor).2,h.fallback k' l hl]
    by_cases hk : k' = k
    · subst hk
      rw [Function.update_self,he,(appendExternal_fields (part k') op descriptor).2]
    · rw [Function.update_of_ne hk]
  · rw [he,(appendExternal_fields whole op descriptor).1,List.map_append]
    simp [hlog]
  · by_cases hk : k' = k
    · subst hk
      rw [Function.update_self,he,share_append,if_pos rfl,(appendExternal_fields (part k') op descriptor).1,hshare]
    · rw [Function.update_of_ne hk,share_append,if_neg (Ne.symm hk),hshare]
  · have hold := Records.rel_imp (hlocates k' d hd') fun i j hij => hij.append [(k,op)]
    have hlast := Locates.last log k op
    have hlength : log.length = whole.externalOps.length := by rw [hlog,List.length_map]
    rw [hlength,← hshare] at hlast
    by_cases hk : k' = k
    · subst hk
      rw [Function.update_self,he,he]
      cases descriptor with
      | none => exact hold
      | some d' =>
        simp only [appendExternal,CanonState.pushExternalWrite,ExtTreeMap.getElem?_insert]
        split_ifs
        · exact .some hlast
        · exact hold
    · rw [Function.update_of_ne hk,he]
      cases descriptor with
      | none => exact hold
      | some d' =>
        have hne : ¬ compare d' d = .eq := by
          rw [Std.compare_eq_iff_eq]
          rintro rfl
          exact hk (hd k' k d'.lifetime hd' (hown d' rfl))
        simp only [appendExternal,CanonState.pushExternalWrite,ExtTreeMap.getElem?_insert,hne,if_false]
        exact hold

private theorem eq_none_of_rel {α β : Type*} {r : α → β → Prop} {b : Option β} (h : Option.Rel r none b) :
    b = none := by
  cases h
  rfl

private theorem exists_of_rel_some {α β : Type*} {r : α → β → Prop} {a : α} {b : Option β}
    (h : Option.Rel r (some a) b) : ∃ b', b = some b' ∧ r a b' := by
  cases h with
  | some h => exact ⟨_,rfl,h⟩

/-- A close of a descriptor that refers to nothing changes nothing. -/
private theorem apply_close_missing {s : CanonState} {d : Descriptor} (o : Option FileObservation)
    (hs : s.externalPendingWrites[d]? = none) : s.apply (.closeWrite .outside d o) = s := by
  simp only [CanonState.apply,CanonState.pending,hs]

private theorem apply_close_found {s : CanonState} {d : Descriptor} {o : Option FileObservation} {i : ℕ}
    {f : CanonicalOp → CanonicalOp} (hf : ∀ ops i, fillOutput ops i o = ops.modify i f)
    (hs : s.externalPendingWrites[d]? = some i) :
    s.apply (.closeWrite .outside d o) = { s with
      externalOps := s.externalOps.modify i f
      externalPendingWrites := s.externalPendingWrites.erase d } := by
  simp only [CanonState.apply,CanonState.pending,hs,CanonState.setSide,CanonState.recorded,hf]

theorem applyClose (h : Splits owned whole part) (hd : ∀ k k' l, owned k l → owned k' l → k = k') {k : Bool}
    {d : Descriptor} (hown : owned k d.lifetime) (o : Option FileObservation) :
    Splits owned (whole.apply (.closeWrite .outside d o))
      (Function.update part k ((part k).apply (.closeWrite .outside d o))) := by
  obtain ⟨log,hlog,hshare,hlocates⟩ := h.outside
  obtain ⟨f,hf⟩ := fillOutput_eq_modify o
  have hrel := hlocates k d hown
  cases hw : whole.externalPendingWrites[d]? with
  | none =>
    rw [hw] at hrel
    rw [apply_close_missing o hw,apply_close_missing o (eq_none_of_rel hrel),Function.update_eq_self]
    exact h
  | some i =>
    rw [hw] at hrel
    obtain ⟨j,hp,hij⟩ := exists_of_rel_some hrel
    have happly := apply_close_found hf hw
    have happly' := apply_close_found hf hp
    refine h.of_outside rfl ?_ ⟨amend log i f,?_,fun k' => ?_,fun k' d' hd' => ?_⟩
    · intro k' l hl
      by_cases hk : k' = k
      · subst hk
        rw [Function.update_self,happly,happly']
        exact h.fallback k' l hl
      · rw [Function.update_of_ne hk,happly]
        exact h.fallback k' l hl
    · rw [happly,map_snd_amend]
      simp only [hlog]
    · rw [hij.share_amend]
      by_cases hk : k' = k
      · subst hk
        rw [Function.update_self,happly',if_pos rfl]
        simp only [hshare]
      · rw [Function.update_of_ne hk,if_neg (Ne.symm hk),hshare]
    · have hold := Records.rel_imp (hlocates k' d' hd') fun i' j' hij' => hij'.amend i f
      by_cases hk : k' = k
      · subst hk
        rw [Function.update_self,happly,happly']
        simp only [ExtTreeMap.getElem?_erase]
        split_ifs
        · exact .none
        · exact hold
      · have hne : ¬ compare d d' = .eq := by
          rw [Std.compare_eq_iff_eq]
          rintro rfl
          exact hk (hd k' k d.lifetime hd' hown)
        rw [Function.update_of_ne hk,happly]
        simp only [ExtTreeMap.getElem?_erase,hne,if_false]
        exact hold

/-- An effect on owned lifetimes changes the whole and the loop of its owner. -/
theorem apply (h : Splits owned whole part) (hd : ∀ k k' l, owned k l → owned k' l → k = k') {k : Bool}
    {effect : Effect} (hown : owned k effect.target) (htree : effect.onTree = true → k = false) :
    Splits owned (whole.apply effect) (Function.update part k ((part k).apply effect)) := by
  cases ht : effect.onTree with
  | true =>
    obtain rfl := htree ht
    exact h.applyOnTree ht
  | false =>
    cases effect with
    | assignIndex | setToolHash | inheritWrites => simp [Effect.onTree] at ht
    | markFallback l => exact h.applyMark hd hown
    | push side p op =>
      cases side with
      | tree => simp [Effect.onTree] at ht
      | outside => exact h.applyAppend hd { op with processIndex := 4294967295 } none (by simp) ht fun _ => rfl
    | openWrite side p fd op =>
      cases side with
      | tree => simp [Effect.onTree] at ht
      | outside =>
        exact h.applyAppend hd { op with processIndex := 4294967295 } (some ⟨p.lifetime,fd⟩)
          (by simpa [Effect.target] using hown) ht fun _ => rfl
    | closeWrite side d o =>
      cases side with
      | tree => simp [Effect.onTree] at ht
      | outside => exact h.applyClose hd hown o

theorem foldl (hd : ∀ k k' l, owned k l → owned k' l → k = k') {k : Bool} (effects : List Effect)
    (hown : ∀ effect ∈ effects, owned k effect.target ∧ (effect.onTree = true → k = false)) {whole : CanonState}
    {part : Bool → CanonState} (h : Splits owned whole part) :
    Splits owned (effects.foldl CanonState.apply whole)
      (Function.update part k (effects.foldl CanonState.apply (part k))) := by
  induction effects generalizing whole part with
  | nil => simpa using h
  | cons effect effects ih =>
    obtain ⟨ht,htree⟩ := hown effect List.mem_cons_self
    have hrest := ih (fun e he => hown e (List.mem_cons_of_mem _ he)) (h.apply hd ht htree)
    rwa [Function.update_self,Function.update_idem] at hrest

/-- One turn of the whole loop is one turn of the loop its event belongs to. -/
theorem turn (h : Splits owned whole part) (hd : ∀ k k' l, owned k l → owned k' l → k = k')
    (scope : TraceScope) {event : TracedEvent}
    (hown : ∀ l, concerns l event = true → owned (isExternal event) l) :
    Splits owned (turn scope whole event)
      (Function.update part (isExternal event) (turn scope (part (isExternal event)) event)) := by
  have hactor := hown _ (concerns_actor event)
  have heffects : effects scope (whole.view (actor event)) event =
      effects scope ((part (isExternal event)).view (actor event)) event := by
    cases he : isExternal event with
    | false =>
      rw [he] at hactor
      rw [h.view_tree hactor]
    | true =>
      rw [he] at hactor
      exact (effects_external he (h.hasWrite_outside hactor)).1
  rw [Canonical.turn,Canonical.turn,heffects]
  refine foldl hd _ (fun effect heff => ⟨hown _ (concerns_of_mem_effects heff).1,fun ht => ?_⟩) h
  by_contra hne
  have hext : isExternal event = true := by simpa using hne
  rw [(effects_external hext rfl).2 effect heff] at ht
  cases ht

/-- The whole loop against the loops over the events of each kind. -/
theorem run (hd : ∀ k k' l, owned k l → owned k' l → k = k') (scope : TraceScope) (events : List TracedEvent)
    (hown : ∀ event ∈ events, ∀ l, concerns l event = true → owned (isExternal event) l) {whole : CanonState}
    {part : Bool → CanonState} (h : Splits owned whole part) :
    Splits owned (events.foldl (Canonical.turn scope) whole)
      fun k => (events.filter (isExternal · = k)).foldl (Canonical.turn scope) (part k) := by
  induction events generalizing whole part with
  | nil => simpa using h
  | cons event events ih =>
    have hrest := ih (fun e he => hown e (List.mem_cons_of_mem _ he))
      (h.turn hd scope (hown event List.mem_cons_self))
    have hparts : (fun k => (events.filter (isExternal · = k)).foldl (Canonical.turn scope)
        (Function.update part (isExternal event)
          (Canonical.turn scope (part (isExternal event)) event) k)) =
        fun k => ((event :: events).filter (isExternal · = k)).foldl (Canonical.turn scope) (part k) := by
      funext k
      by_cases hk : k = isExternal event
      · subst hk
        rw [Function.update_self,List.filter_cons_of_pos (by simp),List.foldl_cons]
      · rw [Function.update_of_ne hk,List.filter_cons_of_neg (by simpa using Ne.symm hk)]
    rw [hparts] at hrest
    exact hrest

end Splits

theorem splits_initial (owned : Bool → ProcessLifetime → Prop) (scope : TraceScope) :
    Splits owned (initial scope) fun _ => initial scope where
  tree := rfl
  quiet := rfl
  fallback _ _ _ := Iff.rfl
  outside := by
    refine ⟨[],rfl,fun _ => rfl,fun _ d _ => ?_⟩
    have hnone : (initial scope).externalPendingWrites[d]? = none := by simp [initial]
    rw [hnone]
    exact .none

/-- External processes neither remove nor alter an operation of the fork tree, nor
the other way round: the leaves of a trace are those of its two kinds of events. -/
theorem canonicalizeEvents_separates (sha256 : Str → Digest) (scope : TraceScope)
    (order treeOrder outsideOrder : IterationOrder ℕ) (events : List TracedEvent) (h : Separated events)
    (leaf : Str) :
    leaf ∈ (canonicalizeEvents sha256 scope order events).map (hash sha256) ↔
      leaf ∈ (canonicalizeEvents sha256 scope treeOrder (events.filter (isExternal · = false))).map
        (hash sha256) ∨
      leaf ∈ (canonicalizeEvents sha256 scope outsideOrder (events.filter (isExternal · = true))).map
        (hash sha256) := by
  have hrun := (splits_initial (fun k l => ∃ e ∈ events, isExternal e = k ∧ concerns l e = true) scope).run
    (by
      rintro k k' l ⟨e,he,rfl,hc⟩ ⟨e',he',rfl,hc'⟩
      exact h l e he e' he' hc hc') scope events (fun e he l hc => ⟨e,he,rfl,hc⟩)
  obtain ⟨log,hlog,hshare,-⟩ := hrun.outside
  have hops := hrun.tables.1
  have hquiet := hrun.quiet
  have hmem : ∀ (order : IterationOrder ℕ) (events : List TracedEvent),
      leaf ∈ (canonicalizeEvents sha256 scope order events).map (hash sha256) ↔
        ∃ op, (op ∈ (events.foldl (turn scope) (initial scope)).ops ∨
          op ∈ (events.foldl (turn scope) (initial scope)).externalOps) ∧ op.normalize.hash sha256 = leaf := by
    intro order events
    change leaf ∈ leafHashes sha256 (recordedOps scope order events) ↔ _
    rw [mem_leafHashes,recordedOps,canonicalizeFrom_eq_foldl]
    simp only [List.mem_append]
  rw [hmem,hmem,hmem]
  simp only [hops,hquiet,hlog,mem_map_snd_iff,← hshare]
  grind

section Bystander

def watchedScope : TraceScope := ⟨openingProcess,[utf8 "/w"]⟩

/-- The root writes a watched file while a process outside the tree writes another
one through a descriptor of the same number. -/
def bystanderWrites : List TracedEvent :=
  [.fileOpen openingProcess (utf8 "/w/a") 1 3 false (.missing (seenContent 0)),
    .fileOpen inheritingProcess (utf8 "/w/b") 1 3 true (.missing (seenContent 0)),
    .fileClose openingProcess 3 (some (utf8 "/w/a")) false (some (.content (seenContent 1))),
    .fileClose inheritingProcess 3 (some (utf8 "/w/b")) true (some (.content (seenContent 2)))]

theorem separated_bystanderWrites : Separated bystanderWrites := by
  have hkind : ∀ e ∈ bystanderWrites, ∀ l, concerns l e = true →
      isExternal e = decide (l = inheritingProcess.lifetime) := by
    intro e he l hl
    simp only [bystanderWrites,List.mem_cons,List.not_mem_nil,or_false] at he
    have hown : (actor e).lifetime = l := by
      rcases he with rfl | rfl | rfl | rfl <;> simpa [concerns] using hl
    rw [← hown]
    rcases he with rfl | rfl | rfl | rfl <;> decide
  intro l e he e' he' hc hc'
  rw [hkind e he l hc,hkind e' he' l hc']

/-- The write of the bystander is committed besides that of the root. -/
theorem canonicalizeEvents_separates_sample :
    (⟨.externalFileWrite,0,none,[],[],[seenContent 2]⟩ : CanonicalOp).hash
        (fun s => Vector.replicate 32 s.length.toUInt8) ∈
      (canonicalizeEvents (fun s => Vector.replicate 32 s.length.toUInt8) watchedScope .stored
        bystanderWrites).map (hash fun s => Vector.replicate 32 s.length.toUInt8) :=
  (canonicalizeEvents_separates (fun s => Vector.replicate 32 s.length.toUInt8) watchedScope .stored .stored
    .stored bystanderWrites separated_bystanderWrites _).mpr (Or.inr (by decide))

end Bystander

end Repx.Canonical
