import Repx.Operations.EventInterleaving

/-! # Independence of scheduler-assigned identifiers

A renaming gives every process lifetime, every executable image of a lifetime and
every descriptor number another name. The loop on the renamed events runs in step
with the loop on the original ones: the tables hold the same entries under renamed
keys and the recorded operations are the same.
-/
namespace Repx.Canonical
open ByteString Std Trace HashTables CanonicalOp Sha256 CanonState

/-- Distinct identifiers stay distinct; exec epochs are renamed within a lifetime. -/
structure Renaming where
  lifetime : ProcessLifetime → ProcessLifetime
  execEpoch : ProcessLifetime → UInt32 → UInt32
  fd : Int → Int
  lifetime_injective : Function.Injective lifetime
  execEpoch_injective : ∀ l, Function.Injective (execEpoch l)
  fd_injective : Function.Injective fd

namespace Renaming
variable (ρ : Renaming)

def process (p : ProcessInstance) : ProcessInstance := ⟨ρ.lifetime p.lifetime,ρ.execEpoch p.lifetime p.execEpoch⟩

def descriptor (d : Descriptor) : Descriptor := ⟨ρ.lifetime d.lifetime,ρ.fd d.fd⟩

def scope (scope : TraceScope) : TraceScope := ⟨ρ.process scope.rootProcess,scope.watchPrefixes⟩

def event : TracedEvent → TracedEvent
  | .exec p o => .exec (ρ.process p) o
  | .fork parent child => .fork (ρ.process parent) (ρ.process child)
  | .fileOpen p path flags fd external o => .fileOpen (ρ.process p) path flags (ρ.fd fd) external o
  | .fileClose p fd path external o => .fileClose (ρ.process p) (ρ.fd fd) path external o
  | .fileMmap p fd prot flags path external o => .fileMmap (ρ.process p) (ρ.fd fd) prot flags path external o
  | .fileRename p fromPath toPath flags external o =>
    .fileRename (ρ.process p) fromPath toPath flags external o
  | .fileUnlink p path flags external o => .fileUnlink (ρ.process p) path flags external o
  | .exit p exitCode => .exit (ρ.process p) exitCode

def effect : Effect → Effect
  | .assignIndex p => .assignIndex (ρ.process p)
  | .setToolHash p toolHash => .setToolHash (ρ.process p) toolHash
  | .markFallback l => .markFallback (ρ.lifetime l)
  | .inheritWrites parent child => .inheritWrites (ρ.lifetime parent) (ρ.lifetime child)
  | .push side p op => .push side (ρ.process p) op
  | .openWrite side p fd op => .openWrite side (ρ.process p) (ρ.fd fd) op
  | .closeWrite side d o => .closeWrite side (ρ.descriptor d) o

theorem process_injective : Function.Injective ρ.process := by
  rintro ⟨l,e⟩ ⟨l',e'⟩ h
  obtain ⟨hl,he⟩ := ProcessInstance.mk.inj h
  obtain rfl := ρ.lifetime_injective hl
  obtain rfl := ρ.execEpoch_injective l he
  rfl

theorem descriptor_injective : Function.Injective ρ.descriptor := by
  rintro ⟨l,fd⟩ ⟨l',fd'⟩ h
  obtain ⟨hl,hfd⟩ := Descriptor.mk.inj h
  obtain rfl := ρ.lifetime_injective hl
  obtain rfl := ρ.fd_injective hfd
  rfl

theorem actor_event (event : TracedEvent) : actor (ρ.event event) = ρ.process (actor event) := by
  cases event <;> rfl

end Renaming

section Effects
variable (ρ : Renaming) (scope : TraceScope)

/-- The same facts are known about a process under both names. -/
structure ViewRenamed (view view' : ProcessView) : Prop where
  toolHash : view'.toolHash = view.toolHash
  fallback : view'.fallback = view.fallback
  indexed : view'.indexed = view.indexed
  hasWrite : ∀ side fd, view'.hasWrite side (ρ.fd fd) = view.hasWrite side fd

variable {ρ} {view view' : ProcessView}

theorem isRoot_renamed (p : ProcessInstance) :
    ((ρ.process p).lifetime = (ρ.scope scope).rootProcess.lifetime) = (p.lifetime = scope.rootProcess.lifetime) :=
  propext ρ.lifetime_injective.eq_iff

theorem notRoot_renamed (p : ProcessInstance) :
    ((ρ.process p).lifetime != (ρ.scope scope).rootProcess.lifetime) =
      (p.lifetime != scope.rootProcess.lifetime) := by
  rw [Bool.eq_iff_iff]
  simp only [bne_iff_ne,ne_eq,isRoot_renamed]

theorem ViewRenamed.isOutside (h : ViewRenamed ρ view view') (p : ProcessInstance) (external watched : Bool) :
    view'.isOutside (ρ.scope scope) (ρ.process p) external watched = view.isOutside scope p external watched := by
  simp only [ProcessView.isOutside,notRoot_renamed,h.toolHash,h.fallback]

/-- Renamed events have the renamed effects. -/
theorem ViewRenamed.effects (h : ViewRenamed ρ view view') (event : TracedEvent) :
    effects (ρ.scope scope) view' (ρ.event event) = (effects scope view event).map ρ.effect := by
  have hwatched : (ρ.scope scope).isWatched = scope.isWatched := rfl
  cases event with
  | exec p o => rfl
  | fork parent child =>
    simp only [Renaming.event,Canonical.effects,h.toolHash]
    cases view.toolHash <;> rfl
  | fileOpen p path flags fd external o =>
    simp only [Renaming.event,Canonical.effects,fileOpenEffects,hwatched,h.isOutside,h.toolHash]
    split_ifs <;> rfl
  | fileClose p fd path external o =>
    cases path with
    | none => rfl
    | some path =>
      simp only [Renaming.event,Canonical.effects,fileCloseEffects,hwatched,notRoot_renamed,h.fallback]
      rfl
  | fileMmap p fd prot flags path external o =>
    simp only [Renaming.event,Canonical.effects,hwatched]
    split_ifs
    · rfl
    cases path with
    | none => rfl
    | some path =>
      cases o with
      | none => rfl
      | some o =>
        simp only [mappingEffects,hwatched,h.isOutside,h.toolHash,h.hasWrite]
        split_ifs <;> rfl
  | fileRename p fromPath toPath flags external o =>
    simp only [Renaming.event,Canonical.effects,pathEventEffects,hwatched,h.isOutside,h.toolHash]
    split_ifs <;> rfl
  | fileUnlink p path flags external o =>
    simp only [Renaming.event,Canonical.effects,pathEventEffects,hwatched,h.isOutside,h.toolHash]
    split_ifs <;> rfl
  | exit p exitCode =>
    simp only [Renaming.event,Canonical.effects,h.indexed,h.toolHash,isRoot_renamed]
    split_ifs <;> rfl

end Effects

section States

/-- The same operations are recorded, and the tables correspond under the renaming. -/
structure StateRenamed (ρ : Renaming) (s s' : CanonState) : Prop where
  recorded : s'.recorded = s.recorded
  nextIndex : s'.nextIndex = s.nextIndex
  processToIndex : KeysRenamed ρ.process s.processToIndex s'.processToIndex
  processToToolHash : KeysRenamed ρ.process s.processToToolHash s'.processToToolHash
  fallback : ∀ l, ρ.lifetime l ∈ s'.fallbackExternalProcesses ↔ l ∈ s.fallbackExternalProcesses
  pending : ∀ side, KeysRenamed ρ.descriptor (s.pending side) (s'.pending side)

namespace StateRenamed
variable {ρ : Renaming} {s s' : CanonState}

theorem view (h : StateRenamed ρ s s') (p : ProcessInstance) :
    ViewRenamed ρ (s.view p) (s'.view (ρ.process p)) where
  toolHash := h.processToToolHash p
  fallback := by
    rw [Bool.eq_iff_iff]
    simp only [CanonState.view,ExtTreeSet.contains_iff_mem]
    exact h.fallback p.lifetime
  indexed := h.processToIndex.contains p
  hasWrite side fd := (h.pending side).contains ⟨p.lifetime,fd⟩

theorem indexed (h : StateRenamed ρ s s') (side : Side) (p : ProcessInstance) (op : CanonicalOp) :
    s'.indexed side (ρ.process p) op = s.indexed side p op := by
  cases side with
  | tree => simp only [CanonState.indexed,h.processToIndex.getD]
  | outside => rfl

/-- Replacing the operations and the pending writes of one side on both runs. -/
theorem setSide (h : StateRenamed ρ s s') (side : Side) (ops : List CanonicalOp)
    {table table' : ExtTreeMap Descriptor ℕ} (ht : KeysRenamed ρ.descriptor table table') :
    StateRenamed ρ (s.setSide side ops table) (s'.setSide side ops table') := by
  have hrest : ∀ (s : CanonState) (table : ExtTreeMap Descriptor ℕ),
      (s.setSide side ops table).nextIndex = s.nextIndex ∧
        (s.setSide side ops table).processToIndex = s.processToIndex ∧
        (s.setSide side ops table).processToToolHash = s.processToToolHash ∧
        (s.setSide side ops table).fallbackExternalProcesses = s.fallbackExternalProcesses := by
    intro s table
    cases side <;> exact ⟨rfl,rfl,rfl,rfl⟩
  obtain ⟨hn,hi,ht0,hf⟩ := hrest s table
  obtain ⟨hn',hi',ht0',hf'⟩ := hrest s' table'
  constructor
  · rw [setSide_recorded,setSide_recorded,h.recorded]
  · rw [hn,hn',h.nextIndex]
  · rw [hi,hi']
    exact h.processToIndex
  · rw [ht0,ht0']
    exact h.processToToolHash
  · rw [hf,hf']
    exact h.fallback
  · intro side'
    rw [setSide_pending,setSide_pending]
    by_cases hs : side' = side
    · subst hs
      simpa using ht
    · simpa [Function.update_of_ne hs] using h.pending side'

theorem assignIndex (h : StateRenamed ρ s s') (p : ProcessInstance) :
    StateRenamed ρ (s.assignIndex p) (s'.assignIndex (ρ.process p)) := by
  have hmem : ρ.process p ∈ s'.processToIndex ↔ p ∈ s.processToIndex := by
    rw [← ExtTreeMap.contains_iff_mem,← ExtTreeMap.contains_iff_mem,h.processToIndex.contains]
  unfold CanonState.assignIndex
  by_cases hp : p ∈ s.processToIndex
  · rw [if_pos hp,if_pos (hmem.mpr hp)]
    exact h
  · rw [if_neg hp,if_neg (fun hp' => hp (hmem.mp hp'))]
    have hindex := h.processToIndex.insert ρ.process_injective p s.nextIndex
    refine ⟨h.recorded,?_,?_,h.processToToolHash,h.fallback,h.pending⟩
    · simp only [h.nextIndex]
    · simp only [h.nextIndex]
      exact hindex

theorem inheritWrites (h : StateRenamed ρ s s') (parent child : ProcessLifetime) :
    KeysRenamed ρ.descriptor (Trace.inheritWrites (ι := Unit) .stored () parent child s.pendingWrites)
      (Trace.inheritWrites (ι := Unit) .stored () (ρ.lifetime parent) (ρ.lifetime child) s'.pendingWrites) := by
  have hpending : KeysRenamed ρ.descriptor s.pendingWrites s'.pendingWrites := h.pending .tree
  intro d
  have hparent := hpending ⟨parent,d.fd⟩
  have hchild : (ρ.descriptor d).lifetime = ρ.lifetime child ↔ d.lifetime = child :=
    ρ.lifetime_injective.eq_iff
  rw [getElem?_inheritWrites,getElem?_inheritWrites,hpending d,← hparent]
  by_cases hd : d.lifetime = child
  · rw [if_pos hd,if_pos (hchild.mpr hd)]
    rfl
  · rw [if_neg hd,if_neg (fun hd' => hd (hchild.mp hd'))]

/-- Renamed effects keep the two runs in step. -/
theorem apply (h : StateRenamed ρ s s') (effect : Effect) :
    StateRenamed ρ (s.apply effect) (s'.apply (ρ.effect effect)) := by
  cases effect with
  | assignIndex p => exact h.assignIndex p
  | setToolHash p toolHash =>
    exact ⟨h.recorded,h.nextIndex,h.processToIndex,h.processToToolHash.insert ρ.process_injective p toolHash,
      h.fallback,h.pending⟩
  | markFallback l =>
    refine ⟨h.recorded,h.nextIndex,h.processToIndex,h.processToToolHash,fun l' => ?_,h.pending⟩
    simp only [CanonState.apply,Renaming.effect,CanonState.markFallback,ExtTreeSet.mem_insert,
      Std.compare_eq_iff_eq,ρ.lifetime_injective.eq_iff,h.fallback]
  | inheritWrites parent child =>
    refine ⟨h.recorded,h.nextIndex,h.processToIndex,h.processToToolHash,h.fallback,fun side => ?_⟩
    cases side with
    | tree => exact h.inheritWrites parent child
    | outside => exact h.pending .outside
  | push side p op =>
    simp only [CanonState.apply,Renaming.effect,h.recorded,h.indexed]
    exact h.setSide side _ (h.pending side)
  | openWrite side p fd op =>
    simp only [CanonState.apply,Renaming.effect,h.recorded,h.indexed]
    exact h.setSide side _ ((h.pending side).insert ρ.descriptor_injective ⟨p.lifetime,fd⟩ _)
  | closeWrite side d o =>
    simp only [CanonState.apply,Renaming.effect,h.recorded,h.pending side d]
    cases (s.pending side)[d]? with
    | none => exact h
    | some index => exact h.setSide side _ ((h.pending side).erase ρ.descriptor_injective d)

theorem turn (h : StateRenamed ρ s s') (scope : TraceScope) (event : TracedEvent) :
    StateRenamed ρ (turn scope s event) (turn (ρ.scope scope) s' (ρ.event event)) := by
  have hfold : ∀ (effects : List Effect) (s s' : CanonState), StateRenamed ρ s s' →
      StateRenamed ρ (effects.foldl CanonState.apply s) ((effects.map ρ.effect).foldl CanonState.apply s') := by
    intro effects
    induction effects with
    | nil => exact fun _ _ h => h
    | cons effect effects ih => exact fun s s' h => ih _ _ (h.apply effect)
  rw [Canonical.turn,Canonical.turn,ρ.actor_event,(h.view (actor event)).effects]
  exact hfold _ s s' h

theorem run (scope : TraceScope) (events : List TracedEvent) {s s' : CanonState} (h : StateRenamed ρ s s') :
    StateRenamed ρ (events.foldl (Canonical.turn scope) s)
      ((events.map ρ.event).foldl (Canonical.turn (ρ.scope scope)) s') := by
  induction events generalizing s s' with
  | nil => exact h
  | cons event events ih => exact ih (h.turn scope event)

end StateRenamed

theorem stateRenamed_initial (ρ : Renaming) (scope : TraceScope) :
    StateRenamed ρ (initial scope) (initial (ρ.scope scope)) where
  recorded := by
    funext side
    cases side <;> rfl
  nextIndex := rfl
  processToIndex := by
    have hempty : KeysRenamed ρ.process (∅ : ExtTreeMap ProcessInstance UInt32) ∅ := fun _ => by simp
    exact hempty.insert ρ.process_injective scope.rootProcess 0
  processToToolHash _ := by simp [initial]
  fallback l := by simp [initial]
  pending side d := by cases side <;> simp [initial,CanonState.pending]

end States

/-- The leaves are the same under every consistent renaming of the identifiers the
scheduler assigns, and for all orders in which forks list the pending writes. -/
theorem canonicalizeEvents_renaming (sha256 : Str → Digest) (scope : TraceScope)
    (order order' : IterationOrder ℕ) (events : List TracedEvent) (ρ : Renaming) :
    (canonicalizeEvents sha256 (ρ.scope scope) order' (events.map ρ.event)).map (hash sha256) =
      (canonicalizeEvents sha256 scope order events).map (hash sha256) := by
  have hrun := (stateRenamed_initial ρ scope).run scope events
  have hops := congrFun hrun.recorded .tree
  have hexternal := congrFun hrun.recorded .outside
  simp only [CanonState.recorded] at hops hexternal
  have hrecorded : recordedOps (ρ.scope scope) order' (events.map ρ.event) = recordedOps scope order events := by
    simp only [recordedOps,canonicalizeFrom_eq_foldl,hops,hexternal]
  rw [canonicalizeEvents,canonicalizeEvents,hrecorded]

end Repx.Canonical
