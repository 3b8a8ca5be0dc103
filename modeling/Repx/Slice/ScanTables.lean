import Repx.Slice.ScanEffects

/-! # What the scanned tables contain

The tables do not depend on the orders in which the scan traverses them. A
process is recorded as a writer of some content exactly when the content is
among the writes or renames of its flow.
-/
namespace Repx.Slice
open ByteString Std Trace HashTables

section Lookup

theorem getElem?_movePendingWrites (order : IterationOrder Traversal) (site : Traversal) (fromPath toPath : Str)
    (pending : ExtTreeMap Descriptor PendingWrite) (d : Descriptor) :
    (movePendingWrites order site fromPath toPath pending)[d]? =
      pending[d]?.map (movePendingWrite fromPath toPath) := by
  have hkeys : ((order.visit site pending.toList).map fun e =>
      (e.1,movePendingWrite fromPath toPath e.2)).map Prod.fst =
      (order.visit site pending.toList).map Prod.fst := by
    rw [List.map_map]
    rfl
  have hnodup : ((order.visit site pending.toList).map Prod.fst).Nodup :=
    ((order.perm site pending.toList).map Prod.fst).symm.nodup (nodup_keys_toList pending)
  cases hd : pending[d]? with
  | some write =>
    apply getElem?_insertMany_of_mem
    · rw [hkeys]
      exact hnodup
    · rw [List.mem_map]
      refine ⟨(d,write),?_,rfl⟩
      rw [IterationOrder.mem_visit,ExtTreeMap.mem_toList_iff_getElem?_eq_some]
      exact hd
  | none =>
    rw [Option.map_none,← hd]
    apply getElem?_insertMany_of_not_mem
    rw [hkeys]
    intro h
    obtain ⟨⟨k,write⟩,hm,rfl⟩ := List.mem_map.mp h
    rw [IterationOrder.mem_visit,ExtTreeMap.mem_toList_iff_getElem?_eq_some] at hm
    rw [hm] at hd
    cases hd

private theorem mem_aliasEntries (order : IterationOrder Traversal) (site : Traversal)
    (memberSite : Str → Traversal) (fromPath toPath : Str) (writers : Writers) (e : Str × List ProcessInstance) :
    e ∈ (((order.visit site writers.toList).filterMap fun e =>
        (rewritePathPrefix e.1 fromPath toPath).map fun rewritten => (rewritten,e.2)).map
          fun e => (e.1,order.visit (memberSite e.1) e.2.toList)) ↔
      ∃ old set, writers[old]? = some set ∧ rewritePathPrefix old fromPath toPath = some e.1 ∧
        e.2 = order.visit (memberSite e.1) set.toList := by
  rw [List.mem_map]
  constructor
  · rintro ⟨⟨new,set⟩,hm,rfl⟩
    obtain ⟨⟨old,set'⟩,hold,hr⟩ := List.mem_filterMap.mp hm
    obtain ⟨new',hnew,hpair⟩ := Option.map_eq_some_iff.mp hr
    obtain ⟨rfl,rfl⟩ := Prod.mk.inj hpair
    rw [IterationOrder.mem_visit,ExtTreeMap.mem_toList_iff_getElem?_eq_some] at hold
    exact ⟨old,set',hold,hnew,rfl⟩
  · rintro ⟨old,set,hold,hnew,hmembers⟩
    refine ⟨(e.1,set),List.mem_filterMap.mpr ⟨(old,set),?_,?_⟩,?_⟩
    · rw [IterationOrder.mem_visit,ExtTreeMap.mem_toList_iff_getElem?_eq_some]
      exact hold
    · rw [hnew]
      rfl
    · rw [← hmembers]

theorem mem_membersAt_iff {writers : Writers} {path : Str} {process : ProcessInstance} :
    process ∈ membersAt writers path ↔ ∃ set, writers[path]? = some set ∧ process ∈ set := by
  rw [membersAt,ExtTreeMap.getD_eq_getD_getElem?]
  cases writers[path]? <;> simp

/-- A writer of a path after a rename: of the path itself, or of a path that the
rename moves there. -/
theorem mem_membersAt_aliasWriters (order : IterationOrder Traversal) (site : Traversal)
    (memberSite : Str → Traversal) (fromPath toPath : Str) (writers : Writers) (path : Str)
    (process : ProcessInstance) :
    process ∈ membersAt (aliasWriters order site memberSite fromPath toPath writers) path ↔
      process ∈ membersAt writers path ∨
        ∃ old, rewritePathPrefix old fromPath toPath = some path ∧ process ∈ membersAt writers old := by
  rw [aliasWriters,mem_membersAt_addEntries]
  apply or_congr Iff.rfl
  constructor
  · rintro ⟨e,he,rfl,hp⟩
    obtain ⟨old,set,hold,hnew,hmembers⟩ := (mem_aliasEntries order site memberSite fromPath toPath writers e).mp he
    rw [hmembers,IterationOrder.mem_visit,ExtTreeSet.mem_toList] at hp
    exact ⟨old,hnew,mem_membersAt_iff.mpr ⟨set,hold,hp⟩⟩
  · rintro ⟨old,hr,hp⟩
    obtain ⟨set,hold,hp⟩ := mem_membersAt_iff.mp hp
    refine ⟨(path,order.visit (memberSite path) set.toList),?_,rfl,?_⟩
    · exact (mem_aliasEntries order site memberSite fromPath toPath writers _).mpr ⟨old,set,hold,hr,rfl⟩
    · rwa [IterationOrder.mem_visit,ExtTreeSet.mem_toList]

theorem mem_aliasWriters (order : IterationOrder Traversal) (site : Traversal) (memberSite : Str → Traversal)
    (fromPath toPath : Str) (writers : Writers) (path : Str) :
    path ∈ aliasWriters order site memberSite fromPath toPath writers ↔
      path ∈ writers ∨ ∃ old, rewritePathPrefix old fromPath toPath = some path ∧ old ∈ writers := by
  rw [aliasWriters,mem_addEntries]
  apply or_congr Iff.rfl
  constructor
  · rintro ⟨e,he,rfl⟩
    obtain ⟨old,set,hold,hnew,-⟩ := (mem_aliasEntries order site memberSite fromPath toPath writers e).mp he
    exact ⟨old,hnew,by rw [ExtTreeMap.mem_iff_isSome_getElem?,hold]; rfl⟩
  · rintro ⟨old,hr,hp⟩
    rw [ExtTreeMap.mem_iff_isSome_getElem?,Option.isSome_iff_exists] at hp
    obtain ⟨set,hold⟩ := hp
    exact ⟨_,(mem_aliasEntries order site memberSite fromPath toPath writers
      (path,order.visit (memberSite path) set.toList)).mpr ⟨old,set,hold,hr,rfl⟩,rfl⟩

end Lookup

section Order
variable (order order' : IterationOrder Traversal)

theorem aliasWriters_eq (site : Traversal) (memberSite : Str → Traversal) (fromPath toPath : Str)
    (writers : Writers) :
    aliasWriters order site memberSite fromPath toPath writers =
      aliasWriters order' site memberSite fromPath toPath writers := by
  apply table_ext
  · intro path
    rw [mem_aliasWriters,mem_aliasWriters]
  · intro path process
    rw [mem_membersAt_aliasWriters,mem_membersAt_aliasWriters]

theorem movePendingWrites_eq (site : Traversal) (fromPath toPath : Str)
    (pending : ExtTreeMap Descriptor PendingWrite) :
    movePendingWrites order site fromPath toPath pending =
      movePendingWrites order' site fromPath toPath pending := by
  apply ExtTreeMap.ext_getElem?
  intro d
  rw [getElem?_movePendingWrites,getElem?_movePendingWrites]

theorem scanEvent_eq (site : ℕ) (s : ScanState) (rootProcess : ProcessInstance) (event : TracedEvent) :
    scanEvent order site s rootProcess event = scanEvent order' site s rootProcess event := by
  cases event with
  | fork parent child =>
    simp only [scanEvent,scanFork]
    rw [inheritWrites_eq order order' (.inheritedWrites site) (.inheritedWrites site)]
  | fileRename process fromPath toPath flags external observation =>
    simp only [scanEvent,scanFileRename]
    rw [movePendingWrites_eq order order',aliasWriters_eq order order']
  | _ => rfl

theorem scanFrom_eq (rootProcess : ProcessInstance) (site : ℕ) (s : ScanState) (events : List TracedEvent) :
    scanFrom order rootProcess site s events = scanFrom order' rootProcess site s events := by
  induction events generalizing site s with
  | nil => rfl
  | cons event events ih => rw [scanFrom,scanFrom,ih,scanEvent_eq order order']

theorem renameFixup_eq (pair : ℕ) (pairs : List (Str × Str)) (writers : Writers) :
    renameFixup order pair pairs writers = renameFixup order' pair pairs writers := by
  induction pairs generalizing pair writers with
  | nil => rfl
  | cons p pairs ih => rw [renameFixup,renameFixup,ih,aliasWriters_eq order order']

/-- The scanned tables are the same for every order of traversal. -/
theorem scan_eq (rootProcess : ProcessInstance) (events : List TracedEvent) :
    scan order rootProcess events = scan order' rootProcess events := by
  simp only [scan]
  rw [scanFrom_eq order order',renameFixup_eq order order']

end Order

section Flows

/-- The flow of a process, empty if nothing was recorded for it. -/
def flowOf (s : ScanState) (process : ProcessInstance) : ProcessFlow := s.flows.getD process .default

def toolOf (s : ScanState) (process : ProcessInstance) : Option Str := (flowOf s process).toolHash

theorem flowOf_updateFlow (s : ScanState) (process : ProcessInstance) (f : ProcessFlow → ProcessFlow)
    (q : ProcessInstance) :
    flowOf (s.updateFlow process f) q = if process = q then f (flowOf s process) else flowOf s q := by
  simp only [flowOf,ScanState.updateFlow,ExtTreeMap.getD_insert,Std.compare_eq_iff_eq]

theorem flowOf_eq {s : ScanState} {process : ProcessInstance} {flow : ProcessFlow}
    (h : s.flows[process]? = some flow) : flowOf s process = flow := by
  rw [flowOf,ExtTreeMap.getD_eq_getD_getElem?,h]
  rfl

/-- What an effect does to the flow of a process. -/
def ScanEffect.onFlow (s : ScanState) (effect : ScanEffect) (q : ProcessInstance) (flow : ProcessFlow) :
    ProcessFlow :=
  match effect with
  | .exec process o => if process = q then { flow with toolHash := some o.identity, hasExec := true } else flow
  | .inherit parent child =>
    if child = q then { flow with toolHash := s.flows[parent]?.bind ProcessFlow.toolHash } else flow
  | .read process hash => if process = q then { flow with reads := flow.reads.insert hash } else flow
  | .write process hash => if process = q then { flow with writes := flow.writes.insert hash } else flow
  | .rename process hash =>
    if process = q then { flow with reads := flow.reads.insert hash, renames := flow.renames.insert hash }
    else flow
  | _ => flow

theorem flowOf_apply (order : IterationOrder Traversal) (site : ℕ) (s : ScanState) (effect : ScanEffect)
    (q : ProcessInstance) :
    flowOf (s.apply order site effect) q = effect.onFlow s q (flowOf s q) := by
  have hupdate : ∀ process f, flowOf (s.updateFlow process f) q =
      if process = q then f (flowOf s q) else flowOf s q := by
    intro process f
    rw [flowOf_updateFlow]
    split_ifs with hq
    · rw [hq]
    · rfl
  cases effect with
  | exec process o => exact hupdate process _
  | inherit parent child =>
    exact hupdate child fun flow => { flow with toolHash := s.flows[parent]?.bind ProcessFlow.toolHash }
  | read process hash => exact hupdate process _
  | write process hash => exact hupdate process fun flow => { flow with writes := flow.writes.insert hash }
  | rename process hash =>
    exact hupdate process fun flow =>
      { flow with reads := flow.reads.insert hash, renames := flow.renames.insert hash }
  | bind | release | author | move | exit => rfl

/-- The ways in which an event changes the flows and the writers of contents. A
property of these tables holds after a scan as soon as each of them keeps it. -/
structure FlowInvariant (valid : FileObservation → Prop) (I : ScanState → Prop) : Prop where
  congr : ∀ {s s' : ScanState}, I s → s'.flows = s.flows → s'.writersByHash = s.writersByHash → I s'
  exec : ∀ {s process o}, valid o → I s →
    I (s.updateFlow process fun flow => { flow with toolHash := some o.identity, hasExec := true })
  inherit : ∀ {s} (parent child : ProcessInstance), I s →
    I (s.updateFlow child fun flow => { flow with toolHash := s.flows[parent]?.bind ProcessFlow.toolHash })
  read : ∀ {s process path o hash}, valid o → readHash path o = some hash → I s →
    I (s.updateFlow process fun flow => { flow with reads := flow.reads.insert hash })
  write : ∀ {s process o hash}, valid o → o.contentHash = some hash → I s →
    I ((s.updateFlow process fun flow => { flow with writes := flow.writes.insert hash }).addHashWriter hash
      process)
  rename : ∀ {s process o hash}, valid o → o.contentHash = some hash → I s →
    I ((s.updateFlow process fun flow =>
      { flow with reads := flow.reads.insert hash, renames := flow.renames.insert hash }).addHashWriter hash
        process)

/-- The contents that an effect records come from valid observations. -/
def ScanEffect.Valid (valid : FileObservation → Prop) : ScanEffect → Prop
  | .exec _ o => valid o
  | .read _ hash => ∃ path o, valid o ∧ readHash path o = some hash
  | .write _ hash => ∃ o, valid o ∧ o.contentHash = some hash
  | .rename _ hash => ∃ o, valid o ∧ o.contentHash = some hash
  | _ => True

theorem readEffects_valid {valid : FileObservation → Prop} {process : ProcessInstance} {path : Str}
    {o : FileObservation} (ho : valid o) : ∀ effect ∈ readEffects process path o, effect.Valid valid := by
  intro effect he
  obtain ⟨hash,hh,rfl⟩ := mem_readEffects.mp he
  exact ⟨path,o,ho,hh⟩

theorem settleEffects_valid {valid : FileObservation → Prop} {path : Option Str} {write : Option PendingWrite}
    {observation : Option FileObservation} (ho : ∀ o ∈ observation.toList, valid o) :
    ∀ effect ∈ settleEffects path write observation, effect.Valid valid := by
  intro effect he
  obtain ⟨opened,seen,-,rfl,rfl | ⟨hash,hh,rfl⟩⟩ := mem_settleEffects he
  · trivial
  · exact ⟨seen,ho seen (by simp),hh⟩

theorem scanEffects_valid {valid : FileObservation → Prop} {rootProcess : ProcessInstance}
    {pending : ExtTreeMap Descriptor PendingWrite} {event : TracedEvent}
    (hv : ∀ o ∈ event.observations, valid o) :
    ∀ effect ∈ scanEffects rootProcess pending event, effect.Valid valid := by
  intro effect he
  unfold scanEffects at he
  split at he <;> grind [ScanEffect.Valid,TracedEvent.observations,readEffects_valid,settleEffects_valid]

namespace FlowInvariant
variable {valid : FileObservation → Prop} {I : ScanState → Prop} {s : ScanState}

theorem apply (h : FlowInvariant valid I) (hs : I s) (order : IterationOrder Traversal) (site : ℕ)
    {effect : ScanEffect} (hv : effect.Valid valid) : I (s.apply order site effect) := by
  cases effect with
  | exec process observation => exact h.exec hv hs
  | inherit parent child => exact h.congr (h.inherit parent child hs) rfl rfl
  | read process hash =>
    obtain ⟨path,o,ho,hr⟩ := hv
    exact h.read ho hr hs
  | write process hash =>
    obtain ⟨o,ho,hc⟩ := hv
    exact h.write ho hc hs
  | rename process hash =>
    obtain ⟨o,ho,hc⟩ := hv
    exact h.rename ho hc hs
  | bind | release | author | move | exit => exact h.congr hs rfl rfl

theorem scanEvent (h : FlowInvariant valid I) (hs : I s) (order : IterationOrder Traversal) (site : ℕ)
    (rootProcess : ProcessInstance) {event : TracedEvent} (hv : ∀ o ∈ event.observations, valid o) :
    I (scanEvent order site s rootProcess event) := by
  rw [scanEvent_eq_foldl]
  exact List.foldlRecOn _ _ hs fun s hs effect he => h.apply hs order site (scanEffects_valid hv effect he)

/-- An invariant of the flows holds after every scan. -/
theorem scan (h : FlowInvariant valid I) (hinitial : I .initial) (order : IterationOrder Traversal)
    (rootProcess : ProcessInstance) {events : List TracedEvent}
    (hv : ∀ event ∈ events, ∀ o ∈ event.observations, valid o) : I (scan order rootProcess events) := by
  have hrun : ∀ (events : List TracedEvent) (site : ℕ) (s : ScanState),
      (∀ event ∈ events, ∀ o ∈ event.observations, valid o) → I s →
      I (scanFrom order rootProcess site s events) := by
    intro events
    induction events with
    | nil => exact fun _ _ _ hs => hs
    | cons event events ih =>
      intro site s hv hs
      exact ih (site + 1) _ (fun e he => hv e (List.mem_cons_of_mem _ he))
        (h.scanEvent hs order site rootProcess (hv event List.mem_cons_self))
  exact h.congr (hrun events 0 .initial hv hinitial) rfl rfl

end FlowInvariant

/-- The writers of a content are the processes whose flow says so. -/
def WritersMatch (s : ScanState) : Prop :=
  ∀ hash process, process ∈ membersAt s.writersByHash hash ↔
    hash ∈ (flowOf s process).writes ∨ hash ∈ (flowOf s process).renames

/-- A change of flows that records no write and no rename. -/
theorem WritersMatch.updateFlow {s : ScanState} (h : WritersMatch s) {process : ProcessInstance}
    {f : ProcessFlow → ProcessFlow} (hf : ∀ flow, (f flow).writes = flow.writes ∧ (f flow).renames = flow.renames) :
    WritersMatch (s.updateFlow process f) := by
  intro hash q
  rw [flowOf_updateFlow]
  split_ifs with hq
  · subst hq
    rw [(hf _).1,(hf _).2]
    exact h hash process
  · exact h hash q

/-- A write or a rename is recorded in the flow and in the table. -/
theorem WritersMatch.record {s : ScanState} (h : WritersMatch s) {process : ProcessInstance}
    {f : ProcessFlow → ProcessFlow} {hash : Str}
    (hf : ∀ flow x, (x ∈ (f flow).writes ∨ x ∈ (f flow).renames) ↔
      (x ∈ flow.writes ∨ x ∈ flow.renames) ∨ hash = x) :
    WritersMatch ((s.updateFlow process f).addHashWriter hash process) := by
  intro x q
  have hflow : flowOf ((s.updateFlow process f).addHashWriter hash process) q =
      flowOf (s.updateFlow process f) q := rfl
  have htable : q ∈ membersAt ((s.updateFlow process f).addHashWriter hash process).writersByHash x ↔
      q ∈ membersAt s.writersByHash x ∨ hash = x ∧ q = process := by
    simp only [ScanState.addHashWriter,mem_membersAt_addMembers,List.mem_singleton]
    rfl
  rw [hflow,flowOf_updateFlow,htable,h]
  split_ifs with hq
  · subst hq
    rw [hf]
    simp
  · simp [Ne.symm hq]

theorem flowInvariant_writersMatch : FlowInvariant (fun _ => True) WritersMatch where
  congr := by
    intro s s' h hf hw hash process
    rw [hw,h hash process,flowOf,flowOf,hf]
  exec _ h := h.updateFlow fun _ => ⟨rfl,rfl⟩
  inherit _ _ h := h.updateFlow fun _ => ⟨rfl,rfl⟩
  read _ _ h := h.updateFlow fun _ => ⟨rfl,rfl⟩
  write _ _ h := h.record fun flow x => by
    simp only [ExtTreeSet.mem_insert,Std.compare_eq_iff_eq]
    grind
  rename _ _ h := h.record fun flow x => by
    simp only [ExtTreeSet.mem_insert,Std.compare_eq_iff_eq]
    grind

/-- After every scan, writers and flows agree. -/
theorem writersMatch_scan (order : IterationOrder Traversal) (rootProcess : ProcessInstance)
    (events : List TracedEvent) : WritersMatch (scan order rootProcess events) := by
  refine flowInvariant_writersMatch.scan ?_ order rootProcess fun _ _ _ _ => trivial
  intro hash process
  simp [ScanState.initial,membersAt,flowOf,ProcessFlow.default]

end Flows

end Repx.Slice
