import Repx.Operations.EventLedger

/-! # The event loop follows the ledgers

Each recorded operation is matched with the name it has in the ledger of its
lifetime. Along a run, the descriptor tables refer to the matching names and an
operation carries either the outputs it was recorded with or an identity it was
released with.
-/
namespace Repx.Canonical
open ByteString Std Trace CanonState Effect

/-- What the ledgers say about the content of a recorded operation. -/
structure Settled (ledgers : Ledgers) (name : OpName) (op : CanonicalOp) (entry : Side × CanonicalOp) :
    Prop where
  entered : (ledgers name.lifetime).entries[name.serial]? = some entry
  content : CanonicalOp.SameContent { op with outputHashes := entry.2.outputHashes } entry.2
  output : op.outputHashes = entry.2.outputHashes ∧ (∀ l h, (name,h) ∉ (ledgers l).releases) ∨
    ∃ l h, (name,h) ∈ (ledgers l).releases ∧ op.outputHashes = [h]

theorem Settled.mono {ledgers ledgers' : Ledgers} {name : OpName} {op : CanonicalOp}
    {entry : Side × CanonicalOp} (h : Settled ledgers name op entry)
    (he : ∀ l, (ledgers l).entries <+: (ledgers' l).entries)
    (hr : ∀ l h, (name,h) ∈ (ledgers' l).releases ↔ (name,h) ∈ (ledgers l).releases) :
    Settled ledgers' name op entry where
  entered := by
    obtain ⟨rest,hrest⟩ := he name.lifetime
    have hlt := (List.getElem?_eq_some_iff.mp h.entered).1
    rw [← hrest,List.getElem?_append_left hlt]
    exact h.entered
  content := h.content
  output := by simpa only [hr] using h.output

theorem update_field {α : Type*} (f : Ledger → α) {ledgers : Ledgers} {l : ProcessLifetime} {ledger : Ledger}
    (h : f ledger = f (ledgers l)) (l' : ProcessLifetime) :
    f (Function.update ledgers l ledger l') = f (ledgers l') := by
  by_cases hl : l' = l
  · subst hl
    rw [Function.update_self,h]
  · rw [Function.update_of_ne hl]

/-- The recorded operations and descriptor tables agree with the ledgers, the
operations being named by `names`. -/
structure Records (recorded : Side → List CanonicalOp) (pending : Side → ExtTreeMap Descriptor ℕ)
    (ledgers : Ledgers) (names : Side → List OpName) : Prop where
  length_eq : ∀ side, (names side).length = (recorded side).length
  nodup : ∀ side, (names side).Nodup
  named : ∀ side name, name ∈ names side ↔
    ∃ op, (ledgers name.lifetime).entries[name.serial]? = some (side,op)
  refers : ∀ side (d : Descriptor), Option.Rel (fun i name => (names side)[i]? = some name)
    (pending side)[d]? ((ledgers d.lifetime).writes side d.fd)
  released : ∀ l name h, (name,h) ∈ (ledgers l).releases → ∃ side, name ∈ names side
  settled : ∀ side (i : ℕ) name op, (names side)[i]? = some name → (recorded side)[i]? = some op →
    ∃ entry, Settled ledgers name op entry

namespace Records
variable {recorded : Side → List CanonicalOp} {pending : Side → ExtTreeMap Descriptor ℕ}
variable {ledgers ledgers' : Ledgers} {names : Side → List OpName}

theorem rel_imp {α β : Type*} {r r' : α → β → Prop} {a : Option α} {b : Option β}
    (h : Option.Rel r a b) (hi : ∀ a b, r a b → r' a b) : Option.Rel r' a b := by
  cases h with
  | some h => exact .some (hi _ _ h)
  | none => exact .none

theorem isSome_eq_of_rel {α β : Type*} {r : α → β → Prop} {a : Option α} {b : Option β}
    (h : Option.Rel r a b) : a.isSome = b.isSome := by
  cases h <;> rfl

/-- Where only the descriptor tables change, it is enough to look at these. -/
theorem of_refers (h : Records recorded pending ledgers names)
    {pending' : Side → ExtTreeMap Descriptor ℕ} (he : ∀ l, (ledgers' l).entries = (ledgers l).entries)
    (hr : ∀ l, (ledgers' l).releases = (ledgers l).releases)
    (hw : ∀ side (d : Descriptor), Option.Rel (fun i name => (names side)[i]? = some name)
      (pending' side)[d]? ((ledgers' d.lifetime).writes side d.fd)) :
    Records recorded pending' ledgers' names where
  length_eq := h.length_eq
  nodup := h.nodup
  named side name := by rw [he]; exact h.named side name
  refers := hw
  released l name x hx := by
    rw [hr] at hx
    exact h.released l name x hx
  settled side i name op hn ho := by
    obtain ⟨entry,hs⟩ := h.settled side i name op hn ho
    refine ⟨entry,hs.mono (fun l => ?_) (fun l x => ?_)⟩
    · rewrite [he]
      exact List.prefix_rfl
    · rw [hr]

/-- A change of one ledger outside entries, writes and releases. -/
theorem congr_update (h : Records recorded pending ledgers names) {l : ProcessLifetime} {ledger : Ledger}
    (he : ledger.entries = (ledgers l).entries) (hw : ledger.writes = (ledgers l).writes)
    (hr : ledger.releases = (ledgers l).releases) :
    Records recorded pending (Function.update ledgers l ledger) names := by
  apply h.of_refers (update_field Ledger.entries he) (update_field Ledger.releases hr)
  intro side d
  rw [update_field Ledger.writes hw]
  exact h.refers side d

private theorem entries_record (l : ProcessLifetime) (side : Side) (op : CanonicalOp) (name : OpName) :
    (Function.update ledgers l ((ledgers l).record side op) name.lifetime).entries[name.serial]? =
      if name = ⟨l,(ledgers l).entries.length⟩ then some (side,op)
      else (ledgers name.lifetime).entries[name.serial]? := by
  rcases name with ⟨l',serial⟩
  by_cases hl : l' = l
  · subst hl
    simp only [Function.update_self,Ledger.record,OpName.mk.injEq,true_and]
    rw [List.getElem?_append]
    split_ifs with hlt heq heq
    · omega
    · rfl
    · simp [heq]
    · rw [List.getElem?_eq_none (by simp; omega),List.getElem?_eq_none (by omega)]
  · simp only [Function.update_of_ne hl,OpName.mk.injEq,hl,false_and,if_false]

theorem fresh_not_mem (h : Records recorded pending ledgers names) (side : Side) (l : ProcessLifetime) :
    (⟨l,(ledgers l).entries.length⟩ : OpName) ∉ names side := by
  rw [h.named]
  simp

/-- A name keeps its position when another one is added. -/
private theorem getElem?_names_push {names : Side → List OpName} (side : Side) (fresh : OpName) {side' : Side}
    {i : ℕ} {name : OpName} (hi : (names side')[i]? = some name) :
    (Function.update names side (names side ++ [fresh]) side')[i]? = some name := by
  by_cases hs : side' = side
  · subst hs
    rw [Function.update_self,List.getElem?_append_left (List.getElem?_eq_some_iff.mp hi).1,hi]
  · rw [Function.update_of_ne hs,hi]

private theorem settled_record (side : Side) (l : ProcessLifetime) (entry : CanonicalOp) {name : OpName}
    {op : CanonicalOp} {entry' : Side × CanonicalOp} (hs : Settled ledgers name op entry') :
    Settled (Function.update ledgers l ((ledgers l).record side entry)) name op entry' := by
  refine hs.mono (fun l' => ?_) (fun l' x => ?_)
  · by_cases hl : l' = l
    · subst hl
      rw [Function.update_self]
      exact List.prefix_append _ _
    · rewrite [Function.update_of_ne hl]
      exact List.prefix_rfl
  · rw [update_field Ledger.releases (by rfl)]

/-- Recording an operation names it after the entries of its lifetime. -/
theorem push (h : Records recorded pending ledgers names) (side : Side) (l : ProcessLifetime)
    {op entry : CanonicalOp} (hop : CanonicalOp.SameContent op entry) :
    Records (Function.update recorded side (recorded side ++ [op])) pending
      (Function.update ledgers l ((ledgers l).record side entry))
      (Function.update names side (names side ++ [⟨l,(ledgers l).entries.length⟩])) := by
  constructor
  · intro side'
    by_cases hs : side' = side
    · subst hs
      simp only [Function.update_self,List.length_append,h.length_eq,List.length_singleton]
    · simp only [Function.update_of_ne hs,h.length_eq]
  · intro side'
    by_cases hs : side' = side
    · subst hs
      rw [Function.update_self]
      refine (h.nodup side').append (List.nodup_singleton _) ?_
      intro name hn hn'
      rw [List.mem_singleton] at hn'
      subst hn'
      exact h.fresh_not_mem side' l hn
    · rw [Function.update_of_ne hs]
      exact h.nodup side'
  · intro side' name
    rw [entries_record]
    by_cases hname : name = ⟨l,(ledgers l).entries.length⟩
    · subst hname
      by_cases hs : side' = side
      · subst hs
        simp
      · rw [Function.update_of_ne hs,if_pos rfl]
        simp only [Option.some_inj,Prod.mk.injEq,h.fresh_not_mem side' l,false_iff,not_exists]
        exact fun _ hside => hs hside.1.symm
    · rw [if_neg hname,← h.named]
      by_cases hs : side' = side
      · subst hs
        rw [Function.update_self,List.mem_append,List.mem_singleton]
        simp only [hname,or_false]
      · rw [Function.update_of_ne hs]
  · intro side' d
    rw [update_field Ledger.writes (by rfl)]
    exact rel_imp (h.refers side' d) fun _ _ hi => getElem?_names_push side _ hi
  · intro l' name x hx
    rw [update_field Ledger.releases (by rfl)] at hx
    obtain ⟨side',hm⟩ := h.released l' name x hx
    obtain ⟨i,hi⟩ := List.mem_iff_getElem?.mp hm
    exact ⟨side',List.mem_iff_getElem?.mpr ⟨i,getElem?_names_push side _ hi⟩⟩
  · intro side' i name op' hn ho
    by_cases hs : side' = side
    · subst hs
      rw [Function.update_self] at hn ho
      by_cases hi : i < (names side').length
      · rw [List.getElem?_append_left hi] at hn
        rw [List.getElem?_append_left (h.length_eq side' ▸ hi)] at ho
        obtain ⟨entry',hset⟩ := h.settled side' i name op' hn ho
        exact ⟨entry',settled_record side' l entry hset⟩
      · have hi' := (List.getElem?_eq_some_iff.mp hn).1
        simp only [List.length_append,List.length_singleton] at hi'
        obtain rfl : i = (names side').length := by omega
        rw [List.getElem?_concat_length,Option.some_inj] at hn
        rw [h.length_eq,List.getElem?_concat_length,Option.some_inj] at ho
        subst hn ho
        refine ⟨(side',entry),?_,?_,Or.inl ⟨hop.2.2.2.2,?_⟩⟩
        · rw [entries_record,if_pos rfl]
        · exact ⟨hop.1,hop.2.1,hop.2.2.1,hop.2.2.2.1,rfl⟩
        · intro l' x hx
          rw [update_field Ledger.releases (by rfl)] at hx
          obtain ⟨side'',hm⟩ := h.released l' _ x hx
          exact h.fresh_not_mem side'' l hm
    · rw [Function.update_of_ne hs] at hn ho
      obtain ⟨entry',hset⟩ := h.settled side' i name op' hn ho
      exact ⟨entry',settled_record side l entry hset⟩

/-- A descriptor is made to refer to a recorded operation, or to none. -/
theorem setWrite (h : Records recorded pending ledgers names) (side : Side) (d : Descriptor)
    {table : ExtTreeMap Descriptor ℕ} {write : Option OpName}
    (hd : Option.Rel (fun i name => (names side)[i]? = some name) table[d]? write)
    (hne : ∀ d', d' ≠ d → table[d']? = (pending side)[d']?) :
    Records recorded (Function.update pending side table)
      (Function.update ledgers d.lifetime ((ledgers d.lifetime).setWrite side d.fd write)) names := by
  refine h.of_refers (update_field Ledger.entries ?_) (update_field Ledger.releases ?_) ?_
  · rfl
  · rfl
  intro side' d'
  have hw : (Function.update ledgers d.lifetime ((ledgers d.lifetime).setWrite side d.fd write)
      d'.lifetime).writes side' d'.fd =
      if side' = side ∧ d' = d then write else (ledgers d'.lifetime).writes side' d'.fd := by
    rcases d with ⟨l,fd⟩
    rcases d' with ⟨l',fd'⟩
    by_cases hl : l' = l
    · subst hl
      simp only [Function.update_self,Ledger.setWrite,Descriptor.mk.injEq,true_and,Function.update_apply]
      split_ifs <;> simp_all
    · simp [hl]
  rw [hw,Function.update_apply]
  by_cases hs : side' = side
  · subst hs
    by_cases hdd : d' = d
    · subst hdd
      simpa using hd
    · simpa [hdd,hne d' hdd] using h.refers side' d'
  · simpa [hs] using h.refers side' d'

/-- A fork lets the child's descriptors refer to the parent's operations. -/
theorem inherit (h : Records recorded pending ledgers names) (parent child : ProcessLifetime) :
    Records recorded
      (Function.update pending .tree (Trace.inheritWrites (ι := Unit) .stored () parent child (pending .tree)))
      (enter ledgers (.inheritWrites parent child)) names := by
  refine h.of_refers (update_field Ledger.entries ?_) (update_field Ledger.releases ?_) ?_
  · rfl
  · rfl
  intro side d
  have hw : (enter ledgers (.inheritWrites parent child) d.lifetime).writes side d.fd =
      if side = .tree ∧ d.lifetime = child then
        ((ledgers parent).writes .tree d.fd).or ((ledgers d.lifetime).writes .tree d.fd)
      else (ledgers d.lifetime).writes side d.fd := by
    simp only [enter,Effect.target,Effect.source,Effect.change,Function.update_apply]
    split_ifs <;> simp_all
  rw [hw]
  cases side with
  | outside => simpa using h.refers .outside d
  | tree =>
    rw [Function.update_self,getElem?_inheritWrites]
    by_cases hc : d.lifetime = child
    · simp only [hc,true_and,if_true]
      have hp := h.refers .tree ⟨parent,d.fd⟩
      have hd := h.refers .tree d
      rw [hc] at hd
      revert hp hd
      generalize (pending .tree)[(⟨parent,d.fd⟩ : Descriptor)]? = x
      generalize (ledgers parent).writes .tree d.fd = y
      intro hp hd
      cases hp with
      | some hp => exact .some hp
      | none => exact hd
    · simpa [hc] using h.refers .tree d

/-- An operation has one name. -/
theorem name_ne (h : Records recorded pending ledgers names) {side side' : Side} {i j : ℕ} {name name' : OpName}
    (hi : (names side)[i]? = some name) (hj : (names side')[j]? = some name')
    (hne : ¬ (side' = side ∧ j = i)) : name' ≠ name := by
  rintro rfl
  obtain ⟨op,ho⟩ := (h.named side name').mp (List.mem_iff_getElem?.mpr ⟨i,hi⟩)
  obtain ⟨op',ho'⟩ := (h.named side' name').mp (List.mem_iff_getElem?.mpr ⟨j,hj⟩)
  rw [ho,Option.some_inj,Prod.mk.injEq] at ho'
  obtain ⟨rfl,_⟩ := ho'
  apply hne
  refine ⟨rfl,?_⟩
  exact (List.getElem?_inj (List.getElem?_eq_some_iff.mp hj).1 (h.nodup side)).mp (hj.trans hi.symm)

/-- A released operation carries the identity it was released with last. -/
theorem fill (h : Records recorded pending ledgers names) (side : Side) (l : ProcessLifetime) {i : ℕ}
    {name : OpName} (hi : (names side)[i]? = some name) (observation : FileObservation) :
    Records (Function.update recorded side (fillOutput (recorded side) i (some observation))) pending
      (Function.update ledgers l ((ledgers l).release name (some observation))) names := by
  have he : ∀ l', (Function.update ledgers l ((ledgers l).release name (some observation)) l').entries =
      (ledgers l').entries := by
    refine update_field Ledger.entries ?_
    rfl
  have hrel : ∀ l' name' x, (name',x) ∈ (Function.update ledgers l
      ((ledgers l).release name (some observation)) l').releases ↔
      (name',x) ∈ (ledgers l').releases ∨ l' = l ∧ name' = name ∧ x = observation.identity := by
    intro l' name' x
    by_cases hl : l' = l
    · subst hl
      simp [Ledger.release,or_comm]
    · simp [hl]
  have hother : ∀ {name' op entry}, name' ≠ name → Settled ledgers name' op entry →
      Settled (Function.update ledgers l ((ledgers l).release name (some observation))) name' op entry := by
    intro name' op entry hne hs
    refine hs.mono (fun l' => ?_) (fun l' x => ?_)
    · rewrite [he]
      exact List.prefix_rfl
    · rw [hrel]
      simp [hne]
  constructor
  · intro side'
    by_cases hs : side' = side
    · subst hs
      simp only [Function.update_self,fillOutput,List.length_modify,h.length_eq]
    · simp only [Function.update_of_ne hs,h.length_eq]
  · exact h.nodup
  · intro side' name'
    rw [he]
    exact h.named side' name'
  · intro side' d
    rw [update_field Ledger.writes (by rfl)]
    exact h.refers side' d
  · intro l' name' x hx
    rcases (hrel l' name' x).mp hx with hx | ⟨-,rfl,-⟩
    · exact h.released l' name' x hx
    · exact ⟨side,List.mem_iff_getElem?.mpr ⟨i,hi⟩⟩
  · intro side' j name' op hn ho
    by_cases hs : side' = side ∧ j = i
    · obtain ⟨rfl,rfl⟩ := hs
      obtain rfl : name = name' := Option.some_inj.mp (hi.symm.trans hn)
      rw [Function.update_self,fillOutput,List.getElem?_modify_eq] at ho
      obtain ⟨old,hold,rfl⟩ := Option.map_eq_some_iff.mp ho
      obtain ⟨entry,hset⟩ := h.settled side' j name old hn hold
      refine ⟨entry,?_,hset.content,Or.inr ⟨l,observation.identity,?_,rfl⟩⟩
      · rw [he]
        exact hset.entered
      · rw [hrel]
        exact Or.inr ⟨rfl,rfl,rfl⟩
    · have ho' : (recorded side')[j]? = some op := by
        rw [← ho]
        by_cases hss : side' = side
        · subst hss
          have hij : i ≠ j := fun hij => hs ⟨rfl,hij.symm⟩
          rw [Function.update_self,fillOutput,List.getElem?_modify_ne _ _ hij]
        · rw [Function.update_of_ne hss]
      obtain ⟨entry,hset⟩ := h.settled side' j name' op hn ho'
      exact ⟨entry,hother (h.name_ne hi hn hs) hset⟩

end Records

/-- What the loop knows about each process is what its ledger says. -/
structure Tracks (s : CanonState) (ledgers : Ledgers) : Prop where
  toolHash : ∀ process, s.processToToolHash[process]? = (ledgers process.lifetime).toolHash process
  indexed : ∀ process, s.processToIndex.contains process = (ledgers process.lifetime).indexed process
  fallback : ∀ l, s.fallbackExternalProcesses.contains l = (ledgers l).fallback

/-- The simulation relation. -/
def Follows (s : CanonState) (ledgers : Ledgers) : Prop :=
  Tracks s ledgers ∧ ∃ names, Records s.recorded s.pending ledgers names

theorem Follows.view_eq {s : CanonState} {ledgers : Ledgers} (h : Follows s ledgers)
    (process : ProcessInstance) : s.view process = (ledgers process.lifetime).view process := by
  obtain ⟨ht,names,hr⟩ := h
  simp only [CanonState.view,Ledger.view,ht.toolHash,ht.indexed,ht.fallback]
  congr 1
  funext side fd
  rw [ExtTreeMap.contains_eq_isSome_getElem?]
  exact Records.isSome_eq_of_rel (hr.refers side ⟨process.lifetime,fd⟩)

theorem sameContent_indexed (s : CanonState) (side : Side) (process : ProcessInstance) (op : CanonicalOp) :
    CanonicalOp.SameContent (s.indexed side process op) op := by
  cases side <;> exact ⟨rfl,rfl,rfl,rfl,rfl⟩

/-- Changing what is recorded about one side leaves the process tables alone. -/
theorem Tracks.setSide {s : CanonState} {ledgers : Ledgers} (h : Tracks s ledgers) {l : ProcessLifetime}
    {ledger : Ledger} (ht : ledger.toolHash = (ledgers l).toolHash) (hi : ledger.indexed = (ledgers l).indexed)
    (hf : ledger.fallback = (ledgers l).fallback) (side : Side) (ops : List CanonicalOp)
    (table : ExtTreeMap Descriptor ℕ) : Tracks (s.setSide side ops table) (Function.update ledgers l ledger) := by
  constructor
  · intro process
    rw [update_field Ledger.toolHash ht,← h.toolHash]
    cases side <;> rfl
  · intro process
    rw [update_field Ledger.indexed hi,← h.indexed]
    cases side <;> rfl
  · intro l'
    rw [update_field Ledger.fallback hf,← h.fallback]
    cases side <;> rfl

theorem enter_field {α : Type*} (f : Ledger → α) {ledgers : Ledgers} {effect : Effect}
    (h : f (effect.change (ledgers effect.source) (ledgers effect.target)) = f (ledgers effect.target))
    (l : ProcessLifetime) : f (enter ledgers effect l) = f (ledgers l) :=
  update_field f h l

theorem Follows.assignIndex {s : CanonState} {ledgers : Ledgers} (h : Follows s ledgers)
    (process : ProcessInstance) :
    Follows (s.apply (.assignIndex process)) (enter ledgers (.assignIndex process)) := by
  obtain ⟨ht,names,hr⟩ := h
  have hrecorded : (s.assignIndex process).recorded = s.recorded := by
    funext side
    unfold CanonState.assignIndex
    cases side <;> split_ifs <;> rfl
  have hpending : (s.assignIndex process).pending = s.pending := by
    funext side
    unfold CanonState.assignIndex
    cases side <;> split_ifs <;> rfl
  refine ⟨⟨?_,?_,?_⟩,names,?_⟩
  · intro process'
    rw [enter_field Ledger.toolHash (by rfl),← ht.toolHash,apply,assignIndex_toolHash]
  · intro process'
    have hl : (enter ledgers (.assignIndex process) process'.lifetime).indexed process' =
        (decide (process' = process) || (ledgers process'.lifetime).indexed process') := by
      by_cases he : process' = process
      · subst he
        simp [enter,Effect.target,Effect.change]
      · rw [enter,Effect.change,Effect.target]
        by_cases hlt : process'.lifetime = process.lifetime
        · simp [hlt,he]
        · simp [Function.update_of_ne hlt,he]
    rw [hl,← ht.indexed,apply,CanonState.assignIndex,Bool.eq_iff_iff]
    by_cases hp : process ∈ s.processToIndex
    · rw [if_pos hp]
      by_cases he : process' = process
      · subst he
        simp [hp]
      · simp [he]
    · rw [if_neg hp]
      simp [eq_comm (a := process) (b := process')]
  · intro l
    rw [enter_field Ledger.fallback (by rfl),← ht.fallback,apply]
    unfold CanonState.assignIndex
    split_ifs <;> rfl
  · rw [apply,hrecorded,hpending]
    exact hr.congr_update rfl rfl rfl

theorem Follows.setToolHash {s : CanonState} {ledgers : Ledgers} (h : Follows s ledgers)
    (process : ProcessInstance) (toolHash : Str) :
    Follows (s.apply (.setToolHash process toolHash)) (enter ledgers (.setToolHash process toolHash)) := by
  obtain ⟨ht,names,hr⟩ := h
  refine ⟨⟨?_,?_,?_⟩,names,hr.congr_update rfl rfl rfl⟩
  · intro process'
    have hl : (enter ledgers (.setToolHash process toolHash) process'.lifetime).toolHash process' =
        if process = process' then some toolHash else (ledgers process'.lifetime).toolHash process' := by
      by_cases he : process = process'
      · subst he
        simp [enter,Effect.target,Effect.change]
      · rw [enter,Effect.change,Effect.target,if_neg he]
        by_cases hlt : process'.lifetime = process.lifetime
        · simp [hlt,Function.update_of_ne (Ne.symm he)]
        · simp [Function.update_of_ne hlt]
    rw [hl,← ht.toolHash]
    simp [apply,CanonState.setToolHash,ExtTreeMap.getElem?_insert]
  · intro process'
    rw [enter_field Ledger.indexed (by rfl)]
    exact ht.indexed process'
  · intro l
    rw [enter_field Ledger.fallback (by rfl)]
    exact ht.fallback l

theorem Follows.markFallback {s : CanonState} {ledgers : Ledgers} (h : Follows s ledgers)
    (lifetime : ProcessLifetime) :
    Follows (s.apply (.markFallback lifetime)) (enter ledgers (.markFallback lifetime)) := by
  obtain ⟨ht,names,hr⟩ := h
  refine ⟨⟨?_,?_,?_⟩,names,hr.congr_update rfl rfl rfl⟩
  · intro process'
    rw [enter_field Ledger.toolHash (by rfl)]
    exact ht.toolHash process'
  · intro process'
    rw [enter_field Ledger.indexed (by rfl)]
    exact ht.indexed process'
  · intro l
    have hl : (enter ledgers (.markFallback lifetime) l).fallback =
        (decide (lifetime = l) || (ledgers l).fallback) := by
      by_cases he : lifetime = l
      · subst he
        simp [enter,Effect.target,Effect.change]
      · simp [enter,Effect.target,Function.update_of_ne (Ne.symm he),he]
    rw [hl,← ht.fallback,Bool.eq_iff_iff]
    simp [apply,CanonState.markFallback]

theorem Follows.inheritWrites {s : CanonState} {ledgers : Ledgers} (h : Follows s ledgers)
    (parent child : ProcessLifetime) :
    Follows (s.apply (.inheritWrites parent child)) (enter ledgers (.inheritWrites parent child)) := by
  obtain ⟨ht,names,hr⟩ := h
  refine ⟨?_,names,?_⟩
  · refine ht.setSide ?_ ?_ ?_ .tree s.ops _ <;> rfl
  · have hs : s.apply (.inheritWrites parent child) = s.setSide .tree s.ops
        (Trace.inheritWrites (ι := Unit) .stored () parent child s.pendingWrites) := rfl
    rw [hs,setSide_recorded,setSide_pending]
    have hops : Function.update s.recorded .tree s.ops = s.recorded := Function.update_eq_self Side.tree s.recorded
    rw [hops]
    exact hr.inherit parent child

theorem Follows.push {s : CanonState} {ledgers : Ledgers} (h : Follows s ledgers) (side : Side)
    (process : ProcessInstance) (op : CanonicalOp) :
    Follows (s.apply (.push side process op)) (enter ledgers (.push side process op)) := by
  obtain ⟨ht,names,hr⟩ := h
  have hpush := hr.push side process.lifetime (sameContent_indexed s side process op)
  have htracks : Tracks (s.apply (.push side process op)) (Effect.enter ledgers (.push side process op)) := by
    refine ht.setSide ?_ ?_ ?_ side _ _ <;> rfl
  rw [← Function.update_eq_self side s.pending] at hpush
  rw [apply] at htracks ⊢
  exact ⟨htracks,_,by rw [setSide_recorded,setSide_pending]; exact hpush⟩

theorem Follows.openWrite {s : CanonState} {ledgers : Ledgers} (h : Follows s ledgers) (side : Side)
    (process : ProcessInstance) (fd : Int) (op : CanonicalOp) :
    Follows (s.apply (.openWrite side process fd op)) (enter ledgers (.openWrite side process fd op)) := by
  obtain ⟨ht,names,hr⟩ := h
  have hpush := hr.push side process.lifetime (sameContent_indexed s side process op)
  have hrel : Option.Rel (fun i name => (Function.update names side (names side ++
        [⟨process.lifetime,(ledgers process.lifetime).entries.length⟩]) side)[i]? = some name)
      ((s.pending side).insert ⟨process.lifetime,fd⟩ (s.recorded side).length)[
        (⟨process.lifetime,fd⟩ : Descriptor)]?
      (some ⟨process.lifetime,(ledgers process.lifetime).entries.length⟩) := by
    rw [ExtTreeMap.getElem?_insert_self,Function.update_self]
    exact .some (by rw [← hr.length_eq,List.getElem?_concat_length])
  have hset := hpush.setWrite side ⟨process.lifetime,fd⟩ hrel fun d' hd' => by
    simp [ExtTreeMap.getElem?_insert,Ne.symm hd']
  have htracks : Tracks (s.apply (.openWrite side process fd op))
      (Effect.enter ledgers (.openWrite side process fd op)) := by
    refine ht.setSide ?_ ?_ ?_ side _ _ <;> rfl
  simp only [Function.update_self,Function.update_idem] at hset
  rw [apply] at htracks ⊢
  exact ⟨htracks,_,by rw [setSide_recorded,setSide_pending]; exact hset⟩

theorem Follows.closeWrite {s : CanonState} {ledgers : Ledgers} (h : Follows s ledgers) (side : Side)
    (d : Descriptor) (observation : Option FileObservation) :
    Follows (s.apply (.closeWrite side d observation)) (enter ledgers (.closeWrite side d observation)) := by
  obtain ⟨ht,names,hr⟩ := h
  have hrel := hr.refers side d
  cases hw : (ledgers d.lifetime).writes side d.fd with
  | none =>
    rw [hw] at hrel
    have hnone : (s.pending side)[d]? = none := by
      rw [← Option.isNone_iff_eq_none,← Option.not_isSome,Records.isSome_eq_of_rel hrel]
      rfl
    have hs : s.apply (.closeWrite side d observation) = s := by rw [apply,hnone]
    have hl : enter ledgers (.closeWrite side d observation) = ledgers := by
      rw [enter,Effect.change,Effect.target,hw]
      exact Function.update_eq_self _ _
    rw [hs,hl]
    exact ⟨ht,names,hr⟩
  | some name =>
    rw [hw] at hrel
    obtain ⟨i,hi,hname⟩ : ∃ i, (s.pending side)[d]? = some i ∧ (names side)[i]? = some name := by
      revert hrel
      generalize (s.pending side)[d]? = x
      rintro ⟨hx⟩
      exact ⟨_,rfl,hx⟩
    have hs : s.apply (.closeWrite side d observation) =
        s.setSide side (fillOutput (s.recorded side) i observation) ((s.pending side).erase d) := by
      rw [apply,hi]
    have hl : enter ledgers (.closeWrite side d observation) = Function.update ledgers d.lifetime
        (((ledgers d.lifetime).release name observation).setWrite side d.fd none) := by
      rw [enter,Effect.change,Effect.target,hw]
    rw [hs,hl]
    have herase : Option.Rel (fun i name => (names side)[i]? = some name) ((s.pending side).erase d)[d]? none := by
      rw [ExtTreeMap.getElem?_erase_self]
      exact .none
    have hother : ∀ d', d' ≠ d → ((s.pending side).erase d)[d']? = (s.pending side)[d']? := by
      intro d' hd'
      simp [ExtTreeMap.getElem?_erase,Ne.symm hd']
    refine ⟨?_,names,?_⟩
    · refine ht.setSide ?_ ?_ ?_ side _ _ <;> cases observation <;> rfl
    · rw [setSide_recorded,setSide_pending]
      cases observation with
      | none =>
        have hfill : fillOutput (s.recorded side) i none = s.recorded side := rfl
        rw [hfill,Function.update_eq_self]
        exact hr.setWrite side d herase hother
      | some observation =>
        have hfill := (hr.fill side d.lifetime hname observation).setWrite side d herase hother
        simpa only [Function.update_self,Function.update_idem] using hfill

/-- Effect by effect, the loop follows the ledgers. -/
theorem Follows.enter {s : CanonState} {ledgers : Ledgers} (h : Follows s ledgers) (effect : Effect) :
    Follows (s.apply effect) (Effect.enter ledgers effect) := by
  cases effect with
  | assignIndex process => exact h.assignIndex process
  | setToolHash process toolHash => exact h.setToolHash process toolHash
  | markFallback lifetime => exact h.markFallback lifetime
  | inheritWrites parent child => exact h.inheritWrites parent child
  | push side process op => exact h.push side process op
  | openWrite side process fd op => exact h.openWrite side process fd op
  | closeWrite side descriptor observation => exact h.closeWrite side descriptor observation

theorem Follows.foldl {s : CanonState} {ledgers : Ledgers} (h : Follows s ledgers) (l : List Effect) :
    Follows (l.foldl apply s) (l.foldl Effect.enter ledgers) := by
  induction l generalizing s ledgers with
  | nil => exact h
  | cons effect l ih => exact ih (h.enter effect)

theorem Follows.turn {s : CanonState} {ledgers : Ledgers} (scope : TraceScope) (h : Follows s ledgers)
    (event : TracedEvent) : Follows (turn scope s event) (ledgerTurn scope ledgers event) := by
  rw [Canonical.turn,ledgerTurn,← h.view_eq]
  exact h.foldl _

theorem Follows.run {s : CanonState} {ledgers : Ledgers} (scope : TraceScope) (h : Follows s ledgers)
    (events : List TracedEvent) :
    Follows (events.foldl (Canonical.turn scope) s) (events.foldl (ledgerTurn scope) ledgers) := by
  induction events generalizing s ledgers with
  | nil => exact h
  | cons event events ih => exact ih (h.turn scope event)

theorem follows_initial (scope : TraceScope) : Follows (initial scope) (fun _ => Ledger.initial scope) := by
  refine ⟨⟨?_,?_,?_⟩,fun _ => [],?_⟩
  · intro process
    simp [initial,Ledger.initial]
  · intro process
    rw [Bool.eq_iff_iff]
    simp [initial,Ledger.initial,eq_comm (a := scope.rootProcess) (b := process)]
  · intro l
    simp [initial,Ledger.initial]
  · constructor
    · intro side
      cases side <;> rfl
    · exact fun _ => List.nodup_nil
    · simp [Ledger.initial]
    · intro side d
      cases side <;> simp [initial,pending,Ledger.initial]
    · simp [Ledger.initial]
    · simp

/-- Every trace is followed by its ledgers. -/
theorem follows_ledgersOf (scope : TraceScope) (events : List TracedEvent) :
    Follows (events.foldl (turn scope) (initial scope)) (ledgersOf scope events) :=
  (follows_initial scope).run scope events

end Repx.Canonical
