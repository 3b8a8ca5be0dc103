import Repx.Operations.EventSimulation

/-! # Independence of the interleaving

Traces that arrange the same events of every lifetime differently have the same
leaves, as long as the closes that release one written file agree on what they
saw. Descriptors inherited by a fork share one operation, which keeps the
identity seen by whichever close comes last.
-/
namespace Repx.Canonical
open ByteString Std Trace HashTables Sha256 CanonicalOp

/-- The events of one lifetime in their own order, forks being the parent's. -/
def ownEvents (lifetime : ProcessLifetime) (events : List TracedEvent) : List TracedEvent :=
  events.filter fun event => (actor event).lifetime = lifetime

/-- No event of a lifetime precedes the fork that starts it. -/
def ForksFirst (events : List TracedEvent) : Prop :=
  events.Pairwise fun earlier later =>
    ∀ parent child, later = .fork parent child → (actor earlier).lifetime ≠ child.lifetime

/-- Two arrangements of the same events of every lifetime. -/
structure Interleaved (events events' : List TracedEvent) : Prop where
  own : ∀ l, ownEvents l events = ownEvents l events'
  forksFirst : ForksFirst events
  forksFirst' : ForksFirst events'

/-- A lifetime is forked from one lifetime only. -/
def ForkedOnce (events : List TracedEvent) : Prop :=
  ∀ parent child parent' child', .fork parent child ∈ events → .fork parent' child' ∈ events →
    child.lifetime = child'.lifetime → parent.lifetime = parent'.lifetime

/-- The observed closes of descriptors that share one written file saw the same
identity. -/
def ReleasesAgree (scope : TraceScope) (events : List TracedEvent) : Prop :=
  ∀ l l' name h h', (name,h) ∈ (ledgersOf scope events l).releases →
    (name,h') ∈ (ledgersOf scope events l').releases → h = h'

section Projections

def forksInto (lifetime : ProcessLifetime) : TracedEvent → Bool
  | .fork parent child => child.lifetime = lifetime && parent.lifetime ≠ lifetime
  | _ => false

theorem concerns_eq (l : ProcessLifetime) (event : TracedEvent) :
    concerns l event = (forksInto l event || decide ((actor event).lifetime = l)) := by
  cases event <;> simp [concerns,forksInto,actor]
  grind

/-- Forks into a lifetime come before the events of that lifetime. -/
theorem filter_concerns {events : List TracedEvent} (h : ForksFirst events) (l : ProcessLifetime) :
    events.filter (concerns l) = events.filter (forksInto l) ++ ownEvents l events := by
  induction events with
  | nil => rfl
  | cons event events ih =>
    rw [ForksFirst,List.pairwise_cons] at h
    have ih := ih h.2
    by_cases hown : (actor event).lifetime = l
    · have hnone : ∀ e ∈ event :: events, ¬ forksInto l e = true := by
        intro e he hf
        cases e with
        | fork parent child =>
          simp only [forksInto,Bool.and_eq_true,decide_eq_true_eq] at hf
          rcases List.mem_cons.mp he with rfl | he
          · exact hf.2 hown
          · exact h.1 _ he parent child rfl (hown.trans hf.1.symm)
        | _ => simp [forksInto] at hf
      rw [List.filter_eq_nil_iff.mpr fun e he => hnone e (List.mem_cons_of_mem _ he)] at ih
      rw [List.filter_eq_nil_iff.mpr hnone,List.filter_cons_of_pos (by rw [concerns_eq]; simp [hown]),ih]
      simp [ownEvents,hown]
    · by_cases hf : forksInto l event = true
      · rw [List.filter_cons_of_pos (by rw [concerns_eq]; simp [hf]),List.filter_cons_of_pos hf,ih]
        simp [ownEvents,hown]
      · rw [List.filter_cons_of_neg (by rw [concerns_eq]; simp [hf,hown]),List.filter_cons_of_neg hf,ih]
        simp [ownEvents,hown]

theorem Interleaved.mem_iff {events events' : List TracedEvent} (h : Interleaved events events')
    (event : TracedEvent) : event ∈ events ↔ event ∈ events' := by
  have hown : ∀ l : List TracedEvent, event ∈ l ↔ event ∈ ownEvents (actor event).lifetime l := by
    intro l
    simp [ownEvents]
  rw [hown events,hown events',h.own]

/-- The forks into a lifetime are events of the one lifetime they come from. -/
theorem Interleaved.filter_forksInto {events events' : List TracedEvent} (h : Interleaved events events')
    (hone : ForkedOnce events) (l : ProcessLifetime) :
    events.filter (forksInto l) = events'.filter (forksInto l) := by
  by_cases hex : ∃ parent child, .fork parent child ∈ events ∧ child.lifetime = l
  · obtain ⟨parent,child,hm,rfl⟩ := hex
    have hfrom : ∀ k : List TracedEvent, (∀ e ∈ k, e ∈ events) →
        k.filter (forksInto child.lifetime) =
          (ownEvents parent.lifetime k).filter (forksInto child.lifetime) := by
      intro k hk
      rw [ownEvents,List.filter_filter]
      apply List.filter_congr
      intro e he
      cases e with
      | fork parent' child' =>
        by_cases hc : child'.lifetime = child.lifetime
        · have hp := hone parent' child' parent child (hk _ he) hm hc
          simp [forksInto,actor,hc,hp]
        · simp [forksInto,hc]
      | _ => simp [forksInto]
    rw [hfrom events (fun _ he => he),hfrom events' (fun e he => (h.mem_iff e).mpr he),h.own]
  · have hnone : ∀ e ∈ events, ¬ forksInto l e = true := by
      intro e he hf
      cases e with
      | fork parent child =>
        simp only [forksInto,Bool.and_eq_true,decide_eq_true_eq] at hf
        exact hex ⟨parent,child,he,hf.1⟩
      | _ => simp [forksInto] at hf
    rw [List.filter_eq_nil_iff.mpr hnone,
      List.filter_eq_nil_iff.mpr fun e he => hnone e ((h.mem_iff e).mpr he)]

theorem Interleaved.ledgersOf_eq {events events' : List TracedEvent} (h : Interleaved events events')
    (hone : ForkedOnce events) (scope : TraceScope) : ledgersOf scope events = ledgersOf scope events' := by
  apply ledgersOf_eq_of_interleaving
  intro l
  rw [filter_concerns h.forksFirst,filter_concerns h.forksFirst',h.filter_forksInto hone,h.own]

end Projections

/-- The ledgers determine an operation once its releases agree. -/
theorem Settled.sameContent {ledgers : Ledgers} {name : OpName} {op op' : CanonicalOp}
    {entry entry' : Side × CanonicalOp} (h : Settled ledgers name op entry)
    (h' : Settled ledgers name op' entry')
    (hagree : ∀ l l' x x', (name,x) ∈ (ledgers l).releases → (name,x') ∈ (ledgers l').releases → x = x') :
    SameContent op op' := by
  obtain rfl : entry = entry' := Option.some_inj.mp (h.entered.symm.trans h'.entered)
  have hout : op.outputHashes = op'.outputHashes := by
    rcases h.output with ⟨ho,hn⟩ | ⟨l,x,hx,ho⟩
    · rcases h'.output with ⟨ho',-⟩ | ⟨l',x',hx',-⟩
      · rw [ho,ho']
      · exact absurd hx' (hn l' x')
    · rcases h'.output with ⟨-,hn'⟩ | ⟨l',x',hx',ho'⟩
      · exact absurd hx (hn' l x)
      · rw [ho,ho',hagree l l' x x' hx hx']
  obtain ⟨ht,hh,ha,hi,-⟩ := h.content
  obtain ⟨ht',hh',ha',hi',-⟩ := h'.content
  exact ⟨ht.trans ht'.symm,hh.trans hh'.symm,ha.trans ha'.symm,hi.trans hi'.symm,hout⟩

/-- Two states that follow the same ledgers record the same operations. -/
theorem Follows.exists_sameContent {s s' : CanonState} {ledgers : Ledgers} (h : Follows s ledgers)
    (h' : Follows s' ledgers)
    (hagree : ∀ l l' name x x', (name,x) ∈ (ledgers l).releases → (name,x') ∈ (ledgers l').releases → x = x')
    {side : Side} {op : CanonicalOp} (hop : op ∈ s.recorded side) :
    ∃ op' ∈ s'.recorded side, SameContent op op' := by
  obtain ⟨-,names,hr⟩ := h
  obtain ⟨-,names',hr'⟩ := h'
  obtain ⟨i,hi⟩ := List.mem_iff_getElem?.mp hop
  have hlt := (List.getElem?_eq_some_iff.mp hi).1
  obtain ⟨name,hname⟩ : ∃ name, (names side)[i]? = some name :=
    ⟨_,List.getElem?_eq_getElem (by rw [hr.length_eq]; exact hlt)⟩
  obtain ⟨entry,hset⟩ := hr.settled side i name op hname hi
  have hmem : name ∈ names' side :=
    (hr'.named side name).mpr ((hr.named side name).mp (List.mem_iff_getElem?.mpr ⟨i,hname⟩))
  obtain ⟨j,hj⟩ := List.mem_iff_getElem?.mp hmem
  have hlt' := (List.getElem?_eq_some_iff.mp hj).1
  rw [hr'.length_eq] at hlt'
  obtain ⟨entry',hset'⟩ := hr'.settled side j name _ hj (List.getElem?_eq_getElem hlt')
  exact ⟨_,List.getElem_mem hlt',hset.sameContent hset' fun l l' => hagree l l' name⟩

theorem recordedOps_eq (scope : TraceScope) (order : IterationOrder ℕ) (events : List TracedEvent) :
    recordedOps scope order events =
      (events.foldl (turn scope) (.initial scope)).recorded .tree ++
        (events.foldl (turn scope) (.initial scope)).recorded .outside := by
  rw [recordedOps,canonicalizeFrom_eq_foldl]
  rfl

/-- Every arrangement of the events of each lifetime has the same leaves, for
every order in which the tables are listed, when each written file is released
with one identity. -/
theorem canonicalizeEvents_interleaving (sha256 : Str → Digest) (scope : TraceScope)
    (order order' : IterationOrder ℕ) (events events' : List TracedEvent) (h : Interleaved events events')
    (hone : ForkedOnce events) (hagree : ReleasesAgree scope events) :
    (canonicalizeEvents sha256 scope order events).map (hash sha256) =
      (canonicalizeEvents sha256 scope order' events').map (hash sha256) := by
  have hfollows := follows_ledgersOf scope events
  have hfollows' := follows_ledgersOf scope events'
  rw [← h.ledgersOf_eq hone] at hfollows'
  apply leafHashes_eq_of_sameContent
  all_goals
    intro op hop
    rw [recordedOps_eq,List.mem_append] at hop
    rw [recordedOps_eq]
  · rcases hop with hop | hop
    all_goals
      obtain ⟨op',hop',hs⟩ := hfollows.exists_sameContent hfollows' hagree hop
      exact ⟨op',by simp [hop'],hs⟩
  · rcases hop with hop | hop
    all_goals
      obtain ⟨op',hop',hs⟩ := hfollows'.exists_sameContent hfollows hagree hop
      exact ⟨op',by simp [hop'],hs⟩

section SharedWrite

def openingProcess : ProcessInstance := ⟨⟨1,0⟩,0⟩

def inheritingProcess : ProcessInstance := ⟨⟨2,0⟩,0⟩

def sharedScope : TraceScope := ⟨openingProcess,[]⟩

def seenContent (n : UInt8) : Str := digestText (Vector.replicate 32 n)

/-- A file opened for writing, inherited by a fork, and then closed. -/
def sharedWrite (closes : List TracedEvent) : List TracedEvent :=
  .fileOpen openingProcess (utf8 "/o") 1 3 false (.missing (seenContent 0)) ::
    .fork openingProcess inheritingProcess :: closes

def closeShared (process : ProcessInstance) (n : UInt8) : TracedEvent :=
  .fileClose process 3 (some (utf8 "/o")) false (some (.content (seenContent n)))

theorem interleaved_sharedWrite (m n : UInt8) :
    Interleaved (sharedWrite [closeShared openingProcess m,closeShared inheritingProcess n])
      (sharedWrite [closeShared inheritingProcess n,closeShared openingProcess m]) := by
  constructor
  · intro l
    by_cases h : openingProcess.lifetime = l
    · subst h
      rfl
    · by_cases h' : inheritingProcess.lifetime = l
      · subst h'
        rfl
      · simp [ownEvents,sharedWrite,closeShared,actor,h,h']
  all_goals
    simp only [ForksFirst,sharedWrite,closeShared,List.pairwise_cons,List.Pairwise.nil,and_true]
    simp [actor,openingProcess,inheritingProcess]

theorem sharedWrite_releases (n : UInt8) (l : ProcessLifetime) :
    ∀ r ∈ (ledgersOf sharedScope
      (sharedWrite [closeShared openingProcess n,closeShared inheritingProcess n]) l).releases,
      r.2 = seenContent n := by
  by_cases h : l = openingProcess.lifetime
  · subst h
    intro r hr
    obtain rfl : r = (⟨openingProcess.lifetime,0⟩,seenContent n) := List.mem_singleton.mp hr
    rfl
  · by_cases h' : l = inheritingProcess.lifetime
    · subst h'
      intro r hr
      obtain rfl : r = (⟨openingProcess.lifetime,0⟩,seenContent n) := List.mem_singleton.mp hr
      rfl
    · rw [ledgersOf_of_not_concerns]
      · simp [Ledger.initial]
      · simp only [sharedWrite,closeShared,List.mem_cons,List.not_mem_nil,or_false,forall_eq_or_imp,
          forall_eq]
        simp [concerns,actor,Ne.symm h,Ne.symm h']

/-- Both closes see the same contents, so either may come first. -/
theorem canonicalizeEvents_interleaving_sample :
    Interleaved (sharedWrite [closeShared openingProcess 1,closeShared inheritingProcess 1])
        (sharedWrite [closeShared inheritingProcess 1,closeShared openingProcess 1]) ∧
      (canonicalizeEvents (fun _ => Vector.replicate 32 0) sharedScope .stored
        (sharedWrite [closeShared openingProcess 1,closeShared inheritingProcess 1])).map
          (hash fun _ => Vector.replicate 32 0) =
      (canonicalizeEvents (fun _ => Vector.replicate 32 0) sharedScope .reversed
        (sharedWrite [closeShared inheritingProcess 1,closeShared openingProcess 1])).map
          (hash fun _ => Vector.replicate 32 0) := by
  refine ⟨interleaved_sharedWrite 1 1,?_⟩
  apply canonicalizeEvents_interleaving _ _ _ _ _ _ (interleaved_sharedWrite 1 1)
  · intro parent child parent' child' h h' _
    simp only [sharedWrite,closeShared,List.mem_cons,reduceCtorEq,List.not_mem_nil,or_false,false_or,
      TracedEvent.fork.injEq] at h h'
    rw [h.1,h'.1]
  · intro l l' name h h' hm hm'
    exact (sharedWrite_releases 1 l _ hm).trans (sharedWrite_releases 1 l' _ hm').symm

/-- The write operation of the shared file, as the last close leaves it. -/
def sharedOp (n : UInt8) : CanonicalOp := ⟨.fileWrite,0,none,[],[],[seenContent n]⟩

theorem leaves_sharedWrite (sha256 : Str → Digest) (order : IterationOrder ℕ) (a b : ProcessInstance)
    (m n : UInt8)
    (h : recordedOps sharedScope .stored (sharedWrite [closeShared a m,closeShared b n]) = [sharedOp n]) :
    (canonicalizeEvents sha256 sharedScope order (sharedWrite [closeShared a m,closeShared b n])).map
      (hash sha256) = [(sharedOp n).hash sha256] := by
  rw [recordedOps_eq] at h
  rw [canonicalizeEvents,recordedOps_eq,h]
  rfl

/-- The contents seen by the last close win: unless two explicit inputs collide,
the leaves depend on which of two processes closes a shared file first. -/
theorem shared_write_depends_on_interleaving :
    ¬ ∃ sha256 : Str → Digest, sha256 (sharedOp 1).preimage ≠ sha256 (sharedOp 2).preimage ∧
      ∀ (scope : TraceScope) (order order' : IterationOrder ℕ) (events events' : List TracedEvent),
        Interleaved events events' →
        (canonicalizeEvents sha256 scope order events).map (hash sha256) =
          (canonicalizeEvents sha256 scope order' events').map (hash sha256) := by
  rintro ⟨sha256,hne,hall⟩
  have h := hall sharedScope .stored .stored _ _ (interleaved_sharedWrite 1 2)
  rw [leaves_sharedWrite _ _ _ _ _ _ (by decide),leaves_sharedWrite _ _ _ _ _ _ (by decide),
    List.singleton_inj] at h
  exact hne (digestText_injective h).symm

end SharedWrite

end Repx.Canonical
