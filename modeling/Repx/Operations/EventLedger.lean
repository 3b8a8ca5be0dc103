import Repx.Foundation.Interleaving
import Repx.Operations.EventEffects

/-! # Ledgers of single lifetimes

The abstract counterpart of the event loop keeps one ledger for each process
lifetime and no shared table. Operations are numbered within their lifetime,
descriptors refer to operations by such names, and closing a descriptor only
notes which operation it releases with which identity. An event reads and writes
the ledgers of its own lifetimes, so the ledgers do not depend on how the
lifetimes are interleaved.
-/
namespace Repx.Canonical
open ByteString Std Trace Interleaving

/-- The operation a lifetime recorded as its `serial`-th. -/
structure OpName where
  lifetime : ProcessLifetime
  serial : ℕ
deriving DecidableEq

structure Ledger where
  toolHash : ProcessInstance → Option Str
  indexed : ProcessInstance → Bool
  fallback : Bool
  writes : Side → Int → Option OpName
  entries : List (Side × CanonicalOp)
  releases : List (OpName × Str)

abbrev Ledgers := ProcessLifetime → Ledger

namespace Ledger

def initial (scope : TraceScope) : Ledger where
  toolHash _ := none
  indexed process := process == scope.rootProcess
  fallback := false
  writes _ _ := none
  entries := []
  releases := []

def view (ledger : Ledger) (process : ProcessInstance) : ProcessView where
  toolHash := ledger.toolHash process
  fallback := ledger.fallback
  indexed := ledger.indexed process
  hasWrite side fd := (ledger.writes side fd).isSome

def record (ledger : Ledger) (side : Side) (op : CanonicalOp) : Ledger :=
  { ledger with entries := ledger.entries ++ [(side,op)] }

def setWrite (ledger : Ledger) (side : Side) (fd : Int) (write : Option OpName) : Ledger :=
  { ledger with writes := Function.update ledger.writes side (Function.update (ledger.writes side) fd write) }

/-- Note the identity an operation is released with, if one was observed. -/
def release (ledger : Ledger) (name : OpName) : Option FileObservation → Ledger
  | some observation => { ledger with releases := (name,observation.identity) :: ledger.releases }
  | none => ledger

end Ledger

namespace Effect

/-- The lifetime whose ledger an effect changes. -/
def target : Effect → ProcessLifetime
  | assignIndex process => process.lifetime
  | setToolHash process _ => process.lifetime
  | markFallback lifetime => lifetime
  | inheritWrites _ child => child
  | push _ process _ => process.lifetime
  | openWrite _ process _ _ => process.lifetime
  | closeWrite _ descriptor _ => descriptor.lifetime

/-- The lifetime whose ledger is read besides. -/
def source : Effect → ProcessLifetime
  | inheritWrites parent _ => parent
  | effect => effect.target

def change (source ledger : Ledger) : Effect → Ledger
  | assignIndex process => { ledger with indexed := Function.update ledger.indexed process true }
  | setToolHash process toolHash =>
    { ledger with toolHash := Function.update ledger.toolHash process (some toolHash) }
  | markFallback _ => { ledger with fallback := true }
  | inheritWrites _ _ =>
    { ledger with
      writes := Function.update ledger.writes .tree
        fun fd => (source.writes .tree fd).or (ledger.writes .tree fd) }
  | push side _ op => ledger.record side op
  | openWrite side process fd op =>
    (ledger.record side op).setWrite side fd (some ⟨process.lifetime,ledger.entries.length⟩)
  | closeWrite side descriptor observation =>
    match ledger.writes side descriptor.fd with
    | some name => (ledger.release name observation).setWrite side descriptor.fd none
    | none => ledger

def enter (ledgers : Ledgers) (effect : Effect) : Ledgers :=
  Function.update ledgers effect.target (effect.change (ledgers effect.source) (ledgers effect.target))

end Effect

open Effect

def ledgerTurn (scope : TraceScope) (ledgers : Ledgers) (event : TracedEvent) : Ledgers :=
  (effects scope ((ledgers (actor event).lifetime).view (actor event)) event).foldl enter ledgers

/-- The ledgers after a trace. -/
def ledgersOf (scope : TraceScope) (events : List TracedEvent) : Ledgers :=
  events.foldl (ledgerTurn scope) fun _ => Ledger.initial scope

/-- A fork is an event of both lifetimes. -/
def concerns (lifetime : ProcessLifetime) (event : TracedEvent) : Bool :=
  (actor event).lifetime = lifetime ||
    match event with
    | .fork _ child => child.lifetime = lifetime
    | _ => false

theorem concerns_actor (event : TracedEvent) : concerns (actor event).lifetime event = true := by
  simp [concerns]

theorem concerns_of_mem_effects {scope : TraceScope} {view : ProcessView} {event : TracedEvent}
    {effect : Effect} (h : effect ∈ effects scope view event) :
    concerns effect.target event = true ∧ concerns effect.source event = true := by
  have hown : effect.target = (actor event).lifetime ∧ effect.source = (actor event).lifetime →
      concerns effect.target event = true ∧ concerns effect.source event = true := by
    rintro ⟨ht,hs⟩
    rw [ht,hs]
    exact ⟨concerns_actor event,concerns_actor event⟩
  cases event with
  | fork parent child =>
    rcases List.mem_cons.mp h with rfl | h
    · simp [concerns,Effect.target,Effect.source,actor]
    · cases ht : view.toolHash with
      | none => simp [ht] at h
      | some toolHash =>
        rw [ht,Option.map_some,Option.toList_some,List.mem_singleton] at h
        subst h
        simp [concerns,Effect.target,Effect.source,actor]
  | exec process observation =>
    apply hown
    simp only [effects,List.mem_cons,List.not_mem_nil,or_false] at h
    rcases h with rfl | rfl | rfl <;> exact ⟨rfl,rfl⟩
  | fileOpen process path flags fd external observation =>
    apply hown
    simp only [effects,fileOpenEffects] at h
    split_ifs at h <;> grind [Effect.target,Effect.source,actor]
  | fileClose process fd path external observation =>
    apply hown
    cases path with
    | none => simp [effects,fileCloseEffects] at h
    | some path =>
      simp only [effects,fileCloseEffects,List.mem_singleton] at h
      subst h
      exact ⟨rfl,rfl⟩
  | fileMmap process fd prot flags path external observation =>
    apply hown
    simp only [effects] at h
    split_ifs at h
    · simp at h
    cases path with
    | none => simp at h
    | some path =>
      cases observation with
      | none => simp at h
      | some observation =>
        simp only [mappingEffects] at h
        split_ifs at h <;> grind [Effect.target,Effect.source,actor]
  | fileRename process fromPath toPath flags external observation =>
    apply hown
    simp only [effects,pathEventEffects] at h
    split_ifs at h <;> grind [Effect.target,Effect.source,actor]
  | fileUnlink process path flags external observation =>
    apply hown
    simp only [effects,pathEventEffects] at h
    split_ifs at h <;> grind [Effect.target,Effect.source,actor]
  | exit process exitCode =>
    apply hown
    simp only [effects] at h
    split_ifs at h <;> grind [Effect.target,Effect.source,actor]

/-- A turn reads and changes the ledgers of the lifetimes the event concerns. -/
theorem ledgerTurn_localTo (scope : TraceScope) (event : TracedEvent) :
    LocalTo (fun l => concerns l event = true) (fun ledgers => ledgerTurn scope ledgers event) := by
  refine LocalTo.choose (v := fun ledgers => (ledgers (actor event).lifetime).view (actor event))
    (f := fun view ledgers => (effects scope view event).foldl enter ledgers) ?_ ?_
  · intro a b hab
    simp only [hab _ (concerns_actor event)]
  · intro view
    apply LocalTo.foldl
    intro effect he
    obtain ⟨ht,hs⟩ := concerns_of_mem_effects he
    exact LocalTo.update (i := effect.target) (j := effect.source) ht hs
      (fun source ledger => effect.change source ledger)

/-- Events that do not concern a lifetime leave its ledger alone. -/
theorem ledgersOf_of_not_concerns (scope : TraceScope) {events : List TracedEvent} {l : ProcessLifetime}
    (h : ∀ event ∈ events, ¬ concerns l event = true) : ledgersOf scope events l = Ledger.initial scope := by
  have hframe : ∀ (es : List TracedEvent) (ledgers : Ledgers), (∀ event ∈ es, ¬ concerns l event = true) →
      es.foldl (ledgerTurn scope) ledgers l = ledgers l := by
    intro es
    induction es with
    | nil => exact fun _ _ => rfl
    | cons event es ih =>
      intro ledgers hes
      rw [List.foldl_cons,ih _ fun e he => hes e (List.mem_cons_of_mem _ he)]
      exact (ledgerTurn_localTo scope event).frame ledgers l (hes event List.mem_cons_self)
  exact hframe events _ h

/-- The ledgers are determined by the sequence of events of each lifetime. -/
theorem ledgersOf_eq_of_interleaving (scope : TraceScope) {events events' : List TracedEvent}
    (h : ∀ l, events.filter (concerns l) = events'.filter (concerns l)) :
    ledgersOf scope events = ledgersOf scope events' := by
  refine foldl_eq_of_filter_eq (fun event => ⟨_,concerns_actor event⟩) ?_ h _
  intro ledgers e f hd
  exact (ledgerTurn_localTo scope e).commute (ledgerTurn_localTo scope f) hd ledgers

end Repx.Canonical
