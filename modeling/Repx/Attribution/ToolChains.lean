import Repx.Operations.EventEffects

/-! # Tools along forks and executions

An instance runs the executable that introduced it, and a forked process runs what the
instance runs that forked it. In a trace in which an instance is executed before it does
anything, and forked before anything is known of its lifetime, the tool of an instance is
determined once and for all when it first appears.
-/
namespace Repx.Trace
open ByteString Canonical

/-- The instances an event speaks of. -/
def mentions : TracedEvent → List ProcessInstance
  | .fork parent child => [parent,child]
  | event => [actor event]

def mentioned (events : List TracedEvent) : List ProcessInstance := events.flatMap mentions

/-- The tool of an instance: what it executed, or else what the instance runs that forked its
lifetime, or none if it was there from the beginning. -/
inductive ToolOf (events : List TracedEvent) : ProcessInstance → Option Str → Prop
  | exec {process : ProcessInstance} {observation : FileObservation} (h : .exec process observation ∈ events) :
      ToolOf events process (some observation.identity)
  | fork {process parent child : ProcessInstance} {tool : Option Str}
      (image : ∀ observation, .exec process observation ∉ events) (h : .fork parent child ∈ events)
      (lifetime : child.lifetime = process.lifetime) (next : ToolOf events parent tool) :
      ToolOf events process tool
  | neither {process : ProcessInstance} (image : ∀ observation, .exec process observation ∉ events)
      (lifetime : ∀ parent child, .fork parent child ∈ events → child.lifetime ≠ process.lifetime) :
      ToolOf events process none

/-- The forks lead back to a lifetime that was neither executed nor forked. -/
inductive Untracked (events : List TracedEvent) : ProcessInstance → Prop
  | fork {process parent child : ProcessInstance} (image : ∀ observation, .exec process observation ∉ events)
      (h : .fork parent child ∈ events) (lifetime : child.lifetime = process.lifetime)
      (next : Untracked events parent) : Untracked events process
  | neither {process : ProcessInstance} (image : ∀ observation, .exec process observation ∉ events)
      (lifetime : ∀ parent child, .fork parent child ∈ events → child.lifetime ≠ process.lifetime) :
      Untracked events process

/-- What is new about an event that continues a trace. -/
structure Fresh (events : List TracedEvent) (event : TracedEvent) : Prop where
  exec : ∀ process observation, event = .exec process observation → process ∉ mentioned events
  fork : ∀ parent child, event = .fork parent child →
    child.execEpoch = 0 ∧ parent.lifetime ≠ child.lifetime ∧ ∀ q ∈ mentioned events, q.lifetime ≠ child.lifetime
  image : (∀ process observation, event ≠ .exec process observation) → (actor event).execEpoch ≠ 0 →
    actor event ∈ mentioned events

/-- Instances are executed and lifetimes are forked before anything else is heard of them. -/
inductive Introduced : List TracedEvent → Prop
  | nil : Introduced []
  | snoc {events : List TracedEvent} {event : TracedEvent} (before : Introduced events) (fresh : Fresh events event) :
      Introduced (events ++ [event])

section Mentions
variable {events : List TracedEvent} {event : TracedEvent} {p : ProcessInstance}

theorem actor_mem_mentions (event : TracedEvent) : actor event ∈ mentions event := by
  cases event <;> simp [mentions,actor]

@[simp] theorem mentioned_append (events events' : List TracedEvent) :
    mentioned (events ++ events') = mentioned events ++ mentioned events' := List.flatMap_append

@[simp] theorem mentioned_singleton (event : TracedEvent) : mentioned [event] = mentions event := by
  simp [mentioned]

theorem mem_mentioned_of_mem (he : event ∈ events) (hp : p ∈ mentions event) : p ∈ mentioned events :=
  List.mem_flatMap.mpr ⟨event,he,hp⟩

theorem mem_mentioned_of_exec {observation : FileObservation} (h : .exec p observation ∈ events) :
    p ∈ mentioned events := mem_mentioned_of_mem h (by simp [mentions,actor])

theorem mem_mentioned_of_parent {child : ProcessInstance} (h : .fork p child ∈ events) : p ∈ mentioned events :=
  mem_mentioned_of_mem h (by simp [mentions])

theorem mem_mentioned_of_child {parent : ProcessInstance} (h : .fork parent p ∈ events) : p ∈ mentioned events :=
  mem_mentioned_of_mem h (by simp [mentions])

end Mentions

section Determined
variable {events : List TracedEvent} {event : TracedEvent} {p q : ProcessInstance}

theorem Introduced.exec_unique (h : Introduced events) {observation observation' : FileObservation}
    (hp : .exec p observation ∈ events) (hp' : .exec p observation' ∈ events) : observation = observation' := by
  induction h with
  | nil => cases hp
  | snoc before fresh ih =>
    rw [List.mem_append,List.mem_singleton] at hp hp'
    rcases hp with hp | rfl
    · rcases hp' with hp' | rfl
      · exact ih hp hp'
      · exact absurd (mem_mentioned_of_exec hp) (fresh.exec _ _ rfl)
    · rcases hp' with hp' | hp'
      · exact absurd (mem_mentioned_of_exec hp') (fresh.exec _ _ rfl)
      · exact (TracedEvent.exec.inj hp').2.symm

theorem Introduced.fork_unique (h : Introduced events) {child child' : ProcessInstance}
    (hp : .fork p child ∈ events) (hq : .fork q child' ∈ events) (hl : child.lifetime = child'.lifetime) : p = q := by
  induction h with
  | nil => cases hp
  | snoc before fresh ih =>
    rw [List.mem_append,List.mem_singleton] at hp hq
    rcases hp with hp | rfl
    · rcases hq with hq | rfl
      · exact ih hp hq
      · exact absurd hl ((fresh.fork _ _ rfl).2.2 _ (mem_mentioned_of_child hp))
    · rcases hq with hq | hq
      · exact absurd hl.symm ((fresh.fork _ _ rfl).2.2 _ (mem_mentioned_of_child hq))
      · exact (TracedEvent.fork.inj hq).1.symm

/-- An instance has at most one tool. -/
theorem Introduced.toolOf_unique (h : Introduced events) {tool tool' : Option Str} (hp : ToolOf events p tool)
    (hp' : ToolOf events p tool') : tool = tool' := by
  induction hp generalizing tool' with
  | exec hexec =>
    cases hp' with
    | exec hexec' => rw [h.exec_unique hexec hexec']
    | fork image _ _ _ => exact absurd hexec (image _)
    | neither image _ => exact absurd hexec (image _)
  | fork image hfork lifetime _ ih =>
    cases hp' with
    | exec hexec => exact absurd hexec (image _)
    | fork _ hfork' lifetime' next =>
      obtain rfl := h.fork_unique hfork hfork' (lifetime.trans lifetime'.symm)
      exact ih next
    | neither _ none => exact absurd lifetime (none _ _ hfork)
  | neither image none =>
    cases hp' with
    | exec hexec => exact absurd hexec (image _)
    | fork _ hfork lifetime _ => exact absurd lifetime (none _ _ hfork)
    | neither _ _ => rfl

theorem Untracked.toolOf (h : Untracked events p) : ToolOf events p none := by
  induction h with
  | fork image hfork lifetime _ ih => exact .fork image hfork lifetime ih
  | neither image none => exact .neither image none

theorem untracked_of_toolOf {tool : Option Str} (h : ToolOf events p tool) (hnone : tool = none) :
    Untracked events p := by
  induction h with
  | exec => cases hnone
  | fork image hfork lifetime _ ih => exact .fork image hfork lifetime (ih hnone)
  | neither image none => exact .neither image none

/-- Nothing that is appended changes the tool of an instance already mentioned. -/
theorem ToolOf.snoc {tool : Option Str} (hfresh : Fresh events event) (h : ToolOf events p tool)
    (hp : p ∈ mentioned events) : ToolOf (events ++ [event]) p tool := by
  induction h with
  | exec hexec => exact .exec (List.mem_append_left _ hexec)
  | @fork process parent child tool image hfork lifetime _ ih =>
    refine .fork (fun observation hexec => ?_) (List.mem_append_left _ hfork) lifetime
      (ih (mem_mentioned_of_parent hfork))
    rcases List.mem_append.mp hexec with hexec | hexec
    · exact image _ hexec
    · exact hfresh.exec _ _ (List.mem_singleton.mp hexec).symm hp
  | @neither process image none =>
    refine .neither (fun observation hexec => ?_) (fun parent child hfork => ?_)
    · rcases List.mem_append.mp hexec with hexec | hexec
      · exact image _ hexec
      · exact hfresh.exec _ _ (List.mem_singleton.mp hexec).symm hp
    · rcases List.mem_append.mp hfork with hfork | hfork
      · exact none _ _ hfork
      · exact ((hfresh.fork _ _ (List.mem_singleton.mp hfork).symm).2.2 _ hp).symm

end Determined

section Table

/-- The tools as they become known, event by event. -/
def assignTool (tools : ProcessInstance → Option Str) : TracedEvent → ProcessInstance → Option Str
  | .exec process observation => Function.update tools process (some observation.identity)
  | .fork parent child => Function.update tools child (tools parent)
  | _ => tools

def knownTools (events : List TracedEvent) : ProcessInstance → Option Str := events.foldl assignTool fun _ => none

variable {events : List TracedEvent} {event : TracedEvent} {p : ProcessInstance}

@[simp] theorem knownTools_snoc (events : List TracedEvent) (event : TracedEvent) :
    knownTools (events ++ [event]) = assignTool (knownTools events) event := by
  simp [knownTools]

theorem assignTool_of_plain {tools : ProcessInstance → Option Str}
    (hexec : ∀ observation, event ≠ .exec p observation) (hfork : ∀ parent, event ≠ .fork parent p) :
    assignTool tools event p = tools p := by
  cases event with
  | exec process observation =>
    exact Function.update_of_ne (fun heq => hexec observation (by rw [heq])) _ _
  | fork parent child => exact Function.update_of_ne (fun heq => hfork parent (by rw [heq])) _ _
  | _ => rfl

theorem knownTools_of_not_mentioned (h : p ∉ mentioned events) : knownTools events p = none := by
  induction events using List.reverseRecOn with
  | nil => rfl
  | append_singleton events event ih =>
    rw [mentioned_append,mentioned_singleton,List.mem_append,not_or] at h
    rw [knownTools_snoc,assignTool_of_plain,ih h.1]
    · rintro observation rfl
      simp [mentions,actor] at h
    · rintro parent rfl
      simp [mentions] at h

theorem Fresh.knownTools (hfresh : Fresh events event) (hp : p ∈ mentioned events) :
    knownTools (events ++ [event]) p = Trace.knownTools events p := by
  rw [knownTools_snoc,assignTool_of_plain]
  · rintro observation rfl
    exact hfresh.exec _ _ rfl hp
  · rintro parent rfl
    exact (hfresh.fork _ _ rfl).2.2 _ hp rfl

/-- An instance that acts before it was executed or forked has no tool. -/
theorem Introduced.toolOf_newcomer (h : Introduced events) (hfresh : Fresh events event)
    (hp : actor event ∉ mentioned events) (hexec : ∀ process observation, event ≠ .exec process observation) :
    ToolOf (events ++ [event]) (actor event) none := by
  have hepoch : (actor event).execEpoch = 0 := by
    by_contra hne
    exact hp (hfresh.image hexec hne)
  have hnew : ∀ q ∈ mentioned events, q.execEpoch = 0 → q.lifetime ≠ (actor event).lifetime := by
    intro q hq hzero hl
    refine hp ?_
    have heq : q = actor event := by
      rcases q with ⟨l,e⟩
      generalize actor event = a at *
      rcases a with ⟨l',e'⟩
      simp_all
    exact heq ▸ hq
  have hold : ∀ parent child, TracedEvent.fork parent child ∈ events → child.execEpoch = 0 := by
    clear hfresh hp hexec hepoch hnew
    intro parent child hfork
    induction h with
    | nil => cases hfork
    | snoc before fresh ih =>
      rcases List.mem_append.mp hfork with hfork | hfork
      · exact ih hfork
      · exact (fresh.fork _ _ (List.mem_singleton.mp hfork).symm).1
  refine .neither (fun observation hmem => ?_) (fun parent child hmem => ?_)
  · rcases List.mem_append.mp hmem with hmem | hmem
    · exact hp (mem_mentioned_of_exec hmem)
    · exact hexec _ _ (List.mem_singleton.mp hmem).symm
  · rcases List.mem_append.mp hmem with hmem | hmem
    · exact hnew child (mem_mentioned_of_child hmem) (hold parent child hmem)
    · obtain rfl := List.mem_singleton.mp hmem
      exact (hfresh.fork _ _ rfl).2.1.symm

/-- The table holds the tools of all instances that were mentioned. -/
theorem Introduced.toolOf_knownTools (h : Introduced events) (hp : p ∈ mentioned events) :
    ToolOf events p (knownTools events p) := by
  induction h generalizing p with
  | nil => cases hp
  | @snoc events event before fresh ih =>
    have hold : ∀ q ∈ mentioned events, ToolOf (events ++ [event]) q (knownTools (events ++ [event]) q) := by
      intro q hq
      rw [fresh.knownTools hq]
      exact (ih hq).snoc fresh hq
    have hactor : (∀ process observation, event ≠ .exec process observation) →
        ToolOf (events ++ [event]) (actor event) (knownTools (events ++ [event]) (actor event)) := by
      intro hexec
      by_cases hq : actor event ∈ mentioned events
      · exact hold _ hq
      · have hnone : knownTools (events ++ [event]) (actor event) = none := by
          rw [knownTools_snoc,assignTool_of_plain (fun observation => hexec _ observation),
            knownTools_of_not_mentioned hq]
          intro parent heq
          have hactor : actor event = parent := by rw [heq]; rfl
          exact (fresh.fork _ _ heq).2.1 (by rw [hactor])
        rw [hnone]
        exact before.toolOf_newcomer fresh hq hexec
    rw [mentioned_append,mentioned_singleton,List.mem_append] at hp
    rcases hp with hp | hp
    · exact hold p hp
    · cases event with
      | exec process observation =>
        obtain rfl : p = process := List.mem_singleton.mp hp
        rw [knownTools_snoc,assignTool,Function.update_self]
        exact .exec (by simp)
      | fork parent child =>
        rcases List.mem_cons.mp hp with rfl | hp
        · exact hactor (by simp)
        · obtain rfl := List.mem_singleton.mp hp
          obtain ⟨hepoch,hne,hnew⟩ := fresh.fork _ _ rfl
          have hparent := hactor (by simp)
          have htool : knownTools (events ++ [.fork parent p]) parent = knownTools events parent := by
            rw [knownTools_snoc,assignTool,Function.update_of_ne]
            rintro rfl
            exact hne rfl
          rw [actor,htool] at hparent
          rw [knownTools_snoc,assignTool,Function.update_self]
          refine .fork (fun observation hexec => ?_) (by simp) rfl hparent
          rcases List.mem_append.mp hexec with hexec | hexec
          · exact hnew p (mem_mentioned_of_exec hexec) rfl
          · simp at hexec
      | _ =>
        obtain rfl := List.mem_singleton.mp hp
        exact hactor (by simp)

end Table

section Settled
variable {events events' : List TracedEvent} {event : TracedEvent} {p : ProcessInstance}

theorem introduced_snoc : Introduced (events ++ [event]) ↔ Introduced events ∧ Fresh events event := by
  refine ⟨fun h => ?_,fun h => .snoc h.1 h.2⟩
  generalize hall : events ++ [event] = all at h
  cases h with
  | nil => simp at hall
  | snoc before fresh =>
    obtain ⟨rfl,hlast⟩ := List.append_inj' hall rfl
    obtain rfl := List.singleton_inj.mp hlast
    exact ⟨before,fresh⟩

theorem Introduced.of_append (h : Introduced (events ++ events')) : Introduced events := by
  induction events' generalizing events with
  | nil => rwa [List.append_nil] at h
  | cons event events' ih =>
    rw [List.append_cons] at h
    exact (introduced_snoc.mp (ih h)).1

theorem Introduced.fresh (h : Introduced (events ++ event :: events')) : Fresh events event := by
  rw [List.append_cons] at h
  exact (introduced_snoc.mp h.of_append).2

/-- The tool of an instance does not change once it has been mentioned. -/
theorem Introduced.knownTools_append (h : Introduced (events ++ events')) (hp : p ∈ mentioned events) :
    knownTools (events ++ events') p = knownTools events p := by
  induction events' using List.reverseRecOn with
  | nil => rw [List.append_nil]
  | append_singleton rest last ih =>
    rw [← List.append_assoc] at h ⊢
    rw [h.fresh.knownTools (by rw [mentioned_append]; exact List.mem_append_left _ hp)]
    exact ih h.of_append

end Settled

end Repx.Trace
