import Mathlib.Data.List.Sort

/-! # Worklist walks over labelled nodes

A queue of nodes is worked off; the labels of a node are expanded once each, and
the members of a fresh label that were not seen before join the queue. Labels
that are marked from the start are never expanded. A finished walk has included
exactly the nodes reachable through unmarked labels, whatever the orders in
which labels and members are listed.
-/
namespace Repx.Worklist
open Std
variable {α β : Type} [Ord α] [TransOrd α] [Ord β]

structure State (α β : Type) [Ord α] [Ord β] where
  included : ExtTreeSet α
  relevant : ExtTreeSet β
  queue : List α

/-- Include a node that was not seen before. -/
def enqueue (w : State α β) (a : α) : State α β :=
  if a ∈ w.included then w
  else { w with included := w.included.insert a, queue := w.queue ++ [a] }

def enqueueAll (w : State α β) (l : List α) : State α β := l.foldl enqueue w

theorem mem_insert_iff [LawfulEqOrd α] {s : ExtTreeSet α} {a b : α} : a ∈ s.insert b ↔ a = b ∨ a ∈ s := by
  rw [ExtTreeSet.mem_insert,Std.compare_eq_iff_eq,eq_comm]

/-- Mark a label and include its members, unless it is already marked. -/
def expand [TransOrd β] (members : β → List α) (w : State α β) (b : β) : State α β :=
  if b ∈ w.relevant then w
  else enqueueAll { w with relevant := w.relevant.insert b } (members b)

/-- Work off the queue. The listings may differ from one step to the next. -/
def walk [TransOrd β] (labels : ℕ → α → List β) (members : ℕ → β → List α) : ℕ → ℕ → State α β → State α β
  | 0, _, w => w
  | fuel + 1, step, w =>
    match w.queue with
    | [] => w
    | a :: queue =>
      walk labels members fuel (step + 1) ((labels step a).foldl (expand (members step)) { w with queue := queue })

section Enqueue

theorem enqueueAll_relevant (w : State α β) (l : List α) : (enqueueAll w l).relevant = w.relevant := by
  induction l generalizing w with
  | nil => rfl
  | cons b l ih =>
    rw [enqueueAll,List.foldl_cons,← enqueueAll,ih,enqueue]
    split_ifs <;> rfl

variable [LawfulEqOrd α] {w : State α β} {a : α} {l : List α}

theorem mem_included_enqueue {b : α} : a ∈ (enqueue w b).included ↔ a ∈ w.included ∨ a = b := by
  unfold enqueue
  split_ifs with h
  · constructor
    · exact Or.inl
    · rintro (ha | rfl)
      · exact ha
      · exact h
  · rw [mem_insert_iff,or_comm]

theorem mem_included_enqueueAll : a ∈ (enqueueAll w l).included ↔ a ∈ w.included ∨ a ∈ l := by
  induction l generalizing w with
  | nil => simp [enqueueAll]
  | cons b l ih => rw [enqueueAll,List.foldl_cons,← enqueueAll,ih,mem_included_enqueue,List.mem_cons,or_assoc]

/-- What is included anew is queued, and nothing else. -/
theorem mem_queue_enqueueAll :
    a ∈ (enqueueAll w l).queue ↔ a ∈ w.queue ∨ a ∈ l ∧ a ∉ w.included := by
  induction l generalizing w with
  | nil => simp [enqueueAll]
  | cons b l ih =>
    rw [enqueueAll,List.foldl_cons,← enqueueAll,ih,mem_included_enqueue]
    unfold enqueue
    split_ifs with hb
    · grind
    · simp only [List.mem_append,List.mem_cons]
      grind

omit [LawfulEqOrd α] in
theorem size_enqueueAll :
    (enqueueAll w l).queue.length + w.included.size = w.queue.length + (enqueueAll w l).included.size := by
  induction l generalizing w with
  | nil => rfl
  | cons b l ih =>
    rw [enqueueAll,List.foldl_cons,← enqueueAll]
    have h := ih (w := enqueue w b)
    have hb : (enqueue w b).queue.length + w.included.size = w.queue.length + (enqueue w b).included.size := by
      unfold enqueue
      split_ifs with hb
      · rfl
      · rw [ExtTreeSet.size_insert,if_neg (by simpa using hb),List.length_append,List.length_singleton]
        omega
    omega

end Enqueue

/-- Nodes reachable from the start through labels that are not marked. -/
inductive Reach (start : α → Prop) (marked : β → Prop) (label : α → β → Prop) (member : β → α → Prop) :
    α → Prop
  | start {a : α} : start a → Reach start marked label member a
  | next {a : α} {b : β} {c : α} : Reach start marked label member a → label a b → ¬ marked b →
      member b c → Reach start marked label member c

omit [Ord α] [TransOrd α] [Ord β] in
/-- Marking fewer labels leaves more nodes reachable. -/
theorem Reach.mono {start : α → Prop} {marked marked' : β → Prop} {label : α → β → Prop} {member : β → α → Prop}
    (hm : ∀ b, marked' b → marked b) {a : α} (h : Reach start marked label member a) :
    Reach start marked' label member a := by
  induction h with
  | start hs => exact .start hs
  | next _ hb hnot hc ih => exact ih.next hb (fun hm' => hnot (hm _ hm')) hc

section Walk
variable [LawfulEqOrd α] [TransOrd β] [LawfulEqOrd β]
variable {start : α → Prop} {marked : β → Prop} {label : α → β → Prop} {member : β → α → Prop}

/-- What holds whenever a node is about to be taken from the queue, up to the
labels of `current`, which is being worked off. -/
structure Invariant (start : α → Prop) (marked : β → Prop) (label : α → β → Prop) (member : β → α → Prop)
    (current : α → Prop) (w : State α β) : Prop where
  sound : ∀ a ∈ w.included, Reach start marked label member a
  justified : ∀ b ∈ w.relevant, marked b ∨ ∃ a, Reach start marked label member a ∧ label a b
  started : ∀ a, start a → a ∈ w.included
  premarked : ∀ b, marked b → b ∈ w.relevant
  queued : ∀ a ∈ w.queue, a ∈ w.included
  complete : ∀ a ∈ w.included, current a ∨ a ∈ w.queue ∨ ∀ b, label a b → b ∈ w.relevant
  closed : ∀ b ∈ w.relevant, marked b ∨ ∀ a, member b a → a ∈ w.included

namespace Invariant
variable {current : α → Prop} {w : State α β}

theorem expand (h : Invariant start marked label member current w) {members : β → List α}
    (hm : ∀ b a, a ∈ members b ↔ member b a) {a : α} (ha : Reach start marked label member a) {b : β}
    (hb : label a b) : Invariant start marked label member current (Worklist.expand members w b) := by
  unfold Worklist.expand
  split_ifs with hrel
  · exact h
  have hnot : ¬ marked b := fun hmb => hrel (h.premarked b hmb)
  constructor
  · intro c hc
    rcases mem_included_enqueueAll.mp hc with hc | hc
    · exact h.sound c hc
    · exact ha.next hb hnot ((hm b c).mp hc)
  · intro c hc
    rw [enqueueAll_relevant,mem_insert_iff] at hc
    rcases hc with rfl | hc
    · exact Or.inr ⟨a,ha,hb⟩
    · exact h.justified c hc
  · exact fun c hc => mem_included_enqueueAll.mpr (Or.inl (h.started c hc))
  · intro c hc
    rw [enqueueAll_relevant,mem_insert_iff]
    exact Or.inr (h.premarked c hc)
  · intro c hc
    rw [mem_included_enqueueAll]
    rcases mem_queue_enqueueAll.mp hc with hc | hc
    · exact Or.inl (h.queued c hc)
    · exact Or.inr hc.1
  · intro c hc
    rw [mem_queue_enqueueAll,enqueueAll_relevant]
    by_cases hold : c ∈ w.included
    · rcases h.complete c hold with hcur | hq | hall
      · exact Or.inl hcur
      · exact Or.inr (Or.inl (Or.inl hq))
      · refine Or.inr (Or.inr fun d hd => ?_)
        rw [mem_insert_iff]
        exact Or.inr (hall d hd)
    · rcases mem_included_enqueueAll.mp hc with hc | hc
      · exact absurd hc hold
      · exact Or.inr (Or.inl (Or.inr ⟨hc,hold⟩))
  · intro c hc
    rw [enqueueAll_relevant,mem_insert_iff] at hc
    rcases hc with rfl | hc
    · exact Or.inr fun d hd => mem_included_enqueueAll.mpr (Or.inr ((hm c d).mpr hd))
    · rcases h.closed c hc with hmk | hall
      · exact Or.inl hmk
      · exact Or.inr fun d hd => mem_included_enqueueAll.mpr (Or.inl (hall d hd))

theorem expandAll (h : Invariant start marked label member current w) {members : β → List α}
    (hm : ∀ b a, a ∈ members b ↔ member b a) {a : α} (ha : Reach start marked label member a) {bs : List β}
    (hbs : ∀ b ∈ bs, label a b) :
    Invariant start marked label member current (bs.foldl (Worklist.expand members) w) := by
  induction bs generalizing w with
  | nil => exact h
  | cons b bs ih =>
    exact ih (h.expand hm ha (hbs b List.mem_cons_self)) fun c hc => hbs c (List.mem_cons_of_mem _ hc)

end Invariant

omit [LawfulEqOrd α] in
theorem mem_relevant_expandAll {members : β → List α} {w : State α β} {bs : List β} {b : β} :
    b ∈ (bs.foldl (expand members) w).relevant ↔ b ∈ w.relevant ∨ b ∈ bs := by
  induction bs generalizing w with
  | nil => simp
  | cons c bs ih =>
    rw [List.foldl_cons,ih,expand]
    split_ifs with hc
    · grind
    · rw [enqueueAll_relevant,mem_insert_iff,List.mem_cons]
      grind

omit [LawfulEqOrd α] [LawfulEqOrd β] in
theorem size_expandAll {members : β → List α} {w : State α β} {bs : List β} :
    (bs.foldl (expand members) w).queue.length + w.included.size =
      w.queue.length + (bs.foldl (expand members) w).included.size := by
  induction bs generalizing w with
  | nil => rfl
  | cons c bs ih =>
    rw [List.foldl_cons]
    have h := ih (w := expand members w c)
    have hc : (expand members w c).queue.length + w.included.size =
        w.queue.length + (expand members w c).included.size := by
      unfold expand
      split_ifs
      · rfl
      · exact size_enqueueAll (w := { w with relevant := w.relevant.insert c })
    omega

section Run
variable {labels : ℕ → α → List β} {members : ℕ → β → List α}
variable (hl : ∀ step a b, b ∈ labels step a ↔ label a b) (hm : ∀ step b a, a ∈ members step b ↔ member b a)
include hl hm

/-- One turn of the loop keeps the invariant. -/
theorem Invariant.turn {w : State α β} {a : α} {queue : List α} (step : ℕ)
    (h : Invariant start marked label member (fun _ => False) w) (hq : w.queue = a :: queue) :
    Invariant start marked label member (fun _ => False)
      ((labels step a).foldl (Worklist.expand (members step)) { w with queue := queue }) := by
  have ha : a ∈ w.included := h.queued a (by rw [hq]; exact List.mem_cons_self)
  have hpop : Invariant start marked label member (· = a) { w with queue := queue } := by
    refine ⟨h.sound,h.justified,h.started,h.premarked,?_,?_,h.closed⟩
    · exact fun c hc => h.queued c (by rw [hq]; exact List.mem_cons_of_mem _ hc)
    · intro c hc
      rcases h.complete c hc with hf | hcq | hall
      · exact hf.elim
      · rw [hq,List.mem_cons] at hcq
        rcases hcq with rfl | hcq
        · exact Or.inl rfl
        · exact Or.inr (Or.inl hcq)
      · exact Or.inr (Or.inr hall)
  have hfold := hpop.expandAll (hm step) (h.sound a ha) (fun b hb => (hl step a b).mp hb)
  refine ⟨hfold.sound,hfold.justified,hfold.started,hfold.premarked,hfold.queued,?_,hfold.closed⟩
  intro c hc
  rcases hfold.complete c hc with rfl | hrest
  · refine Or.inr (Or.inr fun b hb => ?_)
    rw [mem_relevant_expandAll]
    exact Or.inr ((hl step c b).mpr hb)
  · exact Or.inr hrest

/-- Enough fuel empties the queue, and the invariant still holds. -/
theorem Invariant.walk {nodes : List α} (hnodes : ∀ a, Reach start marked label member a → a ∈ nodes)
    {fuel step : ℕ} {w : State α β} (h : Invariant start marked label member (fun _ => False) w)
    (hfuel : w.queue.length + nodes.length ≤ fuel + w.included.size) :
    Invariant start marked label member (fun _ => False) (Worklist.walk labels members fuel step w) ∧
      (Worklist.walk labels members fuel step w).queue = [] := by
  have hsize : ∀ w : State α β, Invariant start marked label member (fun _ => False) w →
      w.included.size ≤ nodes.length := by
    intro w h
    rw [← ExtTreeSet.length_toList]
    have hnodup : w.included.toList.Nodup := by
      rw [List.Nodup]
      refine ExtTreeSet.distinct_toList.imp ?_
      intro a b hab he
      exact hab (by rw [he]; exact ReflOrd.compare_self)
    exact (List.subperm_of_subset hnodup fun a ha => hnodes a (h.sound a (ExtTreeSet.mem_toList.mp ha))).length_le
  induction fuel generalizing w step with
  | zero =>
    have hs := hsize w h
    have hz : w.queue = [] := List.length_eq_zero_iff.mp (by omega)
    exact ⟨h,hz⟩
  | succ fuel ih =>
    cases hq : w.queue with
    | nil => simpa [Worklist.walk,hq] using h
    | cons a queue =>
      simp only [Worklist.walk,hq]
      apply ih (h.turn hl hm step hq)
      have hs : ((labels step a).foldl (Worklist.expand (members step)) { w with queue := queue }).queue.length +
          w.included.size = queue.length + ((labels step a).foldl (Worklist.expand (members step))
            { w with queue := queue }).included.size := size_expandAll
      rw [hq,List.length_cons] at hfuel
      omega

/-- A finished walk includes exactly the reachable nodes and marks exactly their
labels besides those marked from the start. -/
theorem walk_spec {nodes : List α} (hnodes : ∀ a, Reach start marked label member a → a ∈ nodes)
    {fuel step : ℕ} {w : State α β} (h : Invariant start marked label member (fun _ => False) w)
    (hfuel : w.queue.length + nodes.length ≤ fuel + w.included.size) :
    (∀ a, a ∈ (walk labels members fuel step w).included ↔ Reach start marked label member a) ∧
      ∀ b, b ∈ (walk labels members fuel step w).relevant ↔
        marked b ∨ ∃ a, Reach start marked label member a ∧ label a b := by
  obtain ⟨hinv,hempty⟩ := h.walk hl hm hnodes hfuel
  have hlabels : ∀ a ∈ (walk labels members fuel step w).included, ∀ b, label a b →
      b ∈ (walk labels members fuel step w).relevant := by
    intro a ha
    rcases hinv.complete a ha with hf | hq | hall
    · exact hf.elim
    · rw [hempty] at hq
      cases hq
    · exact hall
  have hreach : ∀ a, Reach start marked label member a → a ∈ (walk labels members fuel step w).included := by
    intro a ha
    induction ha with
    | start hs => exact hinv.started _ hs
    | next _ hb hnot hc ih =>
      rcases hinv.closed _ (hlabels _ ih _ hb) with hmk | hall
      · exact absurd hmk hnot
      · exact hall _ hc
  refine ⟨fun a => ⟨hinv.sound a,hreach a⟩,fun b => ⟨hinv.justified b,?_⟩⟩
  rintro (hmk | ⟨a,ha,hb⟩)
  · exact hinv.premarked b hmk
  · exact hlabels a (hreach a ha) b hb

end Run

end Walk

end Repx.Worklist
