import Mathlib.Data.List.Basic

/-! # Guarded descents

A node is noted when it is met, and its children are visited unless its key is held
already. Asking for the key or for the children of a node may fail, which ends the descent.
With finitely many keys every descent ends, and a descent that does not fail has noted
exactly the nodes that can be reached, as long as no two of them share a key.
-/
namespace Repx.Descent
open Std
variable {N K E S : Type}

/-- What is asked about a node: its key, if it has children, and the children. -/
structure Terrain (N K E : Type) where
  key : N → Except E (Option K)
  children : N → Except E (List N)

structure State (K S : Type) [Ord K] where
  seen : ExtTreeSet K
  record : S

variable [Ord K]

/-- Visit the nodes of a list in turn, up to the first that fails. -/
def visitAll (visit : N → State K S → Option (Except E (State K S))) :
    List N → State K S → Option (Except E (State K S))
  | [], s => some (.ok s)
  | n :: rest, s =>
    match visit n s with
    | some (.ok s) => visitAll visit rest s
    | some (.error e) => some (.error e)
    | none => none

section Visit
variable {visit visit' : N → State K S → Option (Except E (State K S))}

theorem visitAll_cons_eq_ok {n : N} {rest : List N} {s s' : State K S} :
    visitAll visit (n :: rest) s = some (.ok s') ↔
      ∃ s₁, visit n s = some (.ok s₁) ∧ visitAll visit rest s₁ = some (.ok s') := by
  rw [visitAll]
  split
  · next s₁ h => simp [h]
  · next e h => simp [h]
  · next h => simp [h]

theorem visitAll_eq_error {l : List N} {s : State K S} {e : E} (h : visitAll visit l s = some (.error e)) :
    ∃ n ∈ l, ∃ s₁, visit n s₁ = some (.error e) := by
  induction l generalizing s with
  | nil => simp [visitAll] at h
  | cons n rest ih =>
    rw [visitAll] at h
    split at h
    · obtain ⟨m,hm,hs⟩ := ih h
      exact ⟨m,List.mem_cons_of_mem _ hm,hs⟩
    · next e' hv =>
      obtain rfl : e' = e := by simpa using h
      exact ⟨n,List.mem_cons_self,s,hv⟩
    · simp at h

theorem visitAll_congr {l : List N} {s : State K S} {r : Except E (State K S)}
    (hv : ∀ n ∈ l, ∀ s r, visit n s = some r → visit' n s = some r) (h : visitAll visit l s = some r) :
    visitAll visit' l s = some r := by
  induction l generalizing s with
  | nil => exact h
  | cons n rest ih =>
    rw [visitAll] at h ⊢
    split at h
    · next s₁ hn =>
      rw [hv n List.mem_cons_self _ _ hn]
      exact ih (fun m hm => hv m (List.mem_cons_of_mem _ hm)) h
    · next e hn =>
      rw [hv n List.mem_cons_self _ _ hn]
      exact h
    · simp at h

/-- Nothing is left open where every visit ends and keeps what the visits ask for. -/
theorem visitAll_isSome {P : State K S → Prop} {l : List N} {s : State K S} (hs : P s)
    (hsome : ∀ n ∈ l, ∀ s, P s → (visit n s).isSome)
    (hkeep : ∀ n ∈ l, ∀ s s', P s → visit n s = some (.ok s') → P s') : (visitAll visit l s).isSome := by
  induction l generalizing s with
  | nil => rfl
  | cons n rest ih =>
    rw [visitAll]
    split
    · next s₁ hn =>
      exact ih (hkeep n List.mem_cons_self s s₁ hs hn) (fun m hm => hsome m (List.mem_cons_of_mem _ hm))
        fun m hm => hkeep m (List.mem_cons_of_mem _ hm)
    · rfl
    · next hn =>
      have hn' := hsome n List.mem_cons_self s hs
      rw [hn] at hn'
      cases hn'

/-- What every visit preserves, the visits of a list preserve. -/
theorem visitAll_rel {R : State K S → State K S → Prop} {l : List N} {s s' : State K S} (hrefl : ∀ s, R s s)
    (htrans : ∀ {s₁ s₂ s₃}, R s₁ s₂ → R s₂ s₃ → R s₁ s₃)
    (hvisit : ∀ n ∈ l, ∀ s s', visit n s = some (.ok s') → R s s') (h : visitAll visit l s = some (.ok s')) :
    R s s' := by
  induction l generalizing s with
  | nil =>
    obtain rfl : s = s' := by simpa [visitAll] using h
    exact hrefl s
  | cons n rest ih =>
    obtain ⟨s₁,hn,hrest⟩ := visitAll_cons_eq_ok.mp h
    exact htrans (hvisit n List.mem_cons_self s s₁ hn) (ih (fun m hm => hvisit m (List.mem_cons_of_mem _ hm)) hrest)

/-- What holds behind the visit of a node still holds in the end, up to what the later visits preserve. -/
theorem exists_visit_of_visitAll {R : State K S → State K S → Prop} {l : List N} {s s' : State K S}
    (hrefl : ∀ s, R s s) (htrans : ∀ {s₁ s₂ s₃}, R s₁ s₂ → R s₂ s₃ → R s₁ s₃)
    (hvisit : ∀ n ∈ l, ∀ s s', visit n s = some (.ok s') → R s s') (h : visitAll visit l s = some (.ok s')) {n : N}
    (hn : n ∈ l) : ∃ s₁ s₂, visit n s₁ = some (.ok s₂) ∧ R s₂ s' := by
  induction l generalizing s with
  | nil => simp at hn
  | cons m rest ih =>
    obtain ⟨s₁,hm,hrest⟩ := visitAll_cons_eq_ok.mp h
    have hvisit' : ∀ n ∈ rest, ∀ s s', visit n s = some (.ok s') → R s s' :=
      fun n hn => hvisit n (List.mem_cons_of_mem _ hn)
    rcases List.mem_cons.mp hn with rfl | hn
    · exact ⟨s,s₁,hm,visitAll_rel hrefl htrans hvisit' hrest⟩
    · exact ih hvisit' hrest hn

end Visit

variable [TransOrd K] (t : Terrain N K E) (note : N → S → S)

/-- The descent from a node; without fuel it stays open. -/
def descend : ℕ → N → State K S → Option (Except E (State K S))
  | 0, _, _ => none
  | fuel + 1, n, s =>
    let s := { s with record := note n s.record }
    match t.key n with
    | .error e => some (.error e)
    | .ok none => some (.ok s)
    | .ok (some k) =>
      if k ∈ s.seen then some (.ok s)
      else
        match t.children n with
        | .error e => some (.error e)
        | .ok children => visitAll (descend fuel) children { s with seen := s.seen.insert k }

/-- The nodes below a node, and the node. -/
inductive Reach : N → N → Prop
  | refl (n : N) : Reach n n
  | child {n m c : N} {k : K} {children : List N} : Reach n m → t.key m = .ok (some k) →
      t.children m = .ok children → c ∈ children → Reach n c

/-- A node that cannot be asked for its key, or for its children. -/
def Fails (n : N) (e : E) : Prop := t.key n = .error e ∨ (∃ k, t.key n = .ok (some k)) ∧ t.children n = .error e

variable {t note}

omit [Ord K] [TransOrd K] in
theorem Reach.trans {n m c : N} (h : Reach t n m) (h' : Reach t m c) : Reach t n c := by
  induction h' with
  | refl => exact h
  | child _ hkey hchildren hmem ih => exact .child ih hkey hchildren hmem

section Steps
variable {fuel : ℕ} {n : N} {s s' : State K S} {e : E}

/-- The three ways to visit a node without a failure. -/
theorem descend_eq_ok : descend t note (fuel + 1) n s = some (.ok s') ↔
    (t.key n = .ok none ∧ s' = { s with record := note n s.record }) ∨
    (∃ k, t.key n = .ok (some k) ∧ k ∈ s.seen ∧ s' = { s with record := note n s.record }) ∨
    ∃ k children, t.key n = .ok (some k) ∧ k ∉ s.seen ∧ t.children n = .ok children ∧
      visitAll (descend t note fuel) children ⟨s.seen.insert k,note n s.record⟩ = some (.ok s') := by
  rw [descend]
  cases hk : t.key n with
  | error e => simp
  | ok key =>
    cases key with
    | none => simp [eq_comm]
    | some k =>
      by_cases hs : k ∈ s.seen
      · simp [hs,eq_comm]
      · cases hc : t.children n <;> simp [hs]

/-- A failure comes from a node that was reached. -/
theorem exists_fails_of_descend (h : descend t note fuel n s = some (.error e)) : ∃ m, Reach t n m ∧ Fails t m e := by
  induction fuel generalizing n s with
  | zero => simp [descend] at h
  | succ fuel ih =>
    rw [descend] at h
    dsimp only at h
    split at h
    · next e' hk =>
      obtain rfl : e' = e := by simpa using h
      exact ⟨n,.refl n,Or.inl hk⟩
    · simp at h
    · next k hk =>
      split_ifs at h with hs
      · simp at h
      · split at h
        · next e' hc =>
          obtain rfl : e' = e := by simpa using h
          exact ⟨n,.refl n,Or.inr ⟨⟨k,hk⟩,hc⟩⟩
        · next children hc =>
          obtain ⟨m,hm,s₁,hfail⟩ := visitAll_eq_error h
          obtain ⟨c,hreach,hc'⟩ := ih hfail
          exact ⟨c,(Reach.child (.refl n) hk hc hm).trans hreach,hc'⟩

/-- Further fuel changes nothing. -/
theorem descend_of_le {r : Except E (State K S)} (h : descend t note fuel n s = some r) {fuel' : ℕ}
    (hf : fuel ≤ fuel') : descend t note fuel' n s = some r := by
  induction fuel generalizing n s r fuel' with
  | zero => simp [descend] at h
  | succ fuel ih =>
    obtain ⟨fuel',rfl⟩ : ∃ k, fuel' = k + 1 := ⟨fuel' - 1,by omega⟩
    rw [descend] at h ⊢
    dsimp only at h ⊢
    split at h
    · exact h
    · exact h
    · split_ifs at h ⊢ with hk
      · exact h
      · split at h
        · exact h
        · exact visitAll_congr (fun m _ s r hm => ih hm (by omega)) h

variable [LawfulEqOrd K]

theorem mem_insert_iff {seen : ExtTreeSet K} {a k : K} : a ∈ seen.insert k ↔ a = k ∨ a ∈ seen := by
  rw [ExtTreeSet.mem_insert,Std.compare_eq_iff_eq,eq_comm]

/-- Keys stay held. -/
theorem seen_of_descend (h : descend t note fuel n s = some (.ok s')) : ∀ k ∈ s.seen, k ∈ s'.seen := by
  induction fuel generalizing n s s' with
  | zero => simp [descend] at h
  | succ fuel ih =>
    rcases descend_eq_ok.mp h with ⟨-,rfl⟩ | ⟨k,-,-,rfl⟩ | ⟨k,children,-,-,-,hall⟩
    · exact fun _ hk => hk
    · exact fun _ hk => hk
    · have hrel : ∀ a ∈ s.seen.insert k, a ∈ s'.seen :=
        visitAll_rel (R := fun s s' => ∀ k ∈ s.seen, k ∈ s'.seen) (fun _ _ hk => hk)
          (fun h h' a ha => h' a (h a ha)) (fun m _ s s' hm => ih hm) hall
      exact fun a ha => hrel a (mem_insert_iff.mpr (Or.inr ha))

/-- How many keys of a list are not held. -/
def unseen (keys : List K) (seen : ExtTreeSet K) : ℕ := keys.countP (· ∉ seen)

omit [LawfulEqOrd K] in
theorem unseen_le {keys : List K} {seen seen' : ExtTreeSet K} (h : ∀ k ∈ seen, k ∈ seen') :
    unseen keys seen' ≤ unseen keys seen := by
  refine List.countP_mono_left fun k _ hk => ?_
  simp only [decide_eq_true_eq] at hk ⊢
  exact fun hm => hk (h k hm)

theorem unseen_insert_lt {keys : List K} {seen : ExtTreeSet K} {k : K} (hk : k ∈ keys) (hs : k ∉ seen) :
    unseen keys (seen.insert k) < unseen keys seen := by
  have hle (l : List K) : unseen l (seen.insert k) ≤ unseen l seen :=
    unseen_le fun b hb => mem_insert_iff.mpr (Or.inr hb)
  obtain ⟨front,back,rfl⟩ := List.append_of_mem hk
  have hfront := hle front
  have hback := hle back
  have hheld : k ∈ seen.insert k := mem_insert_iff.mpr (Or.inl rfl)
  simp only [unseen,List.countP_append,List.countP_cons,hheld,hs,not_true_eq_false,not_false_eq_true,decide_true,
    decide_false,Bool.false_eq_true,if_true,if_false] at hfront hback ⊢
  omega

/-- With more fuel than there are keys that are not held, a descent ends. -/
theorem descend_isSome {keys : List K} (hkeys : ∀ m k, t.key m = .ok (some k) → k ∈ keys)
    (hfuel : unseen keys s.seen < fuel) : (descend t note fuel n s).isSome := by
  induction fuel generalizing n s with
  | zero => omega
  | succ fuel ih =>
    rw [descend]
    dsimp only
    split
    · rfl
    · rfl
    · next k hk =>
      split_ifs with hs
      · rfl
      · split
        · rfl
        · have hlt := unseen_insert_lt (hkeys n k hk) hs
          refine visitAll_isSome (P := fun s => unseen keys s.seen < fuel) ?_ (fun m _ s hs => ih hs) ?_
          · exact Nat.lt_of_lt_of_le hlt (Nat.le_of_lt_succ hfuel)
          · exact fun m _ s s' hs hm => Nat.lt_of_le_of_lt (unseen_le (seen_of_descend hm)) hs

end Steps

section Trail
variable {fuel : ℕ} {n : N} {s s' : State K (List N)}

/-- Keep the nodes that are met, in order. -/
def trail (n : N) (met : List N) : List N := met ++ [n]

variable (t) in
/-- Any other record is what the trail of the descent adds up to. -/
theorem descend_eq_trail {S : Type} (note : N → S → S) (first : S) (fuel : ℕ) (n : N) (seen : ExtTreeSet K)
    (met : List N) :
    descend t note fuel n ⟨seen,met.foldl (fun s m => note m s) first⟩ =
      (descend t trail fuel n ⟨seen,met⟩).map
        (Except.map fun s => ⟨s.seen,s.record.foldl (fun s m => note m s) first⟩) := by
  induction fuel generalizing n seen met with
  | zero => rfl
  | succ fuel ih =>
    have hnote : note n (met.foldl (fun s m => note m s) first) =
        (trail n met).foldl (fun s m => note m s) first := by
      rw [trail,List.foldl_append,List.foldl_cons,List.foldl_nil]
    have hall (children : List N) (seen : ExtTreeSet K) (met : List N) :
        visitAll (descend t note fuel) children ⟨seen,met.foldl (fun s m => note m s) first⟩ =
          (visitAll (descend t trail fuel) children ⟨seen,met⟩).map
            (Except.map fun s => ⟨s.seen,s.record.foldl (fun s m => note m s) first⟩) := by
      induction children generalizing seen met with
      | nil => rfl
      | cons c rest ihl =>
        rw [visitAll,visitAll,ih]
        cases descend t trail fuel c ⟨seen,met⟩ with
        | none => rfl
        | some r =>
          cases r with
          | error e => rfl
          | ok s => exact ihl s.seen s.record
    rw [descend,descend]
    dsimp only
    rw [hnote]
    cases t.key n with
    | error e => rfl
    | ok key =>
      cases key with
      | none => rfl
      | some k =>
        by_cases hs : k ∈ seen
        · simp only [hs,if_true]
          rfl
        · simp only [hs,if_false]
          cases t.children n with
          | error e => rfl
          | ok children => exact hall children _ _

/-- What a descent below the nodes `from` adds to a trail: nodes from below whose keys are held in the end,
and for every key that it adds a node with that key whose children were all met. -/
structure Covers (t : Terrain N K E) (below : N → Prop) (s s' : State K (List N)) : Prop where
  kept : ∀ m ∈ s.record, m ∈ s'.record
  seen : ∀ k ∈ s.seen, k ∈ s'.seen
  met : ∀ m ∈ s'.record, m ∈ s.record ∨
    below m ∧ (t.key m = .ok none ∨ ∃ k ∈ s'.seen, t.key m = .ok (some k))
  listed : ∀ k ∈ s'.seen, k ∈ s.seen ∨ ∃ m children, below m ∧ t.key m = .ok (some k) ∧
    t.children m = .ok children ∧ ∀ c ∈ children, c ∈ s'.record

theorem Covers.refl {below : N → Prop} (s : State K (List N)) : Covers t below s s :=
  ⟨fun _ h => h,fun _ h => h,fun _ h => Or.inl h,fun _ h => Or.inl h⟩

theorem Covers.trans {below : N → Prop} {s₁ s₂ s₃ : State K (List N)} (h : Covers t below s₁ s₂)
    (h' : Covers t below s₂ s₃) : Covers t below s₁ s₃ where
  kept m hm := h'.kept m (h.kept m hm)
  seen k hk := h'.seen k (h.seen k hk)
  met m hm := by
    rcases h'.met m hm with hm | hm
    · refine (h.met m hm).imp_right fun ⟨hb,hk⟩ => ⟨hb,hk.imp_right ?_⟩
      exact fun ⟨k,hk,he⟩ => ⟨k,h'.seen k hk,he⟩
    · exact Or.inr hm
  listed k hk := by
    rcases h'.listed k hk with hk | hk
    · refine (h.listed k hk).imp_right fun ⟨m,children,hb,hkey,hc,hall⟩ => ?_
      exact ⟨m,children,hb,hkey,hc,fun c hc => h'.kept c (hall c hc)⟩
    · exact Or.inr hk

theorem Covers.mono {below below' : N → Prop} (h : Covers t below s s') (hb : ∀ m, below m → below' m) :
    Covers t below' s s' where
  kept := h.kept
  seen := h.seen
  met m hm := (h.met m hm).imp_right fun hm => ⟨hb m hm.1,hm.2⟩
  listed k hk := (h.listed k hk).imp_right fun ⟨m,children,hm,hrest⟩ => ⟨m,children,hb m hm,hrest⟩

variable [LawfulEqOrd K]

theorem covers_of_descend (h : descend t trail fuel n s = some (.ok s')) :
    Covers t (Reach t n) s s' ∧ n ∈ s'.record := by
  induction fuel generalizing n s s' with
  | zero => simp [descend] at h
  | succ fuel ih =>
    have hself : n ∈ trail n s.record := by simp [trail]
    have hmem {m : N} : m ∈ trail n s.record ↔ m ∈ s.record ∨ m = n := by simp [trail]
    rcases descend_eq_ok.mp h with ⟨hkey,rfl⟩ | ⟨k,hkey,hk,rfl⟩ | ⟨k,children,hkey,hk,hc,hall⟩
    · refine ⟨⟨fun m hm => hmem.mpr (Or.inl hm),fun _ hk => hk,fun m hm => ?_,fun _ hk => Or.inl hk⟩,hself⟩
      refine (hmem.mp hm).imp_right fun he => ?_
      subst he
      exact ⟨.refl _,Or.inl hkey⟩
    · refine ⟨⟨fun m hm => hmem.mpr (Or.inl hm),fun _ hk => hk,fun m hm => ?_,fun _ hk => Or.inl hk⟩,hself⟩
      refine (hmem.mp hm).imp_right fun he => ?_
      subst he
      exact ⟨.refl _,Or.inr ⟨k,hk,hkey⟩⟩
    · have hbelow (c : N) (hm : c ∈ children) (s s' : State K (List N))
          (hd : descend t trail fuel c s = some (.ok s')) : Covers t (Reach t n) s s' :=
        (ih hd).1.mono fun m hr => (Reach.child (.refl n) hkey hc hm).trans hr
      have hcovers : Covers t (Reach t n) ⟨s.seen.insert k,trail n s.record⟩ s' :=
        visitAll_rel Covers.refl Covers.trans hbelow hall
      have hheld := hcovers.seen k (mem_insert_iff.mpr (Or.inl rfl))
      refine ⟨⟨fun m hm => hcovers.kept m (hmem.mpr (Or.inl hm)),
        fun k hk => hcovers.seen k (mem_insert_iff.mpr (Or.inr hk)),fun m hm => ?_,fun a ha => ?_⟩,
        hcovers.kept n hself⟩
      · rcases hcovers.met m hm with hm | hm
        · refine (hmem.mp hm).imp_right fun he => ?_
          subst he
          exact ⟨.refl _,Or.inr ⟨k,hheld,hkey⟩⟩
        · exact Or.inr hm
      · rcases hcovers.listed a ha with ha | ha
        · rcases mem_insert_iff.mp ha with rfl | ha
          · refine Or.inr ⟨n,children,.refl n,hkey,hc,fun c hm => ?_⟩
            obtain ⟨s₁,s₂,hd,hlater⟩ := exists_visit_of_visitAll Covers.refl Covers.trans hbelow hall hm
            exact hlater.kept c (ih hd).2
          · exact Or.inl ha
        · exact Or.inr ha

/-- From nothing, and with keys that tell the nodes apart, the trail holds the nodes that can be reached and
none of them fails. -/
theorem mem_trail_iff (h : descend t trail fuel n ⟨∅,[]⟩ = some (.ok s'))
    (hkeys : ∀ m m' k, Reach t n m → Reach t n m' → t.key m = .ok (some k) → t.key m' = .ok (some k) → m = m') :
    (∀ m, m ∈ s'.record ↔ Reach t n m) ∧ ∀ m e, Reach t n m → ¬ Fails t m e := by
  obtain ⟨hcovers,hself⟩ := covers_of_descend h
  have hmet {m : N} (hm : m ∈ s'.record) :
      Reach t n m ∧ (t.key m = .ok none ∨ ∃ k ∈ s'.seen, t.key m = .ok (some k)) :=
    (hcovers.met m hm).resolve_left List.not_mem_nil
  have hlisted {k : K} (hk : k ∈ s'.seen) := (hcovers.listed k hk).resolve_left ExtTreeSet.not_mem_empty
  have hchildren {m : N} {k : K} (hm : m ∈ s'.record) (hkey : t.key m = .ok (some k)) :
      ∃ children, t.children m = .ok children ∧ ∀ c ∈ children, c ∈ s'.record := by
    obtain ⟨hr,hnone | ⟨k',hk',hkey'⟩⟩ := hmet hm
    · rw [hnone] at hkey
      cases hkey
    · obtain ⟨m',children,hr',hkey'',hc,hall⟩ := hlisted hk'
      obtain rfl := hkeys m m' k' hr hr' hkey' hkey''
      exact ⟨children,hc,hall⟩
  have hreach {m : N} (hr : Reach t n m) : m ∈ s'.record := by
    induction hr with
    | refl => exact hself
    | child _ hkey hc hmem ih =>
      obtain ⟨children,hc',hall⟩ := hchildren ih hkey
      obtain rfl := Except.ok.inj (hc.symm.trans hc')
      exact hall _ hmem
  refine ⟨fun m => ⟨fun hm => (hmet hm).1,hreach⟩,fun m e hr hfails => ?_⟩
  rcases hfails with hkey | ⟨⟨k,hkey⟩,hc⟩
  · rcases (hmet (hreach hr)).2 with hnone | ⟨k,-,hkey'⟩
    · rw [hkey] at hnone
      cases hnone
    · rw [hkey] at hkey'
      cases hkey'
  · obtain ⟨children,hc',-⟩ := hchildren (hreach hr) hkey
    rw [hc] at hc'
    cases hc'

end Trail

end Repx.Descent
