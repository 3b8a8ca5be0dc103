import Repx.Attribution.ProcessTable

/-! # Numbering of process lifetimes

Pids are reused and processes are started by whatever record names them first. The
table of processes numbers the lifetimes of a pid one after the other, and executable images
within a lifetime. While the counters do not saturate, no lifetime is issued twice, no
instance is executed twice, and whatever the collector holds belongs to a process it has
already seen.
-/
namespace Repx.Trace
open ByteString Utf8 Std HashTables Probe Canonical

section Order
variable {p q r : ProcessInstance}

/-- An earlier lifetime of the same pid, or an earlier image of the same lifetime. -/
def Behind (q p : ProcessInstance) : Prop :=
  q.lifetime.pid = p.lifetime.pid ∧ (q.lifetime.generation < p.lifetime.generation ∨
    q.lifetime.generation = p.lifetime.generation ∧ q.execEpoch ≤ p.execEpoch)

theorem Behind.refl (p : ProcessInstance) : Behind p p := ⟨rfl,Or.inr ⟨rfl,le_refl _⟩⟩

theorem Behind.trans (h : Behind r q) (h' : Behind q p) : Behind r p := by
  refine ⟨h.1.trans h'.1,?_⟩
  rcases h.2 with hlt | ⟨heq,hle⟩
  · rcases h'.2 with hlt' | ⟨heq',_⟩
    · exact Or.inl (lt_trans hlt hlt')
    · exact Or.inl (heq' ▸ hlt)
  · rcases h'.2 with hlt' | ⟨heq',hle'⟩
    · exact Or.inl (heq ▸ hlt')
    · exact Or.inr ⟨heq.trans heq',le_trans hle hle'⟩

end Order

theorem saturatingSucc_toNat {n : UInt32} (h : n.toNat < 4294967295) : (saturatingSucc n).toNat = n.toNat + 1 := by
  have hne : n ≠ 4294967295 := by
    rintro rfl
    exact absurd h (by decide)
  rw [saturatingSucc,if_neg hne,UInt32.toNat_add]
  have hone : (1 : UInt32).toNat = 1 := rfl
  omega

section Table
variable {H : Type} {s s' : EventCollectorState H} {b : ℕ} {pid : UInt32} {p q : ProcessInstance}

/-- The collector has got as far as this instance of the pid. -/
def Seen (s : EventCollectorState H) (q : ProcessInstance) : Prop :=
  ∃ p, s.currentProcesses[q.lifetime.pid]? = some p ∧ Behind q p

/-- The table is numbered without gaps, and all counters are at most `b`. -/
structure Numbered (b : ℕ) (s : EventCollectorState H) : Prop where
  own : ∀ (pid : UInt32) (p : ProcessInstance), s.currentProcesses[pid]? = some p → p.lifetime.pid = pid
  next : ∀ pid : UInt32, s.nextGenerations[pid]?.map UInt32.toNat =
    s.currentProcesses[pid]?.map fun p => p.lifetime.generation.toNat + 1
  generation : ∀ (pid : UInt32) (p : ProcessInstance), s.currentProcesses[pid]? = some p →
    p.lifetime.generation.toNat + 1 ≤ b
  epoch : ∀ (pid : UInt32) (p : ProcessInstance), s.currentProcesses[pid]? = some p → p.execEpoch.toNat ≤ b

theorem SameTable.numbered (h : SameTable s s') (hs : Numbered b s) : Numbered b s' where
  own pid p hp := hs.own pid p (h.currentProcesses ▸ hp)
  next pid := by rw [h.nextGenerations,h.currentProcesses,hs.next]
  generation pid p hp := hs.generation pid p (h.currentProcesses ▸ hp)
  epoch pid p hp := hs.epoch pid p (h.currentProcesses ▸ hp)

theorem SameTable.seen (h : SameTable s s') : Seen s' q ↔ Seen s q := by
  unfold Seen
  rw [h.currentProcesses]

theorem Numbered.mono {b' : ℕ} (h : Numbered b s) (hb : b ≤ b') : Numbered b' s where
  own := h.own
  next := h.next
  generation pid p hp := (h.generation pid p hp).trans hb
  epoch pid p hp := (h.epoch pid p hp).trans hb

theorem Numbered.seen_current (h : Numbered b s) (hp : s.currentProcesses[pid]? = some p) : Seen s p :=
  ⟨p,by rw [h.own pid p hp,hp],.refl p⟩

/-- The generation a new lifetime of a pid gets, and the counter behind it. -/
theorem Numbered.getD_next (h : Numbered b s) (pid : UInt32) :
    (s.nextGenerations.getD pid 0).toNat =
      (s.currentProcesses[pid]?.map fun p => p.lifetime.generation.toNat + 1).getD 0 := by
  rw [← h.next pid,ExtTreeMap.getD_eq_getD_getElem?]
  cases s.nextGenerations[pid]? <;> rfl

theorem Numbered.getD_next_le (h : Numbered b s) (pid : UInt32) : (s.nextGenerations.getD pid 0).toNat ≤ b := by
  rw [h.getD_next pid]
  cases hp : s.currentProcesses[pid]? with
  | none => exact Nat.zero_le b
  | some p => exact h.generation pid p hp

theorem startProcess_current (s : EventCollectorState H) (pid key : UInt32) :
    (s.startProcess pid).2.currentProcesses[key]? =
      if pid = key then some (s.startProcess pid).1 else s.currentProcesses[key]? := by
  simp only [EventCollectorState.startProcess,ExtTreeMap.getElem?_insert,Std.compare_eq_iff_eq]

/-- A process that starts is filed under its own pid. -/
theorem startProcess_own (hown : ∀ (key : UInt32) (p : ProcessInstance),
    s.currentProcesses[key]? = some p → p.lifetime.pid = key) {key : UInt32} {p : ProcessInstance}
    (hp : (s.startProcess pid).2.currentProcesses[key]? = some p) : p.lifetime.pid = key := by
  rw [startProcess_current] at hp
  split at hp
  · next hkey =>
    obtain rfl := Option.some.inj hp
    exact hkey
  · exact hown key p hp

/-- A new lifetime of a pid is ahead of everything seen of it. -/
theorem Numbered.start_fresh (h : Numbered b s) (hq : Seen s q) :
    q.lifetime ≠ (s.startProcess pid).1.lifetime := by
  intro heq
  obtain ⟨p,hp,-,hbehind⟩ := hq
  have hpid : q.lifetime.pid = pid := by rw [heq]; rfl
  have hgen : q.lifetime.generation.toNat = p.lifetime.generation.toNat + 1 := by
    rw [heq]
    change (s.nextGenerations.getD pid 0).toNat = _
    rw [h.getD_next pid,← hpid,hp]
    rfl
  rcases hbehind with hlt | ⟨hgen',-⟩
  · have := UInt32.lt_iff_toNat_lt.mp hlt
    omega
  · rw [hgen'] at hgen
    omega

variable (pid) in
theorem Numbered.startProcess {b' : ℕ} (h : Numbered b s) (hb : b ≤ b')
    (hnext : (s.nextGenerations.getD pid 0).toNat + 1 ≤ b')
    (hsmall : (s.nextGenerations.getD pid 0).toNat < 4294967295) : Numbered b' (s.startProcess pid).2 := by
  have hgen : (s.startProcess pid).1.lifetime.generation.toNat + 1 ≤ b' := hnext
  refine ⟨?_,?_,?_,?_⟩
  · intro key p hp
    exact startProcess_own h.own hp
  · intro key
    rw [startProcess_current]
    simp only [EventCollectorState.startProcess,ExtTreeMap.getElem?_insert,Std.compare_eq_iff_eq]
    split
    · simp only [Option.map_some,saturatingSucc_toNat hsmall]
    · exact h.next key
  · intro key p hp
    rw [startProcess_current] at hp
    split at hp
    · obtain rfl := Option.some.inj hp
      exact hgen
    · exact (h.generation key p hp).trans hb
  · intro key p hp
    rw [startProcess_current] at hp
    split at hp
    · obtain rfl := Option.some.inj hp
      exact Nat.zero_le _
    · exact (h.epoch key p hp).trans hb

theorem Numbered.seen_start (h : Numbered b s) (hq : Seen s q) : Seen (s.startProcess pid).2 q := by
  obtain ⟨p,hp,hbehind⟩ := hq
  by_cases hpid : pid = q.lifetime.pid
  · refine ⟨(s.startProcess pid).1,by rw [startProcess_current,if_pos hpid],hpid.symm,Or.inl ?_⟩
    have hgen : (s.startProcess pid).1.lifetime.generation.toNat = p.lifetime.generation.toNat + 1 := by
      change (s.nextGenerations.getD pid 0).toNat = _
      rw [h.getD_next pid,hpid,hp]
      rfl
    rw [UInt32.lt_iff_toNat_lt]
    rcases hbehind.2 with hlt | ⟨heq,-⟩
    · have := UInt32.lt_iff_toNat_lt.mp hlt
      omega
    · rw [heq]
      omega
  · exact ⟨p,by rw [startProcess_current,if_neg hpid,hp],hbehind⟩

theorem seen_started (s : EventCollectorState H) (pid : UInt32) :
    Seen (s.startProcess pid).2 (s.startProcess pid).1 :=
  ⟨(s.startProcess pid).1,by rw [startProcess_current]; exact if_pos rfl,.refl _⟩

variable (pid) in
/-- Looking up the process of a pid starts it at most once and moves no bound. -/
theorem Numbered.currentProcess (h : Numbered b s) (hpos : 1 ≤ b) :
    Numbered b (s.currentProcess pid).2 ∧
      (s.currentProcess pid).2.currentProcesses[pid]? = some (s.currentProcess pid).1 ∧
      ∀ q, Seen s q → Seen (s.currentProcess pid).2 q := by
  unfold EventCollectorState.currentProcess
  cases hp : s.currentProcesses[pid]? with
  | some p => exact ⟨h,hp,fun _ hq => hq⟩
  | none =>
    have hzero : (s.nextGenerations.getD pid 0).toNat = 0 := by
      rw [h.getD_next pid,hp]
      rfl
    exact ⟨h.startProcess pid (Nat.le_refl b) (by omega) (by omega),by rw [startProcess_current,if_pos rfl],
      fun _ hq => h.seen_start hq⟩

theorem mem_startedBy {l : ProcessLifetime} (hl : l ∈ startedBy s pid) :
    s.currentProcesses[pid]? = none ∧ l = (s.startProcess pid).1.lifetime := by
  unfold startedBy at hl
  split at hl
  · simp at hl
  · next hnone => exact ⟨hnone,List.mem_singleton.mp hl⟩

theorem currentProcess_of_none (hnone : s.currentProcesses[pid]? = none) :
    s.currentProcess pid = s.startProcess pid := by
  simp only [EventCollectorState.currentProcess,hnone]

theorem nodup_startedBy (s : EventCollectorState H) (pid : UInt32) : (startedBy s pid).Nodup := by
  unfold startedBy
  split
  · exact List.nodup_nil
  · exact List.nodup_singleton _

/-- An exec replaces the current image and changes nothing else of the process. -/
structure Replaced (pid : UInt32) (p : ProcessInstance) (s s' : EventCollectorState H) : Prop where
  rootProcess : s'.rootProcess = s.rootProcess
  currentProcesses : ∀ key : UInt32,
    s'.currentProcesses[key]? = if pid = key then some p else s.currentProcesses[key]?
  nextGenerations : s'.nextGenerations = s.nextGenerations
  processCwds : s'.processCwds = s.processCwds
  fdTable : s'.fdTable = s.fdTable
  pendingRenames : s'.pendingRenames = s.pendingRenames

theorem execProcess_eq_some (hexec : s.execProcess pid = (some p,s')) :
    p = { (s.currentProcess pid).1 with execEpoch := saturatingSucc (s.currentProcess pid).1.execEpoch } ∧
      Replaced pid p (s.currentProcess pid).2 s' := by
  unfold EventCollectorState.execProcess at hexec
  split at hexec
  · cases hexec
  · simp only [Prod.mk.injEq,Option.some.injEq] at hexec
    obtain ⟨rfl,rfl⟩ := hexec
    refine ⟨rfl,rfl,fun key => ?_,rfl,rfl,rfl,rfl⟩
    rw [ExtTreeMap.getElem?_insert]
    simp only [Std.compare_eq_iff_eq]

theorem Numbered.replaced (h : Numbered b s) (hcurrent : s.currentProcesses[pid]? = some q)
    (hlifetime : p.lifetime = q.lifetime) (hepoch : p.execEpoch.toNat ≤ b + 1) (hr : Replaced pid p s s') :
    Numbered (b + 1) s' := by
  refine ⟨?_,?_,?_,?_⟩
  · intro key r hp
    rw [hr.currentProcesses] at hp
    split at hp
    · next hkey =>
      obtain rfl := Option.some.inj hp
      rw [hlifetime,h.own pid q hcurrent,hkey]
    · exact h.own key r hp
  · intro key
    rw [hr.currentProcesses,hr.nextGenerations]
    split
    · next hkey =>
      subst hkey
      rw [h.next pid,hcurrent,Option.map_some,Option.map_some,hlifetime]
    · exact h.next key
  · intro key r hp
    rw [hr.currentProcesses] at hp
    split at hp
    · obtain rfl := Option.some.inj hp
      rw [hlifetime]
      exact (h.generation pid q hcurrent).trans (Nat.le_succ b)
    · exact (h.generation key r hp).trans (Nat.le_succ b)
  · intro key r hp
    rw [hr.currentProcesses] at hp
    split at hp
    · obtain rfl := Option.some.inj hp
      exact hepoch
    · exact (h.epoch key r hp).trans (Nat.le_succ b)

theorem Replaced.seen (hr : Replaced pid p s s') (hcurrent : s.currentProcesses[pid]? = some q) (hqp : Behind q p)
    {r : ProcessInstance} (h : Seen s r) : Seen s' r := by
  obtain ⟨t,ht,hbehind⟩ := h
  by_cases hpid : pid = r.lifetime.pid
  · rw [← hpid,hcurrent] at ht
    obtain rfl := Option.some.inj ht
    exact ⟨p,by rw [hr.currentProcesses,if_pos hpid],hbehind.trans hqp⟩
  · exact ⟨t,by rw [hr.currentProcesses,if_neg hpid,ht],hbehind⟩

/-- An exec moves on to an image that has not been seen. -/
theorem Numbered.execProcess (h : Numbered b s) (hpos : 1 ≤ b) (hb : b < 4294967295)
    (hexec : s.execProcess pid = (some p,s')) :
    Numbered (b + 1) s' ∧ ¬ Seen (s.currentProcess pid).2 p ∧ Seen s' p ∧
      ∀ q, Seen (s.currentProcess pid).2 q → Seen s' q := by
  obtain ⟨hnumbered,hcurrent,-⟩ := h.currentProcess pid hpos
  obtain ⟨hp,hr⟩ := execProcess_eq_some hexec
  have hown := hnumbered.own pid _ hcurrent
  have hlifetime : p.lifetime = (s.currentProcess pid).1.lifetime := by rw [hp]
  have hepoch : p.execEpoch.toNat = (s.currentProcess pid).1.execEpoch.toNat + 1 := by
    rw [hp]
    exact saturatingSucc_toNat (Nat.lt_of_le_of_lt (hnumbered.epoch pid _ hcurrent) hb)
  have hbehind : Behind (s.currentProcess pid).1 p := by
    refine ⟨by rw [hlifetime],Or.inr ⟨by rw [hlifetime],?_⟩⟩
    rw [UInt32.le_iff_toNat_le,hepoch]
    exact Nat.le_succ _
  have hbound := hnumbered.epoch pid _ hcurrent
  refine ⟨hnumbered.replaced hcurrent hlifetime (by omega) hr,?_,?_,
    fun q hq => hr.seen hcurrent hbehind hq⟩
  · rintro ⟨r,hr',-,hbehind'⟩
    rw [hlifetime,hown,hcurrent] at hr'
    obtain rfl := Option.some.inj hr'
    rcases hbehind' with hlt | ⟨-,hle⟩
    · rw [hlifetime,UInt32.lt_iff_toNat_lt] at hlt
      omega
    · rw [UInt32.le_iff_toNat_le] at hle
      omega
  · exact ⟨p,by rw [hr.currentProcesses,if_pos (by rw [hlifetime,hown])],.refl p⟩

/-- What the collector holds belongs to processes it has seen. -/
structure Holdings (s : EventCollectorState H) : Prop where
  files : ∀ d, d ∈ s.fdTable → Seen s ⟨d.lifetime,0⟩
  cwds : ∀ l, l ∈ s.processCwds → Seen s ⟨l,0⟩
  renames : ∀ (key : RenameKey) (pending : PendingRename), s.pendingRenames[key]? = some pending →
    Seen s pending.process

theorem Seen.lifetime (h : Seen s p) : Seen s ⟨p.lifetime,0⟩ := by
  obtain ⟨q,hq,hpid,hbehind⟩ := h
  refine ⟨q,hq,hpid,hbehind.imp_right fun hb => ⟨hb.1,?_⟩⟩
  rw [UInt32.le_iff_toNat_le]
  exact Nat.zero_le _

/-- Holdings survive a change of the table in which everything stays seen. -/
theorem Holdings.confined {s₁ : EventCollectorState H} (h : Holdings s) (hfiles : ∀ d, d ∈ s₁.fdTable → d ∈ s.fdTable)
    (hcwds : ∀ l, l ∈ s₁.processCwds → l ∈ s.processCwds)
    (hrenames : s₁.pendingRenames = s.pendingRenames) (hseen : ∀ q, Seen s q → Seen s₁ q)
    (hp : Seen s₁ p) (hconfined : Confined p s₁ s') : Holdings s' where
  files d hd := by
    rw [hconfined.toSameTable.seen]
    rcases hconfined.files d hd with hd | hd
    · exact hseen _ (h.files d (hfiles d hd))
    · rw [hd]
      exact hp.lifetime
  cwds l hl := by
    rw [hconfined.toSameTable.seen]
    rcases hconfined.cwds l hl with hl | rfl
    · exact hseen _ (h.cwds l (hcwds l hl))
    · exact hp.lifetime
  renames key pending hpending := by
    rw [hconfined.toSameTable.seen]
    rcases hconfined.renames key pending hpending with hw | rfl
    · exact hseen _ (h.renames key pending (hrenames ▸ hw))
    · exact hp

end Table

section Fork
variable {H : Type} {w : World H} {s s' : EventCollectorState H} {b : ℕ} {parentPid childPid pid : UInt32}

/-- The open files a child takes over, as they are listed. -/
def inheritedFds (w : World H) (parent child : ProcessLifetime) (files : FdTable H) :
    List (Descriptor × OpenFileState H) :=
  (files.toList.filter fun e => e.1.lifetime = parent).map fun e => (⟨child,e.1.fd⟩,e.2.inherit w)

theorem mem_inheritedFds {parent child : ProcessLifetime} {files : FdTable H} {d : Descriptor}
    {file : OpenFileState H} :
    (d,file) ∈ inheritedFds w parent child files ↔
      d.lifetime = child ∧ ∃ own, files[(⟨parent,d.fd⟩ : Descriptor)]? = some own ∧ own.inherit w = file := by
  simp only [inheritedFds,List.mem_map,List.mem_filter,decide_eq_true_eq,Prod.mk.injEq,Prod.exists,
    ExtTreeMap.mem_toList_iff_getElem?_eq_some]
  constructor
  · rintro ⟨⟨l,fd⟩,own,⟨hown,rfl⟩,rfl,rfl⟩
    exact ⟨rfl,own,hown,rfl⟩
  · rintro ⟨rfl,own,hown,rfl⟩
    exact ⟨⟨parent,d.fd⟩,own,⟨hown,rfl⟩,rfl,rfl⟩

theorem nodup_inheritedFds (parent child : ProcessLifetime) (files : FdTable H) :
    ((inheritedFds w parent child files).map Prod.fst).Nodup := by
  have hkeys := nodup_keys_toList files
  rw [List.Nodup,List.pairwise_map] at hkeys
  rw [List.Nodup,List.pairwise_map,inheritedFds,List.pairwise_map]
  refine (hkeys.filter _).imp_of_mem fun {x y} hx hy hne heq => hne ?_
  simp only [List.mem_filter,decide_eq_true_eq] at hx hy
  obtain ⟨⟨l,fd⟩,file⟩ := x
  obtain ⟨⟨l',fd'⟩,file'⟩ := y
  simp_all

/-- Everything a fork writes, relative to the table with the new process in it. -/
theorem getElem?_fork_files (parent child : ProcessLifetime) (files : FdTable H) (d : Descriptor) :
    (files.insertMany (inheritedFds w parent child files))[d]? =
      if d.lifetime = child then
        (files[(⟨parent,d.fd⟩ : Descriptor)]?.map fun own => own.inherit w).or files[d]?
      else files[d]? := by
  have hnone : (¬ ∃ file, (d,file) ∈ inheritedFds w parent child files) →
      (files.insertMany (inheritedFds w parent child files))[d]? = files[d]? := by
    intro h
    apply getElem?_insertMany_of_not_mem
    intro hk
    obtain ⟨⟨d,file⟩,hfile,rfl⟩ := List.mem_map.mp hk
    exact h ⟨file,hfile⟩
  by_cases hc : d.lifetime = child
  · rw [if_pos hc]
    cases hown : files[(⟨parent,d.fd⟩ : Descriptor)]? with
    | some own =>
      exact getElem?_insertMany_of_mem (nodup_inheritedFds parent child files)
        (mem_inheritedFds.mpr ⟨hc,own,hown,rfl⟩)
    | none =>
      rw [Option.map_none,Option.none_or]
      apply hnone
      rintro ⟨file,hm⟩
      obtain ⟨-,own,hown',-⟩ := mem_inheritedFds.mp hm
      rw [hown] at hown'
      cases hown'
  · rw [if_neg hc]
    apply hnone
    rintro ⟨file,hm⟩
    exact hc (mem_inheritedFds.mp hm).1

variable (w s parentPid childPid) in
theorem forkProcess_processes :
    (s.forkProcess w parentPid childPid).1 =
      ((s.currentProcess parentPid).1,((s.currentProcess parentPid).2.startProcess childPid).1) := rfl

theorem currentProcess_rest (s : EventCollectorState H) (pid : UInt32) :
    (s.currentProcess pid).2.processCwds = s.processCwds ∧ (s.currentProcess pid).2.fdTable = s.fdTable ∧
      (s.currentProcess pid).2.pendingRenames = s.pendingRenames ∧
      (s.currentProcess pid).2.rootProcess = s.rootProcess := by
  unfold EventCollectorState.currentProcess
  split
  · exact ⟨rfl,rfl,rfl,rfl⟩
  · exact ⟨rfl,rfl,rfl,rfl⟩

variable (w s parentPid childPid) in
theorem forkProcess_fdTable (d : Descriptor) :
    (s.forkProcess w parentPid childPid).2.fdTable[d]? =
      if d.lifetime = (s.forkProcess w parentPid childPid).1.2.lifetime then
        (s.fdTable[(⟨(s.forkProcess w parentPid childPid).1.1.lifetime,d.fd⟩ : Descriptor)]?.map
          fun own => own.inherit w).or s.fdTable[d]?
      else s.fdTable[d]? := by
  have hfiles := (currentProcess_rest s parentPid).2.1
  have hfork := getElem?_fork_files (w := w) (s.currentProcess parentPid).1.lifetime
    ((s.currentProcess parentPid).2.startProcess childPid).1.lifetime (s.currentProcess parentPid).2.fdTable d
  rw [hfiles] at hfork
  rw [forkProcess_processes,← hfork,← hfiles]
  rfl

variable (w s parentPid childPid) in
theorem forkProcess_processCwds (l : ProcessLifetime) :
    (s.forkProcess w parentPid childPid).2.processCwds[l]? =
      if l = (s.forkProcess w parentPid childPid).1.2.lifetime then
        s.processCwds[(s.forkProcess w parentPid childPid).1.1.lifetime]?.or s.processCwds[l]?
      else s.processCwds[l]? := by
  have hcwds := (currentProcess_rest s parentPid).1
  have hstarted : ((s.currentProcess parentPid).2.startProcess childPid).2.processCwds = s.processCwds := hcwds
  rw [forkProcess_processes]
  cases hcwd : s.processCwds[(s.currentProcess parentPid).1.lifetime]? with
  | none =>
    have hfork : (s.forkProcess w parentPid childPid).2.processCwds = s.processCwds := by
      simp only [EventCollectorState.forkProcess,hstarted,hcwd]
    simp [hfork]
  | some cwd =>
    have hfork : (s.forkProcess w parentPid childPid).2.processCwds =
        s.processCwds.insert ((s.currentProcess parentPid).2.startProcess childPid).1.lifetime cwd := by
      simp only [EventCollectorState.forkProcess,hstarted,hcwd]
    simp only [hfork,ExtTreeMap.getElem?_insert,Std.compare_eq_iff_eq,Option.some_or]
    simp only [eq_comm]

variable (w s parentPid childPid) in
/-- Apart from the new process, a fork leaves the table alone, and only the child gains
anything. -/
theorem confined_forkProcess :
    Confined (s.forkProcess w parentPid childPid).1.2 ((s.currentProcess parentPid).2.startProcess childPid).2
      (s.forkProcess w parentPid childPid).2 where
  rootProcess := rfl
  rootInitialExecPending := rfl
  currentProcesses := rfl
  nextGenerations := rfl
  cwds l hl := by
    rw [ExtTreeMap.mem_iff_isSome_getElem?,forkProcess_processCwds] at hl
    by_cases hc : l = (s.forkProcess w parentPid childPid).1.2.lifetime
    · exact Or.inr hc
    · rw [if_neg hc,← ExtTreeMap.mem_iff_isSome_getElem?,← (currentProcess_rest s parentPid).1] at hl
      exact Or.inl hl
  files d hd := by
    rw [ExtTreeMap.mem_iff_isSome_getElem?,forkProcess_fdTable] at hd
    by_cases hc : d.lifetime = (s.forkProcess w parentPid childPid).1.2.lifetime
    · exact Or.inr hc
    · rw [if_neg hc,← ExtTreeMap.mem_iff_isSome_getElem?,← (currentProcess_rest s parentPid).2.1] at hd
      exact Or.inl hd
  renames key pending hp := Or.inl hp

end Fork

section Step
variable {H : Type} {w : World H} {s s' : EventCollectorState H} {emitted : List TracedEvent}
  {started : List ProcessLifetime} {exec : Option ProcessInstance} {b : ℕ} {pid : UInt32}

/-- What every record keeps and what is new about the processes it brings in. -/
structure Advanced (s s' : EventCollectorState H) (emitted : List TracedEvent) (started : List ProcessLifetime)
    (exec : Option ProcessInstance) : Prop where
  seen : ∀ q, Seen s q → Seen s' q
  nodup : started.Nodup
  startedFresh : ∀ l ∈ started, (∀ q, Seen s q → q.lifetime ≠ l) ∧ Seen s' ⟨l,0⟩
  execFresh : ∀ p, exec = some p → ¬ Seen s p ∧ Seen s' p
  emittedExec : ∀ p observation, TracedEvent.exec p observation ∈ emitted → exec = some p
  emittedFork : ∀ parent child, TracedEvent.fork parent child ∈ emitted →
    (∀ q, Seen s q → q.lifetime ≠ child.lifetime) ∧ parent.lifetime ≠ child.lifetime ∧ child.execEpoch = 0 ∧
      Seen s' child
  actors : ∀ e ∈ emitted, Seen s' (actor e)

theorem Numbered.startedBy_fresh (hn : Numbered b s) {l : ProcessLifetime} (hl : l ∈ startedBy s pid) :
    (∀ q, Seen s q → q.lifetime ≠ l) ∧ Seen (s.currentProcess pid).2 ⟨l,0⟩ := by
  obtain ⟨hnone,rfl⟩ := mem_startedBy hl
  refine ⟨fun q hq => hn.start_fresh hq,?_⟩
  rw [currentProcess_of_none hnone]
  exact (seen_started s pid).lifetime

theorem not_exec_of_plain {p : ProcessInstance} (h : ∀ e ∈ emitted, actor e = p ∧ e.introduces = false)
    {q : ProcessInstance} {observation : FileObservation} : .exec q observation ∉ emitted :=
  fun he => by simpa [TracedEvent.introduces] using (h _ he).2

theorem not_fork_of_plain {p : ProcessInstance} (h : ∀ e ∈ emitted, actor e = p ∧ e.introduces = false)
    {q r : ProcessInstance} : .fork q r ∉ emitted :=
  fun he => by simpa [TracedEvent.introduces] using (h _ he).2

theorem Holdings.idle (h : Holdings s) (state : ∀ process, Confined process s s') : Holdings s' := by
  have hother : ∀ l : ProcessLifetime, ∃ p : ProcessInstance, l ≠ p.lifetime := by
    intro l
    refine ⟨⟨⟨l.pid,l.generation + 1⟩,0⟩,fun heq => ?_⟩
    have hgen := congrArg ProcessLifetime.generation heq
    simp at hgen
  refine ⟨fun d hd => ?_,fun l hl => ?_,fun key pending hp => ?_⟩
  · obtain ⟨p,hne⟩ := hother d.lifetime
    exact (state p).toSameTable.seen.mpr (h.files d (((state p).files d hd).resolve_right hne))
  · obtain ⟨p,hne⟩ := hother l
    exact (state p).toSameTable.seen.mpr (h.cwds l (((state p).cwds l hl).resolve_right hne))
  · obtain ⟨p,hne⟩ := hother pending.process.lifetime
    exact (state p).toSameTable.seen.mpr
      (h.renames key pending (((state p).renames key pending hp).resolve_right fun heq => hne (by rw [heq])))

/-- Nothing but the numbering of the root is changed by its first exec. -/
theorem execProcess_eq_none (hexec : s.execProcess pid = (none,s')) :
    s' = { s with rootInitialExecPending := false } := by
  unfold EventCollectorState.execProcess at hexec
  split at hexec
  · exact (Prod.mk.inj hexec).2.symm
  · cases hexec

/-- A record without events brings in nothing. -/
theorem advanced_nothing (hseen : ∀ q, Seen s q → Seen s' q) : Advanced s s' [] [] none := by
  refine ⟨hseen,List.nodup_nil,?_,?_,?_,?_,?_⟩ <;> simp

/-- Events that introduce no instance only need an actor that is known. -/
theorem advanced_plain {process : ProcessInstance}
    (hplain : ∀ e ∈ emitted, actor e = process ∧ e.introduces = false) (hactor : Seen s' process)
    (hseen : ∀ q, Seen s q → Seen s' q) (hnodup : started.Nodup)
    (hstarted : ∀ l ∈ started, (∀ q, Seen s q → q.lifetime ≠ l) ∧ Seen s' ⟨l,0⟩) :
    Advanced s s' emitted started none := by
  refine ⟨hseen,hnodup,hstarted,by simp,fun p observation he => absurd he (not_exec_of_plain hplain),
    fun parent child he => absurd he (not_fork_of_plain hplain),fun e he => ?_⟩
  rw [(hplain e he).1]
  exact hactor

theorem advanced_exec (hn : Numbered b s) (hh : Holdings s) (hpos : 1 ≤ b) (hb : b < 4294967295)
    {process : ProcessInstance} {s₁ : EventCollectorState H} (next : s.execProcess pid = (some process,s₁))
    (state : Confined process s₁ s') (observation : FileObservation) :
    Numbered (b + 1) s' ∧ Holdings s' ∧
      Advanced s s' [.exec process observation] (startedBy s pid) (some process) := by
  obtain ⟨-,-,hseen⟩ := hn.currentProcess pid hpos
  obtain ⟨hnumbered,hfresh,hprocess,hseen'⟩ := hn.execProcess hpos hb next
  obtain ⟨hcwds,hfiles,hrenames,-⟩ := currentProcess_rest s pid
  obtain ⟨-,hreplaced⟩ := execProcess_eq_some next
  refine ⟨state.toSameTable.numbered hnumbered,
    hh.confined (fun d hd => by rwa [hreplaced.fdTable,hfiles] at hd)
      (fun l hl => by rwa [hreplaced.processCwds,hcwds] at hl) (hreplaced.pendingRenames.trans hrenames)
      (fun q hq => hseen' q (hseen q hq)) hprocess state,?_⟩
  refine ⟨fun q hq => state.toSameTable.seen.mpr (hseen' q (hseen q hq)),nodup_startedBy s pid,fun l hl => ?_,
    fun p hp => ?_,?_,?_,?_⟩
  · obtain ⟨hfresh,hl⟩ := hn.startedBy_fresh hl
    exact ⟨hfresh,state.toSameTable.seen.mpr (hseen' _ hl)⟩
  · obtain rfl := Option.some.inj hp
    exact ⟨fun hq => hfresh (hseen _ hq),state.toSameTable.seen.mpr hprocess⟩
  · simp
  · simp
  · simp [actor,state.toSameTable.seen.mpr hprocess]

theorem advanced_fork (hn : Numbered b s) (hh : Holdings s) (hpos : 1 ≤ b) (hb : b < 4294967295)
    {parentPid childPid : UInt32} {fork : (ProcessInstance × ProcessInstance) × EventCollectorState H}
    (hfork : s.forkProcess w parentPid childPid = fork) (state : Confined fork.1.2 fork.2 s') :
    Numbered (b + 1) s' ∧ Holdings s' ∧
      Advanced s s' [.fork fork.1.1 fork.1.2] (startedBy s parentPid ++ [fork.1.2.lifetime]) none := by
  subst hfork
  obtain ⟨hnumbered,hcurrent,hseen⟩ := hn.currentProcess parentPid hpos
  obtain ⟨hcwds,hfiles,hrenames,-⟩ := currentProcess_rest s parentPid
  have hrenames' : ((s.currentProcess parentPid).2.startProcess childPid).2.pendingRenames =
      s.pendingRenames := hrenames
  have hparent := hnumbered.seen_current hcurrent
  have hchild := seen_started (s.currentProcess parentPid).2 childPid
  have hle := hnumbered.getD_next_le childPid
  have hstart := hnumbered.startProcess childPid (Nat.le_succ b) (by omega) (by omega)
  have hmono : ∀ q, Seen (s.currentProcess parentPid).2 q → Seen s' q := fun q hq =>
    state.toSameTable.seen.mpr ((confined_forkProcess w s parentPid childPid).toSameTable.seen.mpr
      (hnumbered.seen_start hq))
  have hconfined := (confined_forkProcess w s parentPid childPid).trans state
  have hchild' : Seen s' (s.forkProcess w parentPid childPid).1.2 := hconfined.toSameTable.seen.mpr hchild
  refine ⟨hconfined.toSameTable.numbered hstart,
    hh.confined (fun d hd => by rwa [← hfiles]) (fun l hl => by rwa [← hcwds]) hrenames'
      (fun q hq => hnumbered.seen_start (hseen q hq)) hchild hconfined,?_⟩
  refine ⟨fun q hq => hmono q (hseen q hq),?_,fun l hl => ?_,by simp,by simp,fun parent child he => ?_,?_⟩
  · refine (nodup_startedBy s parentPid).append (List.nodup_singleton _) ?_
    intro l hl hl'
    obtain rfl := List.mem_singleton.mp hl'
    exact hnumbered.start_fresh (hn.startedBy_fresh hl).2 rfl
  · rcases List.mem_append.mp hl with hl | hl
    · obtain ⟨hfresh,hl⟩ := hn.startedBy_fresh hl
      exact ⟨hfresh,hmono _ hl⟩
    · obtain rfl := List.mem_singleton.mp hl
      exact ⟨fun q hq => hnumbered.start_fresh (hseen q hq),hchild'.lifetime⟩
  · obtain ⟨rfl,rfl⟩ := TracedEvent.fork.inj (List.mem_singleton.mp he)
    exact ⟨fun q hq => hnumbered.start_fresh (hseen q hq),hnumbered.start_fresh hparent,rfl,hchild'⟩
  · intro e he
    obtain rfl := List.mem_singleton.mp he
    exact hmono _ hparent

theorem RecordStep.advanced (h : RecordStep w s s' emitted started exec) (hn : Numbered b s) (hh : Holdings s)
    (hpos : 1 ≤ b) (hb : b < 4294967295) :
    Numbered (b + 1) s' ∧ Holdings s' ∧ Advanced s s' emitted started exec := by
  cases h with
  | idle state events =>
    have hconfined := state s.rootProcess
    subst events
    exact ⟨(hconfined.toSameTable.numbered hn).mono (Nat.le_succ b),hh.idle state,
      advanced_nothing fun q hq => hconfined.toSameTable.seen.mpr hq⟩
  | acts pid state events =>
    obtain ⟨hnumbered,hcurrent,hseen⟩ := hn.currentProcess pid hpos
    obtain ⟨hcwds,hfiles,hrenames,-⟩ := currentProcess_rest s pid
    have hactor := hnumbered.seen_current hcurrent
    refine ⟨(state.toSameTable.numbered hnumbered).mono (Nat.le_succ b),
      hh.confined (fun d hd => hfiles ▸ hd) (fun l hl => hcwds ▸ hl) hrenames hseen hactor state,?_⟩
    refine advanced_plain events (state.toSameTable.seen.mpr hactor)
      (fun q hq => state.toSameTable.seen.mpr (hseen q hq)) (nodup_startedBy s pid) fun l hl => ?_
    obtain ⟨hfresh,hl⟩ := hn.startedBy_fresh hl
    exact ⟨hfresh,state.toSameTable.seen.mpr hl⟩
  | late key pending waiting state events =>
    have hactor := hh.renames key pending waiting
    exact ⟨(state.toSameTable.numbered hn).mono (Nat.le_succ b),
      hh.confined (fun _ hd => hd) (fun _ hl => hl) rfl (fun _ hq => hq) hactor state,
      advanced_plain events (state.toSameTable.seen.mpr hactor) (fun q hq => state.toSameTable.seen.mpr hq)
        List.nodup_nil (by simp)⟩
  | skips pid s₁ first state events =>
    obtain rfl := execProcess_eq_none first
    have hconfined := state s.rootProcess
    subst events
    have hh' : Holdings { s with rootInitialExecPending := false } := ⟨hh.files,hh.cwds,hh.renames⟩
    refine ⟨?_,hh'.idle state,advanced_nothing fun q hq => hconfined.toSameTable.seen.mpr hq⟩
    exact (hconfined.toSameTable.numbered ⟨hn.own,hn.next,hn.generation,hn.epoch⟩).mono (Nat.le_succ b)
  | execs pid process s₁ observation next state events =>
    subst events
    exact advanced_exec hn hh hpos hb next state observation
  | forks parentPid childPid state events =>
    subst events
    exact advanced_fork hn hh hpos hb rfl state

/-- The lifetimes logged for a record are those by which the counters moved. -/
theorem RecordStep.nextGenerations (h : RecordStep w s s' emitted started exec) :
    s'.nextGenerations =
      started.foldl (fun next l => next.insert l.pid (saturatingSucc l.generation)) s.nextGenerations := by
  have hlookup : ∀ pid, (s.currentProcess pid).2.nextGenerations =
      (startedBy s pid).foldl (fun next l => next.insert l.pid (saturatingSucc l.generation)) s.nextGenerations := by
    intro pid
    cases hp : s.currentProcesses[pid]? with
    | some p => simp [EventCollectorState.currentProcess,startedBy,hp]
    | none => simp [EventCollectorState.currentProcess,startedBy,hp,EventCollectorState.startProcess]
  cases h with
  | idle state events => exact (state s.rootProcess).nextGenerations
  | acts pid state events => exact state.nextGenerations.trans (hlookup pid)
  | late key pending waiting state events => exact state.nextGenerations
  | skips pid s₁ first state events =>
    obtain rfl := execProcess_eq_none first
    exact (state s.rootProcess).nextGenerations
  | execs pid process s₁ observation next state events =>
    exact (state.nextGenerations.trans (execProcess_eq_some next).2.nextGenerations).trans (hlookup pid)
  | forks parentPid childPid state events =>
    rw [state.nextGenerations,List.foldl_append,← hlookup parentPid]
    rfl

end Step

section Runs
variable {H : Type} (order : IterationOrder ℕ) (view : ℕ → World H) (watchPrefixes : List Str)

/-- The lifetimes issued by `start_process` while a buffer is processed. -/
def issuedFrom : ℕ → List RawEvent → Collected H → List ProcessLifetime
  | _, [], _ => []
  | site, raw :: rest, c =>
    issuedBy raw c.state ++ issuedFrom (site + 1) rest (processRawEvent order view watchPrefixes site raw c)

/-- The instances returned by `exec_process` while a buffer is processed. -/
def executedFrom : ℕ → List RawEvent → Collected H → List ProcessInstance
  | _, [], _ => []
  | site, raw :: rest, c =>
    (executedBy raw c.state).toList ++
      executedFrom (site + 1) rest (processRawEvent order view watchPrefixes site raw c)

/-- What holds of a run from a state in which the counters have reached `b`. -/
structure RunAdvanced (b site : ℕ) (rest : List RawEvent) (c : Collected H) : Prop where
  numbered : Numbered (b + rest.length) (processBufferedEvents order view watchPrefixes site rest c).state
  holdings : Holdings (processBufferedEvents order view watchPrefixes site rest c).state
  issuedNodup : (issuedFrom order view watchPrefixes site rest c).Nodup
  issuedFresh : ∀ l ∈ issuedFrom order view watchPrefixes site rest c, ∀ q, Seen c.state q → q.lifetime ≠ l
  executedNodup : (executedFrom order view watchPrefixes site rest c).Nodup
  executedFresh : ∀ p ∈ executedFrom order view watchPrefixes site rest c, ¬ Seen c.state p

theorem runAdvanced (rest : List RawEvent) (b site : ℕ) (c : Collected H) (hn : Numbered b c.state)
    (hh : Holdings c.state) (hpos : 1 ≤ b) (hb : b + rest.length ≤ 4294967295) :
    RunAdvanced order view watchPrefixes b site rest c := by
  induction rest generalizing b site c with
  | nil =>
    exact ⟨hn,hh,List.nodup_nil,by simp [issuedFrom],List.nodup_nil,by simp [executedFrom]⟩
  | cons raw rest ih =>
    rw [List.length_cons] at hb
    obtain ⟨emitted,-,hstep⟩ := recordStep_processRawEvent order view watchPrefixes site raw c
    obtain ⟨hn',hh',hadvanced⟩ := hstep.advanced hn hh hpos (by omega)
    have hrest := ih (b + 1) (site + 1) _ hn' hh' (by omega) (by omega)
    refine ⟨?_,hrest.holdings,?_,?_,?_,?_⟩
    · have hnumbered := hrest.numbered
      rw [Nat.add_right_comm] at hnumbered
      exact hnumbered
    · refine hadvanced.nodup.append hrest.issuedNodup ?_
      intro l hl hl'
      exact hrest.issuedFresh l hl' _ (hadvanced.startedFresh l hl).2 rfl
    · intro l hl q hq
      rcases List.mem_append.mp hl with hl | hl
      · exact (hadvanced.startedFresh l hl).1 q hq
      · exact hrest.issuedFresh l hl q (hadvanced.seen q hq)
    · refine List.Nodup.append ?_ hrest.executedNodup ?_
      · cases executedBy raw c.state <;> simp
      · intro p hp hp'
        exact hrest.executedFresh p hp' (hadvanced.execFresh p (Option.mem_toList.mp hp)).2
    · intro p hp hq
      rcases List.mem_append.mp hp with hp | hp
      · exact (hadvanced.execFresh p (Option.mem_toList.mp hp)).1 hq
      · exact hrest.executedFresh p hp (hadvanced.seen p hq)

theorem initial_current (rootPid : UInt32) (rootCwd : Str) (malformed : UInt64) (pid : UInt32) :
    (Collected.initial (H := H) rootPid rootCwd malformed).state.currentProcesses[pid]? =
      if rootPid = pid then some ⟨⟨rootPid,0⟩,0⟩ else none := by
  simp [Collected.initial,EventCollectorState.new,ExtTreeMap.getElem?_insert]

theorem initial_own {rootPid : UInt32} {rootCwd : Str} {malformed : UInt64} {pid : UInt32} {p : ProcessInstance}
    (hp : (Collected.initial (H := H) rootPid rootCwd malformed).state.currentProcesses[pid]? = some p) :
    p.lifetime.pid = pid := by
  rw [initial_current] at hp
  split at hp
  · next hpid =>
    obtain rfl := Option.some.inj hp
    exact hpid
  · cases hp

theorem seen_initial (rootPid : UInt32) (rootCwd : Str) (malformed : UInt64) :
    Seen (Collected.initial (H := H) rootPid rootCwd malformed).state ⟨⟨rootPid,0⟩,0⟩ :=
  ⟨_,by rw [initial_current]; exact if_pos rfl,.refl _⟩

theorem numbered_initial (rootPid : UInt32) (rootCwd : Str) (malformed : UInt64) :
    Numbered 1 (Collected.initial (H := H) rootPid rootCwd malformed).state := by
  refine ⟨?_,?_,?_,?_⟩
  · intro pid p hp
    exact initial_own hp
  · intro pid
    rw [initial_current]
    simp only [Collected.initial,EventCollectorState.new,ExtTreeMap.getElem?_insert,Std.compare_eq_iff_eq]
    split
    · rfl
    · simp
  · intro pid p hp
    rw [initial_current] at hp
    split at hp
    · obtain rfl := Option.some.inj hp
      exact Nat.le_refl 1
    · cases hp
  · intro pid p hp
    rw [initial_current] at hp
    split at hp
    · obtain rfl := Option.some.inj hp
      exact Nat.zero_le 1
    · cases hp

theorem holdings_initial (rootPid : UInt32) (rootCwd : Str) (malformed : UInt64) :
    Holdings (Collected.initial (H := H) rootPid rootCwd malformed).state := by
  refine ⟨?_,?_,?_⟩
  · intro d hd
    simp [Collected.initial,EventCollectorState.new] at hd
  · intro l hl
    simp only [Collected.initial,EventCollectorState.new,ExtTreeMap.mem_insert,Std.compare_eq_iff_eq] at hl
    rcases hl with rfl | hl
    · exact seen_initial rootPid rootCwd malformed
    · simp at hl
  · intro key pending hp
    simp [Collected.initial,EventCollectorState.new] at hp

/-- The data of an open file that a fork copies; the handle is duplicated besides. -/
def OpenFileState.copied (file : OpenFileState H) : Str × UInt32 × Option FileObservation :=
  (file.path,file.flags,file.openObservation)

/-- The child has exactly what the parent has, and nobody else is affected. -/
structure ForkCopies (parent child : ProcessLifetime) (s s' : EventCollectorState H) : Prop where
  files : ∀ fd : Int, s'.fdTable[(⟨child,fd⟩ : Descriptor)]?.map OpenFileState.copied =
    s.fdTable[(⟨parent,fd⟩ : Descriptor)]?.map OpenFileState.copied
  cwd : s'.processCwds[child]? = s.processCwds[parent]?
  otherFiles : ∀ d : Descriptor, d.lifetime ≠ child → s'.fdTable[d]? = s.fdTable[d]?
  otherCwds : ∀ l, l ≠ child → s'.processCwds[l]? = s.processCwds[l]?

theorem forkCopies_forkProcess {b : ℕ} {s : EventCollectorState H} (w : World H) (parentPid childPid : UInt32)
    (hn : Numbered b s) (hh : Holdings s) (hpos : 1 ≤ b) :
    ForkCopies (s.forkProcess w parentPid childPid).1.1.lifetime (s.forkProcess w parentPid childPid).1.2.lifetime s
      (s.forkProcess w parentPid childPid).2 := by
  obtain ⟨hnumbered,-,hseen⟩ := hn.currentProcess parentPid hpos
  have hfresh : ∀ q, Seen s q → q.lifetime ≠ (s.forkProcess w parentPid childPid).1.2.lifetime :=
    fun q hq => hnumbered.start_fresh (hseen q hq)
  have hnofile : ∀ fd : Int,
      s.fdTable[(⟨(s.forkProcess w parentPid childPid).1.2.lifetime,fd⟩ : Descriptor)]? = none := by
    intro fd
    by_contra hne
    have hmem := ExtTreeMap.mem_iff_isSome_getElem?.mpr (Option.isSome_iff_ne_none.mpr hne)
    exact hfresh _ (hh.files _ hmem) rfl
  have hnocwd : s.processCwds[(s.forkProcess w parentPid childPid).1.2.lifetime]? = none := by
    by_contra hne
    have hmem := ExtTreeMap.mem_iff_isSome_getElem?.mpr (Option.isSome_iff_ne_none.mpr hne)
    exact hfresh _ (hh.cwds _ hmem) rfl
  refine ⟨fun fd => ?_,?_,fun d hd => ?_,fun l hl => ?_⟩
  · rw [forkProcess_fdTable,if_pos rfl,hnofile fd,Option.or_none,Option.map_map]
    rfl
  · rw [forkProcess_processCwds,if_pos rfl,hnocwd,Option.or_none]
  · rw [forkProcess_fdTable,if_neg hd]
  · rw [forkProcess_processCwds,if_neg hl]

/-- In a run from the initial state that is too short to exhaust a counter, lifetimes and
executed instances are never issued twice, the table stays in order, and every fork gives the child
exactly what the parent has. -/
theorem lifetimes_distinct (rootPid : UInt32) (rootCwd : Str) (malformed : UInt64) (raws : List RawEvent)
    (hlength : raws.length < 2 ^ 32 - 1) :
    ((issuedFrom order view watchPrefixes 0 raws (.initial rootPid rootCwd malformed)).Nodup ∧
      ⟨rootPid,0⟩ ∉ issuedFrom order view watchPrefixes 0 raws (.initial rootPid rootCwd malformed) ∧
      (executedFrom order view watchPrefixes 0 raws (.initial rootPid rootCwd malformed)).Nodup) ∧
    (∀ (pid : UInt32) (p : ProcessInstance),
      (processBufferedEvents order view watchPrefixes 0 raws
        (.initial rootPid rootCwd malformed)).state.currentProcesses[pid]? = some p →
      p.lifetime.pid = pid ∧ ∃ next, (processBufferedEvents order view watchPrefixes 0 raws
        (.initial rootPid rootCwd malformed)).state.nextGenerations[pid]? = some next ∧
          p.lifetime.generation < next) ∧
    ∀ (before rest : List RawEvent) (timestamp timestampNs : UInt64) (source : UInt8) (fork : ProcessForkEvent),
      raws = before ++ ⟨timestamp,some ⟨source,timestampNs,.processFork fork⟩⟩ :: rest →
      let c := processBufferedEvents order view watchPrefixes 0 before (.initial rootPid rootCwd malformed)
      let c' := processRawEvent order view watchPrefixes before.length
        ⟨timestamp,some ⟨source,timestampNs,.processFork fork⟩⟩ c
      ∃ parent child, c'.events = c.events ++ [.fork parent child] ∧
        parent = (c.state.currentProcess fork.parentPid).1 ∧
        c'.state.currentProcesses[fork.childPid]? = some child ∧
        ForkCopies parent.lifetime child.lifetime c.state c'.state := by
  have hrun := runAdvanced order view watchPrefixes raws 1 0 (.initial rootPid rootCwd malformed)
    (numbered_initial rootPid rootCwd malformed) (holdings_initial rootPid rootCwd malformed) (Nat.le_refl 1)
    (by omega)
  refine ⟨⟨hrun.issuedNodup,?_,hrun.executedNodup⟩,fun pid p hp => ?_,?_⟩
  · intro hroot
    exact hrun.issuedFresh _ hroot _ (seen_initial rootPid rootCwd malformed) rfl
  · refine ⟨hrun.numbered.own pid p hp,?_⟩
    have hnext := hrun.numbered.next pid
    rw [hp,Option.map_some] at hnext
    obtain ⟨next,hsome,hval⟩ := Option.map_eq_some_iff.mp hnext
    refine ⟨next,hsome,?_⟩
    rw [UInt32.lt_iff_toNat_lt]
    omega
  · intro before rest timestamp timestampNs source fork hraws c c'
    have hbefore := runAdvanced order view watchPrefixes before 1 0 (.initial rootPid rootCwd malformed)
      (numbered_initial rootPid rootCwd malformed) (holdings_initial rootPid rootCwd malformed) (Nat.le_refl 1)
      (by rw [hraws,List.length_append] at hlength; omega)
    refine ⟨(c.state.forkProcess (view before.length) fork.parentPid fork.childPid).1.1,
      (c.state.forkProcess (view before.length) fork.parentPid fork.childPid).1.2,rfl,rfl,?_,
      forkCopies_forkProcess (view before.length) fork.parentPid fork.childPid hbefore.numbered hbefore.holdings
        (by omega)⟩
    have hcurrent : c'.state.currentProcesses =
        ((c.state.currentProcess fork.parentPid).2.startProcess fork.childPid).2.currentProcesses := rfl
    rw [hcurrent,startProcess_current,if_pos rfl,forkProcess_processes]

end Runs

/-- A fork of process 11 by process 10. -/
def sampleFork (timestamp : UInt64) : RawEvent := ⟨timestamp,some ⟨0,timestamp,.processFork ⟨10,11⟩⟩⟩

theorem lifetimes_distinct_sample :
    (issuedFrom .stored (fun _ => bareWorld) [] 0 [sampleFork 1,sampleFork 2] (.initial 10 [slash] 0)).Nodup :=
  (lifetimes_distinct .stored (fun _ => bareWorld) [] 10 [slash] 0 [sampleFork 1,sampleFork 2] (by decide)).1.1

end Repx.Trace
