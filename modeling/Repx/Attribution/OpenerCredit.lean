import Repx.Attribution.WriteCredit

/-! # Writes credited to the opener

A writable descriptor keeps its opener through executions and forks in both passes. The pass
that scans first lets a shared writable mapping take the descriptor over, the other one
does not, so that the two agree on the opener only as long as nobody else maps it.
-/
namespace Repx.Trace
open ByteString Std HashTables Canonical CanonState Slice CreditTable

/-- Every close that resolves a write in both passes credits it to the last opener in both. -/
def CreditsOpener (rootProcess : ProcessInstance) (order : IterationOrder ℕ) (traversal : IterationOrder Traversal)
    (events : List TracedEvent) : Prop :=
  ∀ (before after : List TracedEvent) (process : ProcessInstance) (fd : Int) (path : Str)
    (observation : FileObservation) (index : ℕ) (write : PendingWrite),
    events = before ++ .fileClose process fd (some path) false (some observation) :: after →
    (canonicalizeFrom ⟨rootProcess,[]⟩ order 0 (initial ⟨rootProcess,[]⟩) before).pendingWrites[
      (⟨process.lifetime,fd⟩ : Descriptor)]? = some index →
    (scanFrom traversal rootProcess 0 .initial before).pendingWrites[(⟨process.lifetime,fd⟩ : Descriptor)]? =
      some write →
    (opOwners ⟨rootProcess,[]⟩ order before)[index]? = some write.process ∧
      lastOpener before ⟨process.lifetime,fd⟩ = some write.process

/-- What a step has to respect: a mapping is made by the last opener and finds no entry of
anybody else, a writable opening of the system state finds no entry of anybody else either, and a
forked lifetime starts without entries. -/
def WriteGuard (before : List TracedEvent) : TracedEvent → Prop
  | .fileOpen process path flags fd _ _ =>
    canWrite flags = true → isSystemState path = true →
      ∀ p, recordedCredit before ⟨process.lifetime,fd⟩ = some p → p = process
  | .fileMmap process fd prot flags (some path) _ (some _) =>
    mapWrites prot flags = true →
      (isSystemState path = true ∧ recordedCredit before ⟨process.lifetime,fd⟩ = none) ∨
        (lastOpener before ⟨process.lifetime,fd⟩ = some process ∧
          ∀ p, recordedCredit before ⟨process.lifetime,fd⟩ = some p → p = process)
  | .fork _ child =>
    ∀ fd, recordedCredit before ⟨child.lifetime,fd⟩ = none ∧ scannedCredit before ⟨child.lifetime,fd⟩ = none
  | _ => True

section Agreement

/-- What both passes know of a descriptor, they know of its opener. -/
def AgreedAt (kept found opener : Option ProcessInstance) : Prop :=
  ∀ p q, kept = some p → found = some q → p = q ∧ opener = some p

def Agreed (events : List TracedEvent) : Prop :=
  ∀ d, AgreedAt (recordedCredit events d) (scannedCredit events d) (lastOpener events d)

variable {events : List TracedEvent} {event : TracedEvent}

theorem recordedCredit_snoc (events : List TracedEvent) (event : TracedEvent) :
    recordedCredit (events ++ [event]) = (recordedCredit events).recorded event := by
  simp [recordedCredit]

theorem scannedCredit_snoc (events : List TracedEvent) (event : TracedEvent) :
    scannedCredit (events ++ [event]) = (scannedCredit events).scanned event := by
  simp [scannedCredit]

theorem lastOpener_snoc (events : List TracedEvent) (event : TracedEvent) :
    lastOpener (events ++ [event]) = (lastOpener events).opened event := by
  simp [lastOpener]

theorem AgreedAt.both (p : ProcessInstance) : AgreedAt (some p) (some p) (some p) := by
  intro q r hq hr
  exact ⟨Option.some.inj (hq.symm.trans hr),hq⟩

/-- A change at one descriptor only has to be looked at there. -/
theorem Agreed.update (h : Agreed events) (d : Descriptor) {kept found opener : Option ProcessInstance}
    (hd : AgreedAt kept found opener) :
    ∀ e, AgreedAt (Function.update (recordedCredit events) d kept e)
      (Function.update (scannedCredit events) d found e) (Function.update (lastOpener events) d opener e) := by
  intro e
  by_cases he : e = d
  · subst he
    simpa using hd
  · simpa [Function.update_of_ne he] using h e

/-- A lifetime without entries takes over those of its parent. -/
theorem Agreed.inherit (h : Agreed events) {parent child : ProcessLifetime}
    (hnone : ∀ fd, recordedCredit events ⟨child,fd⟩ = none ∧ scannedCredit events ⟨child,fd⟩ = none)
    (d : Descriptor) : AgreedAt ((recordedCredit events).inherit parent child d)
      ((scannedCredit events).inherit parent child d) ((lastOpener events).inherit parent child d) := by
  simp only [CreditTable.inherit]
  split
  · next hd =>
    obtain ⟨hkept,hfound⟩ := hnone d.fd
    rw [← hd] at hkept hfound
    intro p q hp hq
    rw [show recordedCredit events d = none from hkept,Option.or_none] at hp
    rw [show scannedCredit events d = none from hfound,Option.or_none] at hq
    obtain ⟨heq,hopener⟩ := h ⟨parent,d.fd⟩ p q hp hq
    exact ⟨heq,by rw [hopener,Option.some_or]⟩
  · exact h d

/-- The slice credits a mapping to the one who maps, which agrees with an entry of the same
instance only. -/
theorem agreedAt_of_own {kept opener : Option ProcessInstance} {process : ProcessInstance}
    (hown : ∀ p, kept = some p → p = process) (hopener : kept ≠ none → opener = some process) :
    AgreedAt kept (some process) opener := by
  intro p q hp hq
  obtain rfl := hown p hp
  exact ⟨Option.some.inj hq,hopener (by rw [hp]; exact Option.some_ne_none p)⟩

/-- A step that respects the guard keeps the agreement. -/
theorem Agreed.snoc (h : Agreed events) (hguard : WriteGuard events event) : Agreed (events ++ [event]) := by
  unfold Agreed
  rw [recordedCredit_snoc,scannedCredit_snoc,lastOpener_snoc]
  cases event with
  | exec process observation => exact h
  | fork parent child => exact h.inherit hguard
  | fileOpen process path flags fd external observation =>
    simp only [CreditTable.recorded,scanned,opened]
    cases hw : canWrite flags with
    | false => simpa [Agreed] using h
    | true =>
      cases hs : isSystemState path with
      | false => simpa using h.update ⟨process.lifetime,fd⟩ (AgreedAt.both process)
      | true =>
        have hsame : AgreedAt (recordedCredit events ⟨process.lifetime,fd⟩) (some process) (some process) :=
          agreedAt_of_own (hguard hw hs) fun _ => rfl
        simpa using h.update ⟨process.lifetime,fd⟩ hsame
  | fileMmap process fd prot flags path external observation =>
    cases path with
    | none => exact h
    | some path =>
      cases observation with
      | none => exact h
      | some observation =>
        simp only [CreditTable.recorded,scanned,opened]
        cases hw : mapWrites prot flags with
        | false => simpa [Agreed] using h
        | true =>
          rcases hguard hw with ⟨hs,hnone⟩ | ⟨hopener,hown⟩
          · have hsame : AgreedAt (recordedCredit events ⟨process.lifetime,fd⟩) (some process)
                (lastOpener events ⟨process.lifetime,fd⟩) :=
              agreedAt_of_own (fun p hp => by rw [hnone] at hp; cases hp) (absurd hnone)
            simpa [hs] using h.update ⟨process.lifetime,fd⟩ hsame
          · cases hs : isSystemState path with
            | false =>
              have hmapped : ∀ p, (recordedCredit events ⟨process.lifetime,fd⟩).or (some process) = some p →
                  p = process := by
                intro p hp
                cases hr : recordedCredit events ⟨process.lifetime,fd⟩ with
                | none =>
                  rw [hr] at hp
                  exact (Option.some.inj hp).symm
                | some kept =>
                  rw [hr] at hp
                  exact hown p (hr.trans hp)
              simpa using h.update ⟨process.lifetime,fd⟩ (agreedAt_of_own hmapped fun _ => hopener)
            | true => simpa using h.update ⟨process.lifetime,fd⟩ (agreedAt_of_own hown fun _ => hopener)
  | fileClose process fd path external observation =>
    have hreleased : ∀ kept, AgreedAt kept none (lastOpener events ⟨process.lifetime,fd⟩) := by
      intro kept p q _ hq
      cases hq
    cases path with
    | none =>
      simpa [CreditTable.recorded,scanned,opened] using
        h.update ⟨process.lifetime,fd⟩ (hreleased (recordedCredit events ⟨process.lifetime,fd⟩))
    | some path =>
      simpa [CreditTable.recorded,scanned,opened] using h.update ⟨process.lifetime,fd⟩ (hreleased none)
  | fileRename process fromPath toPath flags external observation => exact h
  | fileUnlink process path flags external observation => exact h
  | exit process exitCode => exact h

/-- Apart from forks, a step that does not respect the guard ends the agreement. -/
theorem Agreed.guard (h : Agreed (events ++ [event])) (hfork : ∀ parent child, event ≠ .fork parent child) :
    WriteGuard events event := by
  unfold Agreed at h
  rw [recordedCredit_snoc,scannedCredit_snoc,lastOpener_snoc] at h
  cases event with
  | fork parent child => exact absurd rfl (hfork parent child)
  | fileOpen process path flags fd external observation =>
    intro hw hs p hp
    have hd := h ⟨process.lifetime,fd⟩ p process
    simp only [CreditTable.recorded,scanned,hw,hs,Bool.not_true,Bool.and_false,Bool.false_eq_true,if_false,if_true,
      Function.update_self] at hd
    exact (hd hp trivial).1
  | fileMmap process fd prot flags path external observation =>
    cases path with
    | none => trivial
    | some path =>
      cases observation with
      | none => trivial
      | some observation =>
        intro hw
        have hd := h ⟨process.lifetime,fd⟩
        simp only [CreditTable.recorded,scanned,opened,hw,Bool.true_and,if_true,Function.update_self] at hd
        cases hs : isSystemState path with
        | true =>
          simp only [hs,Bool.not_true,Bool.false_eq_true,if_false] at hd
          cases hr : recordedCredit events ⟨process.lifetime,fd⟩ with
          | none => exact Or.inl ⟨rfl,rfl⟩
          | some p =>
            obtain ⟨rfl,hopener⟩ := hd p process hr rfl
            exact Or.inr ⟨hopener,fun q hq => (Option.some.inj hq).symm⟩
        | false =>
          simp only [hs,Bool.not_false,if_true,Function.update_self] at hd
          cases hr : recordedCredit events ⟨process.lifetime,fd⟩ with
          | none => exact Or.inr ⟨(hd process process (by rw [hr,Option.none_or]) rfl).2,by simp⟩
          | some p =>
            obtain ⟨rfl,hopener⟩ := hd p process (by rw [hr,Option.some_or]) rfl
            exact Or.inr ⟨hopener,fun q hq => (Option.some.inj hq).symm⟩
  | exec | fileClose | fileRename | fileUnlink | exit => trivial

theorem agreed_of_guards
    (hguard : ∀ before event after, events = before ++ event :: after → WriteGuard before event) :
    Agreed events := by
  induction events using List.reverseRecOn with
  | nil =>
    intro d p q hp
    cases hp
  | append_singleton events event ih =>
    refine (ih fun before e after heq => hguard before e (after ++ [event]) ?_).snoc (hguard events event [] rfl)
    rw [heq,List.append_assoc,List.cons_append]

/-- A trace inside the fork tree whose steps all respect the guard credits every write that both passes
resolve to the instance that opened the descriptor last, or from which it was inherited. -/
theorem credits_opener (rootProcess : ProcessInstance) (order : IterationOrder ℕ)
    (traversal : IterationOrder Traversal) (events : List TracedEvent)
    (hinside : ∀ event ∈ events, event.inside = true)
    (hguard : ∀ before event after, events = before ++ event :: after → WriteGuard before event) :
    CreditsOpener rootProcess order traversal events := by
  intro before after process fd path observation index write hevents hindex hwrite
  have hagreed : Agreed before := agreed_of_guards fun start event rest heq =>
    hguard start event (rest ++ .fileClose process fd (some path) false (some observation) :: after)
      (by rw [hevents,heq,List.append_assoc,List.cons_append])
  have hbefore : ∀ event ∈ before, event.inside = true := fun event he =>
    hinside event (hevents ▸ List.mem_append_left _ he)
  have hrecorded := (credited_canonicalizeFrom ⟨rootProcess,[]⟩ rfl order hbefore).pending
    ⟨process.lifetime,fd⟩
  have hscanned := scanCredited_scanFrom traversal rootProcess hbefore ⟨process.lifetime,fd⟩
  rw [hindex,Option.map_some] at hrecorded
  rw [hwrite,Option.map_some] at hscanned
  cases hkept : recordedCredit before ⟨process.lifetime,fd⟩ with
  | none =>
    rw [hkept] at hrecorded
    cases hrecorded
  | some p =>
    rw [hkept,Option.map_some] at hrecorded
    obtain ⟨rfl,hopener⟩ := hagreed ⟨process.lifetime,fd⟩ p write.process hkept hscanned.symm
    exact ⟨Option.some.inj hrecorded,hopener⟩

end Agreement

section Sample

def openerProcess : ProcessInstance := ⟨⟨1,0⟩,0⟩

def reexecutedProcess : ProcessInstance := ⟨⟨1,0⟩,1⟩

/-- A file is opened for writing, mapped by the image that is given, and closed. -/
def mappedWrite (mapper : ProcessInstance) : List TracedEvent :=
  [.fileOpen openerProcess (utf8 "/o") 2 3 false (.content (utf8 "h")),
    .exec reexecutedProcess (.content (utf8 "t")),
    .fileMmap mapper 3 3 1 (some (utf8 "/o")) false (some (.content (utf8 "h"))),
    .fileClose reexecutedProcess 3 (some (utf8 "/o")) false (some (.content (utf8 "k")))]

theorem credits_opener_sample : CreditsOpener openerProcess .stored .stored (mappedWrite openerProcess) := by
  refine credits_opener openerProcess .stored .stored (mappedWrite openerProcess) (by decide) ?_
  intro before event after heq
  rcases before with _ | ⟨e₀,_ | ⟨e₁,_ | ⟨e₂,_ | ⟨e₃,before⟩⟩⟩⟩
  · obtain rfl := (List.cons.inj heq).1
    exact fun _ hs => absurd hs (by decide)
  · obtain rfl := (List.cons.inj (List.cons.inj heq).2).1
    trivial
  · have hfirst := List.cons.inj heq
    have hsecond := List.cons.inj hfirst.2
    rw [← hfirst.1,← hsecond.1,← (List.cons.inj hsecond.2).1]
    exact fun _ => Or.inr ⟨rfl,fun p hp => (Option.some.inj hp).symm⟩
  · obtain rfl := (List.cons.inj (List.cons.inj (List.cons.inj (List.cons.inj heq).2).2).2).1
    trivial
  · have hlength := congrArg List.length heq
    simp [mappedWrite] at hlength

/-- The image that maps the file takes the write over in one of the passes. -/
theorem mapping_takes_credit : ¬ ∀ (rootProcess : ProcessInstance) (order : IterationOrder ℕ)
    (traversal : IterationOrder Traversal) (events : List TracedEvent),
    (∀ event ∈ events, event.inside = true) → CreditsOpener rootProcess order traversal events := by
  intro h
  have hcredit := h openerProcess .stored .stored (mappedWrite reexecutedProcess) (by decide)
    ((mappedWrite reexecutedProcess).take 3) [] reexecutedProcess 3 (utf8 "/o") (.content (utf8 "k")) 1
    ⟨reexecutedProcess,utf8 "/o"⟩ rfl rfl rfl
  exact absurd hcredit.1 (by decide)

end Sample

end Repx.Trace
