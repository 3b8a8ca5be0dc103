import Repx.Foundation.HashTables
import Repx.Trace.Event

/-! # Pending writes by descriptor

A table from the open descriptors of every lifetime to what is still to be
learnt about the file written through them. A fork copies the entries of the
parent to the same descriptors of the child.
-/
namespace Repx.Trace
open Std HashTables
variable {ι ω : Type}

/-- The entries are collected before the first of them is inserted. -/
def inheritWrites (order : IterationOrder ι) (site : ι) (parent child : ProcessLifetime)
    (pending : ExtTreeMap Descriptor ω) : ExtTreeMap Descriptor ω :=
  let inheritedWrites := (order.visit site pending.toList).filterMap fun e =>
    if e.1.lifetime = parent then some (e.1.fd,e.2) else none
  pending.insertMany (inheritedWrites.map fun e => (⟨child,e.1⟩,e.2))

private def inheritedEntries (parent child : ProcessLifetime) (l : List (Descriptor × ω)) :
    List (Descriptor × ω) :=
  (l.filterMap fun e => if e.1.lifetime = parent then some (e.1.fd,e.2) else none).map
    fun e => (⟨child,e.1⟩,e.2)

private theorem mem_inheritedEntries {parent child : ProcessLifetime} {l : List (Descriptor × ω)}
    {d : Descriptor} {w : ω} :
    (d,w) ∈ inheritedEntries parent child l ↔ d.lifetime = child ∧ (⟨parent,d.fd⟩,w) ∈ l := by
  simp only [inheritedEntries,List.mem_map,List.mem_filterMap,Prod.mk.injEq,Prod.exists]
  constructor
  · rintro ⟨fd,w',⟨e,w'',he,hif⟩,rfl,rfl⟩
    by_cases hp : e.lifetime = parent
    · rw [if_pos hp,Option.some_inj,Prod.mk.injEq] at hif
      obtain ⟨rfl,rfl⟩ := hif
      subst hp
      exact ⟨rfl,he⟩
    · rw [if_neg hp] at hif
      cases hif
  · rintro ⟨rfl,he⟩
    exact ⟨d.fd,w,⟨⟨parent,d.fd⟩,w,he,by simp⟩,rfl,rfl⟩

private theorem nodup_inheritedEntries {parent child : ProcessLifetime} {l : List (Descriptor × ω)}
    (hl : (l.map Prod.fst).Nodup) : ((inheritedEntries parent child l).map Prod.fst).Nodup := by
  rw [List.Nodup,List.pairwise_map] at hl
  rw [List.Nodup,List.pairwise_map,inheritedEntries,List.pairwise_map,List.pairwise_filterMap]
  refine hl.imp ?_
  intro a b hab e he e' he' heq
  by_cases ha : a.1.lifetime = parent
  · by_cases hb : b.1.lifetime = parent
    · rw [if_pos ha,Option.some_inj] at he
      rw [if_pos hb,Option.some_inj] at he'
      subst he he'
      apply hab
      rcases a with ⟨⟨l,fd⟩,w⟩
      rcases b with ⟨⟨l',fd'⟩,w'⟩
      simp_all
    · rw [if_neg hb] at he'
      cases he'
  · rw [if_neg ha] at he
    cases he

private theorem nodup_visit (order : IterationOrder ι) (site : ι) (pending : ExtTreeMap Descriptor ω) :
    ((order.visit site pending.toList).map Prod.fst).Nodup :=
  ((order.perm site pending.toList).map Prod.fst).symm.nodup (nodup_keys_toList pending)

/-- A child descriptor refers to what the same descriptor of the parent refers
to, if anything; every other descriptor is unchanged. -/
theorem getElem?_inheritWrites (order : IterationOrder ι) (site : ι) (parent child : ProcessLifetime)
    (pending : ExtTreeMap Descriptor ω) (d : Descriptor) :
    (inheritWrites order site parent child pending)[d]? =
      if d.lifetime = child then pending[(⟨parent,d.fd⟩ : Descriptor)]?.or pending[d]? else pending[d]? := by
  change (pending.insertMany (inheritedEntries parent child (order.visit site pending.toList)))[d]? = _
  have hnodup : ((inheritedEntries parent child (order.visit site pending.toList)).map Prod.fst).Nodup :=
    nodup_inheritedEntries (nodup_visit order site pending)
  have hmem : ∀ w, (d,w) ∈ inheritedEntries parent child (order.visit site pending.toList) ↔
      d.lifetime = child ∧ pending[(⟨parent,d.fd⟩ : Descriptor)]? = some w := by
    intro w
    rw [mem_inheritedEntries,IterationOrder.mem_visit,ExtTreeMap.mem_toList_iff_getElem?_eq_some]
  have hnone : (¬ ∃ w, (d,w) ∈ inheritedEntries parent child (order.visit site pending.toList)) →
      (pending.insertMany (inheritedEntries parent child (order.visit site pending.toList)))[d]? =
        pending[d]? := by
    intro h
    apply getElem?_insertMany_of_not_mem
    intro hk
    obtain ⟨⟨d,w⟩,hw,rfl⟩ := List.mem_map.mp hk
    exact h ⟨w,hw⟩
  by_cases hc : d.lifetime = child
  · rw [if_pos hc]
    cases hw : pending[(⟨parent,d.fd⟩ : Descriptor)]? with
    | some w => exact getElem?_insertMany_of_mem hnodup ((hmem w).mpr ⟨hc,hw⟩)
    | none =>
      rw [Option.none_or]
      apply hnone
      rintro ⟨w,hm⟩
      rw [((hmem w).mp hm).2] at hw
      cases hw
  · rw [if_neg hc]
    apply hnone
    rintro ⟨w,hm⟩
    exact hc ((hmem w).mp hm).1

/-- Inheritance does not depend on the order in which the table is listed. -/
theorem inheritWrites_eq (order order' : IterationOrder ι) (site site' : ι) (parent child : ProcessLifetime)
    (pending : ExtTreeMap Descriptor ω) :
    inheritWrites order site parent child pending = inheritWrites order' site' parent child pending := by
  apply ExtTreeMap.ext_getElem?
  intro d
  rw [getElem?_inheritWrites,getElem?_inheritWrites]

end Repx.Trace
