import Repx.Commitment.Merkle

/-! # What a process root binds

Equal roots are traced down the two trees. For lists of one length the lowest
rows agree or a collision of hashed byte strings is exhibited. For lists of
different lengths nothing marks a leaf as a leaf: the roots agree without any
collision exactly when the lowest row of one tree is a row of the other.
-/
namespace Repx.Merkle
open ByteString PairedLevels Sha256
variable {sha256 : Str → Digest}

theorem isDigestText_hashPair (left right : Str) : IsDigestText (hashPair sha256 left right) :=
  isDigestText_digestText _

theorem firstRow_isDigestText {leaves : List Str} (h : ∀ x ∈ leaves, IsDigestText x) :
    ∀ x ∈ firstRow sha256 leaves, IsDigestText x := by
  unfold firstRow
  intro x hx
  split at hx
  · obtain rfl := List.mem_singleton.mp hx
    exact isDigestText_hashPair _ _
  · rw [padLevel_eq] at hx
    rcases List.mem_append.mp hx with hx | hx
    · exact h x hx
    · rw [(List.mem_replicate.mp hx).2]
      exact isDigestText_hashPair _ _

/-- Distinct pairs of digest texts have distinct concatenations, so a clash of
pairs is a collision of the hash function. -/
theorem collision_of_clash {l l' : List Str} (h : ∀ x ∈ l, IsDigestText x) (h' : ∀ x ∈ l', IsDigestText x)
    (hc : Clash (hashPair sha256) (reducePairs (hashPair sha256) (firstRow sha256 l))
      (reducePairs (hashPair sha256) (firstRow sha256 l'))) :
    Collision sha256 (rootInputs sha256 l ++ rootInputs sha256 l') := by
  obtain ⟨p,hp,q,hq,hne,heq⟩ := hc
  have hwp := reducePairs_forall (hashPair sha256) isDigestText_hashPair (firstRow_isDigestText h) p hp
  have hwq := reducePairs_forall (hashPair sha256) isDigestText_hashPair (firstRow_isDigestText h') q hq
  refine ⟨p.1 ++ p.2,?_,q.1 ++ q.2,?_,?_,digestText_injective heq⟩
  · exact List.mem_append_left _ (map_reducePairs_subset sha256 l (List.mem_map_of_mem hp))
  · exact List.mem_append_right _ (map_reducePairs_subset sha256 l' (List.mem_map_of_mem hq))
  · intro he
    obtain ⟨h1,h2⟩ := List.append_inj he (by rw [hwp.1.length,hwq.1.length])
    exact hne (Prod.ext h1 h2)

/-- The taller of two trees with one root contains the lowest row of the other. -/
theorem firstRow_eq_iterate_or_collision {l l' : List Str} (h : ∀ x ∈ l, IsDigestText x)
    (h' : ∀ x ∈ l', IsDigestText x) (k : ℕ) (hk : Nat.clog 2 l'.length = Nat.clog 2 l.length + k)
    (hr : rootFromLeaves sha256 l = rootFromLeaves sha256 l') :
    firstRow sha256 l = (pairLevel (hashPair sha256))^[k] (firstRow sha256 l') ∨
      Collision sha256 (rootInputs sha256 l ++ rootInputs sha256 l') := by
  have hl := firstRow_length sha256 l
  have hl' : (firstRow sha256 l').length = 2 ^ (Nat.clog 2 l.length + k) := by
    rw [firstRow_length,hk]
  have htop : (pairLevel (hashPair sha256))^[Nat.clog 2 l.length] (firstRow sha256 l) =
      (pairLevel (hashPair sha256))^[Nat.clog 2 l.length + k] (firstRow sha256 l') := by
    rw [← reduceLevels_eq_iterate _ _ hl,← reduceLevels_eq_iterate _ _ hl',
      reduceLevels_firstRow,reduceLevels_firstRow,hr]
  exact (eq_iterate_or_clash _ k hl hl' htop).imp_right (collision_of_clash h h')

/-- Roots over equally many leaves bind every leaf. -/
theorem rootFromLeaves_binds_leaves (n : ℕ) (l l' : List Str) (hl : l.length = n) (hl' : l'.length = n)
    (h : ∀ x ∈ l, IsDigestText x) (h' : ∀ x ∈ l', IsDigestText x)
    (hr : rootFromLeaves sha256 l = rootFromLeaves sha256 l') :
    l = l' ∨ Collision sha256 (rootInputs sha256 l ++ rootInputs sha256 l') := by
  refine (firstRow_eq_iterate_or_collision h h' 0 (by rw [hl,hl',Nat.add_zero]) hr).imp_left ?_
  intro he
  simp only [Function.iterate_zero,id_eq,firstRow] at he
  cases l with
  | nil =>
    obtain rfl := List.length_eq_zero_iff.mp (hl'.trans hl.symm)
    rfl
  | cons a rest =>
    cases l' with
    | nil => simp [← hl'] at hl
    | cons a' rest' =>
      simp only [List.isEmpty_cons,Bool.false_eq_true,↓reduceIte,padLevel_eq] at he
      exact (List.append_inj he (hl.trans hl'.symm)).1

/-- The lowest row of one tree occurs as a row of the other: the longer list is
the shorter one with explicit padding hashes, or the shorter list consists of
inner node hashes of the longer one's tree, or it is the root of the empty list. -/
def SharesRow (sha256 : Str → Digest) (l l' : List Str) : Prop :=
  ∃ k, firstRow sha256 l = (pairLevel (hashPair sha256))^[k] (firstRow sha256 l') ∨
    firstRow sha256 l' = (pairLevel (hashPair sha256))^[k] (firstRow sha256 l)

theorem root_eq_of_row {l l' : List Str} {k : ℕ}
    (h : firstRow sha256 l = (pairLevel (hashPair sha256))^[k] (firstRow sha256 l')) :
    rootFromLeaves sha256 l = rootFromLeaves sha256 l' := by
  have hlen := congrArg List.length h
  rw [iterate_pairLevel_length_div,firstRow_length,firstRow_length] at hlen
  have hk : k ≤ Nat.clog 2 l'.length := by
    by_contra hlt
    rw [Nat.div_eq_of_lt (Nat.pow_lt_pow_right Nat.one_lt_two (by omega))] at hlen
    exact absurd hlen (Nat.two_pow_pos _).ne'
  obtain ⟨d,hd⟩ := Nat.exists_eq_add_of_le' hk
  have hred := reduceLevels_iterate (hashPair sha256) d k
    (show (firstRow sha256 l').length = 2 ^ (d + k) by rw [firstRow_length,hd])
  rw [← h,reduceLevels_firstRow,reduceLevels_firstRow] at hred
  exact List.singleton_inj.mp hred

theorem SharesRow.root_eq {l l' : List Str} (h : SharesRow sha256 l l') :
    rootFromLeaves sha256 l = rootFromLeaves sha256 l' := by
  obtain ⟨k,h | h⟩ := h
  · exact root_eq_of_row h
  · exact (root_eq_of_row h).symm

theorem sharesRow_or_collision {l l' : List Str} (h : ∀ x ∈ l, IsDigestText x)
    (h' : ∀ x ∈ l', IsDigestText x) (hr : rootFromLeaves sha256 l = rootFromLeaves sha256 l') :
    SharesRow sha256 l l' ∨ Collision sha256 (rootInputs sha256 l ++ rootInputs sha256 l') := by
  rcases Nat.le_total (Nat.clog 2 l.length) (Nat.clog 2 l'.length) with hle | hle
  · obtain ⟨k,hk⟩ := Nat.exists_eq_add_of_le hle
    exact (firstRow_eq_iterate_or_collision h h' k hk hr).imp_left fun he => ⟨k,Or.inl he⟩
  · obtain ⟨k,hk⟩ := Nat.exists_eq_add_of_le hle
    rcases firstRow_eq_iterate_or_collision h' h k hk hr.symm with he | hc
    · exact Or.inl ⟨k,Or.inr he⟩
    · exact Or.inr (hc.mono (by simp))

/-- A root binds the number of leaves exactly when neither tree contains the
other's lowest row as a row. -/
theorem rootFromLeaves_binds_count_iff (l l' : List Str) (h : ∀ x ∈ l, IsDigestText x)
    (h' : ∀ x ∈ l', IsDigestText x) :
    (rootFromLeaves sha256 l = rootFromLeaves sha256 l' →
        Collision sha256 (rootInputs sha256 l ++ rootInputs sha256 l')) ↔
      (¬ SharesRow sha256 l l' ∨ Collision sha256 (rootInputs sha256 l ++ rootInputs sha256 l')) := by
  constructor
  · intro hb
    by_cases hs : SharesRow sha256 l l'
    · exact Or.inr (hb hs.root_eq)
    · exact Or.inl hs
  · rintro (hs | hc) hr
    · exact (sharesRow_or_collision h h' hr).resolve_left hs
    · exact hc

/-- A constant digest, for concrete instances. -/
def blankDigest : Digest := Vector.replicate 32 0

def sampleLeaf (b : UInt8) : Str := digestText (Vector.replicate 32 b)

theorem isDigestText_sampleLeaves (bs : List UInt8) :
    ∀ x ∈ bs.map sampleLeaf, IsDigestText x := by
  intro x hx
  obtain ⟨b,_,rfl⟩ := List.mem_map.mp hx
  exact isDigestText_digestText _

theorem clog_two_two : Nat.clog 2 2 = 1 := by decide

theorem rootFromLeaves_binds_leaves_sample :
    [1,2].map sampleLeaf = [3,4].map sampleLeaf ∨
      Collision (fun _ => blankDigest) (rootInputs (fun _ => blankDigest) ([1,2].map sampleLeaf) ++
        rootInputs (fun _ => blankDigest) ([3,4].map sampleLeaf)) :=
  rootFromLeaves_binds_leaves 2 _ _ rfl rfl (isDigestText_sampleLeaves _) (isDigestText_sampleLeaves _)
    (by simp [rootFromLeaves,reduceLevels,padLevel,nextPowerOfTwo,clog_two_two,pairLevel,hashPair])

theorem rootFromLeaves_binds_count_sample :
    (rootFromLeaves (fun _ => blankDigest) ([1].map sampleLeaf) =
        rootFromLeaves (fun _ => blankDigest) ([2,3].map sampleLeaf) →
        Collision (fun _ => blankDigest) (rootInputs (fun _ => blankDigest) ([1].map sampleLeaf) ++
          rootInputs (fun _ => blankDigest) ([2,3].map sampleLeaf))) ↔
      (¬ SharesRow (fun _ => blankDigest) ([1].map sampleLeaf) ([2,3].map sampleLeaf) ∨
        Collision (fun _ => blankDigest) (rootInputs (fun _ => blankDigest) ([1].map sampleLeaf) ++
          rootInputs (fun _ => blankDigest) ([2,3].map sampleLeaf))) :=
  rootFromLeaves_binds_count_iff _ _ (isDigestText_sampleLeaves _) (isDigestText_sampleLeaves _)

/-- Whatever the hash function, the list holding the root of a two-leaf tree has
that root too, and only one byte string is hashed in both computations. -/
theorem rootFromLeaves_count_unbound :
    ¬ ∃ sha256 : Str → Digest, ∀ l l' : List Str, (∀ x ∈ l, IsDigestText x) →
      (∀ x ∈ l', IsDigestText x) → l.length ≠ l'.length →
      rootFromLeaves sha256 l = rootFromLeaves sha256 l' →
      Collision sha256 (rootInputs sha256 l ++ rootInputs sha256 l') := by
  rintro ⟨sha256,hall⟩
  let a := sampleLeaf 1
  let b := sampleLeaf 2
  have hpair : firstRow sha256 [a,b] = [a,b] := by simp [firstRow,padLevel,nextPowerOfTwo,clog_two_two]
  have hone : firstRow sha256 [hashPair sha256 a b] = [hashPair sha256 a b] := by
    simp [firstRow,padLevel,nextPowerOfTwo]
  have hroot : rootFromLeaves sha256 [hashPair sha256 a b] = rootFromLeaves sha256 [a,b] :=
    root_eq_of_row (k := 1) (by rw [hpair,hone]; rfl)
  have hone' : ∀ x ∈ [hashPair sha256 a b], IsDigestText x := by
    intro x hx
    rw [List.mem_singleton.mp hx]
    exact isDigestText_hashPair a b
  have hc := hall _ _ (isDigestText_sampleLeaves [1,2]) hone' (by simp) hroot.symm
  have hinputs : rootInputs sha256 [a,b] ++ rootInputs sha256 [hashPair sha256 a b] = [a ++ b] := by
    simp [rootInputs,padLevel,nextPowerOfTwo,clog_two_two,reducePairs,levelPairs,pairLevel]
  obtain ⟨x,hx,y,hy,hne,_⟩ := hinputs ▸ hc
  rw [List.mem_singleton] at hx hy
  exact hne (hx.trans hy.symm)

end Repx.Merkle
