import Repx.Commitment.MerkleBinding
import Repx.Operations.CanonicalOp

/-! # What a root over operations binds

Nothing in a tree marks a leaf as a leaf, but what is hashed for an operation begins with
its tag, and what is hashed for a node, for the padding or for an empty tree does not. A
root over operations therefore binds all of their hashes, and with them how many there are.
-/
namespace Repx.Merkle
open ByteString PairedLevels Sha256 Canonical
variable {sha256 : Str → Digest}

/-- What is hashed for something else than a leaf. -/
inductive NodeText : Str → Prop
  | pair {left right : Str} : IsDigestText left → IsDigestText right → NodeText (left ++ right)
  | empty : NodeText (utf8 "empty" ++ utf8 "empty")
  | padding : NodeText (utf8 "padding" ++ utf8 "padding")

theorem nodeText_of_mem_rootInputs {leaves : List Str} (h : ∀ x ∈ leaves, IsDigestText x) {x : Str}
    (hx : x ∈ rootInputs sha256 leaves) : NodeText x := by
  unfold rootInputs at hx
  split_ifs at hx with he hlt
  · rw [List.mem_singleton.mp hx]
    exact .empty
  all_goals
    rcases List.mem_append.mp hx with hx | hx
    · simp only [List.mem_singleton,List.not_mem_nil] at hx
      try
        subst hx
        exact .padding
    · obtain ⟨p,hp,rfl⟩ := List.mem_map.mp hx
      have hrow : ∀ x ∈ firstRow sha256 leaves, IsDigestText x := firstRow_isDigestText h
      simp only [firstRow,he,Bool.false_eq_true,if_false] at hrow
      obtain ⟨hleft,hright⟩ := reducePairs_forall (hashPair sha256) isDigestText_hashPair hrow p hp
      exact .pair hleft hright

/-- No operation is hashed as a node is. -/
theorem not_nodeText_preimage (op : CanonicalOp) : ¬ NodeText op.preimage := by
  have htag (tail : Str) : (op.preimage ++ tail).take 2 ∈ [utf8 "ex",utf8 "fi",utf8 "sy"] := by
    rw [CanonicalOp.preimage,List.append_assoc]
    cases op.opType <;> rw [List.take_append_of_le_length (by decide)] <;> decide
  have hlead {x : Str} (h : NodeText x) : x.take 2 ∉ [utf8 "ex",utf8 "fi",utf8 "sy"] := by
    cases h with
    | @pair left right hleft _ =>
      obtain ⟨digits,rfl,-,-⟩ := hleft
      rw [List.append_assoc,List.take_append_of_le_length (by decide)]
      decide
    | empty => decide
    | padding => decide
  intro h
  have hmem := htag []
  rw [List.append_nil] at hmem
  exact hlead h hmem

section Rows
variable {leaves : List Str}

/-- Above the lowest row there are digests of node texts only. -/
theorem exists_input_of_mem_row (h : ∀ x ∈ leaves, IsDigestText x) {k : ℕ} {leaf : Str}
    (hm : leaf ∈ (pairLevel (hashPair sha256))^[k + 1] (firstRow sha256 leaves)) :
    ∃ x ∈ rootInputs sha256 leaves, leaf = digestText (sha256 x) ∧ x.length = 142 := by
  have hlen := firstRow_length sha256 leaves
  rw [Function.iterate_succ_apply',pairLevel_eq_map] at hm
  obtain ⟨p,hp,rfl⟩ := List.mem_map.mp hm
  have hrow : 1 < ((pairLevel (hashPair sha256))^[k] (firstRow sha256 leaves)).length := by
    by_contra hle
    have hnil : levelPairs ((pairLevel (hashPair sha256))^[k] (firstRow sha256 leaves)) = [] := by
      match (pairLevel (hashPair sha256))^[k] (firstRow sha256 leaves), hle with
      | [], _ => rfl
      | [_], _ => rfl
      | _ :: _ :: _, hle => simp at hle
    rw [hnil] at hp
    simp at hp
  have hk : k ≤ Nat.clog 2 leaves.length := by
    by_contra hlt
    rw [iterate_pairLevel_length_div,hlen,Nat.div_eq_of_lt (Nat.pow_lt_pow_right Nat.one_lt_two (by omega))] at hrow
    omega
  obtain ⟨d,hd⟩ := Nat.exists_eq_add_of_le' hk
  have hlevel : (firstRow sha256 leaves).length = 2 ^ (d + k) := by rw [hlen,hd]
  have hpair := reducePairs_iterate_subset (hashPair sha256) d k hlevel (levelPairs_subset (hashPair sha256) hrow hp)
  refine ⟨p.1 ++ p.2,map_reducePairs_subset sha256 leaves (List.mem_map_of_mem hpair),rfl,?_⟩
  obtain ⟨hleft,hright⟩ := reducePairs_forall (hashPair sha256) isDigestText_hashPair
    (firstRow_isDigestText h) p hpair
  rw [List.length_append,hleft.length,hright.length]

/-- A root over digests is one. -/
theorem isDigestText_rootFromLeaves (h : ∀ x ∈ leaves, IsDigestText x) :
    IsDigestText (rootFromLeaves sha256 leaves) := by
  have hmem : rootFromLeaves sha256 leaves ∈
      (pairLevel (hashPair sha256))^[Nat.clog 2 leaves.length] (firstRow sha256 leaves) := by
    rw [← reduceLevels_eq_iterate (hashPair sha256) _ (firstRow_length sha256 leaves),reduceLevels_firstRow]
    exact List.mem_singleton_self _
  cases hk : Nat.clog 2 leaves.length with
  | zero =>
    rw [hk] at hmem
    exact firstRow_isDigestText h _ hmem
  | succ k =>
    rw [hk] at hmem
    obtain ⟨x,-,he,-⟩ := exists_input_of_mem_row h hmem
    rw [he]
    exact isDigestText_digestText _

theorem paddingInput_mem (h : leaves ≠ []) (hlt : leaves.length < nextPowerOfTwo leaves.length) :
    utf8 "padding" ++ utf8 "padding" ∈ rootInputs sha256 leaves := by
  rw [rootInputs,if_neg (by simpa using h),if_pos hlt]
  exact List.mem_append_left _ List.mem_cons_self

end Rows

section Texts
variable (sha256 : Str → Digest)

/-- The leaves over hashed texts. -/
def textLeaves (texts : List Str) : List Str := texts.map fun text => digestText (sha256 text)

/-- Everything that is hashed for a root over texts. -/
def treeInputs (texts : List Str) : List Str := texts ++ rootInputs sha256 (textLeaves sha256 texts)

variable {sha256} {texts texts' : List Str}

theorem isDigestText_textLeaves : ∀ x ∈ textLeaves sha256 texts, IsDigestText x := by
  intro x hx
  obtain ⟨text,-,rfl⟩ := List.mem_map.mp hx
  exact isDigestText_digestText _

/-- A leaf with the digest of a node text comes from a collision. -/
theorem collision_of_leaf (h : ∀ text ∈ texts, ¬ NodeText text) {leaf x : Str}
    (hleaf : leaf ∈ textLeaves sha256 texts)
    (hx : x ∈ rootInputs sha256 (textLeaves sha256 texts')) (he : leaf = digestText (sha256 x)) :
    Collision sha256 (treeInputs sha256 texts ++ treeInputs sha256 texts') := by
  obtain ⟨text,ht,rfl⟩ := List.mem_map.mp hleaf
  refine ⟨text,?_,x,?_,?_,digestText_injective he⟩
  · exact List.mem_append_left _ (List.mem_append_left _ ht)
  · exact List.mem_append_right _ (List.mem_append_right _ hx)
  · rintro rfl
    exact h text ht (nodeText_of_mem_rootInputs isDigestText_textLeaves hx)

/-- Lists of equally long lowest rows that agree but for the padding are equal. -/
theorem texts_of_firstRow_eq (h : ∀ text ∈ texts, ¬ NodeText text) (h' : ∀ text ∈ texts', ¬ NodeText text)
    (hle : texts'.length ≤ texts.length)
    (hrow : firstRow sha256 (textLeaves sha256 texts) = firstRow sha256 (textLeaves sha256 texts')) :
    textLeaves sha256 texts = textLeaves sha256 texts' ∨
      Collision sha256 (treeInputs sha256 texts ++ treeInputs sha256 texts') := by
  cases texts with
  | nil =>
    obtain rfl := List.length_eq_zero_iff.mp (Nat.le_zero.mp hle)
    exact Or.inl rfl
  | cons text rest =>
    cases texts' with
    | nil =>
      have hhead : digestText (sha256 text) ∈ firstRow sha256 (textLeaves sha256 []) := by
        rw [← hrow,firstRow,if_neg (by simp [textLeaves]),padLevel_eq]
        exact List.mem_append_left _ List.mem_cons_self
      have hempty : digestText (sha256 text) = emptyRoot sha256 := List.mem_singleton.mp hhead
      exact Or.inr (collision_of_leaf h List.mem_cons_self List.mem_cons_self hempty)
    | cons text' rest' =>
      have hlength {t : Str} {ts : List Str} : (textLeaves sha256 (t :: ts)).isEmpty = false := rfl
      rw [firstRow,firstRow,hlength,hlength,if_neg Bool.false_ne_true,if_neg Bool.false_ne_true,padLevel_eq,
        padLevel_eq] at hrow
      have hprefix : textLeaves sha256 (text' :: rest') <+: textLeaves sha256 (text :: rest) ++
          List.replicate (nextPowerOfTwo (textLeaves sha256 (text :: rest)).length -
            (textLeaves sha256 (text :: rest)).length) (paddingHash sha256) := by
        rw [hrow]
        exact List.prefix_append _ _
      have hprefix' : textLeaves sha256 (text' :: rest') <+: textLeaves sha256 (text :: rest) :=
        List.prefix_of_prefix_length_le hprefix (List.prefix_append _ _) (by simpa [textLeaves] using hle)
      obtain ⟨more,hmore⟩ := hprefix'
      cases more with
      | nil => exact Or.inl (by rw [← hmore,List.append_nil])
      | cons leaf more =>
        rw [← hmore,List.append_assoc] at hrow
        have htail := List.append_cancel_left hrow
        have hmem : leaf ∈ List.replicate (nextPowerOfTwo (textLeaves sha256 (text' :: rest')).length -
            (textLeaves sha256 (text' :: rest')).length) (paddingHash sha256) := by
          rw [← htail]
          exact List.mem_cons_self
        obtain ⟨hpad,hleaf⟩ := List.mem_replicate.mp hmem
        have hin : leaf ∈ textLeaves sha256 (text :: rest) := by
          rw [← hmore]
          exact List.mem_append_right _ List.mem_cons_self
        exact Or.inr (collision_of_leaf h hin (paddingInput_mem (by simp [textLeaves]) (by omega)) hleaf)

theorem textLeaves_of_row (h : ∀ text ∈ texts, ¬ NodeText text) (h' : ∀ text ∈ texts', ¬ NodeText text) {k : ℕ}
    (hrow : firstRow sha256 (textLeaves sha256 texts) =
      (pairLevel (hashPair sha256))^[k] (firstRow sha256 (textLeaves sha256 texts'))) :
    textLeaves sha256 texts = textLeaves sha256 texts' ∨
      Collision sha256 (treeInputs sha256 texts ++ treeInputs sha256 texts') := by
  cases k with
  | zero =>
    rcases Nat.le_total texts'.length texts.length with hle | hle
    · exact texts_of_firstRow_eq h h' hle hrow
    · exact (texts_of_firstRow_eq h' h hle hrow.symm).imp Eq.symm Collision.comm
  | succ k =>
    cases texts with
    | nil =>
      have hmem : emptyRoot sha256 ∈ firstRow sha256 (textLeaves sha256 []) := List.mem_cons_self
      rw [hrow] at hmem
      obtain ⟨x,hx,he,hlen⟩ := exists_input_of_mem_row isDigestText_textLeaves hmem
      refine Or.inr ⟨utf8 "empty" ++ utf8 "empty",?_,x,?_,?_,digestText_injective he⟩
      · exact List.mem_append_left _ (List.mem_append_right _ List.mem_cons_self)
      · exact List.mem_append_right _ (List.mem_append_right _ hx)
      · rintro rfl
        exact absurd hlen (by decide)
    | cons text rest =>
      have hmem : digestText (sha256 text) ∈ firstRow sha256 (textLeaves sha256 (text :: rest)) := by
        rw [firstRow,if_neg (by simp [textLeaves]),padLevel_eq]
        exact List.mem_append_left _ List.mem_cons_self
      rw [hrow] at hmem
      obtain ⟨x,hx,he,-⟩ := exists_input_of_mem_row isDigestText_textLeaves hmem
      exact Or.inr (collision_of_leaf h List.mem_cons_self hx he)

theorem texts_eq_of_textLeaves (hleaves : textLeaves sha256 texts = textLeaves sha256 texts') :
    texts = texts' ∨ Collision sha256 (treeInputs sha256 texts ++ treeInputs sha256 texts') := by
  by_cases hc : Collision sha256 (treeInputs sha256 texts ++ treeInputs sha256 texts')
  · exact Or.inr hc
  · refine Or.inl ?_
    have hinj : ∀ t ∈ texts, ∀ t' ∈ texts', digestText (sha256 t) = digestText (sha256 t') → t = t' := by
      intro t ht t' ht' he
      by_contra hne
      exact hc ⟨t,List.mem_append_left _ (List.mem_append_left _ ht),t',
        List.mem_append_right _ (List.mem_append_left _ ht'),hne,digestText_injective he⟩
    have hlen : texts.length = texts'.length := by simpa [textLeaves] using congrArg List.length hleaves
    refine List.ext_getElem hlen fun i hi hi' => hinj _ (List.getElem_mem hi) _ (List.getElem_mem hi') ?_
    have hat := congrArg (fun l => l[i]?) hleaves
    simpa [textLeaves,List.getElem?_eq_getElem hi,List.getElem?_eq_getElem hi'] using hat

/-- Texts that are no node texts are bound by the root over their digests. -/
theorem texts_eq_or_collision (h : ∀ text ∈ texts, ¬ NodeText text) (h' : ∀ text ∈ texts', ¬ NodeText text)
    (hroot : rootFromLeaves sha256 (textLeaves sha256 texts) = rootFromLeaves sha256 (textLeaves sha256 texts')) :
    texts = texts' ∨ Collision sha256 (treeInputs sha256 texts ++ treeInputs sha256 texts') := by
  rcases sharesRow_or_collision isDigestText_textLeaves isDigestText_textLeaves hroot with ⟨k,hrow | hrow⟩ | hc
  · exact (textLeaves_of_row h h' hrow).elim texts_eq_of_textLeaves Or.inr
  · exact (textLeaves_of_row h' h hrow).elim (fun he => texts_eq_of_textLeaves he.symm) fun hc => Or.inr hc.comm
  · refine Or.inr (hc.mono fun x hx => ?_)
    rcases List.mem_append.mp hx with hx | hx
    · exact List.mem_append_left _ (List.mem_append_right _ hx)
    · exact List.mem_append_right _ (List.mem_append_right _ hx)

end Texts

/-- A root over operations binds what each of them is hashed from, and in particular how many there are. -/
theorem rootFromLeaves_binds_operations (sha256 : Str → Digest) (ops ops' : List CanonicalOp)
    (hroot : rootFromLeaves sha256 (ops.map (CanonicalOp.hash sha256)) =
      rootFromLeaves sha256 (ops'.map (CanonicalOp.hash sha256))) :
    ops.map CanonicalOp.preimage = ops'.map CanonicalOp.preimage ∨
      Collision sha256 (treeInputs sha256 (ops.map CanonicalOp.preimage) ++
        treeInputs sha256 (ops'.map CanonicalOp.preimage)) := by
  have hleaves (ops : List CanonicalOp) :
      ops.map (CanonicalOp.hash sha256) = textLeaves sha256 (ops.map CanonicalOp.preimage) := by
    rw [textLeaves,List.map_map]
    rfl
  have htexts (ops : List CanonicalOp) : ∀ text ∈ ops.map CanonicalOp.preimage, ¬ NodeText text := by
    intro text ht
    obtain ⟨op,-,rfl⟩ := List.mem_map.mp ht
    exact not_nodeText_preimage op
  rw [hleaves,hleaves] at hroot
  exact texts_eq_or_collision (htexts ops) (htexts ops') hroot

/-- Two reads of one file by the processes with the given indices. -/
def readTwice (first second : UInt32) : List CanonicalOp :=
  [⟨.fileRead,first,none,[],[utf8 "sha256:0"],[]⟩,⟨.fileRead,second,none,[],[utf8 "sha256:0"],[]⟩]

theorem rootFromLeaves_binds_operations_indices :
    (readTwice 0 0).map CanonicalOp.preimage = (readTwice 1 2).map CanonicalOp.preimage ∨
      Collision (fun _ => blankDigest) (treeInputs (fun _ => blankDigest) ((readTwice 0 0).map CanonicalOp.preimage) ++
        treeInputs (fun _ => blankDigest) ((readTwice 1 2).map CanonicalOp.preimage)) :=
  rootFromLeaves_binds_operations (fun _ => blankDigest) (readTwice 0 0) (readTwice 1 2) rfl

end Repx.Merkle
