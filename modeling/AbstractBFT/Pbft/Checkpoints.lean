import AbstractBFT.Lib.Entries
import AbstractBFT.Pbft.ReadBack
import Mathlib.Data.List.TakeWhile
/-!
# PBFT — what digests tell about the state

The digest of a partition is the MD5 of its index, its last modification and
its contents, which above the leaves is the sum of the digests below. Where
neither MD5 nor the sums collide, equal digests of two partitions mean equal
last modifications and equal digests below, and so on to the blocks
(`tree_eq_of_digest_eq`). "Collide" is about what is hashed and added up in a
run (`Hashed`): among all inputs there are always collisions.

`Checkpoints` is what correct replicas have in common: the trees of their
checkpoints. They are those of one sequence of writes and checkpoints, since
correct replicas execute the same requests (`Checkpoints.ofRun`).
-/

namespace AbstractBFT.Pbft

open Function Machine List

/-! ## What is hashed -/

/-- The bytes that the digest of a partition is the MD5 of. -/
def partInput (i : ℕ) (lm : ℤ) (data : List UInt8) : List UInt8 :=
  leBytes 4 i ++ leBytes 8 (lm % 2 ^ 64).toNat ++ data

theorem partDigest_eq (md5 : Md5) (i : ℕ) (lm : ℤ) (data : List UInt8) :
    partDigest md5 i lm data = md5 (partInput i lm data) := rfl

/-- A sequence number, as the code holds it. -/
def IsSeqno (n : ℤ) : Prop := -2 ^ 63 ≤ n ∧ n < 2 ^ 63

theorem isSeqno_toInt (n : BitVec 64) : IsSeqno n.toInt :=
  ⟨n.le_toInt, n.toInt_lt⟩

variable {i nb l j : ℕ}

theorem partInput_inj {lm lm' : ℤ} {data data' : List UInt8} (hlm : IsSeqno lm) (hlm' : IsSeqno lm')
    (h : partInput i lm data = partInput i lm' data') : lm = lm' ∧ data = data' := by
  obtain ⟨hhead, hdata⟩ := append_inj h (by simp)
  obtain ⟨-, hbytes⟩ := append_inj hhead (by simp)
  have hmod := mod_eq_of_leBytes_eq hbytes
  obtain ⟨hlo, hhi⟩ := hlm
  obtain ⟨hlo', hhi'⟩ := hlm'
  refine ⟨?_, hdata⟩
  omega

/-! ## What is added up -/

/-- The partitions below that the loops over a partition visit: all there
could be, at the leaves those that have blocks. -/
def subIndices (nb l i : ℕ) : List ℕ :=
  (List.range' (i * pChildren) pChildren).takeWhile
    fun j => !(decide (l + 1 = leafLevel) && decide (nb ≤ j))

theorem takeWhile_lt_range' (nb s k : ℕ) :
    (List.range' s k).takeWhile (fun j => !decide (nb ≤ j)) = List.range' s (min k (nb - s)) := by
  induction k generalizing s with
  | zero => rw [Nat.zero_min]; rfl
  | succ k ih =>
    rw [List.range'_succ, takeWhile_cons]
    by_cases hle : nb ≤ s
    · rw [decide_eq_true hle, Nat.sub_eq_zero_of_le hle, Nat.min_zero]
      rfl
    · have hcount : min (k + 1) (nb - s) = min k (nb - (s + 1)) + 1 := by omega
      rw [decide_eq_false hle, ih, hcount, List.range'_succ]
      rfl

theorem subIndices_eq (nb l i : ℕ) :
    subIndices nb l i = List.range' (i * pChildren)
      (if l + 1 = leafLevel then min pChildren (nb - i * pChildren) else pChildren) := by
  rw [subIndices]
  split
  · next hleaf =>
    rw [decide_eq_true hleaf]
    exact takeWhile_lt_range' nb _ _
  · next hinner =>
    rw [decide_eq_false hinner]
    exact takeWhile_eq_self_iff.2 fun _ _ => rfl

theorem nodup_subIndices (nb l i : ℕ) : (subIndices nb l i).Nodup := by
  rw [subIndices_eq]
  exact nodup_range'

theorem mem_subIndices :
    j ∈ subIndices nb l i ↔ j / pChildren = i ∧ (l + 1 = leafLevel → j < nb) := by
  rw [subIndices_eq, mem_range'_1]
  simp only [pChildren]
  split <;> omega

theorem mem_subIndices_of_mem_children (h : j ∈ children nb l i) : j ∈ subIndices nb l i := by
  obtain ⟨hlt, hdiv⟩ := mem_children.1 h
  refine mem_subIndices.2 ⟨hdiv, fun hleaf => ?_⟩
  rw [hleaf] at hlt
  exact hlt

/-- The sum of digests, as `DSum` has it. -/
def digestSum (ds : List Digest) : ℕ := (ds.map BitVec.toNat).sum % modulus.val

namespace Tree

/-- Partitions without blocks have no digest. -/
def Unused (nb : ℕ) (t : Tree) : Prop := ∀ l i, partCount nb l ≤ i → (t.ptree l i).d = 0

/-- The digests below a partition. -/
def below (nb : ℕ) (t : Tree) (l i : ℕ) : List Digest :=
  (subIndices nb l i).map fun j => (t.ptree (l + 1) j).d

variable {nb : ℕ} {t : Tree}

theorem sum_below (h : t.Unused nb) (l i : ℕ) :
    ((t.below nb l i).map BitVec.toNat).sum =
      ∑ c ∈ children nb l i, (t.ptree (l + 1) c).d.toNat := by
  rw [below, map_map]
  refine (sum_toFinset _ (nodup_subIndices nb l i)).symm.trans ?_
  refine (Finset.sum_subset (fun c hc => ?_) fun c hc hnot => ?_).symm
  · exact mem_toFinset.2 (mem_subIndices_of_mem_children hc)
  · have hdiv := (mem_subIndices.1 (mem_toFinset.1 hc)).1
    have hge : partCount nb (l + 1) ≤ c := not_lt.1 fun hlt => hnot (mem_children.2 ⟨hlt, hdiv⟩)
    rw [comp_apply, h _ _ hge]
    rfl

theorem stree_eq (hsum : t.Summed nb) (h : t.Unused nb) {l : ℕ} (hl : l < leafLevel) (i : ℕ) :
    (t.stree l i).sum = digestSum (t.below nb l i) := by
  rw [digestSum, sum_below h, hsum l hl i]

end Tree

/-! ## Collisions -/

/-- What is hashed, and which digests are added up for each partition. -/
structure Hashed where
  msgs : Set (List UInt8)
  sums : ℕ → ℕ → Set (List Digest)

/-- There are no collisions. -/
structure Hashed.Distinct (X : Hashed) (md5 : Md5) : Prop where
  msgs : Set.InjOn md5 X.msgs
  sums : ∀ l i, Set.InjOn digestSum (X.sums l i)

/-- The digest of the partition is that of its contents, which are among
what is hashed. -/
structure Tree.Good (X : Hashed) (md5 : Md5) (nb : ℕ) (t : Tree) (l i : ℕ) : Prop where
  exact : t.Exact md5 l i
  msg : partInput i (t.ptree l i).lm (t.data l i) ∈ X.msgs
  sum : l < leafLevel → t.below nb l i ∈ X.sums l i
  seqno : IsSeqno (t.ptree l i).lm

section Collisions

variable {X : Hashed} {md5 : Md5} {nb : ℕ}

variable {t t' : Tree} {l i : ℕ}

/-- A digest has one preimage. -/
theorem Tree.Good.of_digest (ht : t.Good X md5 nb l i) (hX : X.Distinct md5) {lm : ℤ}
    {data : List UInt8} (hlm : IsSeqno lm) (hmsg : partInput i lm data ∈ X.msgs)
    (h : partDigest md5 i lm data = (t.ptree l i).d) :
    lm = (t.ptree l i).lm ∧ data = t.data l i := by
  refine partInput_inj hlm ht.seqno (hX.msgs hmsg ht.msg ?_)
  exact h.trans ht.exact

theorem DSum.eq_of_bytes_eq {s s' : DSum modulus} (h : s.bytes = s'.bytes) : s.sum = s'.sum := by
  have hmod := mod_eq_of_leBytes_eq h
  have hs := s.lt.trans modulus.lt_nbits
  have hs' := s'.lt.trans modulus.lt_nbits
  rwa [Nat.mod_eq_of_lt (hs.trans (by decide)), Nat.mod_eq_of_lt (hs'.trans (by decide))] at hmod

/-- **Equal digests**: the same last modification, and the same below. -/
theorem Tree.Good.eq_of_digest_eq (hX : X.Distinct md5) (ht : t.Good X md5 nb l i)
    (ht' : t'.Good X md5 nb l i) (h : (t.ptree l i).d = (t'.ptree l i).d) :
    t.ptree l i = t'.ptree l i ∧ t.data l i = t'.data l i := by
  obtain ⟨hlm, hdata⟩ := ht'.of_digest hX ht.seqno ht.msg (ht.exact.symm.trans h)
  exact ⟨congrArg₂ Part.mk hlm h, hdata⟩

theorem below_eq_of_data_eq (hX : X.Distinct md5) (hl : l < leafLevel)
    (hs : t.Summed nb) (hu : t.Unused nb) (hs' : t'.Summed nb) (hu' : t'.Unused nb)
    (hsum : t.below nb l i ∈ X.sums l i) (hsum' : t'.below nb l i ∈ X.sums l i)
    (h : t.data l i = t'.data l i) : t.below nb l i = t'.below nb l i := by
  refine hX.sums l i hsum hsum' ?_
  rw [← Tree.stree_eq hs hu hl, ← Tree.stree_eq hs' hu' hl]
  rw [Tree.data, Tree.data, if_neg hl.ne, if_neg hl.ne] at h
  exact DSum.eq_of_bytes_eq h

theorem digest_eq_of_below_eq {j : ℕ} (h : t.below nb l i = t'.below nb l i)
    (hj : j ∈ subIndices nb l i) : (t.ptree (l + 1) j).d = (t'.ptree (l + 1) j).d :=
  map_inj_left.1 h j hj

theorem div_lt_partCount (hnb : nb ≤ pLevelSize leafLevel) (hl : l < leafLevel)
    (hi : i < partCount nb (l + 1)) : i / pChildren < partCount nb l := by
  match l with
  | 0 | 1 | 2 => simp only [partCount, parentCount, pChildren, pLevelSize, leafLevel] at *; omega
  | l + 3 => simp only [leafLevel] at hl; omega

/-- **The digest of the root determines the tree.** -/
theorem tree_eq_of_digest_eq (hX : X.Distinct md5) (hnb : nb ≤ pLevelSize leafLevel)
    (hs : t.Summed nb) (hu : t.Unused nb) (hs' : t'.Summed nb) (hu' : t'.Unused nb)
    (ht : ∀ l ≤ leafLevel, ∀ i < partCount nb l, t.Good X md5 nb l i)
    (ht' : ∀ l ≤ leafLevel, ∀ i < partCount nb l, t'.Good X md5 nb l i)
    (h : (t.ptree 0 0).d = (t'.ptree 0 0).d) :
    ∀ l ≤ leafLevel, ∀ i < partCount nb l,
      t.ptree l i = t'.ptree l i ∧ t.data l i = t'.data l i := by
  intro l
  induction l with
  | zero =>
    intro hl i hi
    obtain rfl := Nat.lt_one_iff.1 hi
    exact (ht 0 hl 0 hi).eq_of_digest_eq hX (ht' 0 hl 0 hi) h
  | succ l ih =>
    intro hl i hi
    have hlt : l < leafLevel := hl
    have hparent := div_lt_partCount hnb hlt hi
    have hbelow := below_eq_of_data_eq hX hlt hs hu hs' hu' ((ht l hlt.le _ hparent).sum hlt)
      ((ht' l hlt.le _ hparent).sum hlt) (ih hlt.le _ hparent).2
    refine (ht _ hl i hi).eq_of_digest_eq hX (ht' _ hl i hi) (digest_eq_of_below_eq hbelow ?_)
    exact mem_subIndices_of_mem_children (mem_children.2 ⟨hi, rfl⟩)

end Collisions

/-! ## The checkpoints of correct replicas -/

/-- The trees of the checkpoints that correct replicas take. The number of
bytes of the memory is an `int`, so the tree has room for the blocks. -/
structure Checkpoints (md5 : Md5) (nb : ℕ) where
  tree : ℤ → Option Tree
  nb_le : nb ≤ pLevelSize leafLevel
  summed : ∀ {n t}, tree n = some t → t.Summed nb
  unused : ∀ {n t}, tree n = some t → t.Unused nb
  exact : ∀ {n t}, tree n = some t → ∀ l ≤ leafLevel, ∀ i < partCount nb l, t.Exact md5 l i
  lt : ∀ {n t}, tree n = some t → n < 2 ^ 63
  lm_le : ∀ {n t}, tree n = some t → ∀ l i, 0 ≤ (t.ptree l i).lm ∧ (t.ptree l i).lm ≤ n
  /-- A partition was modified when one below it was. -/
  lm_below : ∀ {n t}, tree n = some t → ∀ l < leafLevel, ∀ i < partCount nb (l + 1),
    (t.ptree (l + 1) i).lm ≤ (t.ptree l (i / pChildren)).lm
  /-- A partition that was not modified is the same. -/
  same : ∀ {n t n' t'}, tree n = some t → tree n' = some t' → n ≤ n' → ∀ l i,
    (t'.ptree l i).lm ≤ n → t'.ptree l i = t.ptree l i

/-- The digests of the tree are among what is hashed. -/
def Hashed.Covers (X : Hashed) (nb : ℕ) (t : Tree) : Prop :=
  ∀ l ≤ leafLevel, ∀ i < partCount nb l, partInput i (t.ptree l i).lm (t.data l i) ∈ X.msgs ∧
    (l < leafLevel → t.below nb l i ∈ X.sums l i)

theorem Checkpoints.good {md5 : Md5} (H : Checkpoints md5 nb) {X : Hashed} {n : ℤ} {t : Tree}
    (ht : H.tree n = some t) (hX : X.Covers nb t) (hl : l ≤ leafLevel) (hi : i < partCount nb l) :
    t.Good X md5 nb l i := by
  obtain ⟨hmsg, hsum⟩ := hX l hl i hi
  obtain ⟨hlo, hhi⟩ := H.lm_le ht l i
  have hlt := H.lt ht
  exact ⟨H.exact ht l hl i hi, hmsg, hsum, by rw [IsSeqno]; omega⟩

/-! ## Recording a run -/

namespace State

variable {md5 : Md5}

theorem ptree_foldl_updatePart (md5 : Md5) (n : ℤ) (l : ℕ) (is : List ℕ) (s : State) (l' i' : ℕ) :
    (l' = l ∧ i' ∈ is → ((is.foldl (updatePart md5 n l) s).tree.ptree l' i').lm = n) ∧
      (¬ (l' = l ∧ i' ∈ is) →
        (is.foldl (updatePart md5 n l) s).tree.ptree l' i' = s.tree.ptree l' i') := by
  induction is generalizing s with
  | nil => exact ⟨fun h => absurd h.2 not_mem_nil, fun _ => rfl⟩
  | cons i is ih =>
    obtain ⟨hin, hout⟩ := ih (updatePart md5 n l s i)
    rw [foldl_cons]
    refine ⟨fun h => ?_, fun h => ?_⟩
    · by_cases hlater : i' ∈ is
      · exact hin ⟨h.1, hlater⟩
      · obtain rfl : i' = i := (mem_cons.1 h.2).resolve_right hlater
        rw [hout fun h' => hlater h'.2, tree_updatePart, h.1, Tree.ptree_replace, setAt_self]
    · rw [hout fun h' => h ⟨h'.1, mem_cons_of_mem i h'.2⟩, tree_updatePart,
        Tree.ptree_replace, setAt_of_ne fun h' => h ⟨h'.1, mem_cons.2 (.inl h'.2)⟩]

theorem ptree_foldl_levels (md5 : Md5) (n : ℤ) (mods : ℕ → List ℕ) {ls : List ℕ} (hls : ls.Nodup)
    (s : State) (l i : ℕ) :
    let s' := ls.foldl (fun s l => (mods l).foldl (updatePart md5 n l) s) s
    (l ∈ ls ∧ i ∈ mods l → (s'.tree.ptree l i).lm = n) ∧
      (¬ (l ∈ ls ∧ i ∈ mods l) → s'.tree.ptree l i = s.tree.ptree l i) := by
  induction ls generalizing s with
  | nil => exact ⟨fun h => absurd h.1 not_mem_nil, fun _ => rfl⟩
  | cons k ls ih =>
    obtain ⟨hk, hnodup⟩ := nodup_cons.1 hls
    obtain ⟨hin, hout⟩ := ih hnodup ((mods k).foldl (updatePart md5 n k) s)
    obtain ⟨hin', hout'⟩ := ptree_foldl_updatePart md5 n k (mods k) s l i
    refine ⟨fun h => ?_, fun h => ?_⟩
    · by_cases hlater : l ∈ ls
      · exact hin ⟨hlater, h.2⟩
      · obtain rfl : l = k := (mem_cons.1 h.1).resolve_right hlater
        exact (congrArg Part.lm (hout fun h' => hlater h'.1)).trans (hin' ⟨rfl, h.2⟩)
    · refine (hout fun h' => h ⟨mem_cons_of_mem k h'.1, h'.2⟩).trans (hout' fun h' => h ?_)
      obtain ⟨rfl, hmem⟩ := h'
      exact ⟨mem_cons_self, hmem⟩

/-- **What `update_ptree` modifies**: with a partition those above it. -/
theorem modified_updatePtree (md5 : Md5) (s : State) (n : ℤ) : ∃ M : ℕ → ℕ → Prop,
    (∀ l i, M l i → i < partCount s.nb l ∧ ((s.updatePtree md5 n).tree.ptree l i).lm = n) ∧
    (∀ l i, ¬ M l i → (s.updatePtree md5 n).tree.ptree l i = s.tree.ptree l i) ∧
    ∀ l i, i / pChildren < partCount s.nb l → M (l + 1) i → M l (i / pChildren) := by
  set mods₃ := (List.range s.nb).filter s.cowb with hmods
  -- the partitions of each level, and whether the root is reached
  let mods : ℕ → List ℕ := fun l =>
    if l = 0 then if 0 ∈ parents (parents (parents mods₃)) then [0] else []
    else if l = 1 then parents (parents mods₃)
    else if l = 2 then parents mods₃
    else mods₃
  have hlevels : s.updatePtree md5 n = ([3, 2, 1, 0] : List ℕ).foldl
      (fun s l => (mods l).foldl (updatePart md5 n l) s) s := by
    rw [updatePtree, ← hmods]
    simp only [foldl_cons, foldl_nil, mods]
    split <;> rfl
  have hnodup : ([3, 2, 1, 0] : List ℕ).Nodup := by decide
  have hmem := fun l i => ptree_foldl_levels md5 n mods hnodup s l i
  have hlt₃ : ∀ i ∈ mods₃, i < s.nb := fun i hi => mem_range.1 (mem_filter.1 hi).1
  have hlt₂ : ∀ i ∈ parents mods₃, i < parentCount s.nb := by
    intro i hi
    obtain ⟨c, hc, rfl⟩ := mem_parents.1 hi
    exact div_lt_parentCount (hlt₃ c hc)
  have hlt₁ : ∀ i ∈ parents (parents mods₃), i < parentCount (parentCount s.nb) := by
    intro i hi
    obtain ⟨c, hc, rfl⟩ := mem_parents.1 hi
    exact div_lt_parentCount (hlt₂ c hc)
  rw [hlevels]
  refine ⟨fun l i => l ∈ ([3, 2, 1, 0] : List ℕ) ∧ i ∈ mods l, fun l i h => ⟨?_, (hmem l i).1 h⟩,
    fun l i => (hmem l i).2, fun l i hi h => ?_⟩
  · obtain ⟨hl, hi⟩ := h
    simp only [mem_cons, not_mem_nil, or_false] at hl
    rcases hl with rfl | rfl | rfl | rfl
    · exact hlt₃ i hi
    · exact hlt₂ i hi
    · exact hlt₁ i hi
    · simp only [mods, ↓reduceIte] at hi
      split at hi
      · rw [mem_singleton.1 hi]
        exact Nat.zero_lt_one
      · cases hi
  · obtain ⟨hl, hmods⟩ := h
    simp only [mem_cons, not_mem_nil, or_false, Nat.add_eq_zero_iff, one_ne_zero,
      and_false] at hl
    have hup : ∀ is : List ℕ, i ∈ is → i / pChildren ∈ parents is :=
      fun is hmem => mem_parents.2 ⟨i, hmem, rfl⟩
    rcases hl with hl | hl | hl
    · obtain rfl : l = 2 := by omega
      exact ⟨by decide, hup _ hmods⟩
    · obtain rfl : l = 1 := by omega
      exact ⟨by decide, hup _ hmods⟩
    · obtain rfl : l = 0 := by omega
      obtain hzero : i / pChildren = 0 := Nat.lt_one_iff.1 hi
      have hroot := hup _ hmods
      rw [hzero] at hroot ⊢
      refine ⟨by decide, ?_⟩
      change 0 ∈ if 0 ∈ parents (parents (parents mods₃)) then [0] else []
      rw [if_pos (show 0 ∈ parents (parents (parents mods₃)) from hroot)]
      exact mem_singleton_self 0

end State

/-- A run of writes and checkpoints, and the trees of the checkpoints. -/
structure Recording where
  state : State
  tree : ℤ → Option Tree

namespace Recording

open State

variable {md5 : Md5} {nb : ℕ}

/-- After `compute_full_digest`. -/
def init (md5 : Md5) (nb : ℕ) (mem : ℕ → Block) : Recording :=
  ⟨start md5 nb mem, update (fun _ => none) 0 (some (start md5 nb mem).tree)⟩

/-- A write or a checkpoint. -/
def step (md5 : Md5) (r : Recording) : Update → Recording
  | .modify m size data => { r with state := r.state.modify m size data }
  | .checkpoint n =>
    ⟨r.state.checkpoint md5 n,
      update r.tree n (some (r.state.checkpoint md5 n).tree)⟩

/-- Checkpoints have growing sequence numbers. -/
def Later (r : Recording) : Update → Prop
  | .modify _ _ _ => True
  | .checkpoint n => r.state.lc < n ∧ n < 2 ^ 63

/-- The last modifications of a tree, up to checkpoint `n`. -/
structure Dated (nb : ℕ) (n : ℤ) (t : Tree) : Prop where
  unused : t.Unused nb
  lm_le : ∀ l i, 0 ≤ (t.ptree l i).lm ∧ (t.ptree l i).lm ≤ n
  lm_below : ∀ l < leafLevel, ∀ i < partCount nb (l + 1),
    (t.ptree (l + 1) i).lm ≤ (t.ptree l (i / pChildren)).lm

/-- What holds in every state of a run. -/
structure Inv (md5 : Md5) (nb : ℕ) (r : Recording) : Prop where
  blocks : r.state.nb = nb
  current : r.state.Current md5
  lt : r.state.lc < 2 ^ 63
  dated : Dated nb r.state.lc r.state.tree
  trees : ∀ n t, r.tree n = some t → UpToDate md5 nb (fun _ _ => False) t ∧ Dated nb n t ∧
    n ≤ r.state.lc ∧
    ∀ l i, (r.state.tree.ptree l i).lm ≤ n → r.state.tree.ptree l i = t.ptree l i
  same : ∀ n t n' t', r.tree n = some t → r.tree n' = some t' → n ≤ n' → ∀ l i,
    (t'.ptree l i).lm ≤ n → t'.ptree l i = t.ptree l i

theorem Dated.checkpoint (md5 : Md5) {s : State} (h : Dated s.nb s.lc s.tree)
    (hnb : s.nb ≤ pLevelSize leafLevel) {n : ℤ} (hn : s.lc ≤ n) :
    Dated s.nb n (s.checkpoint md5 n).tree ∧
      ∀ l i, ((s.checkpoint md5 n).tree.ptree l i).lm = n ∨
        (s.checkpoint md5 n).tree.ptree l i = s.tree.ptree l i := by
  obtain ⟨M, hin, hout, hup⟩ := modified_updatePtree md5 s n
  have hcases : ∀ l i, ((s.updatePtree md5 n).tree.ptree l i).lm = n ∨
      (s.updatePtree md5 n).tree.ptree l i = s.tree.ptree l i := by
    intro l i
    by_cases hM : M l i
    · exact .inl (hin l i hM).2
    · exact .inr (hout l i hM)
  have hlm : ∀ l i, 0 ≤ ((s.updatePtree md5 n).tree.ptree l i).lm ∧
      ((s.updatePtree md5 n).tree.ptree l i).lm ≤ n := by
    intro l i
    obtain ⟨hlo, hhi⟩ := h.lm_le l i
    rcases hcases l i with heq | heq <;> rw [heq] <;> omega
  refine ⟨⟨fun l i hi => ?_, hlm, fun l hl i hi => ?_⟩, hcases⟩
  · have hM : ¬ M l i := fun hM => absurd (hin l i hM).1 (not_lt.2 hi)
    exact (congrArg Part.d (hout l i hM)).trans (h.unused l i hi)
  · by_cases hM : M (l + 1) i
    · -- with the partition the one above was modified
      have hparent := (hin _ _ (hup l i (div_lt_partCount hnb hl hi) hM)).2
      exact (hin _ _ hM).2.trans_le hparent.ge
    · change ((s.updatePtree md5 n).tree.ptree (l + 1) i).lm ≤ _
      rw [hout _ _ hM]
      refine (h.lm_below l hl i hi).trans ?_
      rcases hcases l (i / pChildren) with heq | heq
      · exact ((h.lm_le l _).2.trans hn).trans heq.ge
      · exact (congrArg Part.lm heq).ge

theorem Dated.of_ptree {nb : ℕ} {n : ℤ} {t t' : Tree} (h : Dated nb n t)
    (heq : t'.ptree = t.ptree) : Dated nb n t' := by
  refine ⟨fun l i hi => ?_, ?_, ?_⟩
  · rw [heq]
    exact h.unused l i hi
  · rw [heq]
    exact h.lm_le
  · rw [heq]
    exact h.lm_below

theorem lc_modify (s : State) (m size : ℕ) (data : ℕ → Block) :
    (s.modify m size data).lc = s.lc := by
  change (s.cow m size).lc = s.lc
  rw [cow]
  generalize blocks m size = bs
  induction bs generalizing s with
  | nil => rfl
  | cons b bs ih =>
    rw [foldl_cons, ih]
    split <;> rfl

theorem inv_step {r : Recording} {u : Update} (h : r.Inv md5 nb) (hnb : nb ≤ pLevelSize leafLevel)
    (hu : r.Later u) : (r.step md5 u).Inv md5 nb := by
  cases u with
  | modify m size data =>
    obtain ⟨htree, hnb', -⟩ := r.state.cow_frame m size
    have hptree : (r.state.modify m size data).tree.ptree = r.state.tree.ptree := by
      change (r.state.cow m size).tree.ptree = _
      rw [htree]
    have hlc := lc_modify r.state m size data
    refine ⟨hnb'.trans h.blocks, current_modify h.current m size data, ?_, ?_, fun n t ht => ?_,
      h.same⟩
    · exact hlc.trans_lt h.lt
    · change Dated nb (r.state.modify m size data).lc _
      rw [hlc]
      exact h.dated.of_ptree hptree
    · obtain ⟨hup, hdated, hle, hsame⟩ := h.trees n t ht
      refine ⟨hup, hdated, hle.trans_eq hlc.symm, ?_⟩
      change ∀ l i, ((r.state.modify m size data).tree.ptree l i).lm ≤ n →
        (r.state.modify m size data).tree.ptree l i = _
      rw [hptree]
      exact hsame
  | checkpoint n =>
    obtain ⟨hlt, hn⟩ := hu
    obtain rfl := h.blocks
    obtain ⟨hdated, hcases⟩ := h.dated.checkpoint md5 hnb hlt.le
    have hblocks : (r.state.checkpoint md5 n).nb = r.state.nb := (frame_updatePtree md5 r.state n).1
    have hup := current_checkpoint h.current n
    have hcurrent := UpToDate.current hup
    rw [hblocks] at hup
    -- an old checkpoint shows what the new one did not modify
    have hold : ∀ n' t, r.tree n' = some t → n' < n ∧ ∀ l i,
        ((r.state.checkpoint md5 n).tree.ptree l i).lm ≤ n' →
          (r.state.checkpoint md5 n).tree.ptree l i = t.ptree l i := by
      intro n' t ht
      obtain ⟨-, -, hle, hsame⟩ := h.trees n' t ht
      refine ⟨hle.trans_lt hlt, fun l i hlm => ?_⟩
      rcases hcases l i with heq | heq
      · rw [heq] at hlm
        omega
      · rw [heq] at hlm ⊢
        exact hsame l i hlm
    have htree : ∀ n' t, (r.step md5 (.checkpoint n)).tree n' = some t →
        n' = n ∧ t = (r.state.checkpoint md5 n).tree ∨ r.tree n' = some t := by
      intro n' t ht
      exact (Entries.of_write ht).imp_right And.right
    refine ⟨hblocks, hcurrent, hn, hdated, fun n' t ht => ?_, fun n₁ t₁ n₂ t₂ ht₁ ht₂ hle => ?_⟩
    · rcases htree n' t ht with ⟨rfl, rfl⟩ | ht
      · exact ⟨hup, hdated, le_rfl, fun _ _ _ => rfl⟩
      · obtain ⟨hup', hdated', hle, -⟩ := h.trees n' t ht
        exact ⟨hup', hdated', hle.trans hlt.le, (hold n' t ht).2⟩
    · rcases htree n₁ t₁ ht₁ with ⟨rfl, rfl⟩ | h₁ <;> rcases htree n₂ t₂ ht₂ with ⟨rfl, rfl⟩ | h₂
      · exact fun _ _ _ => rfl
      · exact absurd (hold n₂ t₂ h₂).1 (not_lt.2 hle)
      · exact (hold n₁ t₁ h₁).2
      · exact h.same n₁ t₁ n₂ t₂ h₁ h₂ hle

/-- `compute_full_digest` leaves partitions without blocks alone. -/
theorem ptree_fullTree_of_le {t : Tree} {l i : ℕ} (hi : partCount nb l ≤ i) :
    (fullTree md5 nb t).ptree l i = t.ptree l i := by
  have hfold : ∀ (l' : ℕ) (is : List ℕ) (t : Tree), (l' = l → i ∉ is) →
      (is.foldl (fullPart md5 l') t).ptree l i = t.ptree l i := by
    intro l' is
    induction is with
    | nil => exact fun _ _ => rfl
    | cons j is ih =>
      intro t hnot
      refine (ih _ fun heq hmem => hnot heq (mem_cons_of_mem j hmem)).trans ?_
      refine setAt_of_ne fun heq => hnot heq.1.symm ?_
      rw [heq.2]
      exact mem_cons_self
  have hrange : ∀ l', l' = l → i ∉ List.range (partCount nb l') := by
    rintro l' rfl hmem
    exact absurd (mem_range.1 hmem) (not_lt.2 hi)
  have hroot : ∀ (t : Tree) (p : Part), setAt t.ptree 0 0 p l i = t.ptree l i := by
    intro t p
    refine setAt_of_ne fun heq => ?_
    obtain ⟨rfl, rfl⟩ := heq
    exact absurd hi (by decide : ¬ 1 ≤ 0)
  exact (hroot _ _).trans ((hfold 1 _ _ (hrange 1)).trans ((hfold 2 _ _ (hrange 2)).trans
    (hfold 3 _ _ (hrange 3))))

theorem inv_init (md5 : Md5) (nb : ℕ) (mem : ℕ → Block) : (init md5 nb mem).Inv md5 nb := by
  have htree : (start md5 nb mem).tree = fullTree md5 nb (new nb mem).tree := by
    rw [start, computeFullDigest, State.checkpoint, updatePtree_of_not_cowb fun _ => rfl]
    rfl
  have hblocks : (start md5 nb mem).nb = nb := (frame_updatePtree md5 _ 0).1
  have hup : UpToDate md5 _ (fun _ _ => False) (start md5 nb mem).tree := upToDate_start nb mem
  have hlm : ∀ l i, ((start md5 nb mem).tree.ptree l i).lm = 0 := by
    intro l i
    rw [htree]
    exact lm_fullTree nb _ l i
  have hdated : Dated nb 0 (start md5 nb mem).tree := by
    refine ⟨fun l i hi => ?_, fun l i => ?_, fun l _ i _ => ?_⟩
    · rw [htree, ptree_fullTree_of_le hi]
      rfl
    · rw [hlm]
      exact ⟨le_rfl, le_rfl⟩
    · rw [hlm, hlm]
  have honly : ∀ n t, (init md5 nb mem).tree n = some t → n = 0 ∧ t = (start md5 nb mem).tree := by
    intro n t ht
    change update (fun _ => none) 0 (some (start md5 nb mem).tree) n = some t at ht
    rcases Entries.of_write ht with hnew | ⟨-, hold⟩
    · exact hnew
    · cases hold
  have hcurrent := UpToDate.current hup
  rw [hblocks] at hup
  have hlt : (0 : ℤ) < 2 ^ 63 := by decide
  refine ⟨hblocks, hcurrent, hlt, hdated, fun n t ht => ?_, fun n t n' t' ht ht' _ => ?_⟩
  · obtain ⟨rfl, rfl⟩ := honly n t ht
    exact ⟨hup, hdated, le_rfl, fun _ _ _ => rfl⟩
  · obtain ⟨rfl, rfl⟩ := honly n t ht
    obtain ⟨rfl, rfl⟩ := honly n' t' ht'
    exact fun _ _ _ => rfl

end Recording

/-- **The checkpoints of a run.** Whatever is written, the trees of the
checkpoints fit together. -/
def Checkpoints.ofRun {md5 : Md5} {nb : ℕ} (hnb : nb ≤ pLevelSize leafLevel) (mem : ℕ → Block)
    {us : List Update} (hus : Guarded (Recording.step md5) Recording.Later (.init md5 nb mem) us) :
    Checkpoints md5 nb :=
  have hinv : (exec (Recording.step md5) (.init md5 nb mem) us).Inv md5 nb :=
    Guarded.invariant (fun _ _ h hu => Recording.inv_step h hnb hu)
      (Recording.inv_init md5 nb mem) hus
  { tree := (exec (Recording.step md5) (.init md5 nb mem) us).tree
    nb_le := hnb
    summed := fun ht => (hinv.trees _ _ ht).1.summed
    unused := fun ht => (hinv.trees _ _ ht).2.1.unused
    exact := fun ht l hl i hi => (hinv.trees _ _ ht).1.exact l hl i hi id
    lt := fun ht => (hinv.trees _ _ ht).2.2.1.trans_lt hinv.lt
    lm_le := fun ht => (hinv.trees _ _ ht).2.1.lm_le
    lm_below := fun ht => (hinv.trees _ _ ht).2.1.lm_below
    same := fun ht ht' => hinv.same _ _ _ _ ht ht' }

end AbstractBFT.Pbft
