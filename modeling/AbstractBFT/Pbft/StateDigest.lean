import AbstractBFT.Pbft.State
/-!
# PBFT — incremental state digests are exact

`compute_full_digest` goes over all blocks once; afterwards `checkpoint`
touches only the partitions above blocks that were copied since the last
one. Between checkpoints the digest of a copied block may be old, and of
nothing else (`UpToDate`); going up the tree level by level, a checkpoint
moves that exception from a partition to the one above it and out at the
root.

So after every checkpoint each sum is the sum of the digests below it modulo
`DSum::M`, and each digest is the one that the blocks and the last
modifications determine (`checkpoint_digests_exact`).
-/

namespace AbstractBFT.Pbft

open Function Machine List

variable {md5 : Md5} {nb : ℕ}

/-- The sums are right, and so are the digests outside `E`. -/
structure UpToDate (md5 : Md5) (nb : ℕ) (E : ℕ → ℕ → Prop) (t : Tree) : Prop where
  summed : t.Summed nb
  exact : ∀ l ≤ leafLevel, ∀ i < partCount nb l, ¬ E l i → t.Exact md5 l i

namespace UpToDate

variable {E : ℕ → ℕ → Prop} {t : Tree}

theorem mono {E' : ℕ → ℕ → Prop} (h : UpToDate md5 nb E t)
    (hE : ∀ l ≤ leafLevel, ∀ i < partCount nb l, E l i → E' l i) : UpToDate md5 nb E' t where
  summed := h.summed
  exact l hl i hi hE' := h.exact l hl i hi fun hmem => hE' (hE l hl i hi hmem)

/-- A partition gets its digest, and the one above it becomes old. -/
theorem replace (h : UpToDate md5 nb E t) {l i : ℕ} (hi : i < partCount nb l) (n : ℤ) :
    UpToDate md5 nb
      (fun l' i' => E l' i' ∧ ¬ (l' = l ∧ i' = i) ∨ l' + 1 = l ∧ i' = i / pChildren)
      (t.replace l i ⟨n, partDigest md5 i n (t.data l i)⟩) where
  summed := h.summed.replace hi _
  exact l' hl' i' hi' hE := by
    rw [not_or] at hE
    by_cases hself : l' = l ∧ i' = i
    · obtain ⟨rfl, rfl⟩ := hself
      exact Tree.exact_replace_self rfl
    · refine (h.exact l' hl' i' hi' fun hmem => hE.1 ⟨hmem, hself⟩).replace hself hE.2

end UpToDate

/-! ## One checkpoint -/

namespace State

@[simp] theorem tree_updatePart (n : ℤ) (l : ℕ) (s : State) (i : ℕ) :
    (updatePart md5 n l s i).tree =
      s.tree.replace l i ⟨n, partDigest md5 i n (s.tree.data l i)⟩ := by
  rw [updatePart]
  split <;> rfl

theorem frame_updatePart (md5 : Md5) (n : ℤ) (l : ℕ) (s : State) (i : ℕ) :
    (updatePart md5 n l s i).nb = s.nb ∧ (updatePart md5 n l s i).clog.head = s.clog.head := by
  rw [updatePart]
  split <;> exact ⟨rfl, rfl⟩

theorem frame_foldl_updatePart (md5 : Md5) (n : ℤ) (l : ℕ) (is : List ℕ) (s : State) :
    (is.foldl (updatePart md5 n l) s).nb = s.nb ∧
      (is.foldl (updatePart md5 n l) s).clog.head = s.clog.head := by
  induction is generalizing s with
  | nil => exact ⟨rfl, rfl⟩
  | cons i is ih =>
    obtain ⟨hnb, hhead⟩ := frame_updatePart md5 n l s i
    obtain ⟨hnb', hhead'⟩ := ih (updatePart md5 n l s i)
    exact ⟨hnb'.trans hnb, hhead'.trans hhead⟩

variable {s : State} {l : ℕ} {is : List ℕ} {t : Tree}

/-- A level is brought up to date, at the cost of the one above. -/
theorem upToDate_level (his : ∀ i ∈ is, i < partCount nb l) {Q : ℕ → Prop} (n : ℤ)
    (h : UpToDate md5 nb (fun l' i' => l' = l ∧ i' ∈ is ∨ l' + 1 = l ∧ Q i') s.tree) :
    UpToDate md5 nb (fun l' i' => l' + 1 = l ∧ (Q i' ∨ ∃ i ∈ is, i' = i / pChildren))
      (is.foldl (updatePart md5 n l) s).tree := by
  induction is generalizing s Q with
  | nil =>
    refine h.mono fun l' _ i' _ hE => ?_
    rcases hE with ⟨-, hmem⟩ | hQ
    · cases hmem
    · exact ⟨hQ.1, .inl hQ.2⟩
  | cons i is ih =>
    have hnext := h.replace (his i mem_cons_self) n
    rw [← tree_updatePart] at hnext
    have hrest := ih (Q := fun i' => Q i' ∨ i' = i / pChildren)
      (fun j hj => his j (mem_cons_of_mem i hj)) (hnext.mono fun l' _ i' _ hE => ?_)
    · refine hrest.mono fun l' _ i' _ hE => ⟨hE.1, ?_⟩
      rcases hE.2 with (hQ | heq) | ⟨j, hj, heq⟩
      · exact .inl hQ
      · exact .inr ⟨i, mem_cons_self, heq⟩
      · exact .inr ⟨j, mem_cons_of_mem i hj, heq⟩
    · rcases hE with ⟨⟨rfl, hmem⟩ | hQ, hne⟩ | hparent
      · exact .inl ⟨rfl, (mem_cons.1 hmem).resolve_left fun heq => hne ⟨rfl, heq⟩⟩
      · exact .inr ⟨hQ.1, .inl hQ.2⟩
      · exact .inr ⟨hparent.1, .inr hparent.2⟩

theorem mem_parents {j : ℕ} : j ∈ parents is ↔ ∃ i ∈ is, j = i / pChildren := by
  have hfold : ∀ (is ps : List ℕ),
      j ∈ is.foldl (fun ps i => if i / pChildren ∈ ps then ps else ps ++ [i / pChildren]) ps ↔
        j ∈ ps ∨ ∃ i ∈ is, j = i / pChildren := by
    intro is
    induction is with
    | nil => simp
    | cons i is ih =>
      intro ps
      rw [foldl_cons, ih]
      by_cases hmem : i / pChildren ∈ ps
      · rw [if_pos hmem, exists_mem_cons_iff]
        refine ⟨Or.imp_right Or.inr, ?_⟩
        rintro (h | rfl | h)
        · exact .inl h
        · exact .inl hmem
        · exact .inr h
      · rw [if_neg hmem, mem_append, mem_singleton, or_assoc, exists_mem_cons_iff]
  rw [parents, hfold]
  simp

theorem div_lt_parentCount {c np : ℕ} (h : c < np) : c / pChildren < parentCount np := by
  rw [parentCount, pChildren]
  omega

/-- **The tree after a checkpoint** is up to date, if before it was but for
copied blocks. -/
theorem upToDate_updatePtree
    (h : UpToDate md5 s.nb (fun l i => l = leafLevel ∧ s.cowb i = true) s.tree) (n : ℤ) :
    UpToDate md5 s.nb (fun _ _ => False) (s.updatePtree md5 n).tree := by
  set mods₃ := (List.range s.nb).filter s.cowb with hmods
  have hlt₃ : ∀ i ∈ mods₃, i < partCount s.nb 3 := fun i hi =>
    mem_range.1 (mem_filter.1 hi).1
  have hlt₂ : ∀ i ∈ parents mods₃, i < partCount s.nb 2 := by
    intro i hi
    obtain ⟨c, hc, rfl⟩ := mem_parents.1 hi
    exact div_lt_parentCount (hlt₃ c hc)
  have hlt₁ : ∀ i ∈ parents (parents mods₃), i < partCount s.nb 1 := by
    intro i hi
    obtain ⟨c, hc, rfl⟩ := mem_parents.1 hi
    exact div_lt_parentCount (hlt₂ c hc)
  -- the exception goes up one level at a time
  have hup : ∀ {l : ℕ} {is : List ℕ} {t : Tree},
      UpToDate md5 s.nb (fun l' i' => l' + 1 = l + 1 ∧ (False ∨ ∃ i ∈ is, i' = i / pChildren)) t →
      UpToDate md5 s.nb (fun l' i' => l' = l ∧ i' ∈ parents is ∨ l' + 1 = l ∧ False) t := by
    intro l is t ht
    refine ht.mono fun l' _ i' _ hE => .inl ⟨Nat.succ.inj hE.1, mem_parents.2 ?_⟩
    exact hE.2.resolve_left id
  have h₃ := upToDate_level (Q := fun _ => False) hlt₃ n (h.mono fun l _ i hi hE =>
    .inl ⟨hE.1, mem_filter.2 ⟨by
      obtain ⟨rfl, -⟩ := hE
      exact mem_range.2 hi, hE.2⟩⟩)
  have h₂ := upToDate_level hlt₂ n (hup h₃)
  have h₁ := hup (upToDate_level hlt₁ n (hup h₂))
  have hroot : ∀ {t : Tree}, UpToDate md5 s.nb (fun l i => l = 0 ∧ i ≠ 0) t →
      UpToDate md5 s.nb (fun _ _ => False) t := by
    intro t ht
    refine ht.mono fun l _ i hi hE => hE.2 ?_
    obtain ⟨rfl, -⟩ := hE
    exact Nat.lt_one_iff.1 hi
  rw [updatePtree]
  split
  · rw [tree_updatePart]
    refine hroot ((h₁.replace Nat.zero_lt_one n).mono fun l _ i _ hE => ?_)
    rcases hE with ⟨⟨rfl, -⟩ | hE, hne⟩ | hE
    · exact ⟨rfl, fun heq => hne ⟨rfl, heq⟩⟩
    · exact absurd hE.2 id
    · exact absurd hE.1 (Nat.succ_ne_zero l)
  · next hno =>
    refine hroot (h₁.mono fun l _ i _ hE => ?_)
    rcases hE with ⟨rfl, hmem⟩ | hE
    · exact ⟨rfl, fun heq => hno (heq ▸ hmem)⟩
    · exact absurd hE.2 id

theorem frame_updatePtree (md5 : Md5) (s : State) (n : ℤ) :
    (s.updatePtree md5 n).nb = s.nb ∧ (s.updatePtree md5 n).clog.head = s.clog.head := by
  rw [updatePtree]
  obtain ⟨hnb₃, hhead₃⟩ := frame_foldl_updatePart md5 n 3 ((List.range s.nb).filter s.cowb) s
  generalize ((List.range s.nb).filter s.cowb).foldl (updatePart md5 n 3) s = s₃ at *
  obtain ⟨hnb₂, hhead₂⟩ := frame_foldl_updatePart md5 n 2
    (parents ((List.range s.nb).filter s.cowb)) s₃
  generalize (parents ((List.range s.nb).filter s.cowb)).foldl (updatePart md5 n 2) s₃ = s₂ at *
  obtain ⟨hnb₁, hhead₁⟩ := frame_foldl_updatePart md5 n 1
    (parents (parents ((List.range s.nb).filter s.cowb))) s₂
  generalize (parents (parents ((List.range s.nb).filter s.cowb))).foldl (updatePart md5 n 1) s₂ =
    s₁ at *
  split
  · obtain ⟨hnb₀, hhead₀⟩ := frame_updatePart md5 n 0 s₁ 0
    exact ⟨by rw [hnb₀, hnb₁, hnb₂, hnb₃], by rw [hhead₀, hhead₁, hhead₂, hhead₃]⟩
  · exact ⟨by rw [hnb₁, hnb₂, hnb₃], by rw [hhead₁, hhead₂, hhead₃]⟩

/-! ## The first digests -/

/-- Level `l + 1` after its first `k` partitions. -/
structure FullTo (md5 : Md5) (l k : ℕ) (t₀ t : Tree) : Prop where
  mem : t.mem = t₀.mem
  ptree : ∀ l' ≠ l + 1, t.ptree l' = t₀.ptree l'
  stree : ∀ l' ≠ l, t.stree l' = t₀.stree l'
  exact : ∀ i < k, t.Exact md5 (l + 1) i
  sum : ∀ j, (t.stree l j).sum =
    (∑ c ∈ (Finset.range k).filter (fun c => c / pChildren = j), (t.ptree (l + 1) c).d.toNat) %
      modulus.val

theorem fullTo_zero (hzero : ∀ j, t.stree l j = .zero modulus) : FullTo md5 l 0 t t where
  mem := rfl
  ptree _ _ := rfl
  stree _ _ := rfl
  exact i hi := absurd hi (Nat.not_lt_zero i)
  sum j := by
    rw [hzero j, Finset.range_zero, Finset.filter_empty, Finset.sum_empty, Nat.zero_mod]
    rfl

theorem FullTo.succ {k : ℕ} {t₀ : Tree} (h : FullTo md5 l k t₀ t) :
    FullTo md5 l (k + 1) t₀ (fullPart md5 (l + 1) t k) := by
  have hdata : ∀ i, (fullPart md5 (l + 1) t k).data (l + 1) i = t.data (l + 1) i := by
    intro i
    rw [Tree.data, Tree.data]
    have hstree : (fullPart md5 (l + 1) t k).stree (l + 1) i = t.stree (l + 1) i :=
      setAt_of_ne fun heq => absurd heq.1 (Nat.succ_ne_self l)
    rw [hstree]
    rfl
  have hptree : ∀ l' i, ¬ (l' = l + 1 ∧ i = k) →
      (fullPart md5 (l + 1) t k).ptree l' i = t.ptree l' i := fun l' i hne => setAt_of_ne hne
  have hself : (fullPart md5 (l + 1) t k).ptree (l + 1) k =
      ⟨(t.ptree (l + 1) k).lm, t.digest md5 (l + 1) k⟩ := setAt_self _ _ _ _
  refine ⟨h.mem, fun l' hl' => ?_, fun l' hl' => ?_, fun i hi => ?_, fun j => ?_⟩
  · rw [← h.ptree l' hl']
    funext i
    exact hptree l' i fun heq => hl' heq.1
  · rw [← h.stree l' hl']
    funext j
    exact setAt_of_ne fun heq => hl' heq.1
  · rw [Tree.Exact, Tree.digest, hdata]
    rcases Nat.lt_succ_iff_lt_or_eq.1 hi with hlt | rfl
    · rw [hptree _ _ fun heq => hlt.ne heq.2]
      exact h.exact i hlt
    · rw [hself]
      rfl
  · -- the digests added before are as they were
    have hsame : ∑ c ∈ (Finset.range k).filter (fun c => c / pChildren = j),
          ((fullPart md5 (l + 1) t k).ptree (l + 1) c).d.toNat =
        ∑ c ∈ (Finset.range k).filter (fun c => c / pChildren = j),
          (t.ptree (l + 1) c).d.toNat := by
      refine Finset.sum_congr rfl fun c hc => ?_
      have hc := Finset.mem_range.1 (Finset.mem_filter.1 hc).1
      rw [hptree _ _ fun heq => hc.ne heq.2]
    rw [Finset.range_add_one, Finset.filter_insert]
    by_cases hj : k / pChildren = j
    · subst hj
      have hstree : (fullPart md5 (l + 1) t k).stree l (k / pChildren) =
          (t.stree l (k / pChildren)).add (t.digest md5 (l + 1) k) := setAt_self _ _ _ _
      have hnot : k ∉ (Finset.range k).filter fun c => c / pChildren = k / pChildren := by
        simp
      rw [if_pos rfl, hstree, DSum.add_sum, h.sum, Finset.sum_insert hnot, hsame, hself,
        Nat.mod_add_mod, Nat.add_comm]
    · have hstree : (fullPart md5 (l + 1) t k).stree l j = t.stree l j :=
        setAt_of_ne fun heq => hj heq.2.symm
      rw [if_neg hj, hstree, hsame]
      exact h.sum j

theorem fullTo_foldl (md5 : Md5) (hzero : ∀ j, t.stree l j = .zero modulus) (k : ℕ) :
    FullTo md5 l k t ((List.range k).foldl (fullPart md5 (l + 1)) t) := by
  induction k with
  | zero => exact fullTo_zero hzero
  | succ k ih =>
    rw [range_succ, foldl_append, foldl_cons, foldl_nil]
    exact ih.succ

/-- The levels below `l` are done: their digests and the sums of `l`. -/
structure Built (md5 : Md5) (nb l : ℕ) (t : Tree) : Prop where
  exact : ∀ l', l < l' → l' ≤ leafLevel → ∀ i < partCount nb l', t.Exact md5 l' i
  sum : ∀ l', l ≤ l' → l' < leafLevel → ∀ j,
    (t.stree l' j).sum = (∑ c ∈ children nb l' j, (t.ptree (l' + 1) c).d.toNat) % modulus.val
  zero : ∀ l' < l, ∀ j, t.stree l' j = .zero modulus

theorem Built.level (h : Built md5 nb (l + 1) t) :
    Built md5 nb l ((List.range (partCount nb (l + 1))).foldl (fullPart md5 (l + 1)) t) := by
  have hfull := fullTo_foldl md5 (h.zero l (Nat.lt_succ_self l)) (partCount nb (l + 1))
  generalize (List.range (partCount nb (l + 1))).foldl (fullPart md5 (l + 1)) t = t' at hfull
  refine ⟨fun l' hl hl' i hi => ?_, fun l' hl hl' j => ?_, fun l' hl j => ?_⟩
  · rcases Nat.lt_or_eq_of_le (Nat.succ_le_of_lt hl) with hlt | rfl
    · have hexact := h.exact l' hlt hl' i hi
      rw [Tree.Exact, Tree.digest, Tree.data] at hexact ⊢
      rw [hfull.ptree l' (by omega), hfull.stree l' (by omega), hfull.mem]
      exact hexact
    · exact hfull.exact i hi
  · rcases Nat.lt_or_eq_of_le hl with hlt | rfl
    · rw [hfull.stree l' (by omega), hfull.ptree (l' + 1) (by omega)]
      exact h.sum l' hlt hl' j
    · exact hfull.sum j
  · rw [hfull.stree l' (by omega)]
    exact h.zero l' (by omega) j

/-- **`compute_full_digest` computes the digests.** -/
theorem upToDate_fullTree {mem : ℕ → Block} :
    UpToDate md5 nb (fun _ _ => False) (fullTree md5 nb (new nb mem).tree) := by
  have hstart : Built md5 nb 3 (new nb mem).tree := by
    refine ⟨fun l' hl hl' => ?_, fun l' hl hl' => ?_, fun _ _ _ => rfl⟩
    · exact absurd hl (Nat.not_lt.2 hl')
    · exact absurd hl' (Nat.not_lt.2 hl)
  have hbuilt := hstart.level.level.level
  rw [fullTree]
  generalize ((List.range (partCount nb (0 + 1))).foldl (fullPart md5 (0 + 1)) _) = t at hbuilt
  -- what is left is the digest of the root
  have hinner : UpToDate md5 nb (fun l _ => l = 0) t :=
    ⟨fun l hl i => hbuilt.sum l (Nat.zero_le l) hl i,
      fun l hl i hi hne => hbuilt.exact l (Nat.pos_of_ne_zero hne) hl i hi⟩
  refine (hinner.replace (l := 0) Nat.zero_lt_one (t.ptree 0 0).lm).mono fun l _ i hi hE => ?_
  rcases hE with ⟨rfl, hne⟩ | hE
  · exact hne ⟨rfl, Nat.lt_one_iff.1 hi⟩
  · exact Nat.succ_ne_zero l hE.1

/-! ## Runs -/

/-- Only the digests of copied blocks are old. -/
def Current (md5 : Md5) (s : State) : Prop :=
  UpToDate md5 s.nb (fun l i => l = leafLevel ∧ s.cowb i = true) s.tree

theorem current_checkpoint (h : s.Current md5) (n : ℤ) :
    UpToDate md5 (s.checkpoint md5 n).nb (fun _ _ => False) (s.checkpoint md5 n).tree := by
  have hnb : (s.checkpoint md5 n).nb = s.nb := (frame_updatePtree md5 s n).1
  rw [hnb]
  exact upToDate_updatePtree h n

/-- `cow` sets the bits of the region and leaves the tree. -/
theorem cow_frame (s : State) (m size : ℕ) :
    (s.cow m size).tree = s.tree ∧ (s.cow m size).nb = s.nb ∧
      (s.cow m size).clog.head = s.clog.head ∧
      (∀ b, s.cowb b = true → (s.cow m size).cowb b = true) ∧
      ∀ b ∈ blocks m size, (s.cow m size).cowb b = true := by
  rw [cow]
  generalize blocks m size = bs
  induction bs generalizing s with
  | nil => exact ⟨rfl, rfl, rfl, fun _ hb => hb, fun b hb => absurd hb not_mem_nil⟩
  | cons b bs ih =>
    rw [foldl_cons]
    split
    · next hset =>
      obtain ⟨htree, hnb, hhead, hkeep, hbs⟩ := ih s
      refine ⟨htree, hnb, hhead, hkeep, fun b' hb' => ?_⟩
      rcases mem_cons.1 hb' with rfl | hb'
      · exact hkeep b' hset
      · exact hbs b' hb'
    · obtain ⟨htree, hnb, hhead, hkeep, hbs⟩ := ih (s.cowSingle b)
      have hself : (s.cowSingle b).cowb b = true := update_self _ _ _
      refine ⟨htree, hnb, hhead, fun b' hb' => hkeep b' ?_, fun b' hb' => ?_⟩
      · by_cases heq : b' = b
        · rw [heq]
          exact hself
        · exact (update_of_ne heq _ _).trans hb'
      · rcases mem_cons.1 hb' with rfl | hb'
        · exact hkeep b' hself
        · exact hbs b' hb'

theorem current_modify (h : s.Current md5) (m size : ℕ) (data : ℕ → Block) :
    (s.modify m size data).Current md5 := by
  obtain ⟨htree, hnb, -, hkeep, hbs⟩ := s.cow_frame m size
  rw [Current, modify]
  rw [htree, hnb]
  refine ⟨h.summed, fun l hl i hi hE => ?_⟩
  have hexact := h.exact l hl i hi fun hold => hE ⟨hold.1, hkeep i hold.2⟩
  rw [Tree.Exact, Tree.digest, Tree.data] at hexact ⊢
  dsimp only
  by_cases hleaf : l = leafLevel
  · rw [if_pos hleaf] at hexact ⊢
    rw [if_neg fun hb => hE ⟨hleaf, hbs i hb⟩]
    exact hexact
  · rw [if_neg hleaf] at hexact ⊢
    exact hexact

theorem UpToDate.current (h : UpToDate md5 s.nb (fun _ _ => False) s.tree) :
    s.Current md5 := h.mono fun _ _ _ _ hE => absurd hE id

theorem current_update (h : s.Current md5) (u : Update) : (s.update md5 u).Current md5 := by
  cases u with
  | modify m size data => exact current_modify h m size data
  | checkpoint n => exact UpToDate.current (current_checkpoint h n)

/-- The state after `compute_full_digest`, over the memory `mem`. -/
def start (md5 : Md5) (nb : ℕ) (mem : ℕ → Block) : State := computeFullDigest md5 (new nb mem)

theorem upToDate_start (nb : ℕ) (mem : ℕ → Block) :
    UpToDate md5 (start md5 nb mem).nb (fun _ _ => False) (start md5 nb mem).tree := by
  refine current_checkpoint ?_ 0
  exact upToDate_fullTree.mono fun _ _ _ _ hE => absurd hE id

/-- The sums are the modular sums of the digests below, the digests are
those computed from the blocks and the last modifications, and the digest of
the last checkpoint is the one of the root. -/
structure DigestsExact (md5 : Md5) (s : State) : Prop where
  sums : ∀ l < leafLevel, ∀ i,
    (s.tree.stree l i).sum =
      (∑ c ∈ children s.nb l i, (s.tree.ptree (l + 1) c).d.toNat) % modulus.val
  digests : ∀ h ≤ leafLevel, ∀ i < partCount s.nb (leafLevel - h),
    (s.tree.ptree (leafLevel - h) i).d =
      Tree.recompute md5 s.nb s.tree.mem (fun l i => (s.tree.ptree l i).lm) h i
  root : s.lastRec.sd = (s.tree.ptree 0 0).d

theorem root_checkpoint (s : State) (n : ℤ) :
    (s.checkpoint md5 n).lastRec.sd = ((s.checkpoint md5 n).tree.ptree 0 0).d := by
  have hself : (s.checkpoint md5 n).clog.fetch n =
      { (s.updatePtree md5 n).clog.fetch n with sd := ((s.updatePtree md5 n).tree.ptree 0 0).d } :=
    update_self _ _ _
  rw [lastRec, show (s.checkpoint md5 n).lc = n from rfl, hself]
  rfl

theorem digestsExact_checkpoint (h : s.Current md5) (n : ℤ) :
    DigestsExact md5 (s.checkpoint md5 n) := by
  have hup := current_checkpoint h n
  refine ⟨hup.summed, fun k hk i hi => ?_, root_checkpoint s n⟩
  exact Tree.eq_recompute hup.summed (fun l hl i hi => hup.exact l hl i hi id) hk hi

/-- The digest of an exact checkpoint depends on the blocks and the last
modifications. -/
theorem DigestsExact.sd_eq {t : State} (hs : DigestsExact md5 s) (ht : DigestsExact md5 t)
    (hnb : s.nb = t.nb) (hmem : ∀ i < s.nb, s.tree.mem i = t.tree.mem i)
    (hlm : ∀ l ≤ leafLevel, ∀ i < partCount s.nb l, (s.tree.ptree l i).lm = (t.tree.ptree l i).lm) :
    s.lastRec.sd = t.lastRec.sd := by
  have hroot : ∀ {u : State}, DigestsExact md5 u → u.lastRec.sd =
      Tree.recompute md5 u.nb u.tree.mem (fun l i => (u.tree.ptree l i).lm) leafLevel 0 :=
    fun hu => hu.root.trans (hu.digests leafLevel le_rfl 0 Nat.zero_lt_one)
  rw [hroot hs, hroot ht, ← hnb]
  exact Tree.recompute_congr hmem hlm le_rfl Nat.zero_lt_one

theorem current_exec (md5 : Md5) (nb : ℕ) (mem : ℕ → Block) (us : List Update) :
    (exec (update md5) (start md5 nb mem) us).Current md5 :=
  exec_invariant (I := Current md5) (fun _ u h => current_update h u)
    (UpToDate.current (upToDate_start nb mem)) us

theorem nb_update (s : State) (u : Update) : (s.update md5 u).nb = s.nb := by
  cases u with
  | modify m size data => exact (s.cow_frame m size).2.1
  | checkpoint n => exact (frame_updatePtree md5 s n).1

theorem nb_exec (nb : ℕ) (mem : ℕ → Block) (us : List Update) :
    (exec (update md5) (start md5 nb mem) us).nb = nb :=
  exec_invariant (I := fun s => s.nb = nb) (fun s u h => (nb_update s u).trans h)
    (frame_updatePtree md5 _ 0).1 us

/-- **State digests are exact.** From `compute_full_digest` on, whatever
blocks are written and whenever checkpoints are taken, after each checkpoint
the sums and digests of the tree are those of the blocks and the last
modifications. Two replicas that agree on these have the same checkpoint
digest. -/
theorem checkpoint_digests_exact (md5 : Md5) (nb : ℕ) (mem : ℕ → Block) (us : List Update) :
    DigestsExact md5 (start md5 nb mem) ∧
      (∀ n, DigestsExact md5 ((exec (update md5) (start md5 nb mem) us).checkpoint md5 n)) ∧
      ∀ (mem' : ℕ → Block) (us' : List Update) (n n' : ℤ),
        let s := (exec (update md5) (start md5 nb mem) us).checkpoint md5 n
        let t := (exec (update md5) (start md5 nb mem') us').checkpoint md5 n'
        (∀ i < nb, s.tree.mem i = t.tree.mem i) →
        (∀ l ≤ leafLevel, ∀ i < partCount nb l,
          (s.tree.ptree l i).lm = (t.tree.ptree l i).lm) →
        s.lastRec.sd = t.lastRec.sd := by
  refine ⟨?_, fun n => digestsExact_checkpoint (current_exec md5 nb mem us) n, ?_⟩
  · refine digestsExact_checkpoint ?_ 0
    exact upToDate_fullTree.mono fun _ _ _ _ hE => absurd hE id
  · intro mem' us' n n' s t hmem hlm
    have hs := digestsExact_checkpoint (current_exec md5 nb mem us) n
    have ht := digestsExact_checkpoint (current_exec md5 nb mem' us') n'
    have hnb : ∀ (m : ℕ → Block) (vs : List Update) (k : ℤ),
        ((exec (update md5) (start md5 nb m) vs).checkpoint md5 k).nb = nb :=
      fun m vs k => (frame_updatePtree md5 _ k).1.trans (nb_exec nb m vs)
    refine hs.sd_eq ht ((hnb mem us n).trans (hnb mem' us' n').symm) ?_ ?_
    · rw [hnb mem us n]
      exact hmem
    · rw [hnb mem us n]
      exact hlm

end State

end AbstractBFT.Pbft
