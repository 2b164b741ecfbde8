import AbstractBFT.Aardvark.Cluster
/-!
# Aardvark — agreement inside a view

Commits carry no digest, so two replicas agree on a committed batch because
their prepared certificates do. If the primary is faulty, `2f` and `2f` of
its `3f` backups share a correct one, which prepared one batch; if it is
correct, every correct backup prepared what it assigned.
-/

namespace AbstractBFT.Aardvark

namespace Cluster

open Machine Finset

variable {C : Cluster} {S S' : ℕ → Replica} {v : View} {s : ℕ} {d d' : Digest}

/-- `2f` backups of `v` prepared the batch with digest `d` for `s`. -/
def Prepared (C : Cluster) (S : ℕ → Replica) (v : View) (s : ℕ) (d : Digest) : Prop :=
  ∃ A : Finset ℕ, A ⊆ (Finset.range C.n).erase (C.primary v) ∧ 2 * C.f ≤ A.card ∧
    ∀ j ∈ A, (C.known S).prepare j v s d

theorem Prepared.later (h : C.Prepared S v s d) (hS : Later S S') : C.Prepared S' v s d := by
  obtain ⟨A, hsub, hcard, hA⟩ := h
  exact ⟨A, hsub, hcard, fun j hj => hS.known.prepare j v s d (hA j hj)⟩

variable {i : ℕ} {pp : PrePrepare}

/-- What one replica counts, all replicas have. -/
theorem prepared_of_quorate (h : Slot.Quorate (C.node i) (C.known S) v s ((S i).log s).out d) :
    C.Prepared S v s d := by
  obtain ⟨A, hcard, hA⟩ := h
  refine ⟨A, fun j hj => ?_, hcard, fun j hj => ?_⟩
  · exact mem_erase.2 ⟨(hA j hj).2.1, mem_range.2 (hA j hj).1⟩
  · obtain ⟨-, -, hself, hother⟩ := hA j hj
    by_cases hji : j = i
    · subst hji
      exact .inr (hself rfl)
    · exact hother hji

theorem primary_lt (C : Cluster) (v : View) : C.primary v < C.n := (C.node 0).primary_lt v

/-- **A correct primary assigns one digest.** -/
theorem Inv.eq_of_assign (h : C.Inv S) (hp : C.primary v ∉ C.byz) (hd : (C.known S).assign v s d)
    (hd' : (C.known S).assign v s d') : d = d' := by
  have hinv := (h (C.primary v) ⟨primary_lt C v, hp⟩).assigns
  rcases hd.resolve_left hp with hpp | ⟨nv, hnv, hview, hmin, hmax, hsel⟩ <;>
    rcases hd'.resolve_left hp with hpp' | ⟨nv', hnv', hview', hmin', hmax', hsel'⟩
  · exact hinv.one s v d d' hpp hpp'
  · rw [hsel']
    exact hinv.selected nv' hnv' s d (hview'.symm ▸ hpp) hmin' hmax'
  · rw [hsel]
    exact (hinv.selected nv hnv s d' (hview.symm ▸ hpp') hmin hmax).symm
  · rw [hsel, hsel', hinv.nvOne nv hnv nv' hnv' (hview.trans hview'.symm)]

/-- What a correct backup prepared had been assigned. -/
theorem Inv.assign_of_prepare (h : C.Inv S) {j : ℕ} (hj : C.Correct j) (hne : j ≠ C.primary v)
    (hd : (C.known S).prepare j v s d) : (C.known S).assign v s d :=
  ((h j hj).certs s).sent v d (hd.resolve_left hj.2) hne.symm

/-- **Prepared batches agree.** -/
theorem Inv.eq_of_prepared (h : C.Inv S) (hf : 0 < C.f) (hbyz : C.byz.card ≤ C.f)
    (hd : C.Prepared S v s d) (hd' : C.Prepared S v s d') : d = d' := by
  obtain ⟨A, hsub, hcard, hA⟩ := hd
  obtain ⟨A', hsub', hcard', hA'⟩ := hd'
  have hbackup : ∀ j ∈ (Finset.range C.n).erase (C.primary v), j < C.n ∧ j ≠ C.primary v := by
    intro j hj
    exact ⟨mem_range.1 (mem_erase.1 hj).2, (mem_erase.1 hj).1⟩
  by_cases hp : C.primary v ∈ C.byz
  · -- the faulty primary is not among the backups, so at most `f - 1` of them are faulty
    have hfaulty : (C.byz.erase (C.primary v)).card ≤ C.f - 1 := by
      rw [card_erase_of_mem hp]
      omega
    have hbackups : ((Finset.range C.n).erase (C.primary v)).card = 3 * C.f := by
      rw [card_erase_of_mem (mem_range.2 (primary_lt C v)), card_range]
      rfl
    obtain ⟨j, hj, hj', hjc⟩ := Quorum.exists_correct_inter hfaulty hsub hsub' (by omega)
    obtain ⟨hlt, hne⟩ := hbackup j (hsub hj)
    have hcorrect : C.Correct j := ⟨hlt, fun hmem => hjc (mem_erase.2 ⟨hne, hmem⟩)⟩
    exact ((h j hcorrect).prepares.slots s).one v d d' hne.symm
      ((hA j hj).resolve_left hcorrect.2) ((hA' j hj').resolve_left hcorrect.2)
  · have hassign : ∀ {A : Finset ℕ} {d : Digest}, A ⊆ (Finset.range C.n).erase (C.primary v) →
        2 * C.f ≤ A.card → (∀ j ∈ A, (C.known S).prepare j v s d) → (C.known S).assign v s d := by
      intro A d hsub hcard hA
      obtain ⟨j, hj, hjc⟩ := Quorum.exists_correct_of_card (S := A) hbyz (by omega)
      obtain ⟨hlt, hne⟩ := hbackup j (hsub hj)
      exact h.assign_of_prepare ⟨hlt, hjc⟩ hne (hA j hj)
    exact h.eq_of_assign hp (hassign hsub hcard hA) (hassign hsub' hcard' hA')

/-- A committed batch is one that `2f` backups prepared, in its view. -/
theorem Inv.prepared_of_committed (h : C.Inv S) (hf : 0 < C.f) (hi : C.Correct i)
    (hc : (S i).committed s = some pp) : pp.view = (S i).v ∧ C.Prepared S pp.view s pp.digest := by
  rw [Replica.committed, Replica.prepared] at hc
  split at hc
  · split at hc
    · next hcomp =>
      obtain ⟨pp', hpp', hview, hq⟩ := ((h i hi).certs s).quorate hf hcomp
      cases hpp'.symm.trans hc
      refine ⟨hview, prepared_of_quorate (i := i) ?_⟩
      rw [hview]
      exact hq
    · cases hc
  · cases hc

/-- In the run `es`, no two correct replicas ever hold a complete prepared
certificate with a complete commit certificate for one view and sequence
number with different digests, at the same time or one after the other. -/
def CommittedAgree (C : Cluster) (es : List (ℕ × Event)) : Prop :=
  ∀ es₁ es₂, es₁ <+: es → es₂ <+: es → ∀ i j, C.Correct i → C.Correct j → ∀ s pp pp',
    (exec C.step C.init es₁ i).committed s = some pp →
    (exec C.step C.init es₂ j).committed s = some pp' → pp.view = pp'.view →
    pp.digest = pp'.digest

theorem prepared_of_prefix (hf : 0 < C.f) {es es' : List (ℕ × Event)}
    (h : Guarded C.step (fun S x => C.Delivered S x ∧ C.Kept S x) C.init es) (hes : es' <+: es)
    (hi : C.Correct i) (hc : (exec C.step C.init es' i).committed s = some pp) :
    C.Prepared (exec C.step C.init es) pp.view s pp.digest := by
  obtain ⟨rest, rfl⟩ := hes
  have hinv := inv_exec hf (guarded_append.1 h).1
  rw [exec_append]
  exact (hinv.prepared_of_committed hf hi hc).2.later (later_exec C _ rest)

/-- **Agreement inside a view**, in every run with at most `f` faulty
replicas in which flags are set for right MACs only and backups keep what
they prepared. -/
theorem committed_agree (C : Cluster) (hf : 0 < C.f) (hbyz : C.byz.card ≤ C.f) (es : List Delivery)
    (h : Guarded (fun S x => C.step S x.1)
      (fun S x => C.Unforged S x ∧ Authentic x ∧ C.Kept S x.1) C.init es) :
    C.CommittedAgree (es.map Prod.fst) := by
  intro es₁ es₂ h₁ h₂ i j hi hj s pp pp' hc hc' hview
  have hrun := guarded_delivered h
  have hp := prepared_of_prefix hf hrun h₁ hi hc
  have hp' := prepared_of_prefix hf hrun h₂ hj hc'
  rw [hview] at hp
  exact (inv_exec hf hrun).eq_of_prepared hf hbyz hp hp'

/-- **Validity.** What a correct replica committed was assigned by the primary
of its view, if that is correct. -/
theorem assign_of_committed (C : Cluster) (hf : 0 < C.f) (hbyz : C.byz.card ≤ C.f)
    (es : List (ℕ × Event))
    (h : Guarded C.step (fun S x => C.Delivered S x ∧ C.Kept S x) C.init es) (hi : C.Correct i)
    (hc : (exec C.step C.init es i).committed s = some pp) :
    (C.known (exec C.step C.init es)).assign pp.view s pp.digest := by
  have hinv := inv_exec hf h
  obtain ⟨-, A, hsub, hcard, hA⟩ := hinv.prepared_of_committed hf hi hc
  obtain ⟨j, hj, hjc⟩ := Quorum.exists_correct_of_card (S := A) hbyz (by omega)
  obtain ⟨hne, hlt⟩ := mem_erase.1 (hsub hj)
  exact hinv.assign_of_prepare ⟨mem_range.1 hlt, hjc⟩ hne (hA j hj)

/-! ## Runs of a cluster -/

/-- `3f+1` replicas with the sample client. -/
def toyCluster (f : ℕ) (byz : Finset ℕ) : Cluster := ⟨f, 3 * f + 2, toyMd5, byz⟩

/-- Replica `i` gets the sample batch of view 0. -/
def getsBatch (f : ℕ) (command : UInt8) (i : ℕ) : ℕ × Event :=
  (i, .prePrepare (fun _ => none) (toyBatch f 0 1 command))

/-- Replica `i` gets prepares for the sample batch. -/
def getsPrepares (f : ℕ) (command : UInt8) (i : ℕ) (js : List ℕ) : List (ℕ × Event) :=
  js.map fun j => (i, .prepare (toyPrepare f 0 1 command j))

/-- Replica `i` gets commits. -/
def getsCommits (i : ℕ) (js : List ℕ) : List (ℕ × Event) :=
  js.map fun j => (i, .commit ⟨0, 1, j, true⟩)

/-- Four replicas, of which 3 is faulty and silent, commit a batch. -/
def committingRun : List (ℕ × Event) :=
  [(0, .propose [toyRequest 1 7] [] []), getsBatch 1 7 1, getsBatch 1 7 2] ++
    getsPrepares 1 7 0 [1, 2] ++ getsPrepares 1 7 1 [2] ++ getsPrepares 1 7 2 [1] ++
    getsCommits 1 [0, 2] ++ getsCommits 2 [0, 1]

/-- All messages of a run carry right MACs, or none does. -/
def withMacs (right : Bool) (es : List (ℕ × Event)) : List Delivery := es.map fun x => (x, right)

theorem committed_agree_four :
    (0 < (toyCluster 1 {3}).f ∧ (toyCluster 1 {3}).byz.card ≤ (toyCluster 1 {3}).f) ∧
      (exec (toyCluster 1 {3}).step (toyCluster 1 {3}).init committingRun 2).committed 1 =
        some (toyBatch 1 0 1 7) ∧
      (toyCluster 1 {3}).CommittedAgree ((withMacs true committingRun).map Prod.fst) :=
  ⟨by decide, by decide +kernel, committed_agree (toyCluster 1 {3}) (by decide) (by decide)
    (withMacs true committingRun) (by decide +kernel)⟩

theorem assign_of_committed_four :
    let S := exec (toyCluster 1 {3}).step (toyCluster 1 {3}).init committingRun
    (S 2).committed 1 = some (toyBatch 1 0 1 7) ∧
      ((toyCluster 1 {3}).known S).assign 0 1 (toyBatch 1 0 1 7).digest := by
  intro S
  have hc : (S 2).committed 1 = some (toyBatch 1 0 1 7) := by decide +kernel
  exact ⟨hc, assign_of_committed (toyCluster 1 {3}) (by decide) (by decide) committingRun
    (by decide +kernel) (by decide) hc⟩

/-- Seven replicas, with 0, the primary, and 6 faulty. Replicas 1 and 2
prepare one batch, 3 and 4 another, and 5 prepares both: the log refuses
its first prepare, and a key refresh drops the pre-prepare. -/
def dividedRun : List (ℕ × Event) :=
  [getsBatch 2 7 1, getsBatch 2 7 2, getsBatch 2 8 3, getsBatch 2 8 4] ++
    getsPrepares 2 8 5 [3, 4, 6] ++ [getsBatch 2 7 5, (5, .newKey), getsBatch 2 8 5] ++
    getsPrepares 2 7 1 [2, 5, 6] ++ getsPrepares 2 7 2 [1, 5, 6] ++ getsPrepares 2 8 3 [4, 5, 6] ++
    getsCommits 1 [2, 3, 0, 6] ++ getsCommits 3 [1, 2, 0, 6]

/-- Four replicas, with 3 faulty. It sends replica 1 one batch and replica 2
another, with prepares and commits, all in the names of the others and with
the flag set. -/
def forgedRun : List (ℕ × Event) :=
  [getsBatch 1 7 1, getsBatch 1 8 2] ++ getsPrepares 1 7 1 [2] ++ getsPrepares 1 8 2 [1] ++
    getsCommits 1 [0, 2] ++ getsCommits 2 [0, 1]

/-- **Two batches commit**, after a key refresh, and where no MAC is
right. -/
theorem committed_two_batches :
    (toyCluster 2 {0, 6}).byz.card ≤ (toyCluster 2 {0, 6}).f ∧
      Guarded (toyCluster 2 {0, 6}).step (toyCluster 2 {0, 6}).Delivered
        (toyCluster 2 {0, 6}).init dividedRun ∧
      ¬ (toyCluster 2 {0, 6}).CommittedAgree dividedRun ∧
      Guarded (fun S x => (toyCluster 1 {3}).step S x.1)
        (fun S x => (toyCluster 1 {3}).Unforged S x ∧ (toyCluster 1 {3}).Kept S x.1)
        (toyCluster 1 {3}).init (withMacs false forgedRun) ∧
      ¬ (toyCluster 1 {3}).CommittedAgree forgedRun := by
  refine ⟨by decide, by decide +kernel, fun h => ?_, by decide +kernel, fun h => ?_⟩
  · have hone : (exec (toyCluster 2 {0, 6}).step (toyCluster 2 {0, 6}).init dividedRun
        1).committed 1 = some (toyBatch 2 0 1 7) := by decide +kernel
    have hthree : (exec (toyCluster 2 {0, 6}).step (toyCluster 2 {0, 6}).init dividedRun
        3).committed 1 = some (toyBatch 2 0 1 8) := by decide +kernel
    have heq := h dividedRun dividedRun (List.prefix_refl _) (List.prefix_refl _) 1 3 (by decide)
      (by decide) 1 _ _ hone hthree rfl
    exact absurd heq (by decide +kernel)
  · have hone : (exec (toyCluster 1 {3}).step (toyCluster 1 {3}).init forgedRun 1).committed 1 =
        some (toyBatch 1 0 1 7) := by decide +kernel
    have htwo : (exec (toyCluster 1 {3}).step (toyCluster 1 {3}).init forgedRun 2).committed 1 =
        some (toyBatch 1 0 1 8) := by decide +kernel
    have heq := h forgedRun forgedRun (List.prefix_refl _) (List.prefix_refl _) 1 2 (by decide)
      (by decide) 1 _ _ hone htwo rfl
    exact absurd heq (by decide +kernel)

end Cluster

end AbstractBFT.Aardvark
