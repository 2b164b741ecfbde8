import AbstractBFT.Aardvark.Agreement
import AbstractBFT.Aardvark.Commits
/-!
# Aardvark — a new view keeps what was committed

A batch that committed in a view was reported as prepared by `f+1` correct
replicas of any `2f+1` that left the view. For the request a new view
selects, `check_new_view` counts the view-changes that report the same view
or a lower one (`n_le`), whatever their digest, and `f+1` that do not
contradict it (`n_proofs`). Faulty replicas that claim another batch
prepared in the same view make up both counts. The primary's own selection
(`summarize_reqs`) is stricter: of the same view it counts only the same
digest. `NewView.Counted` is that condition on the message a backup gets.
-/

namespace AbstractBFT.Aardvark

open Machine List

/-! ## What a backup counts -/

/-- `2f+1` of the view-changes at hand report for `s` a view below the one
selected, or the very batch selected. -/
def pickCounted (N : Node) (nv : NewView) (vcs : ℕ → Option ViewChange) (s : ℕ) : Bool :=
  (nv.pick vcs s).all fun cur => decide (N.nf ≤ countVcs N vcs fun vc =>
    decide (vc.ls < s ∧ ((vc.req s).1 < cur.1 ∨ vc.req s = cur)))

/-- The view-changes a new-view names count for every sequence number it
covers, and none of them ends beyond `2 ^ 63`. -/
def NewView.Counted (N : Node) (nv : NewView) : Prop :=
  (∀ s < nv.max, nv.min < s → pickCounted N nv nv.viewChange s) ∧
    ∀ o ∈ nv.vcs, ∀ vc ∈ o, vc.ls + vc.reqs.length < 2 ^ 63

instance (N : Node) (nv : NewView) : Decidable (nv.Counted N) := inferInstanceAs (Decidable (_ ∧ _))

theorem countVcs_add_not (N : Node) (vcs : ℕ → Option ViewChange) (p : ViewChange → Bool) :
    countVcs N vcs p + countVcs N vcs (fun vc => !p vc) = countVcs N vcs fun _ => true := by
  unfold countVcs
  induction List.range N.n with
  | nil => rfl
  | cons j js ih =>
    simp only [countP_cons, ← ih]
    cases vcs j with
    | none => simp
    | some vc => cases hp : p vc <;> simp [hp] <;> omega

/-- An accepted new view counts the view-changes it names. -/
theorem NvInv.countVcs_eq {N : Node} {K : Known N.md5} {V : ViewChange → Prop} {n : NVInfo}
    {nv : NewView} (h : NvInv N K V n) (hnv : n.nv = some nv) (hp : N.primary n.v ≠ N.id)
    (hacc : n.accepted) (p : ViewChange → Bool) :
    countVcs N n.vcs p = countVcs N nv.viewChange p := by
  have hfull := (h.accepted nv hnv hp hacc).full
  rw [← countVcs_add_not N _ p, ← countVcs_add_not N n.vcs p] at hfull
  have hle := countVcs_mono (N := N) (h.named nv hnv hp) p
  have hle' := countVcs_mono (N := N) (h.named nv hnv hp) fun vc => !p vc
  omega

namespace Replica

/-- The new views a replica collected as a backup count. -/
def NewViewsCounted (N : Node) (r : Replica) : Prop :=
  ∀ p nv, (r.last_nvs p).nv = some nv → N.primary (r.last_nvs p).v ≠ N.id → nv.Counted N

theorem NewViewsCounted.step {N : Node} {r : Replica} (h : r.NewViewsCounted N) {e : Event}
    (he : ∀ nv auth, e = .newView nv auth → nv.verify N auth → nv.Counted N) :
    (r.step N e).NewViewsCounted N := by
  intro p nv
  have hmove := nvMoved_step N r e p
  generalize r.step N e = r' at hmove
  generalize r'.last_nvs p = n at hmove ⊢
  have hold := h p nv
  intro hnv hp
  cases hmove with
  | same _ => exact hold hnv hp
  | completed _ _ _ _ => exact hold hnv hp
  | made _ hown _ hview _ => exact absurd (hview ▸ hown) hp
  | stale =>
    rw [NVInfo.markStale] at hnv hp
    split at hnv
    · next hcomp =>
      rw [if_pos hcomp] at hp
      exact hold hnv hp
    · split at hnv <;> cases hnv
  | cleared _ _ => cases hnv
  | kept _ _ _ _ => exact hold hnv hp
  | opened _ _ _ _ _ => cases hnv
  | viewChange _ _ _ =>
    obtain ⟨hv, hsame, -⟩ := NVInfo.frame_addViewChange N (r.last_nvs p) _ _
    rw [hsame] at hnv
    rw [hv] at hp
    exact hold hnv hp
  | newView _ hver _ _ hn =>
    obtain rfl := Option.some.inj ((matched_frame hn).2.1.symm.trans hnv)
    exact he _ _ rfl hver

end Replica

namespace Cluster

variable {C : Cluster} {S S' : ℕ → Replica} {v : View} {s : ℕ}

/-- The condition under which own commits are logged once, at every
replica. -/
def CommitKept (S : ℕ → Replica) (x : ℕ × Event) : Prop := (S x.1).CommitKept x.2
  deriving Decidable

/-- **What a new-view must meet** that verifies at the replica it comes
to. -/
def Counted (C : Cluster) (i : ℕ) : Event → Prop
  | .newView nv auth => nv.verify (C.node i) auth → nv.Counted (C.node i)
  | _ => True

instance (C : Cluster) (i : ℕ) (e : Event) : Decidable (C.Counted i e) := by
  apply @e.casesOn <;> intros <;> dsimp only [Counted] <;> infer_instance

/-! ## Commits in a cluster -/

/-- The commits and reports of every correct replica. -/
structure SafeInv (C : Cluster) (S : ℕ → Replica) : Prop where
  base : C.Inv S
  commits : ∀ i, C.Correct i → (S i).CommitsInv (C.node i) (C.known S)
  counted : ∀ i, C.Correct i → (S i).NewViewsCounted (C.node i)

theorem safeInv_init (C : Cluster) : C.SafeInv C.init where
  base := inv_init C
  commits i _ := Replica.commitsInv_init (C.node i) _
  counted _ _ _ _ h := by cases h

theorem SafeInv.step (h : C.SafeInv S) (hf : 0 < C.f) {x : ℕ × Event} (hx : C.Delivered S x)
    (hok : C.Kept S x) (hkept : CommitKept S x) (hcount : C.Counted x.1 x.2) :
    C.SafeInv (C.step S x) := by
  have hlater := later_step C S x
  refine ⟨h.base.step hf hx hok, fun k hk => ?_, fun k hk => ?_⟩ <;> obtain ⟨i, e⟩ := x <;>
    by_cases hki : k = i
  · subst hki
    have hinv := (h.base k hk).mono (hlater.known (C := C)) fun vc => hlater.vouched (C := C)
    have hcom := (h.commits k hk).mono hlater.known
    rw [step_self]
    exact hcom.step hinv hf hk.1 hok hkept ((heard_of_genuine hx.2).mono hlater.known)
  · rw [step_of_ne hki]
    exact (h.commits k hk).mono hlater.known
  · subst hki
    rw [step_self]
    exact (h.counted k hk).step fun nv auth he hver => by subst he; exact hcount hver
  · rw [step_of_ne hki]
    exact h.counted k hk

/-- `2f+1` replicas sent commits for `s` in view `v`. -/
def CommitSent (C : Cluster) (S : ℕ → Replica) (v : View) (s : ℕ) : Prop :=
  ∃ A ⊆ Finset.range C.n, 2 * C.f + 1 ≤ A.card ∧ ∀ j ∈ A, (C.known S).commit j v s

theorem CommitSent.later (h : C.CommitSent S v s) (hS : Later S S') : C.CommitSent S' v s := by
  obtain ⟨A, hsub, hcard, hA⟩ := h
  exact ⟨A, hsub, hcard, fun j hj => hS.known.commit j v s (hA j hj)⟩

theorem SafeInv.commitSent (h : C.SafeInv S) (hf : 0 < C.f) {i : ℕ} (hi : C.Correct i)
    {pp : PrePrepare} (hc : (S i).committed s = some pp) : C.CommitSent S pp.view s := by
  have hview := (h.base.prepared_of_committed hf hi hc).1
  have hcomp : ((S i).log s).cc.isComplete := by
    rw [Replica.committed] at hc
    split at hc
    · assumption
    · cases hc
  have hslot := (h.commits i hi).slots s
  obtain ⟨-, -, A, hsent, hcard⟩ := hslot.backed.exists_senders (by rw [hslot.threshold]; omega) hcomp
  rw [hslot.threshold] at hcard
  refine ⟨A, fun j hj => Finset.mem_range.2 (hsent j hj).1, hcard, fun j hj => ?_⟩
  obtain ⟨-, hself, hother⟩ := hsent j hj
  rw [hview]
  by_cases hji : j = i
  · subst hji
    exact .inr (hself rfl)
  · exact hother hji

/-- **What correct replicas report.** Of any `2f+1` view-changes for the
next view, one is of a correct replica that committed; above its checkpoint
it reports the batch that prepared. -/
theorem SafeInv.exists_report (h : C.SafeInv S) (hf : 0 < C.f) (hbyz : C.byz.card ≤ C.f) {d : Digest}
    (hc : C.CommitSent S v s) (hd : C.Prepared S v s d) {vcs : ℕ → Option ViewChange}
    (hvcs : ∀ j vc, vcs j = some vc → vc.id = j ∧ vc.view = v + 1 ∧ C.Vouched S vc)
    {i : ℕ} {p : ViewChange → Bool} (hp : (C.node i).nf ≤ countVcs (C.node i) vcs p) :
    ∃ j vc, vcs j = some vc ∧ p vc ∧ (vc.ls < s → vc.req s = (v, d) ∧ s ≤ vc.ls + vc.reqs.length) := by
  obtain ⟨A, hsub, hcard, hA⟩ := hc
  obtain ⟨B, hsubB, hcardB, hB⟩ := exists_of_countVcs (C.node i) vcs p
  have hsum : (Finset.range C.n).card + C.f < A.card + B.card := by
    have hnf : (C.node i).nf = 2 * C.f + 1 := rfl
    rw [hcardB, Finset.card_range, n]
    omega
  obtain ⟨j, hj, hjB, hjc⟩ := Quorum.exists_correct_inter hbyz hsub hsubB hsum
  obtain ⟨vc, hvc, hpvc⟩ := hB j hjB
  obtain ⟨hid, hview, hvouch⟩ := hvcs j vc hvc
  refine ⟨j, vc, hvc, hpvc, fun hls => ?_⟩
  have hcorrect : C.Correct j := ⟨Finset.mem_range.1 (hsub hj), hjc⟩
  have hsent : vc ∈ (S j).sentVcs := by
    rw [← hid]
    exact hvouch.2 (hid.symm ▸ hjc)
  have hprev : vc.view - 1 = v := by rw [hview, add_sub_cancel_right]
  obtain ⟨d', hreq, hmax, hq⟩ := (h.commits j hcorrect).reports vc hsent s hls
    (hprev.symm ▸ (hA j hj).resolve_left hjc)
  rw [hprev] at hreq hq
  have heq : d' = d := h.base.eq_of_prepared hf hbyz (prepared_of_quorate hq) hd
  rw [heq] at hreq
  exact ⟨hreq, hmax⟩

/-- In the run `es`, whatever a correct replica committed in a view, a
correct backup's accepted new view for the next view starts at or above it
or selects it. -/
def NewViewKeeps (C : Cluster) (es : List (ℕ × Event)) : Prop :=
  ∀ es₁ es₂, es₁ <+: es → es₂ <+: es → ∀ i b, C.Correct i → C.Correct b → ∀ s pp,
    (exec C.step C.init es₁ i).committed s = some pp → C.primary (pp.view + 1) ≠ b →
    let n := (exec C.step C.init es₂ b).last_nvs (C.primary (pp.view + 1))
    n.v = pp.view + 1 → ∀ nv, n.nv = some nv → n.accepted →
      s ≤ nv.min ∨ ∃ w, nv.pick n.vcs s = some (w, pp.digest)

theorem safeInv_of_prefix (hf : 0 < C.f) {es es' : List (ℕ × Event)}
    (h : Guarded C.step (fun S x => C.Delivered S x ∧ C.Kept S x ∧ CommitKept S x ∧
      C.Counted x.1 x.2) C.init es) (hes : es' <+: es) :
    C.SafeInv (exec C.step C.init es') ∧
      Later (exec C.step C.init es') (exec C.step C.init es) := by
  obtain ⟨rest, rfl⟩ := hes
  refine ⟨(guarded_append.1 h).1.invariant (I := C.SafeInv)
    (fun _ _ hS hx => hS.step hf hx.1 hx.2.1 hx.2.2.1 hx.2.2.2) (safeInv_init C), ?_⟩
  rw [exec_append]
  exact later_exec C _ rest

/-- **A new view keeps what was committed in the view before**, in every
run with at most `f` faulty replicas in which flags are set for right MACs
only, backups keep what they prepared, replicas log own commits once, and
the view-changes a new-view names count. -/
theorem newView_keeps_committed (C : Cluster) (hf : 0 < C.f) (hbyz : C.byz.card ≤ C.f)
    (es : List Delivery)
    (h : Guarded (fun S x => C.step S x.1) (fun S x => C.Unforged S x ∧ Authentic x ∧
      C.Kept S x.1 ∧ CommitKept S x.1 ∧ C.Counted x.1.1 x.1.2) C.init es) :
    C.NewViewKeeps (es.map Prod.fst) := by
  intro es₁ es₂ h₁ h₂ i b hi hb s pp hc hbackup n hv nv hnv hacc
  have hrun : Guarded C.step (fun S x => C.Delivered S x ∧ C.Kept S x ∧ CommitKept S x ∧
      C.Counted x.1 x.2) C.init (es.map Prod.fst) := guarded_delivered h
  generalize es.map Prod.fst = es at hrun h₁ h₂
  have hinv := fun es' (hes : es' <+: es) => safeInv_of_prefix hf hrun hes
  obtain ⟨hinv₁, hlater₁⟩ := hinv es₁ h₁
  obtain ⟨hinv₂, hlater₂⟩ := hinv es₂ h₂
  obtain ⟨hsafe, -⟩ := hinv es (prefix_refl es)
  have hsent := (hinv₁.commitSent hf hi hc).later hlater₁
  obtain ⟨hview₁, hprep₁⟩ := hinv₁.base.prepared_of_committed hf hi hc
  have hprep := hprep₁.later hlater₁
  have hnonneg : 0 ≤ pp.view + 1 := by
    have hv₁ := (hinv₁.base i hi).prepares.v_nonneg
    rw [← hview₁] at hv₁
    exact Int.le_add_one hv₁
  have hnvinv : NvInv (C.node b) _ _ n := (hinv₂.base b hb).nvs _
  have hne : (C.node b).primary n.v ≠ (C.node b).id := by
    rw [hv]
    exact hbackup
  have haccepted := hnvinv.accepted nv hnv hne hacc
  have hcount := hinv₂.counted b hb _ nv hnv hne
  have hvcs : ∀ j vc, n.vcs j = some vc →
      vc.id = j ∧ vc.view = pp.view + 1 ∧ C.Vouched (exec C.step C.init es) vc := by
    intro j vc hvc
    obtain ⟨hid, hview, hvouch⟩ := hnvinv.genuine j vc hvc
    exact ⟨hid, hview.trans hv, hlater₂.vouched hvouch⟩
  rcases Nat.lt_or_ge nv.min s with hmin | hmin
  case inr => exact .inl hmin
  refine .inr ⟨pp.view, ?_⟩
  -- the upper end lies above `s`, since `2f+1` view-changes end below it
  have hmax : s < nv.max := by
    have hcheck := haccepted.max
    rw [checkMax, decide_eq_true_eq] at hcheck
    obtain ⟨j, vc, hvc, hlt, hreport⟩ := hsafe.exists_report hf hbyz hsent hprep hvcs hcheck
    have hmem := mem_of_getElem?
      (Option.join_eq_some_iff.1 (hnvinv.named nv hnv hne j vc hvc))
    rw [decide_eq_true_eq, ViewChange.maxSeqno_eq (hcount.2 _ hmem vc rfl)] at hlt
    by_contra hge
    omega
  obtain ⟨vci, vc₀, hvci, hvc₀, hpick⟩ := haccepted.pick s hmin hmax
  have hbound : (vc₀.req s).1 < pp.view + 1 := by
    obtain ⟨-, hview, hvouch⟩ := hvcs vci vc₀ hvc₀
    rw [← hview]
    exact ViewChange.req_lt_view hvouch.1 (hview ▸ hnonneg) s
  have hnamed := pick_of_subset (hnvinv.named nv hnv hne) hvci hvc₀
  have hcounted := hcount.1 s hmax hmin
  rw [pickCounted, hnamed, Option.all_some, decide_eq_true_eq,
    ← hnvinv.countVcs_eq hnv hne hacc] at hcounted
  obtain ⟨j, vc, -, hp, hreport⟩ := hsafe.exists_report hf hbyz hsent hprep hvcs hcounted
  rw [decide_eq_true_eq] at hp
  obtain ⟨hls, hcur⟩ := hp
  rw [(hreport hls).1] at hcur
  rcases hcur with hlt | heq
  · exact absurd (Int.lt_add_one_iff.1 hbound) (not_le.2 hlt)
  · rw [hpick, heq]

/-! ## Runs with a view change -/

/-- What replica `i` reports of the sample batch when it leaves view 0. -/
def toyReport (f : ℕ) (command : UInt8) (lv : View) (prepared : Bool) (i : ℕ) : ViewChange :=
  ⟨1, 0, i, [1], [⟨lv, 0, (toyBatch f 0 1 command).digest, prepared⟩]⟩

/-- Replica `i` gets the sample new-view and the view-changes. -/
def getsNewView (nv : NewView) (vcs : List ViewChange) (i : ℕ) : List (ℕ × Event) :=
  (i, .newView nv true) :: vcs.map fun vc => (i, .viewChange vc true)

/-- The replicas `is` leave view 0. -/
def leaveView (is : List ℕ) : List (ℕ × Event) := is.map fun i => (i, .leave 1 none [1])

/-- Three replicas that committed a batch report it. -/
def keptNewView : NewView :=
  ⟨1, 0, 2, [some (toyReport 1 7 0 true 0), some (toyReport 1 7 0 true 1),
    some (toyReport 1 7 0 true 2)], [0, 0]⟩

/-- After the sample batch committed, replica 1 opens view 1. -/
def keptRun : List (ℕ × Event) :=
  committingRun ++ leaveView [0, 1, 2] ++
    [(1, .viewChange (toyReport 1 7 0 true 0) true), (1, .viewChange (toyReport 1 7 0 true 2) true),
      (1, .make keptNewView 0 fun _ => toyBatch 1 0 1 7)] ++
    getsNewView keptNewView [toyReport 1 7 0 true 0, toyReport 1 7 0 true 1] 2

theorem newView_keeps_committed_four :
    (0 < (toyCluster 1 {3}).f ∧ (toyCluster 1 {3}).byz.card ≤ (toyCluster 1 {3}).f) ∧
      ((exec (toyCluster 1 {3}).step (toyCluster 1 {3}).init keptRun 2).last_nvs 1).accepted ∧
      (toyCluster 1 {3}).NewViewKeeps ((withMacs true keptRun).map Prod.fst) :=
  ⟨by decide, by decide +kernel, newView_keeps_committed (toyCluster 1 {3}) (by decide) (by decide)
    (withMacs true keptRun) (by decide +kernel)⟩

/-- True reports of replicas 2, 3, 4 and 5, and those of 0 and 1, which
claim that the batch of 5 prepared; that batch is selected. -/
def droppedNewView : NewView :=
  ⟨1, 0, 2, [some (toyReport 2 8 0 true 0), some (toyReport 2 8 0 true 1),
    some (toyReport 2 7 0 true 2), some (toyReport 2 7 0 true 3), some (toyReport 2 7 0 true 4),
    some (toyReport 2 8 (-1) false 5)], [0, 0]⟩

/-- Seven replicas, with 0 and 1, the primaries of views 0 and 1, faulty.
Replicas 2, 3 and 4 prepare a batch and 2 commits it; 5 prepares another.
Backup 6 accepts a new view that selects the other batch. -/
def droppedRun : List (ℕ × Event) :=
  [getsBatch 2 7 2, getsBatch 2 7 3, getsBatch 2 7 4, getsBatch 2 8 5] ++
    getsPrepares 2 7 2 [1, 3, 4] ++ getsPrepares 2 7 3 [1, 2, 4] ++ getsPrepares 2 7 4 [1, 2, 3] ++
    getsCommits 2 [0, 1, 3, 4] ++ leaveView [2, 3, 4, 5] ++
    getsNewView droppedNewView [toyReport 2 8 0 true 0, toyReport 2 8 0 true 1, toyReport 2 7 0 true 2,
      toyReport 2 7 0 true 3, toyReport 2 7 0 true 4, toyReport 2 8 (-1) false 5] 6

theorem newView_drops_committed :
    (toyCluster 2 {0, 1}).byz.card ≤ (toyCluster 2 {0, 1}).f ∧
      Guarded (toyCluster 2 {0, 1}).step
        (fun S x => (toyCluster 2 {0, 1}).Delivered S x ∧ (toyCluster 2 {0, 1}).Kept S x ∧
          CommitKept S x) (toyCluster 2 {0, 1}).init droppedRun ∧
      ¬ (toyCluster 2 {0, 1}).NewViewKeeps droppedRun := by
  refine ⟨by decide, by decide +kernel, fun h => ?_⟩
  have hcommitted : (exec (toyCluster 2 {0, 1}).step (toyCluster 2 {0, 1}).init
      (droppedRun.take 17) 2).committed 1 = some (toyBatch 2 0 1 7) := by decide +kernel
  have hpick : droppedNewView.pick
      ((exec (toyCluster 2 {0, 1}).step (toyCluster 2 {0, 1}).init droppedRun 6).last_nvs
        1).vcs 1 = some (0, (toyBatch 2 0 1 8).digest) := by decide +kernel
  rcases h (droppedRun.take 17) droppedRun (List.take_prefix ..) (prefix_refl _) 2 6 (by decide)
    (by decide) 1 _ hcommitted (by decide) (by decide +kernel) droppedNewView (by decide +kernel)
    (by decide +kernel) with hmin | ⟨w, hw⟩
  · exact absurd hmin (by decide)
  · have heq := hpick.symm.trans hw
    rw [Option.some.injEq, Prod.mk.injEq] at heq
    exact absurd heq.2 (by decide +kernel)

end Cluster

end AbstractBFT.Aardvark
