import AbstractBFT.Aardvark.ReplicaStep
import AbstractBFT.Lib.Run
/-!
# Aardvark — what a correct primary assigns

A primary opens its view once, with one new-view message, and from then on
proposes batches for increasing sequence numbers behind those the new view
covers. So it assigns one digest to a sequence number in a view, whether by
a pre-prepare or through the new view.
-/

namespace AbstractBFT.Aardvark

namespace Replica

open Function List

variable {N : Node} {r r' : Replica}

/-- **What a replica assigned as primary**, in this view and earlier ones.
Pre-prepares of the current view are for sequence numbers up to `seqno`;
those the new view covers are the ones it selects. -/
structure AssignInv (N : Node) (r : Replica) : Prop where
  v_nonneg : 0 ≤ r.v
  own : ∀ s w d, .prePrepare w d ∈ (r.log s).out → w ≤ r.v ∧ N.primary w = N.id
  one : ∀ s w d d', .prePrepare w d ∈ (r.log s).out → .prePrepare w d' ∈ (r.log s).out → d = d'
  seq : ∀ s d, .prePrepare r.v d ∈ (r.log s).out → s ≤ r.seqno
  nvOwn : ∀ nv ∈ r.sentNvs, nv.view ≤ r.v ∧ N.primary nv.view = N.id ∧ 0 < nv.view
  nvOne : ∀ nv ∈ r.sentNvs, ∀ nv' ∈ r.sentNvs, nv.view = nv'.view → nv = nv'
  nvSeq : ∀ nv ∈ r.sentNvs, nv.view = r.v → nv.max ≤ r.seqno + 1
  selected : ∀ nv ∈ r.sentNvs, ∀ s d, .prePrepare nv.view d ∈ (r.log s).out → nv.min < s →
    s < nv.max → d = nv.fetchDigest N.md5 nv.viewChange s
  fresh : 0 < r.v → N.primary r.v = N.id → (r.nvInfo N).is_complete = false →
    (∀ s d, .prePrepare r.v d ∉ (r.log s).out) ∧ ∀ nv ∈ r.sentNvs, nv.view ≠ r.v
  slot : N.primary r.v = N.id → (r.nvInfo N).v = r.v

theorem assignInv_init (N : Node) : AssignInv N (init N) where
  v_nonneg := le_rfl
  own _ _ _ h := absurd h not_mem_nil
  one _ _ _ _ h := absurd h not_mem_nil
  seq _ _ h := absurd h not_mem_nil
  nvOwn _ h := absurd h not_mem_nil
  nvOne _ h := absurd h not_mem_nil
  nvSeq _ h := absurd h not_mem_nil
  selected _ h := absurd h not_mem_nil
  fresh h := absurd h (lt_irrefl _)
  slot _ := rfl

/-- Nobody but the primary itself writes to the slot of its view. -/
theorem ownSlot_step (h : AssignInv N r) (e : Event) (hv : (r.step N e).v = r.v)
    (hp : N.primary r.v = N.id) : ((r.step N e).nvInfo N).v = (r.nvInfo N).v ∧
      ((r.nvInfo N).is_complete → ((r.step N e).nvInfo N).is_complete) := by
  have hslot := h.slot hp
  have hmove := nvMoved_step N r e (N.primary r.v)
  rw [nvInfo, hv]
  change (r.last_nvs (N.primary r.v)).v = r.v at hslot
  generalize (r.step N e).last_nvs (N.primary r.v) = n at hmove ⊢
  cases hmove with
  | same _ => exact ⟨rfl, id⟩
  | completed _ _ _ _ => exact ⟨rfl, fun _ => rfl⟩
  | made _ _ _ _ _ => exact ⟨rfl, fun _ => rfl⟩
  | stale =>
    rw [NVInfo.markStale]
    split
    · exact ⟨rfl, id⟩
    · next hcomp =>
      refine ⟨?_, fun hc => absurd hc hcomp⟩
      split
      · rfl
      · next hown =>
        -- the slot of view 0 is empty
        rw [not_and, hslot] at hown
        have hzero : r.v = 0 := le_antisymm (not_lt.1 fun hpos => hown hpos hp) h.v_nonneg
        exact (hslot.trans hzero).symm
  | cleared hw hlt => exact absurd (hw.symm.trans hv) hlt.ne'
  | kept hw hlt _ _ => exact absurd (hw.symm.trans hv) hlt.ne'
  | opened hw hlt _ _ _ => exact absurd (hw.symm.trans hv) hlt.ne'
  | viewChange _ _ _ =>
    obtain ⟨hv', -, hcomp⟩ := NVInfo.frame_addViewChange N (r.last_nvs (N.primary r.v)) _ _
    exact ⟨hv', fun hc => hcomp.trans hc⟩
  | newView hpn hver _ _ _ => exact absurd (hpn.symm.trans hp) (NewView.verify_sound hver).2.1

namespace AssignInv

variable (h : AssignInv N r)
include h

theorem of_frame (hv : r'.v = r.v) (hnv : r'.sentNvs = r.sentNvs)
    (hout : ∀ s w d, .prePrepare w d ∈ (r'.log s).out → .prePrepare w d ∈ (r.log s).out)
    (hseq : N.primary r.v = N.id → r.seqno ≤ r'.seqno)
    (hslot : N.primary r.v = N.id → (r'.nvInfo N).v = (r.nvInfo N).v ∧
      ((r.nvInfo N).is_complete → (r'.nvInfo N).is_complete)) : AssignInv N r' where
  v_nonneg := hv ▸ h.v_nonneg
  own s w d hd := hv ▸ h.own s w d (hout s w d hd)
  one s w d d' hd hd' := h.one s w d d' (hout s w d hd) (hout s w d' hd')
  seq s d hd := by
    rw [hv] at hd
    have hold := hout s _ d hd
    exact (h.seq s d hold).trans (hseq (h.own s _ d hold).2)
  nvOwn := by rw [hnv, hv]; exact h.nvOwn
  nvOne := by rw [hnv]; exact h.nvOne
  nvSeq nv hmem hview := by
    rw [hnv] at hmem
    rw [hv] at hview
    have hp : N.primary r.v = N.id := hview ▸ (h.nvOwn nv hmem).2.1
    exact (h.nvSeq nv hmem hview).trans (Nat.succ_le_succ (hseq hp))
  selected nv hmem s d hd hmin hmax := by
    rw [hnv] at hmem
    exact h.selected nv hmem s d (hout s _ d hd) hmin hmax
  fresh hpos hp hcomp := by
    rw [hv] at hpos hp ⊢
    rw [hnv]
    have hnot : (r.nvInfo N).is_complete = false := by
      by_contra hc
      rw [Bool.not_eq_false] at hc
      rw [(hslot hp).2 hc] at hcomp
      cases hcomp
    obtain ⟨hnone, hnv'⟩ := h.fresh hpos hp hnot
    exact ⟨fun s d hd => hnone s d (hout s _ d hd), hnv'⟩
  slot hp := by
    rw [hv] at hp ⊢
    exact (hslot hp).1.trans (h.slot hp)

/-- The primary proposes a batch, behind everything it assigned before. -/
theorem propose {d : Digest} (hp : N.primary r.v = N.id) (hnv : r.hasNewView N)
    (hv : r'.v = r.v) (hseq : r'.seqno = r.seqno + 1) (hsent : r'.sentNvs = r.sentNvs)
    (hlast : r'.last_nvs = r.last_nvs)
    (hself : (r'.log (r.seqno + 1)).out = (r.log (r.seqno + 1)).out ++ [.prePrepare r.v d])
    (hother : ∀ s, s ≠ r.seqno + 1 → (r'.log s).out = (r.log s).out) : AssignInv N r' := by
  have hmem : ∀ s w d', .prePrepare w d' ∈ (r'.log s).out → .prePrepare w d' ∈ (r.log s).out ∨
      s = r.seqno + 1 ∧ w = r.v ∧ d' = d := by
    intro s w d' hd'
    by_cases hs : s = r.seqno + 1
    · subst hs
      rw [hself, mem_append, mem_singleton, Own.prePrepare.injEq] at hd'
      exact hd'.imp_right fun hnew => ⟨rfl, hnew⟩
    · rw [hother s hs] at hd'
      exact .inl hd'
  -- nothing of this view is assigned there yet
  have hfree : ∀ d', .prePrepare r.v d' ∉ (r.log (r.seqno + 1)).out := fun d' hd' =>
    absurd (h.seq _ _ hd') (Nat.not_succ_le_self _)
  have hinfo : r'.nvInfo N = r.nvInfo N := by rw [nvInfo, hv, hlast, nvInfo]
  refine ⟨hv ▸ h.v_nonneg, fun s w d' hd' => ?_, fun s w d₁ d₂ h₁ h₂ => ?_, fun s d' hd' => ?_, ?_,
    ?_, fun nv hmemnv hview => ?_, fun nv hmemnv s d' hd' hmin hmax => ?_, fun hpos _ hcomp => ?_,
    fun _ => ?_⟩
  · rw [hv]
    rcases hmem s w d' hd' with hold | ⟨-, rfl, -⟩
    · exact h.own s w d' hold
    · exact ⟨le_rfl, hp⟩
  · rcases hmem s w d₁ h₁ with hold | ⟨hs, hw, hd₁⟩ <;>
      rcases hmem s w d₂ h₂ with hold' | ⟨hs', hw', hd₂⟩
    · exact h.one s w d₁ d₂ hold hold'
    · exact absurd (hw' ▸ hs' ▸ hold) (hfree d₁)
    · exact absurd (hw ▸ hs ▸ hold') (hfree d₂)
    · exact hd₁.trans hd₂.symm
  · rw [hv] at hd'
    rw [hseq]
    rcases hmem s _ d' hd' with hold | ⟨rfl, -⟩
    · exact (h.seq s d' hold).trans (Nat.le_succ _)
    · exact le_rfl
  · rw [hsent, hv]
    exact h.nvOwn
  · rw [hsent]
    exact h.nvOne
  · rw [hsent] at hmemnv
    rw [hv] at hview
    rw [hseq]
    exact (h.nvSeq nv hmemnv hview).trans (Nat.le_succ _)
  · rw [hsent] at hmemnv
    rcases hmem s _ d' hd' with hold | ⟨rfl, hview, -⟩
    · exact h.selected nv hmemnv s d' hold hmin hmax
    · exact absurd (h.nvSeq nv hmemnv hview) (not_le.2 hmax)
  · rw [hv] at hpos
    rw [hinfo] at hcomp
    rw [hasNewView, hcomp, Bool.and_false, Bool.or_false, beq_iff_eq] at hnv
    exact absurd hnv hpos.ne'
  · rw [hinfo, hv]
    exact h.slot hp

/-- The primary opens its view, with one new-view message. -/
theorem make {nv : NewView} (hp : N.primary r.v = N.id) (hpos : 0 < r.v)
    (hnv : nv.view = r.v) (hcomp : (r.nvInfo N).is_complete = false)
    (hv : r'.v = r.v) (hseq : nv.max - 1 ≤ r'.seqno) (hsent : r'.sentNvs = r.sentNvs ++ [nv])
    (hslot : (r'.nvInfo N).v = r.v) (hdone : (r'.nvInfo N).is_complete)
    (hmem : ∀ s w d, .prePrepare w d ∈ (r'.log s).out → .prePrepare w d ∈ (r.log s).out ∨
      w = r.v ∧ nv.min < s ∧ s < nv.max ∧ d = nv.fetchDigest N.md5 nv.viewChange s) :
    AssignInv N r' := by
  obtain ⟨hnone, hnvs⟩ := h.fresh hpos hp hcomp
  have hmemnv : ∀ nv' ∈ r'.sentNvs, nv' ∈ r.sentNvs ∨ nv' = nv := by
    intro nv' hnv'
    rw [hsent, mem_append, mem_singleton] at hnv'
    exact hnv'
  refine ⟨hv ▸ h.v_nonneg, fun s w d hd => ?_, fun s w d₁ d₂ h₁ h₂ => ?_, fun s d hd => ?_,
    fun nv' hnv' => ?_, fun nv₁ h₁ nv₂ h₂ heq => ?_, fun nv' hnv' hview => ?_,
    fun nv' hnv' s d hd hmin hmax => ?_, fun _ _ hnot => ?_, fun _ => hslot.trans hv.symm⟩
  · rw [hv]
    rcases hmem s w d hd with hold | ⟨rfl, -⟩
    · exact h.own s w d hold
    · exact ⟨le_rfl, hp⟩
  · rcases hmem s w d₁ h₁ with hold | ⟨hw, -, -, hd₁⟩ <;>
      rcases hmem s w d₂ h₂ with hold' | ⟨hw', -, -, hd₂⟩
    · exact h.one s w d₁ d₂ hold hold'
    · exact absurd (hw' ▸ hold) (hnone s d₁)
    · exact absurd (hw ▸ hold') (hnone s d₂)
    · exact hd₁.trans hd₂.symm
  · rw [hv] at hd
    rcases hmem s _ d hd with hold | ⟨-, -, hmax, -⟩
    · exact absurd hold (hnone s d)
    · omega
  · rw [hv]
    rcases hmemnv nv' hnv' with hold | rfl
    · exact h.nvOwn nv' hold
    · rw [hnv]
      exact ⟨le_rfl, hp, hpos⟩
  · rcases hmemnv nv₁ h₁ with hold | rfl <;> rcases hmemnv nv₂ h₂ with hold' | rfl
    · exact h.nvOne nv₁ hold nv₂ hold' heq
    · exact absurd (heq.trans hnv) (hnvs nv₁ hold)
    · exact absurd (heq.symm.trans hnv) (hnvs nv₂ hold')
    · rfl
  · rw [hv] at hview
    rcases hmemnv nv' hnv' with hold | rfl
    · exact absurd hview (hnvs nv' hold)
    · omega
  · rcases hmemnv nv' hnv' with hold | rfl <;> rcases hmem s _ d hd with hold' | ⟨hview, -, -, rfl⟩
    · exact h.selected nv' hold s d hold' hmin hmax
    · exact absurd hview (hnvs nv' hold)
    · exact absurd (hnv ▸ hold') (hnone s d)
    · rfl
  · rw [hdone] at hnot
    cases hnot

/-- In a view just entered nothing is assigned. -/
theorem leave (hw : r.v < r'.v) (hsent : r'.sentNvs = r.sentNvs)
    (hout : ∀ s, (r'.log s).out = (r.log s).out)
    (hslot : N.primary r'.v = N.id → (r'.nvInfo N).v = r'.v) : AssignInv N r' := by
  have hnone : ∀ s d, .prePrepare r'.v d ∉ (r'.log s).out := by
    intro s d hd
    rw [hout] at hd
    exact absurd (h.own s _ d hd).1 (not_le.2 hw)
  have hnvs : ∀ nv ∈ r'.sentNvs, nv.view ≠ r'.v := by
    intro nv hnv heq
    rw [hsent] at hnv
    exact absurd (heq ▸ (h.nvOwn nv hnv).1) (not_le.2 hw)
  refine ⟨h.v_nonneg.trans hw.le, fun s w d hd => ?_, fun s w d d' => ?_,
    fun s d hd => absurd hd (hnone s d), fun nv hnv => ?_, ?_,
    fun nv hnv heq => absurd heq (hnvs nv hnv), fun nv hnv s d => ?_, fun _ _ _ => ⟨hnone, hnvs⟩, hslot⟩
  · rw [hout] at hd
    exact ⟨(h.own s w d hd).1.trans hw.le, (h.own s w d hd).2⟩
  · rw [hout]
    exact h.one s w d d'
  · rw [hsent] at hnv
    exact ⟨(h.nvOwn nv hnv).1.trans hw.le, (h.nvOwn nv hnv).2⟩
  · rw [hsent]
    exact h.nvOne
  · rw [hsent] at hnv
    rw [hout]
    exact h.selected nv hnv s d

end AssignInv

theorem nvInfo_viewChange (N : Node) (r : Replica) {w : View} (ckpts : List Digest)
    (hp : N.primary w = N.id) : ((r.viewChange N w ckpts).nvInfo N).v = w := by
  rw [nvInfo, (frame_viewChange N r w ckpts).1, hp]
  dsimp only [viewChange]
  rw [if_pos hp]
  dsimp only
  rw [update_self]

/-- The events a primary assigns digests on. -/
def assigns : Event → Bool
  | .propose .. => true
  | .make .. => true
  | _ => false

/-- **One event keeps what a replica assigned consistent.** -/
theorem AssignInv.step (h : AssignInv N r) (e : Event) : AssignInv N (r.step N e) := by
  have hstep := stepped_step N r e
  have hmem := fun s w d => (moved_step N r e s).prePrepare_mem (w := w) (d := d)
  have hslot := ownSlot_step h e
  generalize r.step N e = r' at hstep hmem hslot ⊢
  -- the events that assign nothing and leave `seqno` alone
  have hframe : assigns e = false → r'.v = r.v → r'.sentNvs = r.sentNvs →
      (N.primary r.v = N.id → r.seqno ≤ r'.seqno) → AssignInv N r' := by
    intro he hv hnv hseq
    refine h.of_frame hv hnv (fun s w d hd => ?_) hseq (hslot hv)
    rcases hmem s w d hd with hold | ⟨-, ⟨small, big, nd, rfl⟩ | ⟨nv, ms, pps, rfl, -⟩⟩
    · exact hold
    · cases he
    · cases he
  cases hstep with
  | checkpoint ht =>
    refine h.of_frame ht.v ht.sentNvs (fun s w d hd => ?_) (fun hp => ?_) (hslot ht.v)
    · rcases ht.log s with heq | ⟨-, heq⟩ <;> rw [heq] at hd <;> exact hd
    · refine ht.seqno ?_
      rw [h.slot hp]
      exact hp
  | @propose small big nd brt' hlive hp hnv =>
    refine h.propose (d := (batch N r.v (r.seqno + 1) small big nd).digest) hp hnv rfl rfl rfl rfl ?_
      fun s hs => ?_
    · exact congrArg Slot.out (log_onSlot_self ..)
    · exact congrArg Slot.out (log_onSlot_of_ne hs _)
  | @make nv _ _ r1 _ hp hpos hview hnv hcomp hproc =>
    have hinfo := hproc.nvInfo_eq (by simp only [nvInfo, update_self])
    obtain ⟨htrunc, ⟨_, _, _, _, rfl⟩, -⟩ := hproc
    simp only [nvInfo, update_self] at hinfo
    refine h.make hp hpos hnv hcomp htrunc.v (htrunc.seqno ?_) htrunc.sentNvs ?_ ?_ fun s w d hd => ?_
    · simp only [nvInfo, update_self]
      exact hview.symm ▸ hp
    · exact (congrArg NVInfo.v hinfo).trans hview
    · exact congrArg NVInfo.is_complete hinfo
    · rcases hmem s w d hd with hold | ⟨hw, ⟨_, _, _, he⟩ | ⟨nv', _, _, he, hsel⟩⟩
      · exact Or.inl hold
      · cases he
      · cases he
        exact Or.inr ⟨hw, hsel⟩
  | leave hw =>
    obtain ⟨hv, -, hlog, hsent, -⟩ := frame_viewChange N _ _ _
    refine h.leave ?_ hsent (fun s => ?_) fun hp => ?_
    · rw [hv]
      exact hw
    · rw [hlog]
      rfl
    · rw [hv] at hp ⊢
      exact nvInfo_viewChange N _ _ hp
  | @viewChange vc auth =>
    obtain ⟨_, _, _, heq⟩ := v_handleViewChange N r vc auth
    rw [heq] at hframe ⊢
    exact hframe rfl rfl rfl fun _ => le_rfl
  | @newView nv auth =>
    obtain ⟨_, _, heq⟩ := v_handleNewView N r nv auth
    rw [heq] at hframe ⊢
    exact hframe rfl rfl rfl fun _ => le_rfl
  | install hp _ _ _ _ _ hproc =>
    obtain ⟨htrunc, ⟨_, _, _, _, rfl⟩, -⟩ := hproc
    exact hframe rfl htrunc.v htrunc.sentNvs fun hp' => absurd hp' hp
  | _ => exact hframe rfl rfl rfl fun _ => le_rfl

/-- **A correct primary does not equivocate**, whatever it receives. -/
theorem assignInv_exec (N : Node) (es : List Event) :
    AssignInv N (Machine.exec (step N) (init N) es) :=
  Machine.exec_invariant (I := AssignInv N) (fun _ e h => h.step e) (assignInv_init N) es

end Replica

end AbstractBFT.Aardvark
