import AbstractBFT.Aardvark.Equivocation
/-!
# Aardvark — what a prepared certificate stands for

What one replica may conclude from its log depends on what the others have
sent. `Known` is that, as far as the ordering protocol reads it: who
prepared what, what a primary assigned to a sequence number, and which new
views there are. `CertInv` says that the certificates of a replica and its
own prepares are backed by it. Nothing here depends on how many replicas
are faulty.
-/

namespace AbstractBFT.Aardvark

/-- What replicas have sent, or may have sent if they are faulty. A new
view assigns a digest to every sequence number it covers. -/
structure Known (md5 : Md5) where
  prepare : ℕ → View → ℕ → Digest → Prop
  commit : ℕ → View → ℕ → Prop
  assign : View → ℕ → Digest → Prop
  newView : NewView → Prop
  assign_newView : ∀ nv s, newView nv → nv.min < s → s < nv.max →
    assign nv.view s (nv.fetchDigest md5 nv.viewChange s)

/-- More was sent. -/
structure Known.Le {md5 : Md5} (K K' : Known md5) : Prop where
  prepare : ∀ j v s d, K.prepare j v s d → K'.prepare j v s d
  commit : ∀ j v s, K.commit j v s → K'.commit j v s
  assign : ∀ v s d, K.assign v s d → K'.assign v s d
  newView : ∀ nv, K.newView nv → K'.newView nv

theorem Known.Le.refl {md5 : Md5} (K : Known md5) : K.Le K :=
  ⟨fun _ _ _ _ h => h, fun _ _ _ h => h, fun _ _ _ h => h, fun _ h => h⟩

/-- An event brings in nothing but what was sent, as far as it
authenticates. -/
def Heard (N : Node) (K : Known N.md5) : Event → Prop
  | .prePrepare _ m => m.auth → N.primary m.view ≠ N.id → K.assign m.view m.seqno m.digest
  | .prepare m => m.auth → m.id < N.n → m.id ≠ N.id → N.primary m.view ≠ m.id →
      K.prepare m.id m.view m.seqno m.digest
  | .commit m => m.auth → m.id < N.n → m.id ≠ N.id → K.commit m.id m.view m.seqno
  | .newView nv auth => auth → N.primary nv.view ≠ N.id → K.newView nv
  | _ => True

namespace Slot

variable {N : Node} {K K' : Known N.md5} {v : View} {n s : ℕ} {σ : Slot} {d : Digest}

/-- Replica `j`, a backup of `v`, prepared the batch with digest `d`; this
replica itself has it among what it sent. -/
def Prepared (N : Node) (K : Known N.md5) (v : View) (s : ℕ) (out : List Own) (j : ℕ) (d : Digest) :
    Prop :=
  j < N.n ∧ j ≠ N.primary v ∧ (j = N.id → .prepare v d ∈ out) ∧ (j ≠ N.id → K.prepare j v s d)

/-- `2f` backups prepared it. -/
def Quorate (N : Node) (K : Known N.md5) (v : View) (s : ℕ) (out : List Own) (d : Digest) : Prop :=
  ∃ A : Finset ℕ, 2 * N.f ≤ A.card ∧ ∀ j ∈ A, Prepared N K v s out j d

/-- **What backs the entry for `s`** in view `v`: the pre-prepare is of
this view and was assigned by the primary, the prepares counted were sent,
and everything this replica prepared itself had been assigned. -/
structure CertInv (N : Node) (K : Known N.md5) (v : View) (s : ℕ) (σ : Slot) : Prop where
  threshold : σ.pc.pc.complete = if 2 * N.f = 0 then 2 * N.f + 1 else 2 * N.f
  assigned : ∀ pp, σ.pc.pi.pp = some pp →
    pp.view = v ∧ (N.primary v ≠ N.id → K.assign v s pp.digest)
  backed : σ.pc.pc.Backed (fun j p => Prepared N K v s σ.out j p.digest) N.id
  sent : ∀ w d, .prepare w d ∈ σ.out → N.primary w ≠ N.id → K.assign w s d

namespace CertInv

variable {out : List Own} {σ' : Slot} {brt : BigReqTable} {rd : Digest} {pp : PrePrepare}

theorem prepared_congr (a b : Prepare) (h : CertMessage.agrees a b) (j : ℕ) :
    Prepared N K v s out j a.digest ↔ Prepared N K v s out j b.digest := by
  rw [Prepare.agrees_iff.1 h]

theorem prepared_mono {out' : List Own} (hout : out ⊆ out') (hK : K.Le K') {j : ℕ}
    (h : Prepared N K v s out j d) : Prepared N K' v s out' j d :=
  ⟨h.1, h.2.1, fun hj => hout (h.2.2.1 hj), fun hj => hK.prepare _ _ _ _ (h.2.2.2 hj)⟩

theorem new : CertInv N K v s (.new N.f) where
  threshold := rfl
  assigned _ h := by cases h
  backed := .new _ _
  sent _ _ h := absurd h List.not_mem_nil

/-- The own prepare is counted once. -/
theorem backed_addMine (hid : N.id < N.n) (hp : N.primary v ≠ N.id) (hnone : σ.pc.pc.mym = none)
    (hd : .prepare v d ∈ out) (h : σ.pc.pc.Backed (fun j p => Prepared N K v s out j p.digest) N.id) :
    (σ.pc.addMine ⟨v, n, d, N.id, false, true⟩).pc.Backed
      (fun j p => Prepared N K v s out j p.digest) N.id :=
  h.addMine prepared_congr hnone ⟨hid, hp.symm, fun _ => hd, fun hne => absurd rfl hne⟩

variable (h : CertInv N K v s σ)
include h

theorem mono (hK : K.Le K') : CertInv N K' v s σ where
  threshold := h.threshold
  assigned pp hpp := (h.assigned pp hpp).imp_right fun hd hp => hK.assign _ _ _ (hd hp)
  backed := h.backed.mono fun _ _ => prepared_mono (List.Subset.refl _) hK
  sent w d hd hw := hK.assign _ _ _ (h.sent w d hd hw)

theorem clear {w : View} : CertInv N K w s σ.clear where
  threshold := h.threshold
  assigned _ hpp := by cases hpp
  backed := .clear σ.pc.pc
  sent := h.sent

/-- An operation that sends no prepare and keeps the certificate's
pre-prepare. -/
theorem of_backed (hthr : σ'.pc.pc.complete = σ.pc.pc.complete) (hpp : ∀ pp, σ'.pc.pi.pp = some pp →
      pp.view = v ∧ (N.primary v ≠ N.id → K.assign v s pp.digest))
    (hout : ∀ w d, .prepare w d ∈ σ'.out ↔ .prepare w d ∈ σ.out)
    (hback : σ'.pc.pc.Backed (fun j p => Prepared N K v s σ.out j p.digest) N.id) :
    CertInv N K v s σ' where
  threshold := hthr.trans h.threshold
  assigned := hpp
  backed := hback.mono fun _ _ hp => ⟨hp.1, hp.2.1, fun hj => (hout _ _).2 (hp.2.2.1 hj), hp.2.2.2⟩
  sent w d hd := h.sent w d ((hout w d).1 hd)

/-- This replica prepares a batch its primary assigned, or prepares as the
primary, which nobody counts. -/
theorem send (hout : σ'.out = σ.out ++ [.prepare v d]) (hthr : σ'.pc.pc.complete = σ.pc.pc.complete)
    (hpp : ∀ pp, σ'.pc.pi.pp = some pp →
      pp.view = v ∧ (N.primary v ≠ N.id → K.assign v s pp.digest))
    (hd : N.primary v ≠ N.id → K.assign v s d)
    (hback : σ.pc.pc.Backed (fun j p => Prepared N K v s σ'.out j p.digest) N.id →
      σ'.pc.pc.Backed (fun j p => Prepared N K v s σ'.out j p.digest) N.id) :
    CertInv N K v s σ' where
  threshold := hthr.trans h.threshold
  assigned := hpp
  backed := by
    have hsub : σ.out ⊆ σ'.out := by
      rw [hout]
      exact List.subset_append_left _ _
    exact hback (h.backed.mono fun _ _ => prepared_mono hsub (.refl K))
  sent w d' hd' hw := by
    rw [hout, List.mem_append, List.mem_singleton, Own.prepare.injEq] at hd'
    rcases hd' with hold | ⟨rfl, rfl⟩
    · exact h.sent w d' hold hw
    · exact hd hw

theorem sendPrepare (hid : N.id < N.n) : CertInv N K v s (σ.sendPrepare N v n) := by
  rcases sendPrepare_cases N v n σ with heq | ⟨pp, hnone, hpp, heq⟩ <;> rw [heq]
  · exact h
  by_cases hp : N.primary v = N.id
  · rw [if_pos hp]
    exact h.send rfl rfl h.assigned (fun hne => absurd hp hne) id
  · rw [if_neg hp]
    refine h.send rfl Certificate.complete_addMine h.assigned (h.assigned pp hpp).2 ?_
    exact backed_addMine hid hp hnone (by simp)

theorem commitIfComplete : CertInv N K v s (σ.commitIfComplete N v n) := by
  rw [Slot.commitIfComplete]
  split
  · exact h.of_backed rfl h.assigned (fun w d => by simp [Slot.sendCommit]) h.backed
  · exact h

/-- A pre-prepare is accepted only with the primary's authenticator. -/
theorem prePrepare {q : ReqQueue} {m : PrePrepare} (hid : N.id < N.n) (hv : m.view = v)
    (hs : m.seqno = s) (hheard : Heard N K (.prePrepare q m)) :
    CertInv N K v s (σ.prePrepare N q v brt m).1 := by
  dsimp only [Slot.prePrepare]
  split
  · next hadd =>
    obtain ⟨-, -, hver⟩ := PreparedCert.add_true hadd
    have hauth : N.primary m.view ≠ N.id ∧ m.auth := by
      rcases hver with hver | hver
      · exact PrePrepare.auth_of_verify hver (by decide)
      · exact PrePrepare.auth_of_verify hver (by decide)
    have hassign : K.assign v s m.digest := by
      rw [← hv, ← hs]
      exact hheard hauth.2 hauth.1
    have hacc : CertInv N K v s { σ with pc := (σ.pc.add N q brt m).1.1 } := by
      rw [PreparedCert.add_of_true hadd]
      refine h.of_backed rfl (fun pp hpp => ?_) (fun _ _ => Iff.rfl) h.backed
      rw [PreparedCert.pp_addOld] at hpp
      cases hpp
      exact ⟨hv, fun _ => hassign⟩
    exact (hacc.sendPrepare hid).commitIfComplete
  · exact h

theorem prepare {m : Prepare} (hv : m.view = v) (hs : m.seqno = s) (hne : N.primary v ≠ m.id)
    (hheard : Heard N K (.prepare m)) : CertInv N K v s (σ.prepare N v m) := by
  have hadd : CertInv N K v s { σ with pc := (σ.pc.addPrepare N m).1 } := by
    refine h.of_backed Certificate.complete_add h.assigned (fun _ _ => Iff.rfl) ?_
    refine h.backed.add prepared_congr fun hok => ?_
    obtain ⟨hlt, hme, hauth⟩ := Prepare.verify_sound hok
    have hsent := hheard hauth hlt hme (by rw [hv]; exact hne)
    rw [hv, hs] at hsent
    exact ⟨hme, hlt, hne.symm, fun hj => absurd hj hme, fun _ => hsent⟩
  dsimp only [Slot.prepare]
  split
  · exact hadd.commitIfComplete
  · exact hadd

theorem commit {m : Commit} : CertInv N K v s (σ.commit N m) :=
  h.of_backed rfl h.assigned (fun _ _ => Iff.rfl) h.backed

theorem bigRequest {i : ℕ} (hid : N.id < N.n) : CertInv N K v s (σ.bigRequest N v n rd i) := by
  have hdig : CertInv N K v s { σ with pc := σ.pc.addDigest rd i } := by
    refine h.of_backed rfl (fun pp hpp => ?_) (fun _ _ => Iff.rfl) h.backed
    exact h.assigned pp ((PrePrepareInfo.pp_addDigest ..).symm.trans hpp)
  exact (hdig.sendPrepare hid).commitIfComplete

theorem released (hid : N.id < N.n) (is : List ℕ) :
    CertInv N K v s (is.foldl (fun σ i => σ.bigRequest N v n rd i) σ) := by
  induction is generalizing σ with
  | nil => exact h
  | cons i is ih => exact ih (h.bigRequest hid)

theorem markStale {b : Bool} : CertInv N K v s (σ.markStale b) := by
  dsimp only [Slot.markStale, PreparedCert.markStale]
  split
  · exact h.of_backed rfl h.assigned (fun _ _ => Iff.rfl) h.backed
  · refine h.of_backed (Certificate.complete_markStale _) (fun pp hpp => ?_) (fun _ _ => Iff.rfl)
      h.backed.markStale
    split at hpp
    · exact h.assigned pp hpp
    · cases hpp

theorem propose (hp : N.primary v = N.id) (hv : pp.view = v) :
    CertInv N K v s (σ.propose v pp) := by
  refine h.of_backed rfl (fun pp' hpp' => ?_) (fun w d => by simp [Slot.propose]) h.backed
  cases hpp'
  exact ⟨hv, fun hne => absurd hp hne⟩

/-- A new view's request, into an entry without an own prepare. -/
theorem adopt (hid : N.id < N.n) (hv : pp.view = v)
    (hun : N.primary v ≠ N.id → σ.pc.pc.mym = none ∧ K.assign v s pp.digest) :
    CertInv N K v s (σ.adopt N v brt pp).1 := by
  rw [Slot.adopt]
  split
  · next hp => exact h.propose hp hv
  · next hp =>
    refine h.send rfl Certificate.complete_addMine (fun pp' hpp' => ?_) (fun _ => (hun hp).2) ?_
    · dsimp only at hpp'
      rw [PreparedCert.pp_addOld] at hpp'
      cases hpp'
      exact ⟨hv, fun _ => (hun hp).2⟩
    · exact backed_addMine hid hp (hun hp).1 (by simp)

/-- **A complete prepared certificate** is one of `2f` backups. -/
theorem quorate (hf : 0 < N.f) (hcomp : σ.pc.isComplete) :
    ∃ pp, σ.pc.pi.pp = some pp ∧ pp.view = v ∧ Quorate N K v s σ.out pp.digest := by
  obtain ⟨pp, hpp, -, hpc, val, hval, hd⟩ := PreparedCert.exists_of_isComplete hcomp
  have hthr : σ.pc.pc.complete = 2 * N.f := by
    rw [h.threshold, if_neg (by omega)]
  obtain ⟨val', hval', A, hsent, hcard⟩ := h.backed.exists_senders (by omega) hpc
  cases hval.symm.trans hval'
  refine ⟨pp, hpp, (h.assigned pp hpp).1, A, hthr ▸ hcard, fun j hj => ?_⟩
  rw [hd]
  exact hsent j hj

end CertInv

end Slot

end AbstractBFT.Aardvark
