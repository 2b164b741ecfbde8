import AbstractBFT.Aardvark.Cluster
/-!
# Aardvark — commits, and how they are reported

A replica that sent a commit in its view keeps the prepared certificate
complete until it leaves the view or a checkpoint covers the sequence
number, and its view-change message then reports the batch as prepared.
`send_commit` does not test whether the own commit is logged already;
`CommitKept` is the condition under which a big request that arrives late
does not make it log a second one or spoil the certificate.
-/

namespace AbstractBFT.Aardvark

open List

/-- Prepares keep a complete prepared certificate complete. -/
theorem PreparedCert.isComplete_addPrepare {N : Node} {cert : PreparedCert} {m : Prepare}
    (hpos : 0 < cert.pc.complete) (h : cert.isComplete) : (cert.addPrepare N m).1.isComplete := by
  obtain ⟨pp, hpp, hpi, hpc, val, hval, hd⟩ := exists_of_isComplete h
  have hpc' : (cert.addPrepare N m).1.pc.isComplete := Certificate.isComplete_add hpos hpc
  have hpi' : (cert.addPrepare N m).1.pi = cert.pi := rfl
  -- the correct value may count up, with its digest unchanged
  have hval' : ∃ val', (cert.addPrepare N m).1.pc.cval = some val' ∧ pp.digest = val'.m.digest := by
    rcases Certificate.cval_add N.n (m.verify N) m hval with hc | ⟨hc, hag⟩
    · exact ⟨val, hc, hd⟩
    · refine ⟨val.bump m, hc, ?_⟩
      rcases val.bump_m m with hb | hb <;> rw [hb, hd]
      exact Prepare.agrees_iff.1 hag
  obtain ⟨val', hc, hd'⟩ := hval'
  rw [isComplete, hpc', hpi', hpi, ppMatches, hpi', hpp, Certificate.cvalue, hc]
  simpa using hd'

namespace Slot

variable {N : Node} {K K' : Known N.md5} {v : View} {n s : ℕ} {σ σ' : Slot} {live live' : Prop}

theorem Quorate.mono {out out' : List Own} {d : Digest} (h : Quorate N K v s out d) (hout : out ⊆ out')
    (hK : K.Le K') : Quorate N K' v s out' d := by
  obtain ⟨A, hcard, hA⟩ := h
  exact ⟨A, hcard, fun j hj => CertInv.prepared_mono hout hK (hA j hj)⟩

/-- Replica `j` sent a commit for `s` in view `v`. -/
def Committed (N : Node) (K : Known N.md5) (v : View) (s : ℕ) (out : List Own) (j : ℕ) : Prop :=
  j < N.n ∧ (j = N.id → .commit v ∈ out) ∧ (j ≠ N.id → K.commit j v s)

/-- **What holds of the commits for `s`** in view `v`: those counted were
sent, and while the entry is live an own commit stands on a complete
prepared certificate. -/
structure CommitInv (N : Node) (K : Known N.md5) (v : View) (live : Prop) (s : ℕ) (σ : Slot) :
    Prop where
  threshold : σ.cc.complete = 2 * N.f + 1
  backed : σ.cc.Backed (fun j _ => Committed N K v s σ.out j) N.id
  past : ∀ w, .commit w ∈ σ.out → w ≤ v
  complete : live → .commit v ∈ σ.out → σ.pc.isComplete
  own : N.primary v = N.id → σ.pc.pi.pp.isSome → ∃ d, .prePrepare v d ∈ σ.out

namespace CommitInv

theorem new : CommitInv N K v live s (.new N.f) where
  threshold := rfl
  backed := .new _ _
  past _ h := absurd h not_mem_nil
  complete _ h := absurd h not_mem_nil
  own _ h := by cases h

theorem not_mem_sendPrepare (hnone : .commit v ∉ σ.out) : .commit v ∉ (σ.sendPrepare N v n).out := by
  rcases sendPrepare_cases N v n σ with heq | ⟨pp, -, -, heq⟩ <;> rw [heq]
  · exact hnone
  · simpa using hnone

variable (h : CommitInv N K v live s σ)
include h

theorem mono (hK : K.Le K') : CommitInv N K' v live s σ where
  threshold := h.threshold
  backed := h.backed.mono fun _ _ hj => ⟨hj.1, hj.2.1, fun hne => hK.commit _ _ _ (hj.2.2 hne)⟩
  past := h.past
  complete := h.complete
  own := h.own

theorem weaken (hl : live' → live) : CommitInv N K v live' s σ :=
  ⟨h.threshold, h.backed, h.past, fun hlive => h.complete (hl hlive), h.own⟩

theorem clear {w : View} (hle : v ≤ w) (hl : live' → v < w) : CommitInv N K w live' s σ.clear where
  threshold := h.threshold
  backed := .clear σ.cc
  past u hu := (h.past u hu).trans hle
  complete hlive hw := absurd (h.past w hw) (not_le.2 (hl hlive))
  own _ hpp := by cases hpp

/-- An operation that sends no commit and does not touch the commits
counted. -/
theorem of_eq (hcc : σ'.cc = σ.cc) (hout : ∀ w, .commit w ∈ σ'.out ↔ .commit w ∈ σ.out)
    (hcomp : live → .commit v ∈ σ.out → σ.pc.isComplete → σ'.pc.isComplete)
    (hown : N.primary v = N.id → σ'.pc.pi.pp.isSome → ∃ d, .prePrepare v d ∈ σ'.out) :
    CommitInv N K v live s σ' where
  threshold := by rw [hcc, h.threshold]
  backed := by
    rw [hcc]
    exact h.backed.mono fun _ _ hj => ⟨hj.1, fun hid => (hout v).2 (hj.2.1 hid), hj.2.2⟩
  past w hw := h.past w ((hout w).1 hw)
  complete hlive hw := hcomp hlive ((hout v).1 hw) (h.complete hlive ((hout v).1 hw))
  own := hown

theorem commitIfComplete (hid : N.id < N.n) (hnone : .commit v ∉ σ.out) :
    CommitInv N K v live s (σ.commitIfComplete N v n) := by
  rw [Slot.commitIfComplete]
  split
  case isFalse => exact h
  case isTrue hcomp =>
    have hmym : σ.cc.mym = none := by
      cases hm : σ.cc.mym with
      | none => rfl
      | some p => exact absurd ((h.backed.mine p hm).2.1 rfl) hnone
    have hmem : .commit v ∈ (σ.sendCommit N v n).out := by simp [Slot.sendCommit]
    have hback : σ.cc.Backed (fun j _ => Committed N K v s (σ.sendCommit N v n).out j) N.id :=
      h.backed.mono fun _ _ hj => ⟨hj.1, fun _ => hmem, hj.2.2⟩
    refine ⟨?_, ?_, fun w hw => ?_, fun _ _ => hcomp, fun hp hpp => ?_⟩
    · exact Certificate.complete_addMine.trans h.threshold
    · exact hback.addMine (fun _ _ _ _ => Iff.rfl) hmym ⟨hid, fun _ => hmem, fun hne => absurd rfl hne⟩
    · rw [Slot.sendCommit, mem_append, mem_singleton, Own.commit.injEq] at hw
      rcases hw with hold | rfl
      · exact h.past w hold
      · exact le_rfl
    · obtain ⟨d, hd⟩ := h.own hp hpp
      exact ⟨d, mem_append_left _ hd⟩

theorem sendPrepare (hnone : .commit v ∉ σ.out) : CommitInv N K v live s (σ.sendPrepare N v n) := by
  rcases sendPrepare_cases N v n σ with heq | ⟨pp, -, hpp, heq⟩ <;> rw [heq]
  · exact h
  · refine h.of_eq rfl (fun w => by simp) (fun _ hc => absurd hc hnone) fun hp _ => ?_
    obtain ⟨d, hd⟩ := h.own hp (by rw [hpp]; rfl)
    exact ⟨d, mem_append_left _ hd⟩

/-- An entry whose prepared certificate is not complete has no own commit. -/
theorem not_mem (hlive : live) (hcomp : ¬ σ.pc.isComplete) :
    .commit v ∉ σ.out := fun hc => hcomp (h.complete hlive hc)

variable {brt : BigReqTable} {pp : PrePrepare}

theorem prePrepare {q : ReqQueue} {m : PrePrepare} (hlive : live) (hid : N.id < N.n)
    (hv : m.view = v) : CommitInv N K v live s (σ.prePrepare N q v brt m).1 := by
  dsimp only [Slot.prePrepare]
  split
  case isFalse => exact h
  case isTrue hadd =>
    obtain ⟨hpp, -, hver⟩ := PreparedCert.add_true hadd
    have hbackup : N.primary v ≠ N.id := by
      rw [← hv]
      rcases hver with hver | hver
      · exact (PrePrepare.auth_of_verify hver (by decide)).1
      · exact (PrePrepare.auth_of_verify hver (by decide)).1
    have hnone : .commit v ∉ σ.out := by
      refine h.not_mem hlive fun hcomp => ?_
      obtain ⟨pp, hpp', -⟩ := PreparedCert.exists_of_isComplete hcomp
      rw [hpp] at hpp'
      cases hpp'
    have hacc : CommitInv N K v live s { σ with pc := (σ.pc.add N q brt m).1.1 } :=
      h.of_eq rfl (fun _ => Iff.rfl) (fun _ hc => absurd hc hnone) fun hp => absurd hp hbackup
    exact (hacc.sendPrepare hnone).commitIfComplete hid (not_mem_sendPrepare hnone)

theorem prepare {m : Prepare} (hlive : live) (hid : N.id < N.n) (hpos : 0 < σ.pc.pc.complete) :
    CommitInv N K v live s (σ.prepare N v m) := by
  have hadd : CommitInv N K v live s { σ with pc := (σ.pc.addPrepare N m).1 } :=
    h.of_eq rfl (fun _ => Iff.rfl) (fun _ _ => PreparedCert.isComplete_addPrepare hpos) h.own
  dsimp only [Slot.prepare]
  split
  · next hnew =>
    refine hadd.commitIfComplete hid (h.not_mem hlive fun hcomp => ?_)
    obtain ⟨-, -, -, hpc, -⟩ := PreparedCert.exists_of_isComplete hcomp
    exact Certificate.not_isComplete_of_add hpos hnew hpc
  · exact hadd

theorem commit {m : Commit} (hv : m.view = v) (hs : m.seqno = s) (hheard : Heard N K (.commit m)) :
    CommitInv N K v live s (σ.commit N m) where
  threshold := Certificate.complete_add.trans h.threshold
  backed := by
    refine h.backed.add (fun _ _ _ _ => Iff.rfl) fun hok => ?_
    obtain ⟨hlt, hne, hauth⟩ := Commit.verify_sound hok
    have hsent := hheard hauth hlt hne
    rw [hv, hs] at hsent
    exact ⟨hne, hlt, fun hj => absurd hj hne, fun _ => hsent⟩
  past := h.past
  complete := h.complete
  own := h.own

theorem markStale {b : Bool} : CommitInv N K v live s (σ.markStale b) where
  threshold := (Certificate.complete_markStale _).trans h.threshold
  backed := h.backed.markStale
  past := h.past
  complete hlive hc := by
    have hcomp := h.complete hlive hc
    rw [Slot.markStale, PreparedCert.markStale, if_pos hcomp]
    exact hcomp
  own hp hpp := by
    refine h.own hp ?_
    rw [Slot.markStale, PreparedCert.markStale] at hpp
    split at hpp
    · exact hpp
    · dsimp only at hpp
      split at hpp
      · exact hpp
      · cases hpp

theorem propose (hnone : .commit v ∉ σ.out) : CommitInv N K v live s (σ.propose v pp) :=
  h.of_eq rfl (fun w => by simp [Slot.propose]) (fun _ hc => absurd hc hnone) fun _ _ =>
    ⟨pp.digest, by simp [Slot.propose]⟩

theorem adopt (hnone : .commit v ∉ σ.out) : CommitInv N K v live s (σ.adopt N v brt pp).1 := by
  rw [Slot.adopt]
  split
  · exact h.propose hnone
  · next hp => exact h.of_eq rfl (fun w => by simp) (fun _ hc => absurd hc hnone) fun hp' => absurd hp' hp

end CommitInv

/-! ## Big requests that arrive late -/

/-- The pre-prepare of the entry, if there is one, has the request at every
index in `is` and lacks at least that many requests. -/
def waits (rd : Digest) (is : List ℕ) (σ : Slot) : Bool :=
  σ.pc.pi.pp.all fun pp =>
    is.all (fun i => pp.big_reqs[i]? == some rd) && decide ((is.length : ℤ) ≤ σ.pc.pi.mreqs)

/-- An entry without a pre-prepare waits for nothing. -/
theorem bigRequest_of_none {rd : Digest} {i : ℕ} (h : σ.pc.pi.pp = none) :
    σ.bigRequest N v n rd i = σ := by
  have hpi : σ.pc.addDigest rd i = σ.pc := by
    rw [PreparedCert.addDigest, PrePrepareInfo.addDigest, h]
    rfl
  have hprep : ({ σ with pc := σ.pc } : Slot).sendPrepare N v n = σ := by
    rw [Slot.sendPrepare, PreparedCert.isPpComplete, PrePrepareInfo.isComplete, h]
    simp
  rw [Slot.bigRequest, hpi, hprep, Slot.commitIfComplete, PreparedCert.isComplete,
    PrePrepareInfo.isComplete, h]
  rfl

theorem pi_commitIfComplete : (σ.commitIfComplete N v n).pc.pi = σ.pc.pi := by
  rw [Slot.commitIfComplete]
  split <;> rfl

theorem pi_sendPrepare : (σ.sendPrepare N v n).pc.pi = σ.pc.pi := by
  rcases sendPrepare_cases N v n σ with heq | ⟨pp, -, -, heq⟩ <;> rw [heq]
  split <;> rfl

theorem CommitInv.released {rd : Digest} (h : CommitInv N K v live s σ) (hlive : live)
    (hid : N.id < N.n) (is : List ℕ) (hw : σ.waits rd is) :
    CommitInv N K v live s (is.foldl (fun σ i => σ.bigRequest N v n rd i) σ) := by
  induction is generalizing σ with
  | nil => exact h
  | cons i is ih =>
    rw [foldl_cons]
    cases hpp : σ.pc.pi.pp with
    | none =>
      rw [bigRequest_of_none hpp]
      exact ih h (by simp [waits, hpp])
    | some pp =>
      simp only [waits, hpp, Option.all_some, all_cons, length_cons, Bool.and_eq_true,
        beq_iff_eq, decide_eq_true_eq, all_eq_true] at hw
      obtain ⟨⟨hi, his⟩, hlen⟩ := hw
      have hdig : σ.pc.pi.addDigest rd i = { σ.pc.pi with mreqs := σ.pc.pi.mreqs - 1 } := by
        rw [PrePrepareInfo.addDigest, if_pos (by simp [hpp, hi])]
      -- a request is missing, so nothing is committed yet
      have hnone : .commit v ∉ σ.out := by
        refine h.not_mem hlive fun hcomp => ?_
        obtain ⟨-, -, hpi, -⟩ := PreparedCert.exists_of_isComplete hcomp
        rw [PrePrepareInfo.isComplete, Bool.and_eq_true, beq_iff_eq] at hpi
        omega
      have hacc : CommitInv N K v live s { σ with pc := σ.pc.addDigest rd i } :=
        h.of_eq rfl (fun _ => Iff.rfl) (fun _ hc => absurd hc hnone) fun hp _ =>
          h.own hp (by rw [hpp]; rfl)
      refine ih ((hacc.sendPrepare hnone).commitIfComplete hid (not_mem_sendPrepare hnone)) ?_
      rw [waits, Slot.bigRequest, pi_commitIfComplete, pi_sendPrepare, PreparedCert.addDigest, hdig]
      simp only [hpp, Option.all_some, Bool.and_eq_true, all_eq_true, beq_iff_eq,
        decide_eq_true_eq]
      exact ⟨his, by omega⟩

end Slot

namespace Replica

variable {N : Node} {K K' : Known N.md5} {V : ViewChange → Prop} {r : Replica}

/-- The steps that log an own commit once: a big request arrives only while
every pre-prepare noted as waiting for it still does. -/
def CommitKept (r : Replica) : Event → Prop
  | .request req _ => (r.brt.breqs req.od).all fun bre => bre.waiting.all fun wp =>
      (r.log wp.n).waits req.od (waitingFor bre.waiting.reverse wp.n)
  | _ => True

instance (r : Replica) (e : Event) : Decidable (r.CommitKept e) := by
  apply @e.casesOn <;> intros <;> dsimp only [CommitKept] <;> infer_instance

theorem waits_of_commitKept {req : Request} {verified : Bool} (h : r.CommitKept (.request req verified))
    {bre : BREntry Request.od req.od} (hbre : r.brt.breqs req.od = some bre) (s : ℕ) :
    waitingFor bre.waiting.reverse s = [] ∨
      (r.log s).waits req.od (waitingFor bre.waiting.reverse s) := by
  by_cases hs : ∃ wp ∈ bre.waiting, wp.n = s
  · obtain ⟨wp, hwp, rfl⟩ := hs
    rw [CommitKept, hbre, Option.all_some, all_eq_true] at h
    exact .inr (h wp hwp)
  · refine .inl ?_
    rw [waitingFor, map_eq_nil_iff, filter_eq_nil_iff]
    intro wp hwp
    rw [mem_reverse] at hwp
    simpa using fun heq => hs ⟨wp, hwp, heq⟩

variable {r' : Replica} {s : ℕ} {e : Event} {σ' : Slot} {w : View}

/-- Which commits are new after an event. -/
theorem Moved.commit_mem (h : Moved N r r' s e σ') (hw : .commit w ∈ σ'.out) :
    .commit w ∈ (r.log s).out ∨ w = r.v ∧ r.InLog s ∧ r.hasNewView N := by
  have hgrow : ∀ {σ' : Slot}, Slot.Grows r.v (r.log s) σ' → .commit w ∈ σ'.out →
      .commit w ∈ (r.log s).out ∨ w = r.v := by
    intro σ' hg hmem
    rcases hg.mem hmem with hold | ⟨d, hne⟩ | heq
    · exact .inl hold
    · cases hne
    · cases heq
      exact .inr rfl
  cases h with
  | prePrepare hin _ _ hnv => exact (hgrow .prePrepare hw).imp_right fun heq => ⟨heq, hin, hnv⟩
  | prepare hin _ _ _ hnv => exact (hgrow .prepare hw).imp_right fun heq => ⟨heq, hin, hnv⟩
  | released hin _ hnv => exact (hgrow (.released _) hw).imp_right fun heq => ⟨heq, hin, hnv⟩
  | proposed _ _ _ _ => exact .inl (by simpa [Slot.propose] using hw)
  | installed _ hp _ _ _ _ _ _ _ _ =>
    rw [Slot.adopt, if_neg hp] at hw
    exact .inl (by simpa using hw)
  | made _ hp _ _ _ _ _ =>
    rw [Slot.adopt, if_pos hp] at hw
    exact .inl (by simpa [Slot.propose] using hw)
  | _ => exact .inl hw

/-- Nothing is sent for a sequence number when the view is left. -/
theorem Moved.out_of_leave {rc : Option ℕ} {ckpts : List Digest}
    (h : Moved N r r' s (.leave w rc ckpts) σ') : σ'.out = (r.log s).out := by
  cases h <;> rfl

/-- **The commits of a replica and its reports.** A commit of the current
view is sent only once the view is open; a view-change message reports what
was committed in the view before the one it asks for. -/
structure CommitsInv (N : Node) (K : Known N.md5) (r : Replica) : Prop where
  slots : ∀ s, (r.log s).CommitInv N K r.v (r.last_stable < s) s
  window : ∀ s w, .commit w ∈ (r.log s).out → s ≤ r.last_stable + maxOut
  opened : 0 < r.v → ∀ s, .commit r.v ∈ (r.log s).out → (r.nvInfo N).is_complete
  reports : ∀ vc ∈ r.sentVcs, ∀ s, vc.ls < s → .commit (vc.view - 1) ∈ (r.log s).out →
    ∃ d, vc.req s = (vc.view - 1, d) ∧ s ≤ vc.ls + vc.reqs.length ∧
      Slot.Quorate N K (vc.view - 1) s (r.log s).out d

theorem commitsInv_init (N : Node) (K : Known N.md5) : CommitsInv N K (init N) where
  slots _ := .new
  window _ _ h := absurd h not_mem_nil
  opened h := absurd h (lt_irrefl _)
  reports _ h := absurd h not_mem_nil

variable (h : CommitsInv N K r)
include h

theorem CommitsInv.mono (hK : K.Le K') : CommitsInv N K' r where
  slots s := (h.slots s).mono hK
  window := h.window
  opened := h.opened
  reports vc hvc s hs hc := by
    obtain ⟨d, hreq, hmax, hq⟩ := h.reports vc hvc s hs hc
    exact ⟨d, hreq, hmax, hq.mono (List.Subset.refl _) hK⟩

/-- Until the view is open nothing is committed in it. -/
theorem CommitsInv.not_mem (hpos : 0 < r.v)
    (hcomp : (r.nvInfo N).is_complete = false) (s : ℕ) : .commit r.v ∉ (r.log s).out := by
  intro hc
  rw [h.opened hpos s hc] at hcomp
  cases hcomp

theorem commitInv_step (hinv : ReplicaInv N K V r) (hf : 0 < N.f)
    (hid : N.id < N.n) (hkept : r.CommitKept e) (hheard : Heard N K e) (s : ℕ) :
    ((r.step N e).log s).CommitInv N K (r.step N e).v ((r.step N e).last_stable < s) s := by
  have hls := last_stable_le_step N r e
  have hle := le_v_step N r e
  have hmove := moved_step N r e s
  have hslot := h.slots s
  have hstay := v_of_not_leave (N := N) (r := r) (e := e)
  generalize r.step N e = r' at hls hle hmove hstay ⊢
  generalize r'.log s = σ' at hmove ⊢
  have hl : r'.last_stable < s → r.last_stable < s := fun hlive => lt_of_le_of_lt hls hlive
  cases hmove with
  | same hv =>
    rw [hv]
    exact hslot.weaken hl
  | truncated hs => exact hslot.clear hle fun hlive => absurd hs (not_le.2 hlive)
  | left hlt hw => exact hslot.clear hle fun _ => hw ▸ hlt
  | prePrepare hin hv _ _ =>
    rw [hstay nofun]
    exact (hslot.prePrepare hin.1 hid hv).weaken hl
  | prepare hin _ _ _ _ =>
    rw [hstay nofun]
    have hpos : 0 < (r.log s).pc.pc.complete := by
      rw [(hinv.certs s).threshold]
      split <;> omega
    exact (hslot.prepare hin.1 hid hpos).weaken hl
  | commit _ hv hs =>
    rw [hstay nofun]
    exact (hslot.commit hv hs hheard).weaken hl
  | released hin hbre _ =>
    rw [hstay nofun]
    rcases waits_of_commitKept hkept hbre s with hnil | hwaits
    · rw [hnil]
      exact hslot.weaken hl
    · exact (hslot.released hin.1 hid _ hwaits).weaken hl
  | stale _ =>
    rw [hstay nofun]
    exact hslot.markStale.weaken hl
  | proposed hlive hp _ hs =>
    rw [hstay nofun]
    -- what the primary has not assigned yet it cannot have committed
    refine (hslot.propose (hslot.not_mem hlive fun hcomp => ?_)).weaken hl
    obtain ⟨pp, hpp, -⟩ := PreparedCert.exists_of_isComplete hcomp
    obtain ⟨d, hd⟩ := hslot.own hp (by rw [hpp]; rfl)
    have hseq := hinv.assigns.seq s d hd
    omega
  | installed _ _ hpos _ _ _ hcomp _ _ _ =>
    rw [hstay nofun]
    exact (hslot.adopt (h.not_mem hpos hcomp s)).weaken hl
  | made _ _ hpos _ hcomp _ _ =>
    rw [hstay nofun]
    exact (hslot.adopt (h.not_mem hpos hcomp s)).weaken hl

/-- What a replica reports when it leaves its view: every batch it
committed there and that no checkpoint covers. -/
theorem req_of_commit (hinv : ReplicaInv N K V r) (hf : 0 < N.f)
    (hw : r.v < w) (ckpts : List Digest) (hs : r.last_stable < s)
    (hc : .commit (w - 1) ∈ (r.log s).out) :
    let vc := ViewChange.make w r.last_stable N.id ckpts fun i => logged r.v (r.oplog i) (r.log i).pc
    ∃ d, vc.req s = (w - 1, d) ∧ s ≤ vc.ls + vc.reqs.length ∧ Slot.Quorate N K (w - 1) s (r.log s).out d := by
  have hview : w - 1 = r.v :=
    le_antisymm ((h.slots s).past _ hc) (Int.le_sub_one_of_lt hw)
  rw [hview] at hc ⊢
  have hcomp := (h.slots s).complete hs hc
  obtain ⟨pp, hpp, hppv, hq⟩ := (hinv.certs s).quorate hf hcomp
  have hlog : logged r.v (r.oplog s) (r.log s).pc = (r.oplog s).addComplete pp := by
    rw [logged, hcomp, PreparedCert.prePrepare, hpp]
  have hreq := @ViewChange.req_make w r.last_stable N.id ckpts
    (fun i => logged r.v (r.oplog i) (r.log i).pc) s hs (h.window s _ hc)
  rw [hlog] at hreq
  have hnonneg : 0 ≤ pp.view := hppv.symm ▸ hinv.prepares.v_nonneg
  obtain ⟨hreq, hmax⟩ := hreq hnonneg rfl
  refine ⟨pp.digest, hreq.trans ?_, hmax, hq⟩
  rw [← hppv]
  rfl

theorem CommitsInv.step (hinv : ReplicaInv N K V r) (hf : 0 < N.f)
    (hid : N.id < N.n) (hok : PrepareKept N r e) (hkept : r.CommitKept e) (hheard : Heard N K e) :
    CommitsInv N K (r.step N e) where
  slots := commitInv_step h hinv hf hid hkept hheard
  window s w hw := by
    have hls := last_stable_le_step N r e
    rcases (moved_step N r e s).commit_mem hw with hold | ⟨-, hin, -⟩
    · have := h.window s w hold
      omega
    · have := hin.2
      omega
  opened hpos s hc := by
    rcases v_step N r e with hv | ⟨w, _, _, -, hlt, hw⟩
    · rw [hv] at hpos hc
      refine complete_of_step hinv.prepares hok hv hpos ?_
      rcases (moved_step N r e s).commit_mem hc with hold | ⟨-, -, hnv⟩
      · exact h.opened hpos s hold
      · exact complete_of_hasNewView hpos hnv
    · -- in a view just entered nothing was committed
      rw [hw] at hc
      rcases (moved_step N r e s).commit_mem hc with hold | ⟨heq, -⟩
      · exact absurd ((h.slots s).past w hold) (not_le.2 hlt)
      · exact absurd heq hlt.ne'
  reports vc hvc s hs hc := by
    -- the view of an earlier message is not later than this one, so its commits are old
    have hearlier : vc ∈ r.sentVcs → ∃ d, vc.req s = (vc.view - 1, d) ∧ s ≤ vc.ls + vc.reqs.length ∧
        Slot.Quorate N K (vc.view - 1) s ((r.step N e).log s).out d := by
      intro hvc
      rcases (moved_step N r e s).commit_mem hc with hold | ⟨heq, -⟩
      · obtain ⟨d, hreq, hmax, hq⟩ := h.reports vc hvc s hs hold
        exact ⟨d, hreq, hmax, hq.mono (out_subset_step N r e s) (.refl K)⟩
      · have hlt : r.v < vc.view := heq ▸ sub_one_lt vc.view
        exact absurd (hinv.reports.sent vc hvc).2.1 (not_le.2 hlt)
    rcases sentVcs_step N r e with heq | ⟨w, rc, ckpts, rfl, hlt, -, heq⟩ <;> rw [heq] at hvc
    · exact hearlier hvc
    · rcases mem_concat_iff.1 hvc with hold | rfl
      · exact hearlier hold
      · rw [(moved_step N r _ s).out_of_leave] at hc ⊢
        rw [ViewChange.view_make] at hc ⊢
        rw [ViewChange.ls_make] at hs
        exact req_of_commit h hinv hf hlt ckpts hs hc

end Replica

end AbstractBFT.Aardvark
