import AbstractBFT.Chain.Robust
/-!
# Chain — stable checkpoints

A replica truncates its history at a checkpoint once it has collected
`2f+1` checkpoint messages for it. `handle(C_Checkpoint)` computes
whether their digests match and does not look at the result, counts any
`2f+1` replicas, and takes a message with its own identifier without a
signature. `checkpoint_stable` says when the checkpoint is nevertheless
backed by `2f+1` replicas, the own one among them, with one digest.
-/

namespace AbstractBFT.Chain

open Function Machine List

variable {S : Type} {N : RNode S}

namespace CReplica

variable {id : ℕ} {r : CReplica N} {c : CCheckpoint}

/-- The checkpoint message this move takes off a queue. -/
def fromOutside (r : CReplica N) (e : CEvent) : List CCheckpoint :=
  match r.taken e with
  | some (.checkpoint c) => [c]
  | _ => []

/-- What a move may give to `handle(C_Checkpoint)`: a message from
outside, or the replica's own checkpoint. -/
def handed (r : CReplica N) (e : CEvent) : List CCheckpoint :=
  r.fromOutside e ++
    match r.robustThread with
    | .checkpointing c => [c]
    | _ => []

/-- The message verifies, is above the last stable checkpoint, and is the
first of its sender for this sequence number. -/
def IsNew (r : CReplica N) (id : ℕ) (c : CCheckpoint) : Prop :=
  c.verify N id = true ∧ r.last_chkp_seqno < c.seqid ∧
    (r.checkpointSet c.seqid).elems c.id = none
  deriving Decidable

/-- **What a move must meet for its checkpoint to be stable.** A message
that counts and came from outside does not carry the replica's own
identifier; its digest is that of the messages already in the set; and
the one that completes the set finds the own one in it, or is it. -/
@[mk_iff]
structure CheckpointOk (id : ℕ) (r : CReplica N) (e : CEvent) : Prop where
  foreign : ∀ c ∈ r.fromOutside e, r.IsNew id c → c.id ≠ id
  same : ∀ c ∈ r.handed e, r.IsNew id c → ∀ i < N.n,
    ∀ c' ∈ (r.checkpointSet c.seqid).elems (i : ℤ), c'.digest = c.digest
  own : ∀ c ∈ r.handed e, r.IsNew id c → (r.checkpointSet c.seqid).n = 2 * N.f →
    c.id = id ∨ ((r.checkpointSet c.seqid).elems id).isSome

instance (id : ℕ) (r : CReplica N) (e : CEvent) : Decidable (CheckpointOk id r e) :=
  decidable_of_iff' _ (checkpointOk_iff id r e)

/-- **Signatures are not forged**: a checkpoint message from outside that
verifies was sent by the replica it names. -/
def CheckpointUnforged (Sent : ℕ → ℕ → Digest → Prop) (r : CReplica N) (e : CEvent) : Prop :=
  ∀ c ∈ r.fromOutside e,
    N.verify_signature c.id (.checkpoint c.id c.seqid c.digest) c.sig = true →
    Sent c.id.toNat c.seqid c.digest

instance (Sent : ℕ → ℕ → Digest → Prop) [∀ i s d, Decidable (Sent i s d)] (r : CReplica N)
    (e : CEvent) : Decidable (CheckpointUnforged Sent r e) :=
  inferInstanceAs (Decidable (∀ c ∈ r.fromOutside e, _ → Sent c.id.toNat c.seqid c.digest))

theorem mem_fromOutside {e : CEvent} (h : r.taken e = some (.checkpoint c)) :
    c ∈ r.fromOutside e := by
  unfold fromOutside
  rw [h]
  exact mem_singleton.2 rfl

theorem mem_handed_own (e : CEvent) (h : r.robustThread = .checkpointing c) : c ∈ r.handed e := by
  unfold handed
  rw [h]
  exact mem_append_right _ (mem_singleton.2 rfl)

/-! ## What `handle(C_Checkpoint)` does -/

/-- A message that is admitted is new, and joins the set. -/
theorem admitCheckpoint_eq_some {cset : CheckpointSet} (h : r.admitCheckpoint id c = some cset) :
    r.IsNew id c ∧ cset =
      { r.checkpointSet c.seqid with
        elems := update (r.checkpointSet c.seqid).elems c.id (some c)
        n := (r.checkpointSet c.seqid).n + 1 } := by
  unfold admitCheckpoint at h
  split at h
  · cases h
  next hver =>
  split at h
  · cases h
  next hlt =>
  unfold CheckpointSet.add at h
  split at h
  · cases h
  next hadd =>
  obtain ⟨hnone, -⟩ := not_or.1 hadd
  have hnone' : (r.checkpointSet c.seqid).elems c.id = none := by simpa using hnone
  exact ⟨⟨by simpa using hver, by omega, hnone'⟩, (Option.some.inj h).symm⟩

/-- What `handle(C_Checkpoint)` leaves: the set with the message, or none
and a new stable checkpoint. -/
inductive CheckpointMove (id : ℕ) (c : CCheckpoint) (r r' : CReplica N) : Prop where
  | keep (hsets : r'.current_checkpoints = r.current_checkpoints ∨
        r'.current_checkpoints =
          update r.current_checkpoints c.seqid (some (r.checkpointSet c.seqid)))
      (hlast : r'.last_chkp_seqno = r.last_chkp_seqno) (hrh : r'.rh = r.rh)
  | collect (cset : CheckpointSet) (hjoins : r.admitCheckpoint id c = some cset)
      (hsets : r'.current_checkpoints = update r.current_checkpoints c.seqid (some cset))
      (hlast : r'.last_chkp_seqno = r.last_chkp_seqno) (hrh : r'.rh = r.rh)
  | complete (cset : CheckpointSet) (hjoins : r.admitCheckpoint id c = some cset)
      (hn : cset.n = 2 * N.f + 1)
      (hsets : r'.current_checkpoints = update r.current_checkpoints c.seqid none)
      (hlast : r'.last_chkp_seqno = c.seqid)

theorem checkpointMove_handleCheckpoint (r : CReplica N) (id : ℕ) (c : CCheckpoint)
    (panics : Bool) :
    CheckpointMove id c r (r.handleCheckpoint id c panics) ∧
    r.sent <+: (r.handleCheckpoint id c panics).sent ∧
    (r.handleCheckpoint id c panics).robustThread = r.robustThread := by
  unfold handleCheckpoint
  split
  · split
    · exact ⟨.keep (.inr rfl) rfl rfl, prefix_rfl, rfl⟩
    · exact ⟨.keep (.inl rfl) rfl rfl, prefix_rfl, rfl⟩
  next cset hjoins =>
  split
  swap
  · exact ⟨.collect cset hjoins rfl rfl rfl, prefix_rfl, rfl⟩
  next hn =>
  have htrunc : (r.truncate c.seqid).sent = r.sent ∧
      (r.truncate c.seqid).robustThread = r.robustThread := by
    unfold truncate
    split
    · exact ⟨rfl, rfl⟩
    · exact ⟨rfl, rfl⟩
  split
  · obtain ⟨hpart, hsent⟩ := checkpointFrame_handlePanic { r.truncate c.seqid with
      current_nb_requests_while_checkpointing := 0
      checkpoint_in_progress := false
      last_chkp_seqno := c.seqid
      current_checkpoints := update r.current_checkpoints c.seqid none } id id 0
    simp only [checkpointPart, Prod.mk.injEq] at hpart
    obtain ⟨hsets, hlast, hthread⟩ := hpart
    exact ⟨.complete cset hjoins hn hsets hlast, htrunc.1 ▸ hsent, hthread.trans htrunc.2⟩
  · refine ⟨.complete cset hjoins hn rfl rfl, ?_, htrunc.2⟩
    show r.sent <+: (r.truncate c.seqid).sent
    rw [htrunc.1]

end CReplica

/-! ## The sets -/

/-- Replica `i` sent a checkpoint message with this sequence number and
digest; for the replica itself: it is among what it sent. -/
def SentBy (Sent : ℕ → ℕ → Digest → Prop) (id : ℕ) (r : CReplica N) (i s : ℕ) (d : Digest) : Prop :=
  if i = id then
    ∃ c : CCheckpoint, (-1, RMessage.checkpoint c) ∈ r.sent ∧ c.id = id ∧ c.seqid = s ∧ c.digest = d
  else Sent i s d

/-- **The checkpoint is stable**: `2f+1` distinct replicas, the own one
among them, sent it with one digest. -/
def StableAt (Sent : ℕ → ℕ → Digest → Prop) (id : ℕ) (r : CReplica N) (s : ℕ) : Prop :=
  ∃ d, ∃ Q : Finset ℕ, Q.card = 2 * N.f + 1 ∧ id ∈ Q ∧ ∀ i ∈ Q, i < N.n ∧ SentBy Sent id r i s d

/-- The replicas in a checkpoint set. -/
def CheckpointSet.senders (n : ℕ) (cset : CheckpointSet) : Finset ℕ :=
  (Finset.range n).filter fun i => (cset.elems i).isSome

theorem CheckpointSet.mem_senders {n i : ℕ} {cset : CheckpointSet} :
    i ∈ cset.senders n ↔ i < n ∧ (cset.elems i).isSome := by
  simp [senders]

/-- **What a checkpoint set holds**: messages of distinct replicas for
its sequence number, with one digest. -/
structure SetInv (Sent : ℕ → ℕ → Digest → Prop) (id : ℕ) (r : CReplica N) (s : ℕ)
    (cset : CheckpointSet) : Prop where
  seqno : cset.s = s
  card : (cset.senders N.n).card = cset.n
  sent : ∀ i < N.n, ∀ c, cset.elems (i : ℤ) = some c → SentBy Sent id r i s c.digest
  same : ∀ i < N.n, ∀ j < N.n, ∀ c c', cset.elems (i : ℤ) = some c →
    cset.elems (j : ℤ) = some c' → c.digest = c'.digest

/-- The sets in progress, and the checkpoint that is to be sent. -/
structure CheckpointInv (Sent : ℕ → ℕ → Digest → Prop) (id : ℕ) (r : CReplica N) : Prop where
  sets : ∀ s cset, r.current_checkpoints s = some cset → SetInv Sent id r s cset
  own : ∀ c, r.robustThread = .checkpointing c → c.id = id

section Sets

variable {Sent : ℕ → ℕ → Digest → Prop} {id : ℕ} {r r' : CReplica N} {s : ℕ}
  {cset : CheckpointSet} {c : CCheckpoint}

theorem SentBy.mono {i : ℕ} {d : Digest} (hsent : r.sent <+: r'.sent)
    (h : SentBy Sent id r i s d) : SentBy Sent id r' i s d := by
  unfold SentBy at h ⊢
  split
  · next hi =>
    rw [if_pos hi] at h
    obtain ⟨c, hc, hrest⟩ := h
    exact ⟨c, hsent.subset hc, hrest⟩
  · next hi =>
    rw [if_neg hi] at h
    exact h

namespace SetInv

theorem mono (hsent : r.sent <+: r'.sent) (h : SetInv Sent id r s cset) :
    SetInv Sent id r' s cset :=
  ⟨h.seqno, h.card, fun i hi c hc => (h.sent i hi c hc).mono hsent, h.same⟩

theorem empty (s : ℕ) : SetInv Sent id r s ⟨fun _ => none, 0, s⟩ where
  seqno := rfl
  card := by simp [CheckpointSet.senders]
  sent := nofun
  same := nofun

/-- One more message, of a replica that is not in the set, with the
digest of those that are. -/
theorem add (h : SetInv Sent id r s cset) {k : ℕ} (hk : k < N.n) (hkid : c.id = k)
    (hnone : cset.elems (k : ℤ) = none) (hsent : SentBy Sent id r k s c.digest)
    (hsame : ∀ i < N.n, ∀ c' ∈ cset.elems (i : ℤ), c'.digest = c.digest) :
    SetInv Sent id r s
      { cset with elems := update cset.elems c.id (some c), n := cset.n + 1 } := by
  rw [hkid]
  have hget : ∀ (i : ℕ) c', update cset.elems (k : ℤ) (some c) (i : ℤ) = some c' →
      (i = k ∧ c' = c) ∨ cset.elems (i : ℤ) = some c' := by
    intro i c' hc'
    exact (Entries.of_write hc').imp (And.imp_left Nat.cast_inj.1) And.right
  refine ⟨h.seqno, ?_, fun i hi c' hc' => ?_, fun i hi j hj c₁ c₂ h₁ h₂ => ?_⟩
  · have hinsert : CheckpointSet.senders N.n
        { cset with elems := update cset.elems (k : ℤ) (some c), n := cset.n + 1 } =
        insert k (cset.senders N.n) := by
      ext i
      rw [Finset.mem_insert, CheckpointSet.mem_senders, CheckpointSet.mem_senders]
      by_cases hik : i = k
      · subst hik
        simp [hk]
      · have hne : (i : ℤ) ≠ k := by omega
        simp [hne, hik]
    have hnot : k ∉ cset.senders N.n := by
      rw [CheckpointSet.mem_senders, hnone]
      simp
    rw [hinsert, Finset.card_insert_of_notMem hnot, h.card]
  · rcases hget i c' hc' with ⟨rfl, rfl⟩ | hold
    · exact hsent
    · exact h.sent i hi c' hold
  · rcases hget i c₁ h₁ with ⟨rfl, rfl⟩ | hold₁
    · rcases hget j c₂ h₂ with ⟨rfl, rfl⟩ | hold₂
      · rfl
      · exact (hsame j hj c₂ hold₂).symm
    · rcases hget j c₂ h₂ with ⟨rfl, rfl⟩ | hold₂
      · exact hsame i hi c₁ hold₁
      · exact h.same i hi j hj c₁ c₂ hold₁ hold₂

/-- **A complete set with the own message in it is a stable
checkpoint.** -/
theorem stableAt (h : SetInv Sent id r s cset) (hid : id < N.n) (hn : cset.n = 2 * N.f + 1)
    (hown : (cset.elems (id : ℤ)).isSome) : StableAt Sent id r s := by
  obtain ⟨c, hc⟩ := Option.isSome_iff_exists.1 hown
  refine ⟨c.digest, cset.senders N.n, h.card.trans hn, CheckpointSet.mem_senders.2 ⟨hid, hown⟩,
    fun i hi => ?_⟩
  obtain ⟨hin, hsome⟩ := CheckpointSet.mem_senders.1 hi
  obtain ⟨c', hc'⟩ := Option.isSome_iff_exists.1 hsome
  rw [h.same id hid i hin c c' hc hc']
  exact ⟨hin, h.sent i hin c' hc'⟩

end SetInv

namespace CheckpointInv

variable (h : CheckpointInv Sent id r)
include h

/-- The set a message goes to, which may be a new one. -/
theorem checkpointSet (s : ℕ) : SetInv Sent id r s (r.checkpointSet s) := by
  unfold CReplica.checkpointSet
  cases hset : r.current_checkpoints s with
  | none => exact .empty s
  | some cset => exact h.sets s cset hset

theorem of_frame (hf : r.CheckpointFrame id r') : CheckpointInv Sent id r' := by
  refine ⟨fun s cset hset => ?_, fun c hc => ?_⟩
  · rw [hf.current_checkpoints] at hset
    exact (h.sets s cset hset).mono hf.sent
  · rcases hf.thread c hc with hc | hc
    · exact h.own c hc
    · exact hc

/-- **`handle(C_Checkpoint)` keeps the sets**, and what it makes the last
checkpoint is stable. -/
theorem handle (hid : id < N.n) (panics : Bool)
    (hsent : r.IsNew id c → SentBy Sent id r c.id.toNat c.seqid c.digest)
    (hsame : r.IsNew id c → ∀ i < N.n,
      ∀ c' ∈ (r.checkpointSet c.seqid).elems (i : ℤ), c'.digest = c.digest)
    (hown : r.IsNew id c → (r.checkpointSet c.seqid).n = 2 * N.f →
      c.id = id ∨ ((r.checkpointSet c.seqid).elems id).isSome) :
    CheckpointInv Sent id (r.handleCheckpoint id c panics) ∧
    ((r.handleCheckpoint id c panics).last_chkp_seqno ≠ r.last_chkp_seqno →
      StableAt Sent id (r.handleCheckpoint id c panics)
        (r.handleCheckpoint id c panics).last_chkp_seqno) := by
  obtain ⟨hmove, hgrows, hthread⟩ := r.checkpointMove_handleCheckpoint id c panics
  generalize r.handleCheckpoint id c panics = r' at hmove hgrows hthread ⊢
  -- the set with the message in it
  have hadded : ∀ cset, r.admitCheckpoint id c = some cset → SetInv Sent id r' c.seqid cset ∧
      (cset.n = 2 * N.f + 1 → (cset.elems (id : ℤ)).isSome) := by
    intro cset hjoins
    obtain ⟨hnew, rfl⟩ := CReplica.admitCheckpoint_eq_some hjoins
    obtain ⟨k, hk, hkid⟩ : ∃ k < N.n, c.id = (k : ℕ) := by
      have hver := hnew.1
      simp only [CCheckpoint.verify, CNode.isReplica, Bool.and_eq_true, decide_eq_true_eq] at hver
      exact ⟨c.id.toNat, by omega, by omega⟩
    have hsentk : SentBy Sent id r k c.seqid c.digest := by
      have := hsent hnew
      rwa [hkid, Int.toNat_natCast] at this
    have hnone := hnew.2.2
    rw [hkid] at hnone
    refine ⟨((h.checkpointSet c.seqid).add hk hkid hnone hsentk (hsame hnew)).mono hgrows,
      fun hn => ?_⟩
    have hn' : (r.checkpointSet c.seqid).n + 1 = 2 * N.f + 1 := hn
    show (update (r.checkpointSet c.seqid).elems c.id (some c) (id : ℤ)).isSome
    by_cases hcid : c.id = id
    · rw [hcid, update_self]
      rfl
    · rw [update_of_ne (Ne.symm hcid)]
      exact (hown hnew (by omega)).resolve_left hcid
  have hother : ∀ o : Option CheckpointSet,
      (∀ cset, o = some cset → SetInv Sent id r' c.seqid cset) →
      r'.current_checkpoints = update r.current_checkpoints c.seqid o →
      CheckpointInv Sent id r' := by
    intro o ho hsets
    refine ⟨fun s cset hset => ?_, fun c' hc' => h.own c' (hthread ▸ hc')⟩
    rw [hsets] at hset
    by_cases hs : s = c.seqid
    · subst hs
      rw [update_self] at hset
      exact ho cset hset
    · rw [update_of_ne hs] at hset
      exact (h.sets s cset hset).mono hgrows
  cases hmove with
  | keep hsets hlast _ =>
    refine ⟨?_, fun hne => absurd hlast hne⟩
    rcases hsets with hsets | hsets
    · exact h.of_frame ⟨hsets, hlast, hgrows, fun c' hc' => .inl (hthread ▸ hc')⟩
    · refine hother _ (fun cset hcset => ?_) hsets
      rw [← Option.some.inj hcset]
      exact (h.checkpointSet c.seqid).mono hgrows
  | collect cset hjoins hsets hlast _ =>
    refine ⟨hother _ (fun cset' hcset' => ?_) hsets, fun hne => absurd hlast hne⟩
    rw [← Option.some.inj hcset']
    exact (hadded cset hjoins).1
  | complete cset hjoins hn hsets hlast =>
    refine ⟨hother none nofun hsets, fun _ => ?_⟩
    obtain ⟨hset, hmine⟩ := hadded cset hjoins
    rw [hlast]
    exact hset.stableAt hid hn (hmine hn)

/-- **One move keeps the sets**, and a checkpoint it makes the last one is
stable. -/
theorem step (hid : id < N.n) {e : CReplica.CEvent}
    (hunf : CReplica.CheckpointUnforged Sent r e) (hok : CReplica.CheckpointOk id r e) :
    CheckpointInv Sent id (r.step id e) ∧
    ((r.step id e).last_chkp_seqno ≠ r.last_chkp_seqno →
      StableAt Sent id (r.step id e) (r.step id e).last_chkp_seqno) := by
  have hmove := r.step_robust id e
  generalize r.step id e = r' at hmove ⊢
  have hframe : r.CheckpointFrame id r' → CheckpointInv Sent id r' ∧
      (r'.last_chkp_seqno ≠ r.last_chkp_seqno → StableAt Sent id r' r'.last_chkp_seqno) :=
    fun hf => ⟨h.of_frame hf, fun hne => absurd hf.last_chkp_seqno hne⟩
  cases hmove with
  | aside hf => exact hframe hf.toCheckpointFrame
  | checkpoint queue c panics htaken heq =>
    rw [heq]
    have hpop : CheckpointInv Sent id (r.popped queue) :=
      h.of_frame ⟨rfl, rfl, prefix_rfl, fun _ hc => .inl hc⟩
    have hout := CReplica.mem_fromOutside htaken
    have hhanded : c ∈ r.handed e := mem_append_left _ hout
    refine hpop.handle hid panics (fun hnew => ?_) (hok.same c hhanded) (hok.own c hhanded)
    -- a message from outside counts by its signature
    have hne : c.id ≠ id := hok.foreign c hout hnew
    have hver : c.verify N id = true := hnew.1
    have hsig : N.verify_signature c.id (.checkpoint c.id c.seqid c.digest) c.sig = true := by
      simpa [hne] using (Bool.and_eq_true_iff.1 hver).2
    have hpos : 0 ≤ c.id := by
      simp only [CCheckpoint.verify, CNode.isReplica, Bool.and_eq_true, decide_eq_true_eq] at hver
      omega
    unfold SentBy
    rw [if_neg (by omega)]
    exact hunf c hout hsig
  | own c panics hthread _ heq =>
    rw [heq]
    have hpop : CheckpointInv Sent id (r.sends c) :=
      h.of_frame ⟨rfl, rfl, prefix_append _ _, nofun⟩
    have hhanded := CReplica.mem_handed_own e hthread
    refine hpop.handle hid panics (fun _ => ?_) (hok.same c hhanded) (hok.own c hhanded)
    have hcid : c.id = id := h.own c hthread
    unfold SentBy
    rw [if_pos (by omega)]
    exact ⟨c, mem_append_right _ (mem_singleton.2 rfl), hcid, rfl, rfl⟩
  | abort queue m _ heq =>
    have hf := (r.popped queue).checkpointFrame_handleAbort id m
    rw [← heq] at hf
    exact hframe ⟨hf.1, hf.2, hf.3, hf.4⟩
  | getAGrip queue m _ heq =>
    have hf := (r.popped queue).checkpointFrame_handleGetAGrip
      id m
    rw [← heq] at hf
    exact hframe ⟨hf.1, hf.2, hf.3, hf.4⟩

end CheckpointInv

end Sets

/-- `handle(C_Checkpoint)` truncates the history only where it makes the
checkpoint the last one. -/
theorem CReplica.advances_of_truncates {r : CReplica N} {id : ℕ} {c : CCheckpoint} {panics : Bool}
    (h : (r.handleCheckpoint id c panics).rh ≠ r.rh) :
    (r.handleCheckpoint id c panics).last_chkp_seqno = c.seqid ∧ r.last_chkp_seqno < c.seqid := by
  obtain ⟨hmove, -⟩ := r.checkpointMove_handleCheckpoint id c panics
  cases hmove with
  | keep _ _ hrh => exact absurd hrh h
  | collect _ _ _ _ hrh => exact absurd hrh h
  | complete cset hjoins _ _ hlast => exact ⟨hlast, (admitCheckpoint_eq_some hjoins).1.2.1⟩

/-- **Stable checkpoints.** In every run of replica `id` whose moves meet
the condition, whatever checkpoint `handle(C_Checkpoint)` truncates at or
advances to is backed by `2f+1` replicas, `id` among them, with one
digest. -/
theorem checkpoint_stable (N : RNode S) (id : ℕ) (hid : id < N.n)
    (Sent : ℕ → ℕ → Digest → Prop) (s : CReplica N) (hsets : s.current_checkpoints = fun _ => none)
    (hthread : ∀ c, s.robustThread ≠ .checkpointing c) (es : List CReplica.CEvent)
    (e : CReplica.CEvent)
    (hunf : Guarded (CReplica.step id) (CReplica.CheckpointUnforged Sent) s (es ++ [e]))
    (hok : Guarded (CReplica.step id) (CReplica.CheckpointOk id) s (es ++ [e])) :
    ((exec (CReplica.step id) s (es ++ [e])).last_chkp_seqno ≠
        (exec (CReplica.step id) s es).last_chkp_seqno →
      StableAt Sent id (exec (CReplica.step id) s (es ++ [e]))
        (exec (CReplica.step id) s (es ++ [e])).last_chkp_seqno) ∧
    ∀ (r : CReplica N) c panics, (r.handleCheckpoint id c panics).rh ≠ r.rh →
      (r.handleCheckpoint id c panics).last_chkp_seqno = c.seqid ∧
        r.last_chkp_seqno < c.seqid := by
  refine ⟨?_, fun r c panics h => CReplica.advances_of_truncates h⟩
  have hinit : CheckpointInv Sent id s := by
    refine ⟨fun k cset hset => ?_, fun c hc => absurd hc (hthread c)⟩
    rw [hsets] at hset
    cases hset
  obtain ⟨hunf₁, hunf₂⟩ := guarded_append.1 hunf
  obtain ⟨hok₁, hok₂⟩ := guarded_append.1 hok
  have hinv : CheckpointInv Sent id (exec (CReplica.step id) s es) :=
    (hunf₁.and hok₁).invariant (fun r e h hg => (h.step hid hg.1 hg.2).1) hinit
  rw [exec_append]
  exact (hinv.step hid hunf₂.1 hok₂.1).2

section Sample

/-- Replica `0` with `1023` requests in its history and one in the robust
thread's hand. -/
def beforeCheckpoint : CReplica sampleRNode :=
  let q := sampleRequest.setSeqno 1024
  { CReplica.init sampleRNode () with
    rh := ⟨List.replicate 1023 ⟨some sampleRequest, 1, 0⟩, DSum.zero _⟩
    robustThread := .logging q }

/-- A checkpoint message of replica `i`. -/
def checkpointOf (i : ℤ) (s : ℕ) (d : Digest) : CReplica.CEvent :=
  .incoming (.checkpoint ⟨i, s, d, []⟩) false

/-- The checkpoint replica `0` sends, then one of replica `1`. -/
def collecting : List CReplica.CEvent := [.robust false, .robust false, checkpointOf 1 1024 0]

/-- With the message of replica `2` the checkpoint is stable. -/
theorem checkpoint_stable_three :
    (exec (CReplica.step 0) beforeCheckpoint
      (collecting ++ [checkpointOf 2 1024 0])).last_chkp_seqno = 1024 ∧
    StableAt (fun i s d => (i = 1 ∨ i = 2) ∧ s = 1024 ∧ d = 0) 0
      (exec (CReplica.step 0) beforeCheckpoint (collecting ++ [checkpointOf 2 1024 0]))
      1024 := by
  have hlast : (exec (CReplica.step 0) beforeCheckpoint
      (collecting ++ [checkpointOf 2 1024 0])).last_chkp_seqno = 1024 := by decide +kernel
  have hbefore : (exec (CReplica.step 0) beforeCheckpoint collecting).last_chkp_seqno = 0 := by
    decide +kernel
  have h := (checkpoint_stable sampleRNode 0 (by decide)
    (fun i s d => (i = 1 ∨ i = 2) ∧ s = 1024 ∧ d = 0) beforeCheckpoint rfl nofun collecting
    (checkpointOf 2 1024 0) (by decide +kernel) (by decide +kernel)).1
  rw [hlast, hbefore] at h
  exact ⟨hlast, h (by decide)⟩

/-- Checkpoint messages of the other three replicas; the one of replica
`1` has another digest. -/
def mixedDigests : List CReplica.CEvent := [checkpointOf 1 5 8, checkpointOf 2 5 7, checkpointOf 3 5 7]

/-- **A checkpoint becomes the last one without the own replica**, which
has sent nothing, and with two digests. -/
theorem checkpoint_without_own :
    Guarded (CReplica.step 0)
      (CReplica.CheckpointUnforged fun i s d => (i = 1 ∧ s = 5 ∧ d = 8) ∨
        ((i = 2 ∨ i = 3) ∧ s = 5 ∧ d = 7))
      (CReplica.init sampleRNode ()) mixedDigests ∧
    (exec (CReplica.step 0) (CReplica.init sampleRNode ()) mixedDigests).last_chkp_seqno = 5 ∧
    ¬ StableAt (fun i s d => (i = 1 ∧ s = 5 ∧ d = 8) ∨ ((i = 2 ∨ i = 3) ∧ s = 5 ∧ d = 7)) 0
      (exec (CReplica.step 0) (CReplica.init sampleRNode ()) mixedDigests) 5 := by
  refine ⟨by decide +kernel, by decide +kernel, ?_⟩
  rintro ⟨d, Q, -, hown, hQ⟩
  obtain ⟨-, hsent⟩ := hQ 0 hown
  unfold SentBy at hsent
  obtain ⟨c, hc, -⟩ := hsent
  have hnone : (exec (CReplica.step 0) (CReplica.init sampleRNode ()) mixedDigests).sent.length
      = 0 := by decide +kernel
  rw [length_eq_zero_iff.1 hnone] at hc
  simp at hc

end Sample

end AbstractBFT.Chain
