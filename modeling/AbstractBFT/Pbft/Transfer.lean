import AbstractBFT.Pbft.FetchHandle
/-!
# PBFT — state transfer

What a replica has when a fetch is over. The digest of the root is one that a
correct replica reported for the checkpoint, and since every digest is that of
what is below it, the memory is that of the checkpoint (`Done.fetched`).

Two things can go wrong. One replica may count twice in a certificate. And a
partition that turns out to be up to date as of a later checkpoint is taken
off its queue without telling the partition above it, which is then taken for
consistent. `Regular` excludes both.
-/

namespace AbstractBFT.Pbft

namespace Fetcher

open Function Machine List

variable (N : Node) {nb : ℕ} (H : Checkpoints N.md5 nb) (X : Hashed) (Byz : Finset ℕ)

/-! ## The start of a fetch -/

/-- **When a fetch may start.** The tree is as writes and checkpoints leave it,
and a checkpoint was taken after the last request that was executed. If the
fetch is for a known checkpoint, it is one of the correct replicas and not
before the last one of this replica. -/
structure Ready (x : Fetcher) (le c : ℤ) (cd : Option Digest) : Prop where
  idle : x.fetching = false
  blocks : x.nb = nb
  current : x.toState.Current N.md5
  clean : ¬ (0 ≤ x.lc ∧ x.lc < le) → ∀ i, x.cowb i = false
  unused : x.tree.Unused nb
  seqno : IsSeqno le ∧ ∀ l i, IsSeqno (x.tree.ptree l i).lm
  covers : X.Covers nb (Fetcher.current N x.toState le).tree
  own : OwnCkpt N H { x with toState := Fetcher.current N x.toState le }
  known : 0 ≤ c → (Fetcher.current N x.toState le).lc ≤ c ∧ Genuine N H 0 0 c (cd.getD 0)

variable {N H X Byz}

variable {x : Fetcher} {cd : Option Digest}

/-- The digests are those of the state. -/
theorem Ready.treeOk {le c : ℤ} (h : Ready N H X x le c cd) :
    (Fetcher.current N x.toState le).nb = nb ∧
      TreeOk X N.md5 nb (fun _ _ => False) (Fetcher.current N x.toState le).tree := by
  have hcovers := h.covers
  have hblocks := h.blocks
  have hstate : (Fetcher.current N x.toState le).nb = x.nb ∧
      UpToDate N.md5 x.nb (fun _ _ => False) (Fetcher.current N x.toState le).tree ∧
      (Fetcher.current N x.toState le).tree.Unused x.nb ∧
      ∀ l i, IsSeqno ((Fetcher.current N x.toState le).tree.ptree l i).lm := by
    rw [Fetcher.current]
    split
    · have hnb : (x.toState.checkpoint N.md5 le).nb = x.nb :=
        (State.frame_updatePtree N.md5 x.toState le).1
      have hup := State.current_checkpoint h.current le
      rw [hnb] at hup
      obtain ⟨M, hin, hout, -⟩ := State.modified_updatePtree N.md5 x.toState le
      refine ⟨hnb, hup, fun l i hi => ?_, fun l i => ?_⟩
      · have hM : ¬ M l i := fun hM => absurd (hin l i hM).1 (not_lt.2 hi)
        exact (congrArg Part.d (hout l i hM)).trans (h.unused l i (hblocks ▸ hi))
      · by_cases hM : M l i
        · have hlm := h.seqno.1
          rw [← (hin l i hM).2] at hlm
          exact hlm
        · have hlm := h.seqno.2 l i
          rw [← hout l i hM] at hlm
          exact hlm
    · next hlc =>
      refine ⟨rfl, h.current.mono fun l _ i _ hE => ?_, hblocks ▸ h.unused, h.seqno.2⟩
      exact absurd hE.2 (by rw [h.clean hlc i]; decide)
  generalize Fetcher.current N x.toState le = s at *
  obtain ⟨hnb, hup, hunused, hseqno⟩ := hstate
  rw [hblocks] at hnb hup hunused
  have hgood : ∀ l ≤ leafLevel, ∀ i < partCount nb l, s.tree.Good X N.md5 nb l i := by
    intro l hl i hi
    obtain ⟨hmsg, hsum⟩ := hcovers l hl i hi
    exact ⟨hup.exact l hl i hi id, hmsg, hsum, hseqno l i⟩
  refine ⟨hnb, hup.summed, hunused, fun l hl i hi _ => hgood l hl i hi, fun l hl i hi => ?_⟩
  have hpart := hgood l hl i hi
  exact ⟨hpart.seqno, _, hpart.msg, hpart.exact⟩

theorem inv_startFetch {le c : ℤ} (h : Ready N H X x le c cd) (lreplier : ℕ) :
    Inv N H X Byz (some (c, cd.getD 0)) (startFetch N x le c cd lreplier) := by
  obtain ⟨hnb, htree⟩ := h.treeOk
  have hown := h.own
  have hknown := h.known
  rw [startFetch, h.idle, if_neg Bool.false_ne_true]
  dsimp only
  generalize Fetcher.current N x.toState le = s at *
  generalize (if x.refetch_level = leafLevel + 1 then (-1 : ℤ) else s.lc) = lu
  set p : FPart := ⟨0, lu, (s.tree.ptree 0 0).lm, c, cd.getD 0⟩ with hp
  set y : Fetcher :=
    { x.clearCert with
      toState := s
      fetching := true
      lreplier := lreplier % N.n
      stalep := fun l => if l = 0 then [p] else []
      flevel := 0
      heard := [] } with hy
  have hroot : y.stalep 0 = [p] := rfl
  have habove : ∀ k, 0 < k → y.stalep k = [] := fun k hk => if_neg hk.ne'
  have hwalk : Walk N H X 0 y := by
    refine ⟨hnb, Nat.zero_le _, habove, ⟨p, hroot, rfl, ?_⟩, fun k => ?_,
      fun k hk => absurd hk (Nat.not_lt_zero k), fun k hk p hp => ?_,
      htree.mono fun _ _ => False.elim, hown⟩
    · by_cases hstale : 0 ≤ c ∧ cd.getD 0 ≠ (s.tree.ptree 0 0).d
      · obtain ⟨hle, hgenuine⟩ := hknown hstale.1
        exact .inl ⟨hgenuine, hstale.2, hle⟩
      · refine .inr ⟨rfl, htree.good 0 (Nat.zero_le _) 0 Nat.zero_lt_one id, rfl, fun hc => ?_⟩
        obtain ⟨hle, hgenuine⟩ := hknown hc
        exact ⟨hgenuine, not_not.1 fun hne => hstale ⟨hc, hne⟩, hle⟩
    · by_cases hk : k = 0
      · rw [hk, hroot]
        exact nodup_singleton _
      · rw [habove k (Nat.pos_of_ne_zero hk)]
        exact nodup_nil
    · rw [habove k hk] at hp
      cases hp
  refine inv_sendFetch (x := y) rfl hwalk (fun p' hp' _ => ?_) hroot
    (MetaDataCert.backed_clear _ N x.cert) true
  rw [hroot] at hp'
  obtain rfl := mem_singleton.1 hp'
  exact .inr rfl

/-! ## The end -/

/-- The state is that of a checkpoint of the correct replicas. -/
structure Fetched (N : Node) {nb : ℕ} (H : Checkpoints N.md5 nb) (x : Fetcher) : Prop where
  exact : ∀ l ≤ leafLevel, ∀ i < partCount nb l, x.tree.Exact N.md5 l i
  same : ∃ t, H.tree x.lc = some t ∧ x.lastRec.sd = (t.ptree 0 0).d ∧
    (∀ l ≤ leafLevel, ∀ i < partCount nb l, x.tree.ptree l i = t.ptree l i) ∧
    ∀ i < nb, x.tree.mem i = t.mem i

theorem Done.fetched {given : Option (ℤ × Digest)} (hX : X.Distinct N.md5)
    (hH : ∀ n t, H.tree n = some t → X.Covers nb t) (h : Done N H X Byz given x) :
    Fetched N H x := by
  have hgood : ∀ l ≤ leafLevel, ∀ i < partCount nb l, x.tree.Good X N.md5 nb l i :=
    fun l hl i hi => h.tree.good l hl i hi id
  obtain ⟨t, ht, htd⟩ := h.ckpt
  have heq := tree_eq_of_digest_eq hX H.nb_le h.tree.summed h.tree.unused (H.summed ht)
    (H.unused ht) hgood (fun l hl i hi => H.good ht (hH _ _ ht) hl hi) htd.symm
  refine ⟨fun l hl i hi => (hgood l hl i hi).exact, t, ht, h.sd.trans htd.symm,
    fun l hl i hi => (heq l hl i hi).1, fun i hi => ?_⟩
  have hdata := (heq leafLevel le_rfl i hi).2
  rwa [Tree.data, Tree.data, if_pos rfl, if_pos rfl] at hdata

/-- Four replicas, of which this is the first. -/
def fetchNode : Node := ⟨1, 0, 4, Traced.polyMd5, false⟩

/-- The only block is written before each of two checkpoints. -/
def writes : List Update :=
  [.modify 0 1 fun _ => [1], .checkpoint 128, .modify 0 1 fun _ => [2], .checkpoint 256]

theorem later_writes : Guarded (Recording.step fetchNode.md5) Recording.Later
    (.init fetchNode.md5 1 fun _ => []) writes :=
  ⟨trivial, ⟨by decide +kernel, by decide⟩, trivial, ⟨by decide +kernel, by decide⟩, trivial⟩

/-- The checkpoints of the correct replicas. -/
def history : Checkpoints fetchNode.md5 1 := .ofRun (by decide) (fun _ => []) later_writes

/-- The state at the beginning, and at the checkpoints. -/
def ckptState (k : ℕ) : State :=
  (writes.take (2 * k)).foldl (State.update fetchNode.md5) (State.start fetchNode.md5 1 fun _ => [])

theorem history_eq_some {n : ℤ} {t : Tree} (h : history.tree n = some t) :
    n = 0 ∧ t = (ckptState 0).tree ∨ n = 128 ∧ t = (ckptState 1).tree ∨
      n = 256 ∧ t = (ckptState 2).tree := by
  change update (update (update (fun _ => none) 0
    (some (ckptState 0).tree)) 128 (some (ckptState 1).tree)) 256 (some (ckptState 2).tree) n =
      some t at h
  rcases Entries.of_write h with h₂ | ⟨-, h⟩
  · exact .inr (.inr h₂)
  rcases Entries.of_write h with h₁ | ⟨-, h⟩
  · exact .inr (.inl h₁)
  rcases Entries.of_write h with h₀ | ⟨-, h⟩
  · exact .inl h₀
  cases h

/-- What is hashed for the digests of the three states. -/
def hashedInputs : List (List UInt8) :=
  (List.range 3).flatMap fun k => (List.range 4).map fun l =>
    partInput 0 ((ckptState k).tree.ptree l 0).lm ((ckptState k).tree.data l 0)

def fetchHashed : Hashed where
  msgs := {b | b ∈ hashedInputs}
  sums l i := {ds | l < 3 ∧ i = 0 ∧ ∃ k ∈ List.range 3, ds = (ckptState k).tree.below 1 l 0}

theorem distinct_fetchHashed : fetchHashed.Distinct fetchNode.md5 where
  msgs := by
    have hinj : ∀ b ∈ hashedInputs, ∀ b' ∈ hashedInputs,
        fetchNode.md5 b = fetchNode.md5 b' → b = b' := by decide +kernel
    exact fun b hb b' hb' => hinj b hb b' hb'
  sums l i := by
    have hinj : ∀ l ∈ List.range 3, ∀ k ∈ List.range 3, ∀ k' ∈ List.range 3,
        digestSum ((ckptState k).tree.below 1 l 0) = digestSum ((ckptState k').tree.below 1 l 0) →
          (ckptState k).tree.below 1 l 0 = (ckptState k').tree.below 1 l 0 := by
      decide +kernel
    rintro ds ⟨hl, -, k, hk, rfl⟩ ds' ⟨-, -, k', hk', rfl⟩ h
    exact hinj l (mem_range.2 hl) k hk k' hk' h

variable {k rid l id : ℕ}

theorem covers_ckptState (hk : k ∈ List.range 3) : fetchHashed.Covers 1 (ckptState k).tree := by
  intro l hl i hi
  obtain rfl : i = 0 := by
    match l with
    | 0 | 1 | 2 | 3 => exact Nat.lt_one_iff.1 hi
    | l + 4 => exact absurd hl (by simp [leafLevel])
  refine ⟨mem_flatMap.2 ⟨k, hk, mem_map.2 ⟨l, mem_range.2 ?_, rfl⟩⟩,
    fun hlt => ⟨hlt, rfl, k, hk, rfl⟩⟩
  exact Nat.lt_succ_of_le hl

theorem covers_history : ∀ n t, history.tree n = some t → fetchHashed.Covers 1 t := by
  intro n t ht
  rcases history_eq_some ht with ⟨-, rfl⟩ | ⟨-, rfl⟩ | ⟨-, rfl⟩
  · exact covers_ckptState (by decide)
  · exact covers_ckptState (by decide)
  · exact covers_ckptState (by decide)

/-- Replica `id` reports the digest of partition 0 of level `l` at checkpoint
`k`, and nothing else. -/
def reportOf (k rid l id : ℕ) : MetaDataD :=
  ⟨rid, (ckptState k).lc, l, 0, [((ckptState k).tree.ptree l 0).d], 1, id, true⟩

/-- The contents of that partition. -/
def partsOf (k rid l : ℕ) : MetaData :=
  ⟨rid, BitVec.ofInt 64 (ckptState k).lc, BitVec.ofInt 64 ((ckptState k).tree.ptree l 0).lm, l, 0,
    ((ckptState k).tree.ptree l 0).d, 1, [(0, ((ckptState k).tree.ptree (l + 1) 0).d)], true⟩

theorem occurs_partsOf (hk : k ∈ List.range 3) (hl : l < 3)
    (hmsg : partInput 0 (BitVec.ofInt 64 ((ckptState k).tree.ptree l 0).lm).toInt
      (x.checkSum (partsOf k rid l)).bytes ∈ hashedInputs)
    (hsum : ((partsOf k rid l).subParts x.nb).map (x.chosen (partsOf k rid l)) =
      (ckptState k).tree.below 1 l 0) :
    x.Occurs fetchHashed (.metaData (partsOf k rid l)) :=
  fun _ _ => ⟨hmsg, hl, rfl, k, hk, hsum⟩

/-- And the block. -/
def blockOf (k : ℕ) : Event :=
  .data ⟨0, BitVec.ofInt 64 ((ckptState k).tree.ptree leafLevel 0).lm, (ckptState k).tree.mem 0⟩

theorem occurs_blockOf
    (hmsg : partInput 0 (BitVec.ofInt 64 ((ckptState k).tree.ptree leafLevel 0).lm).toInt
      ((ckptState k).tree.mem 0) ∈ hashedInputs) : x.Occurs fetchHashed (blockOf k) := by
  intro p q _ hindex
  rw [← hindex]
  exact hmsg

/-- The first replica, in the first state. -/
def idle : Fetcher where
  toState := ckptState 0
  fetching := false
  stalep := fun _ => []
  flevel := 0
  cert := ⟨fun _ => none, [], -1, 0, false⟩
  refetch_level := 0
  lreplier := 0
  sent := ⟨0, 0, 0, 0, 0, 0⟩
  heard := []

theorem lc_ckptState : ∀ k ∈ List.range 3, (ckptState k).lc = 128 * k := by
  decide +kernel

theorem history_ckptState (hk : k ∈ List.range 3) :
    history.tree (ckptState k).lc = some (ckptState k).tree := by
  rw [lc_ckptState k hk]
  have hcases : k = 0 ∨ k = 1 ∨ k = 2 := by
    have := mem_range.1 hk
    omega
  rcases hcases with rfl | rfl | rfl <;> rfl

theorem genuine_reportOf (hk : k ∈ List.range 3) {n : ℤ} {d : Digest}
    (h : (reportOf k rid l id).digest n = some d) : Genuine fetchNode history l 0 n d := by
  have hlc := lc_ckptState k hk
  obtain ⟨hdvd, hle, hin⟩ := MetaDataD.of_digest h
  have hn : n = (ckptState k).lc := by
    simp only [reportOf, hlc, checkpointInterval] at *
    omega
  have hd : (reportOf k rid l id).digests.getD 0 0 = d := by
    have hholds := (Holds.of_digest h).2.2.1
    have hindex : ((n - (reportOf k rid l id).ls) / checkpointInterval).toNat = 0 :=
      Nat.lt_one_iff.1 hin
    rwa [hindex] at hholds
  rw [hn]
  exact ⟨_, history_ckptState hk, hd⟩

theorem honest_reportOf {Byz : Finset ℕ} (hk : k ∈ List.range 3)
    (hc : x.sent.c < (ckptState k).lc) :
    x.Honest fetchNode history Byz (.metaDataD (reportOf k rid l id)) :=
  fun _ _ _ => ⟨hc, fun _ _ h => genuine_reportOf hk h⟩

theorem regular_reportOf (hk : k ∈ List.range 3) (hc : ∀ p ∈ x.stalep x.flevel, p.c < 0) :
    x.Regular fetchNode (.metaDataD (reportOf k rid l id)) := by
  intro _ _ _ p q hcons _
  refine ⟨?_, fun hp => absurd (hc p (hcons ▸ mem_cons_self)) (not_lt.2 hp)⟩
  rw [MetaDataD.Aligned, reportOf, lc_ckptState k hk]
  exact Int.dvd_mul_right _ _

theorem ready_idle : Ready fetchNode history fetchHashed idle 0 (-1) none := by
  have hinv := Recording.inv_init fetchNode.md5 1 fun _ => []
  have hzero := mem_range.2 (by decide : 0 < 3)
  refine ⟨rfl, hinv.blocks, hinv.current, fun _ _ => rfl, hinv.dated.unused,
    ⟨⟨by decide, by decide⟩, fun l i => ?_⟩, covers_ckptState hzero,
    fun _ _ => ⟨_, history_ckptState hzero, fun _ _ _ => rfl, fun l i b hb => ?_⟩,
    fun hc => absurd hc (by decide)⟩
  · obtain ⟨hlo, hhi⟩ := hinv.dated.lm_le l i
    exact ⟨le_trans (by decide) hlo, hhi.trans_lt (by decide)⟩
  · cases hb

/-- The fetch starts. -/
def fetchStart : Fetcher := startFetch fetchNode idle 0 (-1) none 0

/-- Down to the block, as of the first checkpoint. -/
def descent : List Event :=
  [.metaDataD (reportOf 1 1 0 1), .metaDataD (reportOf 1 1 0 2), .metaData (partsOf 1 2 0),
    .metaData (partsOf 1 3 1), .metaData (partsOf 1 4 2)]

theorem env_descent (Byz : Finset ℕ) : Guarded (step fetchNode)
    (fun x e => x.Occurs fetchHashed e ∧ x.Honest fetchNode history Byz e) fetchStart descent := by
  have hone := mem_range.2 (by decide : 1 < 3)
  have hsent : ∀ k ∈ List.range 2, (exec (step fetchNode) fetchStart
      (descent.take k)).sent.c < (ckptState 1).lc := by decide +kernel
  have hparts : ∀ l ∈ List.range 3,
      let x := exec (step fetchNode) fetchStart (descent.take (l + 2))
      partInput 0 (BitVec.ofInt 64 ((ckptState 1).tree.ptree l 0).lm).toInt
          (x.checkSum (partsOf 1 (l + 2) l)).bytes ∈ hashedInputs ∧
        ((partsOf 1 (l + 2) l).subParts x.nb).map (x.chosen (partsOf 1 (l + 2) l)) =
          (ckptState 1).tree.below 1 l 0 := by decide +kernel
  have hoccurs := fun l (hl : l < 3) => occurs_partsOf hone hl (hparts l (mem_range.2 hl)).1
    (hparts l (mem_range.2 hl)).2
  refine guarded_of_forall_take fun k hk => ?_
  match k, hk with
  | 0, _ => exact ⟨trivial, honest_reportOf hone (hsent 0 (by decide))⟩
  | 1, _ => exact ⟨trivial, honest_reportOf hone (hsent 1 (by decide))⟩
  | 2, _ => exact ⟨hoccurs 0 (by decide), trivial⟩
  | 3, _ => exact ⟨hoccurs 1 (by decide), trivial⟩
  | 4, _ => exact ⟨hoccurs 2 (by decide), trivial⟩

theorem regular_descent : Guarded (step fetchNode) (fun x e => x.Regular fetchNode e)
    fetchStart descent := by
  have hone := mem_range.2 (by decide : 1 < 3)
  have hnew : ∀ k ∈ List.range 2,
      let x := exec (step fetchNode) fetchStart (descent.take k)
      ∀ p ∈ x.stalep x.flevel, p.c < 0 := by decide +kernel
  refine guarded_of_forall_take fun k hk => ?_
  match k, hk with
  | 0, _ => exact regular_reportOf hone (hnew 0 (by decide))
  | 1, _ => exact regular_reportOf hone (hnew 1 (by decide))
  | 2, _ | 3, _ | 4, _ => trivial

/-- Replica 1 alone. Its second message takes back nothing of the second
digest of its first one, which the third reports again. -/
def countedTwice : List Event :=
  let d := ((ckptState 0).tree.ptree 0 0).d
  [.metaDataD ⟨1, 128, 0, 0, [1, d], 2, 1, true⟩, .metaDataD ⟨1, 129, 0, 0, [0, 0], 2, 1, true⟩,
    .metaDataD ⟨1, 130, 0, 0, [d, 0], 2, 1, true⟩]

/-- Correct replicas alone. The block is fetched as of the second checkpoint,
so what is above it is fetched again; and this time the block is up to date,
as of the second checkpoint. -/
def overtaken : List Event :=
  [.metaDataD (reportOf 2 5 3 1), .metaDataD (reportOf 2 5 3 2), blockOf 2,
    .metaData (partsOf 1 7 2), .metaDataD (reportOf 2 8 3 1), .metaDataD (reportOf 2 8 3 2)]

end Fetcher

end AbstractBFT.Pbft
