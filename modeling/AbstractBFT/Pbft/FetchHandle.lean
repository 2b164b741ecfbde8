import AbstractBFT.Pbft.FetchStep
/-!
# PBFT — the messages of a fetch

One lemma for each message that a replica reacts to while it fetches. `Data`
and `Meta_data` messages may come from anyone: the digest tells that they are
right, provided that what is hashed and added up does not collide (`Occurs`).
`Meta_data_d` messages are counted. Of those that correct replicas send it is
known that they report checkpoints (`Honest`), and of all that are counted
two things are required (`Regular`), which the code does not check.
-/

namespace AbstractBFT.Pbft

namespace Fetcher

open Function List

variable {N : Node} {nb : ℕ} {H : Checkpoints N.md5 nb} {X : Hashed} {Byz : Finset ℕ}
  {given : Option (ℤ × Digest)} {x : Fetcher} {m : MetaData} {t : Tree} {wp p : FPart}

variable {l : ℕ} {e : ℕ × Digest} {q : List FPart} {y : Fetcher} {c : ℤ}

theorem mem_queueStale {parts : List (ℕ × Digest)} :
    p ∈ x.queueStale l wp parts ↔ ∃ e ∈ parts,
      ¬ (digestIsZero e.2 = true ∨ (x.tree.ptree l e.1).d = e.2) ∧
        p = ⟨e.1, wp.lu, (x.tree.ptree l e.1).lm, wp.c, e.2⟩ := by
  rw [queueStale_eq, mem_reverse, mem_map]
  simp only [mem_filter, Bool.not_eq_true', decide_eq_false_iff_not, and_assoc,
    eq_comm (a := p)]

theorem nodup_queueStale : ((x.queueStale l wp (m.subParts nb)).map FPart.index).Nodup := by
  rw [queueStale_eq, map_reverse, nodup_reverse, map_map]
  have hfst : (m.subParts nb).map Prod.fst = subIndices nb m.l m.i := MetaData.map_fst_subParts nb m
  refine List.Nodup.sublist (List.Sublist.map Prod.fst filter_sublist) ?_
  rw [hfst]
  exact nodup_subIndices nb m.l m.i

theorem mem_subIndices_of_mem_subParts (he : e ∈ m.subParts nb) : e.1 ∈ subIndices nb m.l m.i := by
  rw [← MetaData.map_fst_subParts]
  exact mem_map_of_mem he

/-- What is not queued is as at the checkpoint. -/
theorem digest_eq_of_chosen (hchosen : x.chosen m e = (t.ptree (m.l + 1) e.1).d)
    (hup : digestIsZero e.2 = true ∨ (x.tree.ptree (m.l + 1) e.1).d = e.2) :
    (x.tree.ptree (m.l + 1) e.1).d = (t.ptree (m.l + 1) e.1).d := by
  rw [chosen] at hchosen
  split at hchosen
  · exact hchosen
  · next hzero => exact (hup.resolve_left hzero).trans hchosen

/-- And what is queued has the digest of the checkpoint. -/
theorem stale_of_chosen (hchosen : x.chosen m e = (t.ptree (m.l + 1) e.1).d)
    (hup : ¬ (digestIsZero e.2 = true ∨ (x.tree.ptree (m.l + 1) e.1).d = e.2)) :
    e.2 = (t.ptree (m.l + 1) e.1).d ∧ e.2 ≠ (x.tree.ptree (m.l + 1) e.1).d := by
  obtain ⟨hzero, hne⟩ := not_or.1 hup
  rw [chosen, if_neg hzero] at hchosen
  exact ⟨hchosen, Ne.symm hne⟩

theorem Walk.working {L : ℕ} (h : Walk N H X L x) (hcons : x.stalep L = wp :: q) :
    Queued N H x L wp ∨ (L = 0 ∧ wp.index = 0 ∧ q = []) ∧ Untouched N H X x wp := by
  cases L with
  | zero =>
    obtain ⟨p, hroot, hindex, hp⟩ := h.root
    obtain ⟨rfl, rfl⟩ := List.cons.inj (hcons.symm.trans hroot)
    exact hp.imp_right fun hp => ⟨⟨rfl, hindex, rfl⟩, hp.2⟩
  | succ L => exact .inl (h.queued (L + 1) (Nat.succ_pos L) wp (hcons ▸ mem_cons_self))

/-- The working partition after a `Meta_data` message. -/
theorem expanded_of_chosen {wp' : FPart} (hs : SameState x y) (hindex : wp'.index = m.i)
    (ht : H.tree wp'.c = some t) (hd : (t.ptree m.l m.i).d = wp'.d)
    (hlm : wp'.lm = (t.ptree m.l m.i).lm) (hc : wp.c = wp'.c)
    (hchosen : ∀ p ∈ m.subParts nb, x.chosen m p = (t.ptree (m.l + 1) p.1).d)
    (hqueue : y.stalep (m.l + 1) = x.queueStale (m.l + 1) wp (m.subParts nb)) :
    Expanded N H y m.l wp' t := by
  refine ⟨ht, ?_, ?_, fun _ => ?_, fun j hj => ?_, fun p hp => ?_⟩
  · rw [hindex]
    exact hd
  · rw [hindex]
    exact hlm.ge
  · rw [hindex]
    exact hlm
  · rw [hindex] at hj
    -- the message has an entry for it
    have hmem := mem_subIndices_of_mem_children hj
    rw [← MetaData.map_fst_subParts] at hmem
    obtain ⟨e, he, rfl⟩ := mem_map.1 hmem
    by_cases hup : digestIsZero e.2 = true ∨ (x.tree.ptree (m.l + 1) e.1).d = e.2
    · right
      left
      rw [hs.tree]
      exact digest_eq_of_chosen (hchosen e he) hup
    · left
      rw [hqueue]
      exact ⟨_, mem_queueStale.2 ⟨e, he, hup, rfl⟩, rfl⟩
  · rw [hqueue] at hp
    obtain ⟨e, he, hup, rfl⟩ := mem_queueStale.1 hp
    have hmem := mem_subIndices_of_mem_subParts he
    refine ⟨?_, hc.ge⟩
    rw [hindex]
    refine mem_children.2 ⟨not_le.1 fun hle => hup (.inl ?_), (mem_subIndices.1 hmem).1⟩
    rw [(stale_of_chosen (hchosen e he) hup).1, H.unused ht _ _ hle]
    decide

theorem step_of_not_fetching (h : x.fetching = false) (e : Event) : step N x e = x := by
  cases e <;> simp [step, handleData, handleMetaData, handleMetaDataD, h]

/-! ## `Data` -/

/-- What a message makes the replica hash and add up is among what is
hashed. -/
def Occurs (X : Hashed) (x : Fetcher) : Event → Prop
  | .data m => ∀ p q, x.stalep leafLevel = p :: q → m.index = p.index →
    partInput p.index m.lm.toInt m.data ∈ X.msgs
  | .metaData m =>
    x.flevel = m.l → (∃ p q, x.stalep x.flevel = p :: q ∧ p.index = m.i ∧ m.d = p.d) →
    partInput m.i m.lm.toInt (x.checkSum m).bytes ∈ X.msgs ∧
      (m.subParts x.nb).map (x.chosen m) ∈ X.sums m.l m.i
  | _ => True

variable (hX : X.Distinct N.md5) (hH : ∀ n t, H.tree n = some t → X.Covers nb t)
include hX hH

theorem inv_handleData (h : Inv N H X Byz given x) {m : Data} (hm : x.Occurs X (.data m)) :
    Inv N H X Byz given (handleData N x m) ∨ Done N H X Byz given (handleData N x m) := by
  rw [handleData]
  split
  · next hlevel =>
    obtain ⟨wp, q, hcons, hsent, hcert⟩ := h.working
    have hwalk := h.walk
    rw [hlevel.2] at hcons hwalk
    rw [hcons]
    dsimp only
    split
    · next hindex =>
      split
      · next hd =>
        obtain ⟨t, ht, htd⟩ := (hwalk.queued leafLevel (by decide) wp
          (hcons ▸ mem_cons_self)).genuine
        have hlt : wp.index < partCount nb leafLevel :=
          hwalk.index_lt le_rfl (hcons ▸ mem_cons_self)
        obtain ⟨hlm, hdata⟩ := (H.good ht (hH _ _ ht) le_rfl hlt).of_digest hX (isSeqno_toInt m.lm)
          (hm wp q hcons hindex) (hd.2.symm.trans htd.symm)
        obtain ⟨pwp, pq, tp, hpcons, hpexp⟩ := hwalk.path 2 (by decide)
        have hpart : (⟨m.lm.toInt, wp.d⟩ : Part) = t.ptree leafLevel wp.index := by
          rw [hlm, ← htd]
        have hput : x.putPart leafLevel wp.index (t.ptree leafLevel wp.index) =
            { x with
              tree := x.tree.replace leafLevel wp.index (t.ptree leafLevel wp.index)
              stalep := update x.stalep 2
                ({ pwp with lm := max pwp.lm (t.ptree leafLevel wp.index).lm } :: pq) } :=
          putPart_succ hpcons _ _
        rw [hpart, hput]
        -- the block and its digest
        have hdiv := (mem_children.1 (hpexp.queue wp (hcons ▸ mem_cons_self)).1).2
        have hblock : Tree.data { x.tree with mem := update x.tree.mem wp.index m.data }
            leafLevel wp.index = m.data := by
          exact update_self _ _ _
        have hwrite := (hwalk.tree.write ⟨wp, q, hcons, rfl⟩ m.data).put_genuine ht (hH _ _ ht)
          le_rfl hlt (fun _ => ⟨pwp, pq, hpcons, hdiv.symm⟩) (hblock.trans hdata)
          fun hlt => absurd hlt (lt_irrefl _)
        set y : Fetcher := clearCert _
        have hstalep : y.stalep = update x.stalep 2
            ({ pwp with lm := max pwp.lm (t.ptree leafLevel wp.index).lm } :: pq) := rfl
        have hlevel' : y.flevel = leafLevel := hlevel.2
        refine inv_advance (x := y) h.fetching (fun P => MetaDataCert.backed_clear P N x.cert) ?_ hH
          (hlevel' ▸ by decide) ?_
        · exact reported_of_target h.reported (map_target_update hpcons hstalep rfl 0)
            (List.Subset.refl _)
        · rw [hlevel']
          exact hwalk.settle hcons hpcons ht rfl rfl rfl rfl hwrite rfl
      · have hcons' : x.stalep x.flevel = wp :: q := by
          rw [hlevel.2]
          exact hcons
        exact .inl (inv_sendFetch h.fetching h.walk h.reported hcons' hcert false)
    · exact .inl h
  · exact .inl h

/-! ## `Meta_data` -/

/-- **What a `Meta_data` message says** is right if it has the digest: the
partition was modified when it says, and with its digests filled in, those
below are as at the checkpoint. -/
theorem chosen_eq_of_checkDigest (hblocks : x.nb = nb) (htree : TreeOk X N.md5 nb (OnPath x) x.tree)
    (ht : H.tree c = some t) (hl : m.l < leafLevel) (hi : m.i < partCount nb m.l)
    (hmsg : partInput m.i m.lm.toInt (x.checkSum m).bytes ∈ X.msgs)
    (hsum : (m.subParts x.nb).map (x.chosen m) ∈ X.sums m.l m.i)
    (hd : checkDigest N x (t.ptree m.l m.i).d m = true) :
    m.lm.toInt = (t.ptree m.l m.i).lm ∧
      ∀ p ∈ m.subParts nb, x.chosen m p = (t.ptree (m.l + 1) p.1).d := by
  have hgood := H.good ht (hH _ _ ht) hl.le hi
  rw [checkDigest, decide_eq_true_eq] at hd
  obtain ⟨hlm, hdata⟩ := hgood.of_digest hX (isSeqno_toInt m.lm) hmsg hd.symm
  refine ⟨hlm, ?_⟩
  rw [Tree.data, if_neg hl.ne] at hdata
  rw [hblocks] at hsum
  -- the sums are equal, so the digests are
  have hbelow : (m.subParts nb).map (x.chosen m) = t.below nb m.l m.i := by
    refine hX.sums _ _ hsum (hgood.sum hl) ?_
    rw [← checkSum_eq hblocks htree.summed htree.unused hl, DSum.eq_of_bytes_eq hdata,
      Tree.stree_eq (H.summed ht) (H.unused ht) hl]
  rw [Tree.below, ← MetaData.map_fst_subParts, map_map] at hbelow
  exact map_inj_left.1 hbelow

theorem Untouched.below_eq (hp : Untouched N H X x p) (h : Walk N H X 0 x) (ht : H.tree c = some t)
    (hd : (x.tree.ptree 0 0).d = (t.ptree 0 0).d) :
    x.tree.ptree 0 0 = t.ptree 0 0 ∧ x.tree.below nb 0 0 = t.below nb 0 0 := by
  have hgood := H.good ht (hH _ _ ht) (Nat.zero_le _) Nat.zero_lt_one
  obtain ⟨hpart, hdata⟩ := hp.good.eq_of_digest_eq hX hgood hd
  exact ⟨hpart, below_eq_of_data_eq hX (by decide) h.tree.summed h.tree.unused (H.summed ht)
    (H.unused ht) (hp.good.sum (by decide)) (hgood.sum (by decide)) hdata⟩

/-- **The root is up to date**: nothing was fetched, and nothing has to
be. -/
theorem done_untouched (h : Walk N H X 0 x) (hp : Untouched N H X x p) (hs : SameState x y)
    (hroot : y.stalep 0 = [wp]) (habove : ∀ k, 0 < k → y.stalep k = []) (hindex : wp.index = 0)
    (hgenuine : Genuine N H 0 0 wp.c wp.d) (hd : wp.d = (x.tree.ptree 0 0).d)
    (hlm : wp.lm = (x.tree.ptree 0 0).lm) (hreported : Reported Byz given y wp.c wp.d) :
    Done N H X Byz given (doneWithLevel N 1 y) := by
  obtain ⟨t, ht, htd⟩ := hgenuine
  obtain ⟨hpart, hbelow⟩ := hp.below_eq hX hH h ht (hd.symm.trans htd.symm)
  have hpart' : (⟨wp.lm, wp.d⟩ : Part) = t.ptree 0 0 := by
    rw [hlm, hd]
    exact hpart
  have hle : wp.lm ≤ wp.c := (congrArg Part.lm hpart').trans_le (H.lm_le ht 0 0).2
  refine done_root hH (hs.nb.trans h.blocks) ?_ hroot hindex habove ht hpart' hle ?_ hreported
  · rw [hs.tree]
    refine h.tree.mono fun l i hpath => ?_
    obtain ⟨p', q', hcons, hp'⟩ := hpath
    cases l with
    | zero =>
      obtain ⟨p₀, hroot₀, hindex₀, -⟩ := h.root
      obtain ⟨rfl, -⟩ := List.cons.inj (hcons.symm.trans hroot₀)
      exact ⟨wp, [], hroot, hindex.trans (hindex₀.symm.trans hp')⟩
    | succ l =>
      rw [h.above (l + 1) (Nat.succ_pos l)] at hcons
      cases hcons
  · rw [hs.tree]
    exact hbelow

/-- **`handle(PBFT_R_Meta_data*)`.** -/
theorem inv_handleMetaData (h : Inv N H X Byz given x) (hm : x.Occurs X (.metaData m)) :
    Inv N H X Byz given (handleMetaData N x m) ∨ Done N H X Byz given (handleMetaData N x m) := by
  rw [handleMetaData]
  split
  · next hlevel =>
    obtain ⟨-, hlt, -, hl⟩ := hlevel
    obtain ⟨wp, q, hcons, -, -⟩ := h.working
    rw [hcons]
    dsimp only
    split
    · next hwp =>
      obtain ⟨hindex, hc, hd, -, hdigest⟩ := hwp
      obtain ⟨hmsg, hsum⟩ := hm hl ⟨wp, q, hcons, hindex, hd⟩
      have hwalk := h.walk
      have hblocks := hwalk.blocks
      have hi : m.i < partCount nb m.l := by
        rw [← hindex, ← hl]
        exact hwalk.index_lt le_rfl (hcons ▸ mem_cons_self)
      rw [hl] at hlt hcons hwalk
      have hworking := hwalk.working hcons
      have hgenuine : Genuine N H m.l wp.index wp.c wp.d := by
        rcases hworking with hqueued | ⟨⟨hroot, hzero, -⟩, hun⟩
        · exact hqueued.genuine
        · rw [hroot, hzero]
          exact (hun.known hc).1
      obtain ⟨t, ht, htd⟩ := hgenuine
      rw [hindex] at htd
      rw [← htd] at hdigest
      obtain ⟨hlm, hchosen⟩ := chosen_eq_of_checkDigest hX hH hblocks hwalk.tree ht hlt hi hmsg hsum
        hdigest
      set wp' : FPart := { wp with lm := m.lm.toInt }
      set y : Fetcher := clearCert { x.setQueue x.flevel (wp' :: q) with flevel := x.flevel + 1 }
      change Inv N H X Byz given
          (advance N y (x.queueStale (x.flevel + 1) wp' (m.subParts x.nb))) ∨
        Done N H X Byz given (advance N y (x.queueStale (x.flevel + 1) wp' (m.subParts x.nb)))
      have hlevel' : y.flevel = m.l + 1 := congrArg Nat.succ hl
      have hstalep : y.stalep = update x.stalep m.l (wp' :: q) := by
        rw [← hl]
        rfl
      have hreported : ∀ p ∈ y.stalep 0, 0 ≤ p.c → Reported Byz given y p.c p.d :=
        reported_of_target h.reported (map_target_update hcons hstalep rfl 0) (List.Subset.refl _)
      rw [hl, hblocks]
      rcases hworking with hqueued | ⟨⟨hroot, hzero, rfl⟩, hun⟩
      · -- the partitions below are fetched
        refine inv_advance (x := y) h.fetching (fun P => MetaDataCert.backed_clear P N x.cert)
          hreported hH (hlevel' ▸ Nat.succ_pos _) ?_
        rw [hlevel']
        set qs := x.queueStale (m.l + 1) wp' (m.subParts nb)
        have hs : SameState x (y.setQueue (m.l + 1) qs) := ⟨rfl, rfl, rfl, rfl⟩
        have hexp : Expanded N H (y.setQueue (m.l + 1) qs) m.l wp' t :=
          expanded_of_chosen hs hindex ht htd hlm rfl hchosen (stalep_setQueue_self _ _ _)
        have htarget : wp'.target = wp.target := rfl
        have hstalep' : (y.setQueue (m.l + 1) qs).stalep =
            update (update x.stalep m.l (wp' :: q)) (m.l + 1) qs := by
          rw [← hstalep]
          rfl
        refine hwalk.expand hlt hcons hqueued hs htarget hstalep' nodup_queueStale hexp
          fun p hp => ?_
        obtain ⟨e, he, hup, rfl⟩ := mem_queueStale.1 hp
        obtain ⟨hd', hne⟩ := stale_of_chosen (hchosen e he) hup
        exact ⟨⟨t, ht, hd'.symm⟩, hne, hqueued.lc_le⟩
      · -- the replica has what the message says
        right
        obtain ⟨hgenuine, hd', -⟩ := hun.known hc
        rw [hroot] at hwalk htd hlm hcons hstalep
        have hi0 : m.i = 0 := hindex.symm.trans hzero
        rw [hi0] at htd hlm
        obtain ⟨hpart, hbelow⟩ := hun.below_eq hX hH hwalk ht (hd'.symm.trans htd.symm)
        have hnil : x.queueStale 1 wp' (m.subParts nb) = [] := by
          refine eq_nil_iff_forall_not_mem.2 fun p hp => ?_
          rw [← zero_add 1, ← hroot] at hp
          obtain ⟨e, he, hup, -⟩ := mem_queueStale.1 hp
          obtain ⟨hd', hne⟩ := stale_of_chosen (hchosen e he) hup
          have hmem := mem_subIndices_of_mem_subParts he
          rw [hroot, hi0] at hmem
          rw [hroot] at hd' hne
          exact hne (hd'.trans (digest_eq_of_below_eq hbelow hmem).symm)
        rw [hroot, hnil, advance, hlevel', hroot]
        have hroot' : (y.setQueue 1 []).stalep 0 = [wp'] := by
          rw [stalep_setQueue_of_ne Nat.zero_ne_one, hstalep, update_self]
        have habove : ∀ k, 0 < k → (y.setQueue 1 []).stalep k = [] := by
          intro k hk
          by_cases hone : k = 1
          · rw [hone, stalep_setQueue_self]
          · rw [stalep_setQueue_of_ne hone, hstalep, update_of_ne hk.ne']
            exact hwalk.above k hk
        refine done_untouched hX hH hwalk hun ⟨rfl, rfl, rfl, rfl⟩ hroot' habove hzero hgenuine hd'
          ?_ (hreported wp' ?_ hc)
        · rw [hpart]
          exact hlm
        · rw [hstalep, update_self]
          exact mem_cons_self
    · exact .inl h
  · exact .inl h

/-! ## `Meta_data_d` -/

variable (N H Byz) in
/-- **Correct replicas** report their checkpoints, and only to one that wants
something later than it has. -/
def Honest (x : Fetcher) : Event → Prop
  | .metaDataD m => m.verify N = true → m.id ∉ Byz → m.rid = x.sent.rid →
    x.sent.c < m.ls ∧ ∀ n d, m.digest n = some d → Genuine N H m.l m.i n d
  | _ => True

variable (N) in
/-- **What has to be known of a `Meta_data_d` message** that is counted: it
starts at a multiple of `checkpoint_interval`, and if it reports the digest
that the replica has for a partition, then the replica does not have it from
after the checkpoint that is fetched. -/
def Regular (x : Fetcher) : Event → Prop
  | .metaDataD m => m.verify N = true → m.rid = x.sent.rid → x.flevel = m.l →
    ∀ p q, x.stalep x.flevel = p :: q → p.index = m.i →
      m.Aligned ∧ (0 ≤ p.c → ∀ n, m.digest n = some (x.tree.ptree x.flevel p.index).d →
        (x.tree.ptree x.flevel p.index).lm ≤ p.c)
  | _ => True

/-- A digest that is certified for a queued partition is not the one the
replica has. -/
theorem Gives.stale {d : Digest} (h : Gives N H Byz x p c d)
    (htree : TreeOk X N.md5 nb (OnPath x) x.tree) (hl : x.flevel ≤ leafLevel)
    (hi : p.index < partCount nb x.flevel) (hp : Queued N H x x.flevel p) :
    d ≠ (x.tree.ptree x.flevel p.index).d := by
  intro heq
  obtain ⟨t, ht, htd⟩ := hp.genuine
  obtain ⟨t', ht', htd'⟩ := h.genuine
  -- the replica's digest was computed from something, at the same last modification
  obtain ⟨hlm, data, hmsg, hdata⟩ := htree.stored _ hl _ hi
  obtain ⟨hlm', -⟩ := (H.good ht' (hH _ _ ht') hl hi).of_digest hX hlm hmsg
    (hdata.symm.trans (heq.symm.trans htd'.symm))
  -- which was not after the checkpoint that is fetched
  have hle := h.fresh hp.genuine.nonneg heq
  rw [hlm'] at hle
  have hsame := H.same ht ht' h.le _ _ hle
  refine hp.stale ?_
  rw [← htd, ← hsame, htd', heq]

/-- **A certificate is complete.** -/
theorem inv_useCert {cc : ℤ} {cd : Digest} (hfetching : x.fetching = true)
    (hwalk : Walk N H X x.flevel x)
    (hreported : ∀ p ∈ x.stalep 0, 0 ≤ p.c → Reported Byz given x p.c p.d)
    (hcons : x.stalep x.flevel = wp :: q) (h : Gives N H Byz x wp cc cd) :
    Inv N H X Byz given (useCert N x wp q cc cd) ∨
      Done N H X Byz given (useCert N x wp q cc cd) := by
  have hi : wp.index < partCount nb x.flevel :=
    hwalk.index_lt le_rfl (hcons ▸ mem_cons_self)
  have hroot : x.flevel = 0 → wp.index = 0 → Reported Byz given x cc cd := by
    intro hlevel hindex
    obtain ⟨m, hm, hid, hl, hi, hd⟩ := h.reported
    exact .inl ⟨m, hm, hid, hl.trans hlevel, hi.trans hindex, hd⟩
  set wp' : FPart := { wp with c := cc, d := cd }
  set y : Fetcher := (x.setQueue x.flevel (wp' :: q)).clearCert
  have hs : SameState x y := ⟨rfl, rfl, rfl, rfl⟩
  have hself : y.stalep x.flevel = wp' :: q := stalep_setQueue_self _ _ _
  rw [useCert]
  by_cases hup : cd = (x.tree.ptree x.flevel wp.index).d
  · rw [if_pos (show cd = (y.tree.ptree y.flevel wp.index).d from hup)]
    rcases hwalk.working hcons with hqueued | ⟨⟨hlevel, hindex, rfl⟩, hun⟩
    · exact absurd hup (h.stale hX hH hwalk.tree hwalk.level hi hqueued)
    · right
      rw [if_neg (show ¬ 0 < y.flevel from hlevel.not_gt)]
      rw [hlevel] at hwalk hself
      rw [hlevel, hindex] at hup
      have hgenuine := h.genuine
      rw [hlevel, hindex] at hgenuine
      refine done_untouched hX hH hwalk hun ⟨rfl, rfl, rfl, rfl⟩ hself (fun k hk => ?_) hindex
        hgenuine hup hun.lm (hroot hlevel hindex)
      exact (stalep_setQueue_of_ne (hlevel ▸ hk.ne')).trans (hwalk.above k hk)
  · left
    rw [if_neg (show ¬ cd = (y.tree.ptree y.flevel wp.index).d from hup)]
    have hqueued : Queued N H y x.flevel wp' := ⟨h.genuine, hup, h.lc_le⟩
    have hindex : wp'.index = wp.index := rfl
    refine inv_sendFetch (x := y) hfetching (hwalk.retarget hcons hs hindex h.le hqueued rfl) ?_
      hself (MetaDataCert.backed_clear _ N x.cert) true
    intro p hp hc
    by_cases hlevel : x.flevel = 0
    · obtain ⟨p₀, hroot₀, hindex₀, -⟩ := hwalk.root
      rw [hlevel] at hself hcons
      obtain ⟨rfl, rfl⟩ := List.cons.inj (hcons.symm.trans hroot₀)
      rw [hself] at hp
      obtain rfl := mem_singleton.1 hp
      exact hroot hlevel hindex₀
    · have hother : y.stalep 0 = x.stalep 0 := stalep_setQueue_of_ne (Ne.symm hlevel)
      rw [hother] at hp
      exact hreported p hp hc

/-- **`handle(PBFT_R_Meta_data_d*)`.** -/
theorem inv_handleMetaDataD (hByz : Byz.card ≤ N.f) (hid : N.id < N.n) (h : Inv N H X Byz given x)
    {m : MetaDataD} (hhonest : x.Honest N H Byz (.metaDataD m))
    (hregular : x.Regular N (.metaDataD m)) :
    Inv N H X Byz given (handleMetaDataD N x m) ∨
      Done N H X Byz given (handleMetaDataD N x m) := by
  rw [handleMetaDataD]
  split
  · next hlevel =>
    obtain ⟨-, hrid, hl⟩ := hlevel
    obtain ⟨wp, q, hcons, hsent, hcert⟩ := h.working
    rw [hcons]
    dsimp only
    split
    · next hls =>
      obtain ⟨hindex, hlc, -⟩ := hls
      set y : Fetcher := { x with cert := (x.cert.add N m false).1, heard := m :: x.heard }
      have hs : SameState x y := ⟨rfl, rfl, rfl, rfl⟩
      have hwalk : Walk N H X y.flevel y := h.walk.congr hs fun _ => rfl
      have hreported : ∀ p ∈ y.stalep 0, 0 ≤ p.c → Reported Byz given y p.c p.d :=
        reported_of_target h.reported rfl (subset_cons_self m x.heard)
      have hcert' : MetaDataCert.Backed (Valid N H Byz y wp) N y.cert := by
        refine MetaDataCert.Backed.add (hcert.mono fun m' hm' => ?_) fun hverify => ?_
        · exact hm'.frame (mem_cons_of_mem m hm'.heard) rfl rfl rfl
        · obtain ⟨haligned, hfresh⟩ := hregular hverify hrid hl wp q hcons hindex
          refine ⟨⟨mem_cons_self, hl.symm, hindex.symm, fun hself => ?_, fun _ => hlc,
            fun _ => hfresh, fun _ hnot => ?_⟩, haligned⟩
          · exact absurd hself.symm (MetaDataD.verify_iff.1 hverify).1.2
          · rw [← hsent]
            exact hhonest hverify hnot hrid
      have hinv : Inv N H X Byz given y :=
        ⟨h.fetching, hwalk, hreported, wp, q, hcons, hsent, hcert'⟩
      split
      · next hadd =>
        split
        · next cc cd hvalue =>
          rw [MetaDataCert.cvalue] at hvalue
          split at hvalue
          · cases hvalue
          · next hc =>
            obtain ⟨rfl, rfl⟩ := Prod.mk.inj (Option.some.inj hvalue)
            -- there is another replica
            have hf : 1 ≤ N.f := by
              obtain ⟨⟨hlt, hne⟩, -⟩ := MetaDataD.verify_iff.1 (MetaDataCert.verify_of_add hadd)
              rw [Node.n] at hlt hid
              omega
            exact inv_useCert (x := y) hX hH h.fetching hwalk hreported hcons
              (gives_of_certified hByz hf (hcert'.certified (not_lt.1 hc)))
        · exact .inl hinv
      · exact .inl hinv
    · exact .inl h
  · exact .inl h

/-! ## Runs -/

theorem inv_step (hByz : Byz.card ≤ N.f) (hid : N.id < N.n) {e : Event}
    (h : Inv N H X Byz given x ∨ Done N H X Byz given x)
    (he : (x.Occurs X e ∧ x.Honest N H Byz e) ∧ x.Regular N e) :
    Inv N H X Byz given (step N x e) ∨ Done N H X Byz given (step N x e) := by
  obtain ⟨⟨hoccurs, hhonest⟩, hregular⟩ := he
  rcases h with h | h
  · cases e with
    | data m => exact inv_handleData hX hH h hoccurs
    | metaData m => exact inv_handleMetaData hX hH h hoccurs
    | metaDataD m => exact inv_handleMetaDataD hX hH hByz hid h hhonest hregular
    | retransmit =>
      obtain ⟨p, q, hcons, -, hcert⟩ := h.working
      rw [step, if_pos h.fetching]
      exact .inl (inv_sendFetch h.fetching h.walk h.reported hcons hcert true)
  · rw [step_of_not_fetching h.fetching]
    exact .inr h

end Fetcher

end AbstractBFT.Pbft
