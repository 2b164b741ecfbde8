import AbstractBFT.Pbft.FetchWalk
/-!
# PBFT — what a fetch keeps on its way

`Inv` is what is true while the replica fetches: the walk is as `Walk` says,
the target of the root was reported by a correct replica, and the messages in
the certificate are `Valid`, so that a complete certificate has a digest that
the partition had at a checkpoint (`gives_of_certified`). `Done` is what is
true in the end: no digest is an exception any more.

The lemmas here are about what every message ends in, `send_fetch` for the
next partition (`inv_sendFetch`) and `done_with_level` when there is none
(`inv_doneWithLevel`).
-/

namespace AbstractBFT.Pbft

namespace Fetcher

open Function List

/-! ## The replica's own message -/

/-- What the message would report of `n`. -/
def Holds (m : MetaDataD) (n : ℤ) (d : Digest) : Prop :=
  (checkpointInterval : ℤ) ∣ n ∧ m.ls ≤ n ∧
    m.digests.getD ((n - m.ls) / checkpointInterval).toNat 0 = d ∧ digestIsZero d = false

variable {m : MetaDataD} {n : ℤ} {d : Digest}

theorem Holds.of_digest (h : m.digest n = some d) : Holds m n d := by
  obtain ⟨hdvd, hle, -⟩ := MetaDataD.of_digest h
  rw [MetaDataD.digest] at h
  split at h
  · cases h
  · dsimp only at h
    split at h
    · cases h
    · next hin =>
      obtain rfl := Option.some.inj h
      rw [not_or, Bool.not_eq_true] at hin
      exact ⟨hdvd, hle, rfl, hin.2⟩

theorem Holds.of_addDigest {n' : ℤ} {d' : Digest} (h : Holds (m.addDigest n d) n' d') :
    n' = n ∧ d' = d ∨ Holds m n' d' := by
  rw [MetaDataD.addDigest] at h
  split at h
  · next hn =>
    obtain ⟨hdvd, hle, hd, hzero⟩ := h
    rw [getD_eq_getElem?_getD, getElem?_set] at hd
    split at hd
    · next hindex =>
      left
      have heq : n' = n := by
        simp only [checkpointInterval] at *
        omega
      split at hd
      · exact ⟨heq, hd.symm⟩
      · rw [← hd] at hzero
        exact absurd hzero (by decide)
    · exact .inr ⟨hdvd, hle, by rw [getD_eq_getElem?_getD]; exact hd, hzero⟩
  · exact .inr h

/-- What the replica's own message says. -/
structure Mine (N : Node) (x : Fetcher) (p : FPart) (m : MetaDataD) : Prop where
  id : m.id = N.id
  level : m.l = x.flevel
  index : m.i = p.index
  digests : ∀ n d, Holds m n d → n ≤ x.lc ∧ digestIsZero (x.clog.fetch n).sd = false ∧
    ∃ q, x.getMetaData n x.flevel p.index = some q ∧ q.d = d

theorem mine_myMetaDataD (N : Node) (x : Fetcher) (rid : ℕ) (p : FPart) :
    Mine N x p (x.myMetaDataD N rid p) := by
  refine List.foldlRecOn _ _ ⟨rfl, rfl, rfl, fun n d h => ?_⟩ fun m hm n hn => ?_
  · -- no digest is set yet
    obtain ⟨-, -, hd, hzero⟩ := h
    have hnull : ∀ k, (List.replicate maxDigests (0 : Digest)).getD k 0 = 0 := by
      intro k
      rw [getD_eq_getElem?_getD, getElem?_replicate]
      split <;> rfl
    rw [← hd, MetaDataD.new, hnull] at hzero
    exact absurd hzero (by decide)
  · split
    · exact hm
    · next hused =>
      split
      · next q hq =>
        have hadd : ∀ d, (m.addDigest n d).id = m.id ∧ (m.addDigest n d).l = m.l ∧
            (m.addDigest n d).i = m.i := by
          intro d
          rw [MetaDataD.addDigest]
          split <;> exact ⟨rfl, rfl, rfl⟩
        obtain ⟨hid, hl, hi⟩ := hadd q.d
        refine ⟨hid.trans hm.id, hl.trans hm.level, hi.trans hm.index, fun n' d' h => ?_⟩
        rcases h.of_addDigest with ⟨rfl, rfl⟩ | h
        · exact ⟨(State.Kept.mem_ckptsFrom.1 hn).2.1, Bool.not_eq_true _ ▸ hused, q, hq, rfl⟩
        · exact hm.digests n' d' h
      · exact hm

/-- **What the replica reports of its last checkpoint** is right. -/
theorem OwnCkpt.genuine {N : Node} {nb : ℕ} {H : Checkpoints N.md5 nb} {x : Fetcher}
    (h : OwnCkpt N H x) {l i : ℕ} {q : Part} (hdvd : (checkpointInterval : ℤ) ∣ x.lc)
    (hsd : digestIsZero (x.clog.fetch x.lc).sd = false) (hq : x.getMetaData x.lc l i = some q) :
    Genuine N H l i x.lc q.d := by
  obtain ⟨t, ht, hparts, hcopies⟩ := h hdvd hsd
  refine ⟨t, ht, ?_⟩
  rw [State.getMetaData] at hq
  split at hq
  · next hlm =>
    rw [← Option.some.inj hq, hparts l i hlm]
  · have hfind : x.findCopy x.lc l i = x.lastRec.parts (l, i) := by
      have hone : State.ckptsFrom x.lc x.lc = [x.lc] := by
        simp [State.ckptsFrom]
      rw [State.findCopy, hone]
      simp only [findSome?_cons, findSome?_nil, hsd, Bool.false_eq_true, if_false]
      rw [State.lastRec]
      cases (x.clog.fetch x.lc).parts (l, i) <;> rfl
    rw [hfind] at hq
    obtain ⟨b, hb, rfl⟩ := Option.map_eq_some_iff.1 hq
    rw [hcopies l i b hb]

/-! ## Certificates -/

section Inv

variable (N : Node) {nb : ℕ} (H : Checkpoints N.md5 nb) (X : Hashed) (Byz : Finset ℕ)

/-- What is known of a message in the certificate for the partition `p`. -/
structure Valid (x : Fetcher) (p : FPart) (m : MetaDataD) : Prop where
  heard : m ∈ x.heard
  level : m.l = x.flevel
  index : m.i = p.index
  mine : m.id = N.id → p.c ≤ x.lc ∧ ∀ n d, m.digest n = some d → n ≤ x.lc ∧
    (n = x.lc → Genuine N H m.l m.i n d)
  lc_le : m.id ≠ N.id → x.lc ≤ m.ls
  fresh : m.id ≠ N.id → 0 ≤ p.c → ∀ n, m.digest n = some (x.tree.ptree x.flevel p.index).d →
    (x.tree.ptree x.flevel p.index).lm ≤ p.c
  correct : m.id ≠ N.id → m.id ∉ Byz → p.c < m.ls ∧
    ∀ n d, m.digest n = some d → Genuine N H m.l m.i n d

/-- **What a certificate gives**: a digest that the partition had at a
checkpoint, not before the one it is fetched for. -/
structure Gives (x : Fetcher) (p : FPart) (c : ℤ) (d : Digest) : Prop where
  genuine : Genuine N H x.flevel p.index c d
  le : p.c ≤ c
  lc_le : x.lc ≤ c
  fresh : 0 ≤ p.c → d = (x.tree.ptree x.flevel p.index).d →
    (x.tree.ptree x.flevel p.index).lm ≤ p.c
  reported : ∃ m ∈ x.heard, m.id ∉ Byz ∧ m.l = x.flevel ∧ m.i = p.index ∧ m.digest c = some d

/-- The digest was reported for the root by a correct replica, or it was
known from the start. -/
def Reported (given : Option (ℤ × Digest)) (x : Fetcher) (c : ℤ) (d : Digest) : Prop :=
  (∃ m ∈ x.heard, m.id ∉ Byz ∧ m.l = 0 ∧ m.i = 0 ∧ m.digest c = some d) ∨ given = some (c, d)

/-- **The state of a fetch.** -/
structure Inv (given : Option (ℤ × Digest)) (x : Fetcher) : Prop where
  fetching : x.fetching = true
  walk : Walk N H X x.flevel x
  reported : ∀ p ∈ x.stalep 0, 0 ≤ p.c → Reported Byz given x p.c p.d
  working : ∃ p q, x.stalep x.flevel = p :: q ∧ x.sent.c = p.c ∧
    MetaDataCert.Backed (Valid N H Byz x p) N x.cert

/-- **The state after a fetch.** -/
structure Done (given : Option (ℤ × Digest)) (x : Fetcher) : Prop where
  fetching : x.fetching = false
  blocks : x.nb = nb
  tree : TreeOk X N.md5 nb (fun _ _ => False) x.tree
  ckpt : Genuine N H 0 0 x.lc (x.tree.ptree 0 0).d
  sd : x.lastRec.sd = (x.tree.ptree 0 0).d
  reported : Reported Byz given x x.lc (x.tree.ptree 0 0).d

variable {N H X Byz}

variable {x x' : Fetcher} {p wp : FPart}
variable {m : MetaDataD} {c : ℤ} {d : Digest} {l : ℕ}

/-- Validity does not depend on the rest of the state. -/
theorem Valid.frame (h : Valid N H Byz x p m) (hheard : m ∈ x'.heard)
    (hlevel : x'.flevel = x.flevel) (hlc : x'.lc = x.lc) (htree : x'.tree = x.tree) :
    Valid N H Byz x' p m where
  heard := hheard
  level := h.level.trans hlevel.symm
  index := h.index
  mine := hlc ▸ h.mine
  lc_le := hlc ▸ h.lc_le
  fresh := by
    rw [hlevel, htree]
    exact h.fresh
  correct := h.correct

theorem gives_of_certified (hByz : Byz.card ≤ N.f) (hf : 1 ≤ N.f)
    (h : MetaDataCert.Certified (Valid N H Byz x p) N c d) : Gives N H Byz x p c d := by
  obtain ⟨S, hcard, hS⟩ := h
  -- one of them is another replica
  obtain ⟨s', hs', hne⟩ := Finset.exists_mem_ne (by omega : 1 < S.card) N.id
  obtain ⟨m', hm', hid', hd'⟩ := hS s' hs'
  have hother : m'.id ≠ N.id := hid' ▸ hne
  have hlc : x.lc ≤ c := (hm'.lc_le hother).trans (MetaDataD.of_digest hd').2.1
  -- and one is correct
  obtain ⟨s, hs, hnot⟩ := Finset.exists_mem_notMem_of_card_lt_card (by omega : Byz.card < S.card)
  obtain ⟨m, hm, hid, hd⟩ := hS s hs
  have hcorrect : Genuine N H m.l m.i c d ∧ p.c ≤ c := by
    by_cases hself : m.id = N.id
    · obtain ⟨hle, hmine⟩ := hm.mine hself
      obtain ⟨hle', hgen⟩ := hmine c d hd
      exact ⟨hgen (le_antisymm hle' hlc), hle.trans hlc⟩
    · obtain ⟨hlt, hgen⟩ := hm.correct hself (hid ▸ hnot)
      exact ⟨hgen c d hd, hlt.le.trans (MetaDataD.of_digest hd).2.1⟩
  obtain ⟨hgen, hle⟩ := hcorrect
  rw [hm.level, hm.index] at hgen
  exact ⟨hgen, hle, hlc, fun hc heq => hm'.fresh hother hc c (heq ▸ hd'),
    m, hm.heard, hid ▸ hnot, hm.level, hm.index, hd⟩

variable {given : Option (ℤ × Digest)}

theorem Reported.of_heard (h : Reported Byz given x c d) (hheard : x.heard ⊆ x'.heard) :
    Reported Byz given x' c d :=
  h.imp_left fun ⟨m, hm, hrest⟩ => ⟨m, hheard hm, hrest⟩

/-- The replica's own message is valid. -/
theorem Mine.valid (h : Mine N x p m) (hown : OwnCkpt N H x) (hc : p.c ≤ x.lc)
    (hheard : m ∈ x.heard) : Valid N H Byz x p m where
  heard := hheard
  level := h.level
  index := h.index
  mine _ := by
    refine ⟨hc, fun n d hd => ?_⟩
    have hholds := Holds.of_digest hd
    obtain ⟨hle, hsd, q, hq, rfl⟩ := h.digests n d hholds
    refine ⟨hle, fun heq => ?_⟩
    subst heq
    rw [h.level, h.index]
    exact hown.genuine hholds.1 hsd hq
  lc_le hne := absurd h.id hne
  fresh hne := absurd h.id hne
  correct hne := absurd h.id hne

variable {q : List FPart}

/-- **`send_fetch`** starts the work on the first partition of the level. -/
theorem inv_sendFetch (hfetching : x.fetching = true) (hwalk : Walk N H X x.flevel x)
    (hreported : ∀ p ∈ x.stalep 0, 0 ≤ p.c → Reported Byz given x p.c p.d)
    (hq : x.stalep x.flevel = p :: q) (hcert : MetaDataCert.Backed (Valid N H Byz x p) N x.cert)
    (change_replier : Bool) : Inv N H X Byz given (sendFetch N x change_replier) := by
  rw [sendFetch, hq]
  dsimp only
  generalize (if 0 ≤ p.c ∧ change_replier = true then nextReplier N x.lreplier else x.lreplier) = r
  generalize hsent : FetchMsg.mk (x.sent.rid + 1) p.lu x.flevel p.index p.c _ = sent
  have hc : sent.c = p.c := hsent ▸ rfl
  rw [addMine]
  split
  · next hmine =>
    have hm := mine_myMetaDataD N { x with lreplier := r, sent := sent } sent.rid p
    generalize myMetaDataD N { x with lreplier := r, sent := sent } sent.rid p = m at hm
    refine ⟨hfetching, hwalk.congr ⟨rfl, rfl, rfl, rfl⟩ fun _ => rfl, fun p' hp' hc' => ?_, p, q,
      hq, hc, ?_⟩
    · exact (hreported p' hp' hc').of_heard (subset_cons_self m x.heard)
    · refine MetaDataCert.Backed.add_mine (hcert.mono fun m' hm' => ?_) ?_ hm.id hmine.1
      · exact hm'.frame (mem_cons_of_mem m hm'.heard) rfl rfl rfl
      · exact Mine.valid ⟨hm.id, hm.level, hm.index, hm.digests⟩ hwalk.own hmine.2.2
          mem_cons_self
  · refine ⟨hfetching, hwalk.congr ⟨rfl, rfl, rfl, rfl⟩ fun _ => rfl, hreported, p, q, hq, hc, ?_⟩
    exact hcert.mono fun m hm => hm.frame hm.heard rfl rfl rfl

/-! ## `done_with_level` -/

theorem stalep_setQueue_self (x : Fetcher) (l : ℕ) (q : List FPart) :
    (x.setQueue l q).stalep l = q := update_self _ _ _

theorem stalep_setQueue_of_ne {j : ℕ} (h : j ≠ l) :
    (x.setQueue l q).stalep j = x.stalep j := update_of_ne h _ _

theorem putPart_succ {k : ℕ} {pwp : FPart} {pq : List FPart}
    (h : x.stalep k = pwp :: pq) (i : ℕ) (p : Part) :
    x.putPart (k + 1) i p =
      { x with
        tree := x.tree.replace (k + 1) i p
        stalep := update x.stalep k ({ pwp with lm := max pwp.lm p.lm } :: pq) } := by
  rw [putPart, if_neg (Nat.succ_ne_zero k), raiseLm]
  rw [Nat.add_sub_cancel, h]
  rfl

/-- **The end.** The root is put in place. -/
theorem done_root {t : Tree} (hH : ∀ n t, H.tree n = some t → X.Covers nb t) (hblocks : x.nb = nb)
    (htree : TreeOk X N.md5 nb (OnPath x) x.tree) (hroot : x.stalep 0 = [wp])
    (hindex : wp.index = 0) (habove : ∀ k, 0 < k → x.stalep k = []) (ht : H.tree wp.c = some t)
    (hpart : (⟨wp.lm, wp.d⟩ : Part) = t.ptree 0 0) (hle : wp.lm ≤ wp.c)
    (hbelow : x.tree.below nb 0 0 = t.below nb 0 0) (hreported : Reported Byz given x wp.c wp.d) :
    Done N H X Byz given (doneWithLevel N 1 x) := by
  have hroot_ok := htree.put_genuine ht (hH _ _ ht) (Nat.zero_le _) Nat.zero_lt_one
    (fun hpos => absurd hpos (lt_irrefl 0)) (data_eq_of_below_eq (by decide) htree.summed
      htree.unused (H.summed ht) (H.unused ht) hbelow) fun _ => hbelow
  have hself : (t.ptree 0 0).d = ((x.tree.replace 0 0 (t.ptree 0 0)).ptree 0 0).d := by
    rw [Tree.ptree_replace, setAt_self]
  have hd : wp.d = (t.ptree 0 0).d := congrArg Part.d hpart
  rw [hd, hself] at hreported
  rw [doneWithLevel, hroot]
  dsimp only
  rw [if_pos hle, if_pos rfl, hindex, hpart, putPart, if_pos rfl, finish]
  refine ⟨rfl, hblocks, hroot_ok.mono ?_, ⟨t, ht, hself⟩, ?_, hreported⟩
  · -- the root was the only exception
    rintro l i ⟨⟨p, q, hcons, hp⟩, hne⟩
    cases l with
    | zero =>
      rw [hroot] at hcons
      obtain ⟨rfl, -⟩ := List.cons.inj hcons
      exact hne ⟨rfl, hp.symm.trans hindex⟩
    | succ l =>
      rw [habove (l + 1) (Nat.succ_pos l)] at hcons
      cases hcons
  · rw [State.lastRec]
    rw [CkptLog.fetch_set_self]

/-- `wp.lu = wp.c`, and the level below is done with. -/
theorem Walk.lower (h : Walk N H X (l + 1) x) (hnil : x.stalep (l + 1) = []) {lu : ℤ}
    (hcons : x.stalep l = wp :: q) (hs : SameState x x')
    (hq : x'.stalep = update x.stalep l ({ wp with lu := lu } :: q)) : Walk N H X l x' := by
  refine Walk.congr (h.up hnil) hs fun j => ?_
  rw [hq]
  by_cases hj : j = l
  · rw [hj, update_self, hcons]
    rfl
  · rw [update_of_ne hj]

theorem map_target_update {wp' : FPart} (hcons : x.stalep l = wp :: q)
    (hq : x'.stalep = update x.stalep l (wp' :: q)) (htarget : wp'.target = wp.target) (j : ℕ) :
    (x'.stalep j).map FPart.target = (x.stalep j).map FPart.target := by
  rw [hq]
  by_cases hj : j = l
  · rw [hj, update_self, hcons, map_cons, htarget, map_cons]
  · rw [update_of_ne hj]

theorem reported_of_target (h : ∀ p ∈ x.stalep 0, 0 ≤ p.c → Reported Byz given x p.c p.d)
    (hq : (x'.stalep 0).map FPart.target = (x.stalep 0).map FPart.target)
    (hheard : x.heard ⊆ x'.heard) : ∀ p ∈ x'.stalep 0, 0 ≤ p.c → Reported Byz given x' p.c p.d := by
  intro p hp hc
  obtain ⟨p', hp', htarget⟩ := exists_of_map_eq hq hp
  obtain ⟨-, hc', hd'⟩ := target_eq htarget
  rw [← hc', ← hd']
  exact (h p' hp' (hc' ▸ hc)).of_heard hheard

variable (hfetching : x.fetching = true) (hcert : ∀ P, MetaDataCert.Backed P N x.cert)
  (hreported : ∀ p ∈ x.stalep 0, 0 ≤ p.c → Reported Byz given x p.c p.d)
include hfetching hcert hreported

/-- The partition is inconsistent: it is fetched once more. -/
theorem inv_refetch (hwalk : Walk N H X (l + 1) x) (hnil : x.stalep (l + 1) = [])
    (hcons : x.stalep l = wp :: q) (r : ℕ) :
    Inv N H X Byz given (sendFetch N
      { x.setQueue l ({ wp with lu := wp.c } :: q) with
        flevel := l
        refetch_level := r } false) := by
  set y : Fetcher :=
    { x.setQueue l ({ wp with lu := wp.c } :: q) with flevel := l, refetch_level := r }
  have hq : y.stalep = update x.stalep l ({ wp with lu := wp.c } :: q) := rfl
  have hself : y.stalep l = { wp with lu := wp.c } :: q := update_self _ _ _
  refine inv_sendFetch (x := y) hfetching (hwalk.lower hnil hcons ⟨rfl, rfl, rfl, rfl⟩ hq) ?_ hself
    (hcert _) false
  exact reported_of_target hreported (map_target_update hcons hq rfl 0) (List.Subset.refl _)

variable (hH : ∀ n t, H.tree n = some t → X.Covers nb t)
include hH

theorem inv_doneWithLevel (hwalk : Walk N H X (l + 1) x) (hnil : x.stalep (l + 1) = []) :
    Inv N H X Byz given (doneWithLevel N (l + 1) x) ∨
      Done N H X Byz given (doneWithLevel N (l + 1) x) := by
  induction l generalizing x with
  | zero =>
    obtain ⟨wp, q, t, hcons, hexp⟩ := hwalk.path 0 Nat.zero_lt_one
    obtain ⟨wp', hroot, hindex, -⟩ := hwalk.root
    obtain ⟨rfl, rfl⟩ : wp = wp' ∧ q = [] := List.cons.inj (hcons.symm.trans hroot)
    by_cases hle : wp.lm ≤ wp.c
    · right
      have hbelow := hexp.below_eq hwalk.tree.unused hnil hle
      have habove : ∀ k, 0 < k → x.stalep k = [] := by
        intro k hk
        rcases eq_or_lt_of_le (Nat.succ_le_of_lt hk) with rfl | hlt
        · exact hnil
        · exact hwalk.above k hlt
      have hpart := hexp.part_eq hle
      have hc := hexp.genuine.nonneg
      rw [hindex] at hbelow hpart
      exact done_root hH hwalk.blocks hwalk.tree hroot hindex habove hexp.tree hpart hle hbelow
        (hreported wp (hcons ▸ mem_cons_self) hc)
    · left
      rw [doneWithLevel, hcons]
      dsimp only
      rw [if_neg hle]
      exact inv_refetch hfetching hcert hreported hwalk hnil hcons _
  | succ k ih =>
    obtain ⟨wp, q, t, hcons, hexp⟩ := hwalk.path (k + 1) (Nat.lt_succ_self _)
    obtain ⟨pwp, pq, tp, hpcons, hpexp⟩ := hwalk.path k (by omega)
    rw [doneWithLevel, hcons]
    dsimp only
    by_cases hle : wp.lm ≤ wp.c
    · rw [if_pos hle, if_neg (Nat.succ_ne_zero k)]
      set x₁ : Fetcher := { x.setQueue (k + 1) ({ wp with lu := wp.c } :: q) with flevel := k + 1 }
        with hx₁
      have hq₁ : x₁.stalep (k + 1) = { wp with lu := wp.c } :: q := update_self _ _ _
      have hp₁ : x₁.stalep k = pwp :: pq :=
        (update_of_ne k.lt_succ_self.ne _ _).trans hpcons
      have hwalk₁ : Walk N H X (k + 1) x₁ := hwalk.lower hnil hcons ⟨rfl, rfl, rfl, rfl⟩ rfl
      rw [putPart_succ hp₁]
      -- what is put in place is what was there at the checkpoint
      have hbelow := hexp.below_eq hwalk.tree.unused hnil hle
      obtain ⟨hlt, hdiv⟩ := mem_children.1 (hpexp.queue wp (hcons ▸ mem_cons_self)).1
      have hl : k + 1 < leafLevel := Nat.lt_of_succ_le hwalk.level
      have htree := hwalk₁.tree.put_genuine hexp.tree (hH _ _ hexp.tree) hl.le hlt
        (fun _ => ⟨pwp, pq, hp₁, hdiv.symm⟩) (data_eq_of_below_eq hl hwalk.tree.summed
          hwalk.tree.unused (H.summed hexp.tree) (H.unused hexp.tree) hbelow) fun _ => hbelow
      rw [hexp.part_eq hle]
      set x₂ : Fetcher :=
        { x₁ with
          tree := x₁.tree.replace (k + 1) wp.index (t.ptree (k + 1) wp.index)
          stalep := update x₁.stalep k
            ({ pwp with lm := max pwp.lm (t.ptree (k + 1) wp.index).lm } :: pq) } with hx₂
      have hstalep₂ : x₂.stalep = update x₁.stalep k
          ({ pwp with lm := max pwp.lm (t.ptree (k + 1) wp.index).lm } :: pq) := rfl
      have hstalep₁ : x₁.stalep =
          update x.stalep (k + 1) ({ wp with lu := wp.c } :: q) := rfl
      have htargets : ((x₂.setQueue (k + 1) q).stalep 0).map FPart.target =
          (x.stalep 0).map FPart.target := by
        have hother : (x₂.setQueue (k + 1) q).stalep 0 = x₂.stalep 0 :=
          update_of_ne (Nat.succ_ne_zero k).symm q x₂.stalep
        rw [hother, map_target_update hp₁ hstalep₂ rfl, map_target_update hcons hstalep₁ rfl]
      -- the level goes on with the rest of the queue
      have hgo : ∀ y : Fetcher, y.toState = x₂.toState → y.stalep = (x₂.setQueue (k + 1) q).stalep →
          y.heard = x₂.heard → Walk N H X (k + 1) y ∧
            ∀ p ∈ y.stalep 0, 0 ≤ p.c → Reported Byz given y p.c p.d := by
        intro y hs hq hheard
        refine ⟨hwalk₁.settle hq₁ hp₁ hexp.tree ?_ ?_ ?_ ?_ ?_ hq, ?_⟩
        · rw [hs]
        · rw [hs]
        · rw [hs]
        · rw [hs]
          rfl
        · rw [hs]
          exact htree
        · refine reported_of_target hreported ?_ (by rw [hheard]; exact List.Subset.refl _)
          rw [hq]
          exact htargets
      cases q with
      | nil =>
        obtain ⟨hwalk₂, hreported₂⟩ := hgo (x₂.setQueue (k + 1) []) rfl rfl rfl
        exact ih hfetching hcert hreported₂ hwalk₂ (update_self _ _ _)
      | cons p q =>
        left
        set y : Fetcher :=
          { x₂.setQueue (k + 1) (p :: q) with
            refetch_level := if k + 1 ≤ x₂.refetch_level then leafLevel + 1 else x₂.refetch_level }
        obtain ⟨hwalk₂, hreported₂⟩ := hgo y rfl rfl rfl
        have hself : y.stalep (k + 1) = p :: q := update_self _ _ _
        exact inv_sendFetch (x := y) hfetching hwalk₂ hreported₂ hself (hcert _) false
    · left
      rw [if_neg hle]
      exact inv_refetch hfetching hcert hreported hwalk hnil hcons _

/-- **Going on after a partition**, with the rest of its queue. -/
theorem inv_advance (hpos : 0 < x.flevel) (hwalk : Walk N H X x.flevel (x.setQueue x.flevel q)) :
    Inv N H X Byz given (advance N x q) ∨ Done N H X Byz given (advance N x q) := by
  have hroot : (x.setQueue x.flevel q).stalep 0 = x.stalep 0 := stalep_setQueue_of_ne hpos.ne
  have hreported' : ∀ p ∈ (x.setQueue x.flevel q).stalep 0, 0 ≤ p.c →
      Reported Byz given (x.setQueue x.flevel q) p.c p.d := by
    rw [hroot]
    exact hreported
  have hself : (x.setQueue x.flevel q).stalep x.flevel = q := update_self _ _ _
  cases q with
  | nil =>
    rw [advance]
    obtain ⟨l, hl⟩ := Nat.exists_eq_succ_of_ne_zero hpos.ne'
    rw [hl] at hwalk hself hreported' ⊢
    exact inv_doneWithLevel (x := x.setQueue (l + 1) []) hfetching hcert hreported' hH hwalk hself
  | cons p q =>
    exact .inl (inv_sendFetch (x := x.setQueue x.flevel (p :: q)) hfetching hwalk hreported' hself
      (hcert _) false)

end Inv

end Fetcher

end AbstractBFT.Pbft
