import AbstractBFT.Lib.Entries
import AbstractBFT.Pbft.BigRequests
import AbstractBFT.Pbft.State
import Mathlib.Data.Finset.Card
/-!
# PBFT — certificates for the digest of a partition

A replica that fetches state asks everyone for the digests that a partition
had at their checkpoints. `PBFT_R_Meta_data_cert` collects the answers and
takes a value, a checkpoint with a digest, for correct when `f+1` replicas
reported it.

The certificate counts. It keeps the last message of each replica, and when
another one arrives it goes over the values, takes back what the old message
said and adds what the new one says. A value that nobody is left to report
is overwritten with the last one, and the loop goes on behind it: the value
that came in is not looked at for this message. So what the old message said
of it is not taken back, and if the replica reports it once more it counts
twice.

The value that is passed over belongs to a checkpoint before the last one of
the new message. A message that reports two checkpoints, the first of them
at a multiple of `checkpoint_interval`, cannot go back that far, so with such
messages everyone counts once (`Backed.add`).
-/

namespace AbstractBFT.Pbft

open Function List

/-- The size of the array of digests of a message. -/
def maxDigests : ℕ := maxOut / checkpointInterval + 1

/-- `PBFT_R_Meta_data_d`: the digests of a partition at the checkpoints from
`ls` on. `auth` says that the message has the right size and that its MAC is
that of `id`. -/
structure MetaDataD where
  rid : ℕ
  ls : ℤ
  l : ℕ
  i : ℕ
  digests : List Digest
  n_digests : ℕ
  id : ℕ
  auth : Bool
  deriving DecidableEq

namespace MetaDataD

/-- `PBFT_R_Meta_data_d(r, l, i, ls)`. -/
def new (N : Node) (rid l i : ℕ) (ls : ℤ) : MetaDataD :=
  ⟨rid, ls, l, i, List.replicate maxDigests 0, 0, N.id, true⟩

/-- `last_checkpoint`. The source adds up 64-bit numbers; the sum is this one
if it is a `Seqno`. -/
def lastCheckpoint (m : MetaDataD) : ℤ := m.ls + (m.n_digests - 1) * checkpointInterval

/-- `add_digest`, with what it asserts. -/
def addDigest (m : MetaDataD) (n : ℤ) (d : Digest) : MetaDataD :=
  if n % checkpointInterval = 0 ∧ m.ls ≤ n ∧ n ≤ m.ls + maxOut then
    let index := ((n - m.ls) / checkpointInterval).toNat
    { m with digests := m.digests.set index d, n_digests := max m.n_digests (index + 1) }
  else m

/-- `digest`. -/
def digest (m : MetaDataD) (n : ℤ) : Option Digest :=
  if n % checkpointInterval ≠ 0 ∨ n < m.ls then none
  else
    let index := ((n - m.ls) / checkpointInterval).toNat
    if m.n_digests ≤ index ∨ digestIsZero (m.digests.getD index 0) then none
    else some (m.digests.getD index 0)

/-- `verify`. -/
def verify (N : Node) (m : MetaDataD) : Bool :=
  N.isReplica m.id && decide (N.id ≠ m.id) && decide (0 ≤ m.ls) && decide (m.l ≤ leafLevel) &&
    decide (m.i < pLevelSize m.l) && decide (1 ≤ m.n_digests) &&
    decide (m.n_digests < maxDigests) && m.auth

/-- The first checkpoint is where checkpoints are taken. -/
def Aligned (m : MetaDataD) : Prop := (checkpointInterval : ℤ) ∣ m.ls
  deriving Decidable

variable {m : MetaDataD}
variable {n : ℤ} {d : Digest}

/-- What is reported is at a multiple of `checkpoint_interval`, not before
the first checkpoint of the message. -/
theorem of_digest (h : m.digest n = some d) :
    (checkpointInterval : ℤ) ∣ n ∧ m.ls ≤ n ∧
      ((n - m.ls) / checkpointInterval).toNat < m.n_digests := by
  rw [digest] at h
  split at h
  · cases h
  · next hat =>
    dsimp only at h
    split at h
    · cases h
    · next hin =>
      rw [not_or, not_not, not_lt] at hat
      rw [not_or, not_le] at hin
      exact ⟨Int.dvd_of_emod_eq_zero hat.1, hat.2, hin.1⟩

/-- And not after the last. -/
theorem le_lastCheckpoint (hm : m.Aligned) (h : m.digest n = some d) : n ≤ m.lastCheckpoint := by
  obtain ⟨hn, hle, hin⟩ := of_digest h
  rw [Aligned] at hm
  simp only [lastCheckpoint, checkpointInterval] at *
  omega

theorem verify_iff {N : Node} :
    m.verify N = true ↔ (m.id < N.n ∧ N.id ≠ m.id) ∧ 0 ≤ m.ls ∧
      (m.l ≤ leafLevel ∧ m.i < pLevelSize m.l) ∧ (1 ≤ m.n_digests ∧ m.n_digests ≤ 2) ∧ m.auth := by
  have hmax : maxDigests = 3 := rfl
  simp only [verify, Node.isReplica, Bool.and_eq_true, decide_eq_true_eq, hmax]
  refine ⟨fun h => ⟨⟨?_, h.1.1.1.1.1.1.2⟩, h.1.1.1.1.1.2, ⟨h.1.1.1.1.2, h.1.1.1.2⟩, ⟨h.1.1.2, ?_⟩,
    h.2⟩, fun h => ⟨⟨⟨⟨⟨⟨⟨⟨Int.natCast_nonneg _, ?_⟩, h.1.2⟩, h.2.1⟩, h.2.2.1.1⟩, h.2.2.1.2⟩,
    h.2.2.2.1.1⟩, ?_⟩, h.2.2.2.2⟩⟩ <;> omega

/-- What a message leaves behind: it reports two checkpoints at most. -/
theorem lt_ls_of_passed (hm : m.n_digests ≤ 2) (h : n + checkpointInterval < m.lastCheckpoint) :
    n < m.ls := by
  simp only [lastCheckpoint, checkpointInterval] at *
  omega

end MetaDataD

/-- `Part_val`. -/
structure PartVal where
  d : Digest
  c : ℤ
  count : ℤ
  deriving DecidableEq

/-- `PBFT_R_Meta_data_cert`. The bound `ls` and the `last_stables` that it is
computed from are those of `StableCert`: nothing writes `last_stables`, so `ls`
is 0 throughout. -/
structure MetaDataCert where
  last_mdds : ℕ → Option MetaDataD
  vals : List PartVal
  c : ℤ
  d : Digest
  has_my_message : Bool

namespace MetaDataCert

/-- `clear`. -/
def clear (cert : MetaDataCert) : MetaDataCert := ⟨fun _ => none, [], -1, cert.d, false⟩

/-- The message reports the value. -/
def Reports (m : MetaDataD) (v : PartVal) : Prop := m.digest v.c = some v.d
  deriving Decidable

/-- The `do ... while` that fills the place of a value with the last one; the
values behind it are given last to first. Where there is none the value itself
is cleared, and if its sequence number, -1 then, is below `ls`, so is
everything before it. -/
def closeGap (ls : ℤ) (pre : List PartVal) : List PartVal → List PartVal × List PartVal
  | [] => if -1 < ls then ([], []) else (pre, [])
  | v :: later => if v.c < ls then closeGap ls pre later else (pre ++ [v], later.reverse)

/-- Where the loop over the values is: those before `i`, those from `i` on,
the digests of the message that were found, and `c` and `d`. -/
structure Scan where
  pre : List PartVal
  rest : List PartVal
  matched : List ℤ
  c : ℤ
  d : Digest

/-- The value after the old message is taken back and the new one is
counted. -/
def recount (om : Option MetaDataD) (m : MetaDataD) (v : PartVal) : PartVal :=
  let v := if ∃ m' ∈ om, Reports m' v then { v with count := v.count - 1 } else v
  if Reports m v then { v with count := v.count + 1 } else v

/-- The body of the loop over the values. -/
def scanStep (N : Node) (ls : ℤ) (om : Option MetaDataD) (m : MetaDataD) (st : Scan) : Scan :=
  match st.rest with
  | [] => st
  | v :: tl =>
    let matched :=
      if Reports m v then (v.c - m.ls) / checkpointInterval :: st.matched else st.matched
    let v := recount om m v
    if v.count = 0 ∨ v.c < ls then
      -- `continue`: what is at `i` now is passed over
      let (pre, rest) := closeGap ls st.pre tl.reverse
      { st with pre := pre, rest := rest, matched := matched }
    else if N.f + 1 ≤ v.count ∧ st.c < v.c then ⟨st.pre ++ [v], tl, matched, v.c, v.d⟩
    else { st with pre := st.pre ++ [v], rest := tl, matched := matched }

/-- The values of the message that were not among those there. -/
def newVals (m : MetaDataD) (matched : List ℤ) : List PartVal :=
  (List.range m.n_digests).filterMap fun k : ℕ =>
    if (k : ℤ) ∈ matched then none
    else (m.digest (m.ls + k * checkpointInterval)).map
      fun d => ⟨d, m.ls + k * checkpointInterval, 1⟩

/-- `add`, and what it returns. The bound is `old`, and `ls` once the message
has been found to be recent. -/
def addAt (N : Node) (cert : MetaDataCert) (old ls : ℤ) (m : MetaDataD) (mine : Bool) :
    MetaDataCert × Bool :=
  let cert := if mine then { cert with has_my_message := true } else cert
  if mine || m.verify N then
    let om := cert.last_mdds m.id
    if ∃ m' ∈ om, m.lastCheckpoint ≤ m'.lastCheckpoint then (cert, false)
    else if m.ls < old then
      ({ cert with last_mdds := update cert.last_mdds m.id none }, false)
    else
      let st := (scanStep N ls om m)^[cert.vals.length] ⟨[], cert.vals, [], cert.c, cert.d⟩
      ({ cert with
          last_mdds := update cert.last_mdds m.id (some m)
          vals := st.pre ++ st.rest ++ newVals m st.matched
          c := st.c
          d := st.d }, true)
  else (cert, false)

/-- `add`, with the bound that `clear` leaves. -/
def add (N : Node) (cert : MetaDataCert) (m : MetaDataD) (mine : Bool) : MetaDataCert × Bool :=
  cert.addAt N 0 0 m mine

/-- `cvalue`. -/
def cvalue (cert : MetaDataCert) : Option (ℤ × Digest) :=
  if cert.c < 0 then none else some (cert.c, cert.d)

/-! ## Everyone counts once -/

/-- The value has as many reporters as it counts. Each has a message in the
certificate that still reports the value, or that has left its checkpoint
behind. -/
def Counted (P : MetaDataD → Prop) (last : ℕ → Option MetaDataD) (v : PartVal) : Prop :=
  ∃ S : Finset ℕ, v.count ≤ S.card ∧ ∀ s ∈ S, (∃ m, P m ∧ m.id = s ∧ Reports m v) ∧
    ∃ m, last s = some m ∧ (Reports m v ∨ v.c + checkpointInterval ≤ m.lastCheckpoint)

/-- `f+1` replicas reported the value. -/
def Certified (P : MetaDataD → Prop) (N : Node) (c : ℤ) (d : Digest) : Prop :=
  ∃ S : Finset ℕ, N.f + 1 ≤ S.card ∧ ∀ s ∈ S, ∃ m, P m ∧ m.id = s ∧ m.digest c = some d

/-- What the certificate holds, when the messages added to it satisfy `P`. -/
structure Backed (P : MetaDataD → Prop) (N : Node) (cert : MetaDataCert) : Prop where
  last : ∀ s m, cert.last_mdds s = some m →
    m.id = s ∧ P m ∧ (s ≠ N.id → m.Aligned ∧ m.n_digests ≤ 2)
  mine : cert.has_my_message = false → cert.last_mdds N.id = none
  vals : ∀ v ∈ cert.vals, Counted P cert.last_mdds v
  certified : 0 ≤ cert.c → Certified P N cert.c cert.d

theorem backed_clear (P : MetaDataD → Prop) (N : Node) (cert : MetaDataCert) :
    Backed P N cert.clear where
  last _ _ h := by cases h
  mine _ := rfl
  vals v hv := absurd hv not_mem_nil
  certified h := absurd h (by decide : ¬ (0 : ℤ) ≤ -1)

theorem Backed.mono {P P' : MetaDataD → Prop} {N : Node} {cert : MetaDataCert}
    (h : Backed P N cert) (hP : ∀ m, P m → P' m) : Backed P' N cert where
  last s m hm := (h.last s m hm).imp_right fun hm => ⟨hP m hm.1, hm.2⟩
  mine := h.mine
  vals v hv := by
    obtain ⟨S, hcard, hS⟩ := h.vals v hv
    refine ⟨S, hcard, fun s hs => (hS s hs).imp_left fun ⟨m, hm, hrep⟩ => ⟨m, hP m hm, hrep⟩⟩
  certified hc := by
    obtain ⟨S, hcard, hS⟩ := h.certified hc
    exact ⟨S, hcard, fun s hs => (hS s hs).imp fun m hm => ⟨hP m hm.1, hm.2⟩⟩

section Add

variable {P : MetaDataD → Prop} {N : Node} {last : ℕ → Option MetaDataD} {m : MetaDataD}

/-- The message is the first of its replica, or follows on an aligned one. -/
def Follows (last : ℕ → Option MetaDataD) (m : MetaDataD) : Prop :=
  ∀ m', last m.id = some m' → (m'.Aligned ∧ m.Aligned ∧ m.n_digests ≤ 2) ∧
    m'.lastCheckpoint < m.lastCheckpoint

/-- The last checkpoints are `checkpoint_interval` apart. -/
theorem lastCheckpoint_add_le {m' : MetaDataD} (ha' : m'.Aligned) (ha : m.Aligned)
    (h : m'.lastCheckpoint < m.lastCheckpoint) :
    m'.lastCheckpoint + checkpointInterval ≤ m.lastCheckpoint := by
  rw [MetaDataD.Aligned] at ha ha'
  simp only [MetaDataD.lastCheckpoint, checkpointInterval] at *
  omega

variable {v : PartVal}

theorem Counted.pass (h : Counted P last v) (hm : Follows last m) :
    Counted P (update last m.id (some m)) v := by
  obtain ⟨S, hcard, hS⟩ := h
  refine ⟨S, hcard, fun s hs => ?_⟩
  obtain ⟨hreported, m', hm', hstill⟩ := hS s hs
  refine ⟨hreported, ?_⟩
  by_cases hself : s = m.id
  · subst hself
    obtain ⟨⟨ha', ha, -⟩, hlt⟩ := hm m' hm'
    refine ⟨m, update_self _ _ _, .inr ?_⟩
    rcases hstill with hrep | hpassed
    · exact (add_le_add_left (MetaDataD.le_lastCheckpoint ha' hrep) _).trans
        (lastCheckpoint_add_le ha' ha hlt)
    · exact hpassed.trans hlt.le
  · exact ⟨m', (update_of_ne hself _ _).trans hm', hstill⟩

theorem recount_c (om : Option MetaDataD) (m : MetaDataD) (v : PartVal) :
    (recount om m v).c = v.c ∧ (recount om m v).d = v.d := by
  rw [recount]
  split <;> split <;> exact ⟨rfl, rfl⟩

theorem recount_count (om : Option MetaDataD) (m : MetaDataD) (v : PartVal) :
    (recount om m v).count =
      (if ∃ m' ∈ om, Reports m' v then v.count - 1 else v.count) +
        if Reports m v then 1 else 0 := by
  rw [recount]
  split <;> split <;> simp_all [Reports]

theorem Counted.recount (h : Counted P last v) (hm : Follows last m) (hP : P m) :
    Counted P (update last m.id (some m)) (recount (last m.id) m v) := by
  obtain ⟨S, hcard, hS⟩ := h
  -- what is left of the reporters when the old message is taken back
  obtain ⟨S₀, hsub, hcard₀, hself⟩ : ∃ S₀ ⊆ S,
      (if ∃ m' ∈ last m.id, Reports m' v then v.count - 1 else v.count) ≤ S₀.card ∧
      (m.id ∈ S₀ → ∃ m', last m.id = some m' ∧ v.c + checkpointInterval ≤ m'.lastCheckpoint) := by
    split
    · refine ⟨S.erase m.id, Finset.erase_subset _ _, ?_, fun hmem => ?_⟩
      · have hpred := Finset.pred_card_le_card_erase (s := S) (a := m.id)
        omega
      · exact absurd hmem (Finset.notMem_erase _ _)
    · next hnone =>
      refine ⟨S, subset_rfl, hcard, fun hmem => ?_⟩
      obtain ⟨-, m', hm', hstill⟩ := hS _ hmem
      exact ⟨m', hm', hstill.resolve_left fun hrep => hnone ⟨m', hm', hrep⟩⟩
  obtain ⟨hc, hd⟩ := recount_c (last m.id) m v
  have hreports : ∀ m', Reports m' (MetaDataCert.recount (last m.id) m v) ↔ Reports m' v := by
    intro m'
    rw [Reports, Reports, hc, hd]
  have hothers : ∀ s ∈ S₀, s ≠ m.id → (∃ m, P m ∧ m.id = s ∧ Reports m v) ∧
      ∃ m', update last m.id (some m) s = some m' ∧
        (Reports m' v ∨ v.c + checkpointInterval ≤ m'.lastCheckpoint) := by
    intro s hs hne
    rw [update_of_ne hne]
    exact hS s (hsub hs)
  by_cases hrep : Reports m v
  · -- the replica was not among them: its message has not left the checkpoint behind
    have hnot : m.id ∉ S₀ := by
      intro hmem
      obtain ⟨m', hm', hpassed⟩ := hself hmem
      obtain ⟨⟨-, -, htwo⟩, hlt⟩ := hm m' hm'
      exact absurd (MetaDataD.of_digest hrep).2.1
        (not_le.2 (MetaDataD.lt_ls_of_passed htwo (hpassed.trans_lt hlt)))
    refine ⟨insert m.id S₀, ?_, fun s hs => ?_⟩
    · rw [recount_count, if_pos hrep, Finset.card_insert_of_notMem hnot]
      push_cast
      omega
    · simp only [hreports, hc]
      rcases Finset.mem_insert.1 hs with rfl | hs
      · exact ⟨⟨m, hP, rfl, hrep⟩, m, update_self _ _ _, .inl hrep⟩
      · exact hothers s hs fun heq => hnot (heq ▸ hs)
  · refine ⟨S₀, ?_, fun s hs => ?_⟩
    · rw [recount_count, if_neg hrep, add_zero]
      exact hcard₀
    · simp only [hreports, hc]
      by_cases heq : s = m.id
      · subst heq
        obtain ⟨m', hm', hpassed⟩ := hself hs
        exact ⟨(hS _ (hsub hs)).1, m, update_self _ _ _,
          .inr (hpassed.trans (hm m' hm').2.le)⟩
      · exact hothers s hs heq

/-- Closing the gap leaves out values, and no more. -/
theorem mem_closeGap {ls : ℤ} {pre later : List PartVal} :
    (v ∈ (closeGap ls pre later).1 → v ∈ pre ∨ v ∈ later) ∧
      (v ∈ (closeGap ls pre later).2 → v ∈ later) := by
  induction later with
  | nil =>
    rw [closeGap]
    split
    · exact ⟨fun h => absurd h not_mem_nil, fun h => absurd h not_mem_nil⟩
    · exact ⟨.inl, fun h => absurd h not_mem_nil⟩
  | cons w later ih =>
    rw [closeGap]
    split
    · exact ⟨fun h => (ih.1 h).imp_right (mem_cons_of_mem w),
        fun h => mem_cons_of_mem w (ih.2 h)⟩
    · refine ⟨fun h => ?_, fun h => mem_cons_of_mem w (mem_reverse.1 h)⟩
      rcases mem_append.1 h with hpre | hw
      · exact .inl hpre
      · exact .inr (mem_singleton.1 hw ▸ mem_cons_self)

/-- What holds in the loop. -/
structure Scanned (P : MetaDataD → Prop) (N : Node) (last : ℕ → Option MetaDataD) (m : MetaDataD)
    (st : Scan) : Prop where
  pre : ∀ v ∈ st.pre, Counted P (update last m.id (some m)) v
  rest : ∀ v ∈ st.rest, Counted P last v
  certified : 0 ≤ st.c → Certified P N st.c st.d

theorem Scanned.scanStep {ls : ℤ} {st : Scan} (h : Scanned P N last m st) (hm : Follows last m)
    (hP : P m) : Scanned P N last m (scanStep N ls (last m.id) m st) := by
  obtain ⟨pre, rest, matched, c, d⟩ := st
  cases rest with
  | nil => exact h
  | cons v tl =>
    have hv := (h.rest v mem_cons_self).recount hm hP
    have htl : ∀ w ∈ tl, Counted P last w := fun w hw => h.rest w (mem_cons_of_mem v hw)
    have hpre : ∀ w ∈ pre ++ [MetaDataCert.recount (last m.id) m v],
        Counted P (update last m.id (some m)) w := by
      intro w hw
      rcases mem_concat_iff.1 hw with hw | rfl
      · exact h.pre w hw
      · exact hv
    rw [MetaDataCert.scanStep]
    dsimp only
    split
    · -- the values that stay are some of those there
      refine ⟨fun w hw => ?_, fun w hw => ?_, h.certified⟩
      · rcases mem_closeGap.1 hw with hpre | hlater
        · exact h.pre w hpre
        · exact (htl w (mem_reverse.1 hlater)).pass hm
      · exact htl w (mem_reverse.1 (mem_closeGap.2 hw))
    · split
      · next hc =>
        refine ⟨hpre, htl, fun _ => ?_⟩
        obtain ⟨S, hcard, hS⟩ := hv
        exact ⟨S, by omega, fun s hs => (hS s hs).1⟩
      · exact ⟨hpre, htl, h.certified⟩

/-- The values that the message brings. -/
theorem counted_newVals (hP : P m) (matched : List ℤ) (hv : v ∈ newVals m matched) :
    Counted P (update last m.id (some m)) v := by
  obtain ⟨k, -, hk⟩ := mem_filterMap.1 hv
  split at hk
  · cases hk
  · obtain ⟨d, hd, rfl⟩ := Option.map_eq_some_iff.1 hk
    refine ⟨{m.id}, le_rfl, fun s hs => ?_⟩
    obtain rfl := Finset.mem_singleton.1 hs
    exact ⟨⟨m, hP, rfl, hd⟩, m, update_self _ _ _, .inl hd⟩

variable {cert : MetaDataCert}

theorem Backed.take (h : Backed P N cert) (hP : P m)
    (hm : Follows cert.last_mdds m) (hid : m.id ≠ N.id → m.Aligned ∧ m.n_digests ≤ 2)
    {has : Bool} (hhas : has = false → cert.has_my_message = false ∧ m.id ≠ N.id) :
    let st := (scanStep N 0 (cert.last_mdds m.id) m)^[cert.vals.length]
      ⟨[], cert.vals, [], cert.c, cert.d⟩
    Backed P N
      { last_mdds := update cert.last_mdds m.id (some m)
        vals := st.pre ++ st.rest ++ newVals m st.matched
        c := st.c
        d := st.d
        has_my_message := has } := by
  have hscan : ∀ k, Scanned P N cert.last_mdds m
      ((scanStep N 0 (cert.last_mdds m.id) m)^[k] ⟨[], cert.vals, [], cert.c, cert.d⟩) := by
    intro k
    induction k with
    | zero => exact ⟨fun v hv => absurd hv not_mem_nil, h.vals, h.certified⟩
    | succ k ih =>
      rw [iterate_succ_apply']
      exact ih.scanStep hm hP
  have hdone := hscan cert.vals.length
  refine ⟨Entries.forall_write h.last ⟨rfl, hP, hid⟩, fun hno => ?_, fun v hv => ?_,
    hdone.certified⟩
  · obtain ⟨hno', hne⟩ := hhas hno
    exact (update_of_ne hne.symm _ _).trans (h.mine hno')
  · rcases mem_append.1 hv with hv | hv
    · rcases mem_append.1 hv with hv | hv
      · exact hdone.pre v hv
      · exact (hdone.rest v hv).pass hm
    · exact counted_newVals hP _ hv

/-- **A certificate counts everyone once**, as long as the messages of
others have their first checkpoint at a multiple of `checkpoint_interval`. -/
theorem Backed.add (h : Backed P N cert)
    (hm : m.verify N = true → P m ∧ m.Aligned) : Backed P N (cert.add N m false).1 := by
  rw [MetaDataCert.add, addAt]
  simp only [Bool.false_eq_true, if_false, Bool.false_or]
  split
  · next hverify =>
    obtain ⟨hP, ha⟩ := hm hverify
    obtain ⟨⟨-, hne⟩, hls, -, ⟨-, htwo⟩, -⟩ := MetaDataD.verify_iff.1 hverify
    split
    · exact h
    · next hlast =>
      rw [if_neg (not_lt.2 hls)]
      refine h.take hP (fun m' hm' => ?_) (fun _ => ⟨ha, htwo⟩) fun hno => ⟨hno, hne.symm⟩
      have ha' := ((h.last _ m' hm').2.2 hne.symm).1
      exact ⟨⟨ha', ha, htwo⟩, not_le.1 fun hle => hlast ⟨m', hm', hle⟩⟩
  · exact h

theorem Backed.add_mine (h : Backed P N cert) (hP : P m) (hid : m.id = N.id)
    (hno : cert.has_my_message = false) : Backed P N (cert.add N m true).1 := by
  have hnone : cert.last_mdds m.id = none := hid ▸ h.mine hno
  have htrue : ¬ true = false := by decide
  rw [MetaDataCert.add, addAt]
  simp only [if_true, Bool.true_or, hnone, Option.mem_def, reduceCtorEq, false_and, exists_false,
    if_false]
  split
  · rw [← hnone, update_eq_self]
    exact ⟨h.last, fun hf => absurd hf htrue, h.vals, h.certified⟩
  · have htake := h.take hP (fun m' hm' => by rw [hnone] at hm'; cases hm')
      (fun hne => absurd hid hne) (fun hf => absurd hf htrue)
    rw [hnone] at htake
    exact htake

theorem verify_of_add (h : (cert.add N m false).2 = true) : m.verify N = true := by
  rw [MetaDataCert.add, addAt] at h
  split at h
  · assumption
  · cases h

end Add

end MetaDataCert

end AbstractBFT.Pbft
