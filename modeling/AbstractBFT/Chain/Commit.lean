import AbstractBFT.Chain.Order
import Mathlib.Data.Finset.Max
/-!
# Chain — committed requests

The replicas and the clients of one activation. With at most `f` faulty
replicas and MACs no one forges, a correct replica executes what every
correct replica before it executed, in the same order
(`SysInv.order_le`); and a reply whose MACs verify was sent by the last
correct replica, so that its request stands at one place in the sequence
every correct replica executed (`SysInv.committed`).
-/

namespace AbstractBFT.Chain

open Function List

variable {S : Type} {N : RNode S}

/-- A prefix followed by the next element is a prefix. -/
theorem concat_prefix {α : Type*} {l l' : List α} {a : α} (h : l <+: l')
    (ha : l'[l.length]? = some a) : l ++ [a] <+: l' := by
  obtain ⟨t, rfl⟩ := h
  cases t with
  | nil => simp at ha
  | cons b t =>
    obtain rfl : b = a := by simpa using ha
    exact ⟨t, by simp⟩

/-- The replicas, and the requests whose reply a correct client
accepted. -/
structure CSystem (N : RNode S) where
  replicas : ℕ → CReplica N
  accepted : List (ℤ × ℕ)

/-- A correct replica moves, or a correct client looks through its
queue. -/
inductive SysEvent where
  | replica (k : ℕ) (e : CReplica.CEvent)
  | client (c : CClient) (rid : ℕ) (queue : List CMessage)

namespace CSystem

/-- Every replica starts with the service in the same state. -/
def init (N : RNode S) (service : S) : CSystem N where
  replicas := fun _ => CReplica.init N service
  accepted := []

def step (s : CSystem N) : SysEvent → CSystem N
  | .replica k e => { s with replicas := update s.replicas k ((s.replicas k).step k e) }
  | .client c rid queue =>
    match (c.recvReply N.toCNode rid queue).2 with
    | .ret r =>
      if r.rep.should_switch then s else { s with accepted := s.accepted ++ [(c.id, c.out_rid)] }
    | _ => s

/-- The headers of the requests replica `k` executed. -/
def headers (s : CSystem N) (k : ℕ) : List CRequestRep :=
  (s.replicas k).executed.map CRequest.rep

end CSystem

/-- The replica is one of the `n` and not faulty. -/
def Correct (N : RNode S) (byz : Finset ℕ) (k : ℕ) : Prop := k < N.n ∧ k ∉ byz
  deriving Decidable

/-- **The MACs of correct replicas are not forged** in what this event
looks at: a MAC that verifies under a correct replica's key over a header
is one that replica made. Only correct replicas and clients make
events. -/
def MacsUnforged (byz : Finset ℕ) (s : CSystem N) : SysEvent → Prop
  | .replica k e =>
    Correct N byz k ∧ ∀ req ∈ (s.replicas k).processed e, ∀ p < k, p ∉ byz →
      HasMac N.toCNode p k (.request req.rep) req.auth →
        ((k : ℤ), .request req.rep) ∈ (s.replicas p).macs
  | .client c _ queue =>
    ∀ r, .reply r ∈ queue → ∀ j ≤ N.f, 2 * N.f + j ∉ byz →
      N.umac (key (2 * N.f + j) c.id) (.reply r.rep) (r.macs (2 * j)) = r.macs (2 * j + 1) →
        (c.id, .reply r.rep) ∈ (s.replicas (2 * N.f + j)).macs

/-- **What an event must meet to keep the order**: the replica's move is
`Drained` and `OrderOk`; the reply a client takes carries the MACs of the
last `f+1` replicas. -/
def CSystem.OrderOk (s : CSystem N) : SysEvent → Prop
  | .replica k e => CReplica.Drained k (s.replicas k) e ∧ (s.replicas k).OrderOk k e
  | .client c _ queue =>
    ∀ r ∈ queue.findSome? (c.taken N.toCNode), r.rep.should_switch = false →
      MacsVerified N.toCNode c.id r

instance (s : CSystem N) (e : SysEvent) : Decidable (s.OrderOk e) := by
  cases e <;> dsimp only [CSystem.OrderOk] <;> infer_instance

/-- **What every state of a run keeps.** -/
structure SysInv (byz : Finset ℕ) (s : CSystem N) : Prop where
  log : ∀ k, Correct N byz k → LogInv N k (s.replicas k).logState
  exec : ∀ k, Correct N byz k → ExecInv (s.replicas k)
  order : ∀ p k, Correct N byz p → Correct N byz k → p < k → k ≤ p + (N.f + 1) →
    s.headers k <+: s.headers p
  accepted : ∀ a ∈ s.accepted, ∀ p, Correct N byz p → 2 * N.f ≤ p →
    ∃ q ∈ (s.replicas p).executed, q.rep.cid = a.1 ∧ q.rep.rid = a.2

namespace SysInv

variable {byz : Finset ℕ} {s : CSystem N}

theorem init (byz : Finset ℕ) (service : S) : SysInv byz (CSystem.init N service) where
  log := fun _ _ => LogInv.init service
  exec := fun _ _ => ExecInv.init service
  order := fun _ _ _ _ _ _ => prefix_rfl
  accepted := by
    intro a ha
    simp [CSystem.init] at ha

variable {k p : ℕ} {e : CReplica.CEvent}

/-- **A request the replica verifies was executed before it**, at the
same place, by every correct replica within `f+1` hops. -/
theorem executed_before (h : SysInv byz s) {req : CRequest}
    (hunf : MacsUnforged byz s (.replica k e)) (hok : (s.replicas k).OrderOk k e)
    (hproc : req ∈ (s.replicas k).processed e) (hver : (req.verify N.toCNode k).isSome)
    (hp : Correct N byz p) (hlt : p < k) (hle : k ≤ p + (N.f + 1)) :
    (s.headers p)[req.rep.seq_num - 1]? = some req.rep := by
  obtain ⟨⟨req', off⟩, hver⟩ := Option.isSome_iff_exists.1 hver
  have hclient : (p : ℤ) ≠ req.rep.cid := by
    intro heq
    have := hok.client req hproc
    have hpn := hp.1
    simp only [CNode.isReplica, ← heq, Bool.and_eq_false_iff, decide_eq_false_iff_not] at this
    omega
  have hmac := (CRequest.verify_sound hver).2 p hlt hle hclient
  obtain ⟨q, hq, hqrep⟩ := (h.exec p hp).macs_request _ _ (hunf.2 req hproc p hlt hp.2 hmac)
  obtain ⟨i, hi⟩ := getElem?_of_mem hq
  have hnum : q.rep.seq_num = i + 1 := (h.log p hp).numbered i q hi
  unfold CSystem.headers
  rw [← hqrep, hnum, Nat.add_sub_cancel, getElem?_map, hi]
  rfl

theorem order_replica (h : SysInv byz s) {k₀ : ℕ} (hunf : MacsUnforged byz s (.replica k₀ e))
    (hok : s.OrderOk (.replica k₀ e)) (hp : Correct N byz p) (hk : Correct N byz k) (hlt : p < k)
    (hle : k ≤ p + (N.f + 1)) :
    (s.step (.replica k₀ e)).headers k <+: (s.step (.replica k₀ e)).headers p := by
  have hself : (s.step (.replica k₀ e)).headers k₀ =
      ((s.replicas k₀).step k₀ e).executed.map CRequest.rep := by
    simp [CSystem.headers, CSystem.step]
  have hother : ∀ j, j ≠ k₀ → (s.step (.replica k₀ e)).headers j = s.headers j := by
    intro j hj
    simp [CSystem.headers, CSystem.step, update_of_ne hj]
  have hord := h.order p k hp hk hlt hle
  have hlog := (h.log k₀ hunf.1).steps
    (CReplica.step_sim (P := fun _ _ => True) hok.1 fun _ _ => trivial)
  rcases CReplica.executed_step (h.exec k₀ hunf.1).idle hok.2 with hsame | hgrow
  · -- nothing was executed
    have hall : ∀ j, (s.step (.replica k₀ e)).headers j = s.headers j := by
      intro j
      by_cases hj : j = k₀
      · rw [hj, hself, hsame]
        rfl
      · exact hother j hj
    rw [hall, hall]
    exact hord
  obtain ⟨-, req, hproc, hver, q, hq, hexec⟩ := hgrow
  have hnew : (s.step (.replica k₀ e)).headers k₀ = s.headers k₀ ++ [q.rep] := by
    rw [hself, hexec, map_append]
    rfl
  by_cases hkk : k = k₀
  · -- the later replica executes: the earlier one did so before
    subst hkk
    rw [hnew, hother p (by omega)]
    refine concat_prefix hord ?_
    have hseq : q.rep.seq_num = (s.headers k).length + 1 := by
      have hget : ((s.replicas k).step k e).executed[(s.replicas k).executed.length]? = some q := by
        rw [hexec]
        simp
      have := hlog.numbered _ _ hget
      rw [CSystem.headers, length_map]
      exact this
    have hbefore := h.executed_before hunf hok.2 hproc hver hp hlt hle
    rw [← hq (by omega), hseq, Nat.add_sub_cancel] at hbefore
    exact hbefore
  rw [hother k hkk]
  by_cases hpk : p = k₀
  · subst hpk
    rw [hnew]
    exact hord.trans (prefix_append _ _)
  · rw [hother p hpk]
    exact hord

/-- **The reply a correct client accepts was sent by the correct ones of
the last `f+1` replicas.** -/
theorem executed_of_recvReply (h : SysInv byz s) {c : CClient} {rid : ℕ} {queue : List CMessage}
    {r : CReply} (hunf : MacsUnforged byz s (.client c rid queue))
    (hok : s.OrderOk (.client c rid queue)) (hret : (c.recvReply N.toCNode rid queue).2 = .ret r)
    (hsw : r.rep.should_switch = false) (hp : Correct N byz p) (hle : 2 * N.f ≤ p) :
    ∃ q ∈ (s.replicas p).executed, q.rep.cid = c.id ∧ q.rep.rid = c.out_rid := by
  have hmacs := hok r (CClient.findSome?_of_recvReply hret) hsw
  obtain ⟨hmem, hrid⟩ := CClient.mem_of_recvReply hret
  have hn : N.n = 3 * N.f + 1 := rfl
  have hpn := hp.1
  obtain ⟨j, rfl⟩ := Nat.exists_eq_add_of_le hle
  have hj : j ≤ N.f := by omega
  have hvouched := hunf r hmem j hj hp.2 (hmacs j hj)
  obtain ⟨q, hq, hcid, hqrid⟩ := (h.exec _ hp).macs_reply _ _ hvouched
  exact ⟨q, hq, hcid, hqrid.trans (hrid hsw)⟩

theorem step (h : SysInv byz s) {e : SysEvent} (hunf : MacsUnforged byz s e)
    (hok : s.OrderOk e) : SysInv byz (s.step e) := by
  cases e with
  | replica k₀ e =>
    have hlog₀ := (h.log k₀ hunf.1).steps
      (CReplica.step_sim (P := fun _ _ => True) hok.1 fun _ _ => trivial)
    refine ⟨fun k hk => ?_, fun k hk => ?_, fun p k hp hk hlt hle => ?_, fun a ha p hp hle => ?_⟩
    · by_cases hkk : k = k₀
      · subst hkk
        simpa [CSystem.step] using hlog₀
      · simpa [CSystem.step, update_of_ne hkk] using h.log k hk
    · by_cases hkk : k = k₀
      · subst hkk
        simpa [CSystem.step] using (h.exec k hk).step hok.2
      · simpa [CSystem.step, update_of_ne hkk] using h.exec k hk
    · exact h.order_replica hunf hok hp hk hlt hle
    · obtain ⟨q, hq, hids⟩ := h.accepted a ha p hp hle
      refine ⟨q, ?_, hids⟩
      by_cases hpk : p = k₀
      · subst hpk
        have hmem := (CReplica.prefix_executed_step (h.exec p hp).idle hok.2).subset hq
        simpa [CSystem.step] using hmem
      · simpa [CSystem.step, update_of_ne hpk] using hq
  | client c rid queue =>
    rw [CSystem.step]
    split
    · next r hret =>
      split
      · exact h
      · next hsw =>
        refine ⟨h.log, h.exec, h.order, fun a ha p hp hle => ?_⟩
        rcases mem_concat_iff.1 ha with ha | rfl
        · exact h.accepted a ha p hp hle
        · exact h.executed_of_recvReply hunf hok hret (by simpa using hsw) hp hle
    · exact h

/-! ## The committed sequence -/

/-- **The order along the whole chain**: what a correct replica executed,
every correct replica before it executed, in the same order. -/
theorem order_le (h : SysInv byz s) (hbyz : byz.card ≤ N.f) (hp : Correct N byz p)
    (hk : Correct N byz k) (hle : p ≤ k) : s.headers k <+: s.headers p := by
  -- by induction on the distance, through a correct replica close to `k`
  induction hd : k - p using Nat.strong_induction_on generalizing k with
  | _ d ih =>
    rcases Nat.eq_or_lt_of_le hle with rfl | hlt
    · exact prefix_rfl
    rcases Nat.lt_or_ge (p + (N.f + 1)) k with hfar | hnear
    swap
    · exact h.order p k hp hk hlt hnear
    obtain ⟨m, hm, hmb⟩ := Quorum.exists_correct_of_card (S := Finset.Ico (k - (N.f + 1)) k) hbyz
      (by rw [Nat.card_Ico]; omega)
    rw [Finset.mem_Ico] at hm
    have hmc : Correct N byz m := ⟨hm.2.trans hk.1, hmb⟩
    have hkm := h.order m k hmc hk hm.2 (by omega)
    exact hkm.trans (ih (m - p) (by omega) hmc (by omega) rfl)

/-- The last correct replica is among the last `f+1`. -/
theorem exists_last (hbyz : byz.card ≤ N.f) :
    ∃ k, Correct N byz k ∧ 2 * N.f ≤ k ∧ ∀ p, Correct N byz p → p ≤ k := by
  have hn : N.n = 3 * N.f + 1 := rfl
  obtain ⟨m, hm, hmb⟩ := Quorum.exists_correct_of_card (S := Finset.Ico (2 * N.f) N.n) hbyz
    (by rw [Nat.card_Ico]; omega)
  rw [Finset.mem_Ico] at hm
  obtain ⟨k, hk, hmax⟩ := Finset.exists_max_image ((Finset.range N.n).filter (· ∉ byz)) (fun i => i)
    ⟨m, by simp [hm.2, hmb]⟩
  simp only [Finset.mem_filter, Finset.mem_range] at hk hmax
  exact ⟨k, hk, hm.1.trans (hmax m ⟨hm.2, hmb⟩), fun p hp => hmax p hp⟩

/-- **A request whose reply was accepted is committed**: it stands at one
place in a sequence every correct replica executed. -/
theorem committed (h : SysInv byz s) (hbyz : byz.card ≤ N.f) :
    ∃ R : List CRequest, (∀ k, Correct N byz k → R.map CRequest.rep <+: s.headers k) ∧
      ∀ a ∈ s.accepted, ∃ q ∈ R, q.rep.cid = a.1 ∧ q.rep.rid = a.2 := by
  obtain ⟨k, hk, hge, hlast⟩ := exists_last (N := N) hbyz
  exact ⟨(s.replicas k).executed, fun p hp => h.order_le hbyz hp hk (hlast p hp),
    fun a ha => h.accepted a ha k hk hge⟩

end SysInv

end AbstractBFT.Chain
