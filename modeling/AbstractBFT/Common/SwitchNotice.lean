import AbstractBFT.Chain.Client
import AbstractBFT.Quorum.Client
/-!
# Switch notices

A replica that has stopped answers with a reply marked `should_switch`, and
the client moves on to the instance the reply names. Neither client checks
such a reply as it checks others. A Quorum client looks at the request
identifier and not at the MAC; a Chain client calls `verify`, drops the
answer, and does not look at the identifier either.
`switch_authenticated_iff` says for both which deliveries are harmless.
-/

namespace AbstractBFT

open Machine List

/-! ## The Quorum client -/

namespace Quorum

namespace QReply

/-- The reply names a replica, and carries that replica's MAC over its
header. -/
def MacValid (N : QNode) (m : QReply) : Prop :=
  let rep_size := if m.full then m.rep.reply_size.toNat else 0
  N.isReplica m.id ∧
    m.bytes (rep_size + umacSize) umacSize = N.umac m.id m.rep (m.bytes rep_size umacSize)
  deriving Decidable

end QReply

/-- Every notice the client switched on carries a replica's MAC and names
the request that was outstanding. -/
def SwitchesAuthentic (N : QNode) (w : QWorld) : Prop :=
  ∀ p ∈ w.returned, p.2.rep.should_switch → p.2.rep.rid = p.1 ∧ p.2.MacValid N

/-- **The condition on a delivery**: a notice for the outstanding request
that the loop reads carries a replica's MAC. -/
def NoticeGenuine (N : QNode) (w : QWorld) : QEvent → Prop
  | .deliver (.reply m) _ => w.client.out_req → w.client.bail_out = false →
      m.rep.rid = w.client.out_rid → m.rep.should_switch → m.MacValid N
  | _ => True

/-- The certificate holds no notice. -/
def Counted (w : QWorld) : Prop := ∀ v ∈ w.client.r_reps.value, v.rep.should_switch = false

theorem QCertificate.newValue_cases (value : Option QReply) (m : QReply) :
    QCertificate.newValue value m = m ∨ value = some (QCertificate.newValue value m) := by
  cases value with
  | none => exact Or.inl rfl
  | some v =>
    unfold QCertificate.newValue
    dsimp only
    split
    · exact Or.inl rfl
    · exact Or.inr rfl

variable {N : QNode} {c : QClient} {m : QReply}

/-- **The loop on a notice**: it is returned, if it is for the outstanding
request and the client is not bailing out. -/
theorem QClient.recvIter_notice (now : ℕ) (hsw : m.rep.should_switch) (hbail : c.bail_out = false)
    (hrid : m.rep.rid = c.out_rid) : (c.recvIter N (.reply m) now).2 = .ret (some m) := by
  unfold recvIter
  dsimp only
  rw [hbail, if_neg nofun, if_neg (not_not.2 hrid), if_pos hsw]

/-- **What the loop returns and counts**: the reply just read, or what the
certificate held; a notice is returned only as the reply just read, and not
counted. -/
theorem QClient.recvIter_from (now : ℕ) :
    (∀ r, (c.recvIter N (.reply m) now).2 = .ret (some r) →
      r = m ∧ m.rep.rid = c.out_rid ∧ c.bail_out = false ∨
        m.rep.should_switch = false ∧ c.r_reps.value = some r) ∧
    ∀ v ∈ (c.recvIter N (.reply m) now).1.r_reps.value,
      c.r_reps.value = some v ∨ v = m ∧ m.rep.should_switch = false := by
  unfold recvIter
  dsimp only
  split
  · exact ⟨nofun, nofun⟩
  rename_i hbail
  rw [Bool.not_eq_true] at hbail
  split
  · exact ⟨nofun, fun v hv => Or.inl hv⟩
  rename_i hrid
  rw [not_not] at hrid
  split
  · exact ⟨fun r hr => Or.inl ⟨by cases hr; rfl, hrid, hbail⟩, nofun⟩
  rename_i hsw
  rw [Bool.not_eq_true] at hsw
  split
  · exact ⟨nofun, fun v hv => Or.inl hv⟩
  rename_i r_reps hadd
  -- the new value is the reply just counted, or the value before it
  have hvalue : ∀ v, r_reps.value = some v → c.r_reps.value = some v ∨ v = m := by
    intro v hv
    obtain ⟨-, -, -, rfl⟩ := CertInv.add_cases hadd
    obtain rfl := Option.some.inj hv
    exact (QCertificate.newValue_cases c.r_reps.value m).symm
  have hcounted : ∀ v, r_reps.value = some v →
      c.r_reps.value = some v ∨ v = m ∧ m.rep.should_switch = false :=
    fun v hv => (hvalue v hv).imp_right fun hm => ⟨hm, hsw⟩
  split
  · split
    · rename_i r hr
      split
      · refine ⟨fun r' hr' => ?_, nofun⟩
        cases hr'
        rcases hvalue r hr with hold | hm
        · exact Or.inr ⟨hsw, hold⟩
        · exact Or.inl ⟨hm, hrid, hbail⟩
      · exact ⟨nofun, hcounted⟩
    · exact ⟨nofun, hcounted⟩
  · exact ⟨nofun, hcounted⟩

namespace Counted

variable {N : QNode} {w : QWorld}

theorem init (N : QNode) (rid : ℕ) : Counted (QWorld.init N rid) := by
  intro v hv
  cases hv

theorem step (h : Counted w) (e : QEvent) : Counted (w.step N e) := by
  cases e with
  | send =>
    simp only [QWorld.step, QClient.sendRequest]
    split
    · exact h
    · intro v hv
      cases hv
  | timeout =>
    simp only [QWorld.step, QClient.retransmit]
    split
    · exact h
    split
    · split
      · intro v hv
        cases hv
      · exact h
    · exact h
  | deliver m now =>
    simp only [QWorld.step, QWorld.deliver]
    split
    swap
    · exact h
    cases m with
    | other => exact h
    | reply m =>
      intro v hv
      rcases (QClient.recvIter_from now).2 v hv with hold | ⟨rfl, hsw⟩
      · exact h v hold
      · exact hsw

/-- **What a step returns stays authentic exactly if the delivery meets the
condition.** -/
theorem authentic_iff (h : Counted w) (e : QEvent) :
    SwitchesAuthentic N (w.step N e) ↔ SwitchesAuthentic N w ∧ NoticeGenuine N w e := by
  cases e with
  | send => exact (and_iff_left trivial).symm
  | timeout => exact (and_iff_left trivial).symm
  | deliver m now =>
    cases m with
    | other =>
      simp only [QWorld.step, QWorld.deliver, QClient.recvIter, NoticeGenuine, and_true]
      split <;> rfl
    | reply m =>
      simp only [QWorld.step, QWorld.deliver, NoticeGenuine]
      split
      swap
      · rename_i hout
        exact ⟨fun hw => ⟨hw, fun hout' => absurd hout' hout⟩, fun hw => hw.1⟩
      rename_i hout
      unfold SwitchesAuthentic
      split
      · rename_i r hr
        rw [forall_mem_append, forall_mem_singleton]
        refine and_congr_right fun _ => ?_
        rcases (QClient.recvIter_from now).1 r hr with ⟨rfl, hrid, hbail⟩ | ⟨hsw, hold⟩
        · exact ⟨fun hr _ _ _ hsw => (hr hsw).2, fun hr hsw => ⟨hrid, hr hout hbail hrid hsw⟩⟩
        · rw [hsw, h r hold]
          exact ⟨fun _ _ _ _ hno => absurd hno Bool.false_ne_true,
            fun _ hno => absurd hno Bool.false_ne_true⟩
      · rename_i hnone
        refine ⟨fun hw => ⟨hw, fun _ hbail hrid hsw => ?_⟩, fun hw => hw.1⟩
        exact absurd (QClient.recvIter_notice now hsw hbail hrid) (hnone m)

end Counted

end Quorum

/-! ## The Chain client -/

namespace Chain

/-- One of the reply's MACs is that of a replica over its header. -/
def CReply.MacValid (N : CNode) (me : ℤ) (r : CReply) : Prop :=
  ∃ p < N.n, ∃ j ≤ N.f, N.umac (key p me) (.reply r.rep) (r.macs (2 * j)) = r.macs (2 * j + 1)

instance (N : CNode) (me : ℤ) (r : CReply) : Decidable (r.MacValid N me) :=
  inferInstanceAs (Decidable (∃ p < N.n, ∃ j ≤ N.f, _))

/-- The client, and the replies it handed to the caller with the request
that was outstanding. -/
structure CWorld where
  client : CClient
  returned : List (ℕ × CReply)

/-- What can happen at a client: `send_request`, or the loop of
`recv_reply` takes a message; `rid` is what `new_rid` would hand out. -/
inductive CEvent where
  | send
  | deliver (m : CMessage) (rid : ℕ)

/-- `send_request`; refused while a request is outstanding. -/
def CClient.sendRequest (c : CClient) : CClient := { c with out_req := true }

namespace CWorld

def init (me : ℤ) (rid : ℕ) : CWorld := ⟨⟨me, false, rid, 0⟩, []⟩

def step (N : CNode) (w : CWorld) : CEvent → CWorld
  | .send => { w with client := w.client.sendRequest }
  | .deliver m rid =>
    match w.client.recvReply N rid [m] with
    | (client, .ret r) => ⟨client, w.returned ++ [(w.client.out_rid, r)]⟩
    | (client, _) => { w with client }

end CWorld

/-- What the loop does with one message. -/
theorem CClient.recvReply_single {N : CNode} {c : CClient} (hout : c.out_req) (rid : ℕ)
    (m : CMessage) :
    c.recvReply N rid [m] =
      match c.taken N m with
      | some r => (c.done rid, .ret r)
      | none => (c, .blocked) := by
  simp only [recvReply, hout, Bool.not_true, Bool.false_eq_true, if_false]
  cases m with
  | other => rfl
  | reply r =>
    cases hsw : r.rep.should_switch with
    | true => simp [recvLoop, taken, hsw]
    | false =>
      by_cases hrid : r.rep.rid = c.out_rid
      · cases hch : r.checks N <;> simp [recvLoop, taken, hsw, hrid, hch]
      · simp [recvLoop, taken, hsw, hrid]

/-- Every notice the client switched on carries a replica's MAC and names
the request that was outstanding. -/
def SwitchesAuthentic (N : CNode) (w : CWorld) : Prop :=
  ∀ p ∈ w.returned, p.2.rep.should_switch → p.2.rep.rid = p.1 ∧ p.2.MacValid N w.client.id

/-- **The condition on a delivery**: a notice that the loop reads names the
outstanding request and carries a replica's MAC. -/
def NoticeGenuine (N : CNode) (w : CWorld) : CEvent → Prop
  | .deliver (.reply r) _ => w.client.out_req → r.rep.should_switch →
      r.rep.rid = w.client.out_rid ∧ r.MacValid N w.client.id
  | _ => True

/-- **What a step returns stays authentic exactly if the delivery meets the
condition.** -/
theorem authentic_iff (N : CNode) (w : CWorld) (e : CEvent) :
    SwitchesAuthentic N (w.step N e) ↔ SwitchesAuthentic N w ∧ NoticeGenuine N w e := by
  cases e with
  | send => exact (and_iff_left trivial).symm
  | deliver m rid =>
    by_cases hout : w.client.out_req
    swap
    · have hstep : w.step N (.deliver m rid) = w := by
        simp [CWorld.step, CClient.recvReply, hout]
      rw [hstep]
      cases m with
      | other => exact (and_iff_left trivial).symm
      | reply r => exact (and_iff_left fun hout' => absurd hout' hout).symm
    rw [CWorld.step, CClient.recvReply_single hout]
    cases m with
    | other => exact (and_iff_left trivial).symm
    | reply r =>
      cases hsw : r.rep.should_switch with
      | true =>
        simp only [CClient.taken, hsw, Bool.true_or, if_true, NoticeGenuine, SwitchesAuthentic,
          forall_mem_append, forall_mem_singleton, hout, true_implies]
        rfl
      | false =>
        have hgenuine : NoticeGenuine N w (.deliver (.reply r) rid) := by
          intro _ hyes
          rw [hsw] at hyes
          cases hyes
        rw [and_iff_left hgenuine, CClient.taken, hsw, Bool.false_or]
        by_cases htaken : r.rep.rid == w.client.out_rid && r.checks N
        · rw [if_pos htaken]
          unfold SwitchesAuthentic
          rw [forall_mem_append, forall_mem_singleton, hsw]
          exact and_iff_left fun hno => absurd hno Bool.false_ne_true
        · rw [if_neg htaken]

end Chain

/-! ## Both clients -/

/-- **When switch notices are authenticated.** A Quorum client switches only
on notices with a replica's MAC and for its outstanding request, exactly if
every notice for the outstanding request that its loop reads carries a
replica's MAC; a Chain client, exactly if every notice that its loop reads
does and is for the outstanding request. -/
theorem switch_authenticated_iff (NQ : Quorum.QNode) (NC : Chain.CNode) (me : ℤ) (rid : ℕ)
    (qes : List Quorum.QEvent) (ces : List Chain.CEvent) :
    (Quorum.SwitchesAuthentic NQ (exec (Quorum.QWorld.step NQ) (Quorum.QWorld.init NQ rid) qes) ↔
      Guarded (Quorum.QWorld.step NQ) (Quorum.NoticeGenuine NQ) (Quorum.QWorld.init NQ rid) qes) ∧
    (Chain.SwitchesAuthentic NC (exec (Chain.CWorld.step NC) (Chain.CWorld.init me rid) ces) ↔
      Guarded (Chain.CWorld.step NC) (Chain.NoticeGenuine NC) (Chain.CWorld.init me rid) ces) := by
  constructor
  · rw [exec_iff_guarded (I := Quorum.Counted) (fun w e h => h.step e)
      (fun w e h => h.authentic_iff e) (Quorum.Counted.init NQ rid) qes]
    exact and_iff_right nofun
  · rw [exec_iff_guarded (I := fun _ => True) (fun _ _ h => h)
      (fun w e _ => Chain.authentic_iff NC w e) trivial ces]
    exact and_iff_right nofun

/-- A notice for request `1` with no MAC of replica `0`. -/
def forgedQNotice : Quorum.QReply :=
  let m := Quorum.sampleReply 0 0 0 0
  ⟨{ m.rep with should_switch := true, instance_id := 1 }, 16, fun _ => 9⟩

/-- A notice for request `rid` with zeros for MACs. -/
def forgedCNotice (rid : ℕ) : Chain.CReply :=
  let r := Chain.sampleReply fun _ => 0
  { r with rep := { r.rep with rid, should_switch := true, instance_id := 1 } }

/-- **Forged notices make clients switch.** A Quorum client with request `1`
outstanding switches on a notice with a wrong MAC, and a Chain client on one
without a MAC of any replica and for another request. -/
theorem forged_notice_switches :
    let NQ := Quorum.sampleNode
    let wQ := exec (Quorum.QWorld.step NQ) (Quorum.QWorld.init NQ 1)
      [.send, .deliver (.reply forgedQNotice) 0]
    let NC := Chain.sampleNode 1
    let wC := exec (Chain.CWorld.step NC) (Chain.CWorld.init 4 1)
      [.send, .deliver (.reply (forgedCNotice 77)) 2]
    (wQ.client.out_req = false ∧ wQ.returned = [(1, forgedQNotice)] ∧
      ¬ Quorum.SwitchesAuthentic NQ wQ) ∧
    wC.client.out_req = false ∧ wC.returned = [(1, forgedCNotice 77)] ∧
      ¬ (forgedCNotice 77).MacValid NC 4 ∧ ¬ Chain.SwitchesAuthentic NC wC := by
  intro NQ wQ NC wC
  have hQ : wQ.returned = [(1, forgedQNotice)] := rfl
  have hC : wC.returned = [(1, forgedCNotice 77)] := rfl
  refine ⟨⟨rfl, hQ, fun h => ?_⟩, rfl, hC, by decide, fun h => ?_⟩
  · have hmac := (h (1, forgedQNotice) (by rw [hQ]; exact mem_singleton_self _) rfl).2
    exact absurd hmac (by decide)
  · have hrid := (h (1, forgedCNotice 77) (by rw [hC]; exact mem_singleton_self _) rfl).1
    exact absurd hrid (by decide)

end AbstractBFT
