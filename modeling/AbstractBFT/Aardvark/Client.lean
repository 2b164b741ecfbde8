import AbstractBFT.Aardvark.Certificate
import AbstractBFT.Common.History
import AbstractBFT.Lib.Quorum
import AbstractBFT.Lib.Run
/-!
# Aardvark — the client

`A_Client` collects the replies to its request in two certificates, one
of `2f+1` tentative and one of `f+1` committed replies. `A_Reply::match`
compares the result digest and, in one certificate, nothing else: the
views and the switch notice of the replies that are counted together may
differ. And `verify_mac` computes the MAC and answers with a flag of the
header. `sound_of_run` says what an accepted reply stands for when the
replies that are delivered make up for both.
-/

namespace AbstractBFT.Aardvark

open List

/-- `A_Reply_rep`, the part of a reply its MAC covers. -/
structure ReplyRep where
  extra : ℤ
  mac_is_valid : ℤ
  v : ℤ
  rid : ℕ
  digest : Digest
  replica : ℤ
  reply_size : ℤ
  should_switch : Bool
  instance_id : ℕ
  deriving DecidableEq

/-- `A_Reply`: the header, the number of bytes the message says follow
it, and the memory that does. -/
structure Reply where
  rep : ReplyRep
  tailSize : ℕ
  tail : ℕ → UInt8

/-- A message off the socket: `A_Reply::convert` takes the ones with the
reply tag and a whole header. -/
inductive ClientMessage where
  | reply (r : Reply)
  | other

/-- What a client knows of the system: the fault bound and the UMAC it
shares with each replica (tag of a header under a nonce). -/
structure ClientNode where
  f : ℕ
  md5 : Md5
  umac : ℤ → ReplyRep → List UInt8 → List UInt8

variable (N : ClientNode)

/-- `num_replicas`. -/
def ClientNode.numReplicas : ℕ := 3 * N.f + 1

/-- `A_Node::is_replica`. -/
def ClientNode.isReplica (id : ℤ) : Bool := 0 ≤ id && id < N.numReplicas

namespace Reply

/-- `full`. -/
def full (m : Reply) : Bool := 0 ≤ m.rep.reply_size

/-- `is_tentative`. -/
def isTentative (m : Reply) : Bool := m.rep.extra != 0

/-- `UNonce_size` and `UMAC_size`. -/
def umacSize : ℕ := 8

/-- `MAC_size`. -/
def macSize : ℕ := umacSize + umacSize

/-- `len` bytes of the memory after the header, from `off`. -/
def bytes (m : Reply) (off len : ℕ) : List UInt8 := (List.range len).map fun i => m.tail (off + i)

/-- The number of bytes of the result. -/
def repSize (m : Reply) : ℕ := if m.full then m.rep.reply_size.toNat else 0

/-- The comparison `verify_mac` makes, and whose outcome it drops. -/
def macOk (m : Reply) : Bool :=
  m.bytes (m.repSize + umacSize) umacSize == N.umac m.rep.replica m.rep (m.bytes m.repSize umacSize)

/-- `A_Reply::verify`. In place of the comparison of the MACs
`verify_mac` returns `is_mac_valid`. -/
def verify (m : Reply) : Bool :=
  N.isReplica m.rep.replica
    && !decide ((m.tailSize : ℤ) - m.repSize < macSize)
    && (!m.full || N.md5 (m.bytes 0 m.repSize) == m.rep.digest)
    && m.rep.mac_is_valid == 1

/-- `A_Reply::match`. -/
def matches_ (m r : Reply) : Bool :=
  m.rep.digest == r.rep.digest && (!m.isTentative || r.isTentative || m.rep.v == r.rep.v)

/-- Two replies say the same: the result digest and the switch notice. -/
def SameResult (m r : Reply) : Prop :=
  m.rep.digest = r.rep.digest ∧ m.rep.should_switch = r.rep.should_switch ∧
    m.rep.instance_id = r.rep.instance_id
  deriving Decidable

/-- Two replies of one kind agree: they say the same and, if they are
tentative, they come from one view. -/
def Agrees (tentative : Bool) (m r : Reply) : Prop :=
  m.SameResult r ∧ (tentative → m.rep.v = r.rep.v)
  deriving Decidable

theorem Agrees.refl (tentative : Bool) (m : Reply) : m.Agrees tentative m :=
  ⟨⟨rfl, rfl, rfl⟩, fun _ => rfl⟩

theorem Agrees.symm {tentative : Bool} {m r : Reply} (h : m.Agrees tentative r) :
    r.Agrees tentative m :=
  ⟨⟨h.1.1.symm, h.1.2.1.symm, h.1.2.2.symm⟩, fun ht => (h.2 ht).symm⟩

theorem Agrees.trans {tentative : Bool} {m r s : Reply} (h : m.Agrees tentative r)
    (h' : r.Agrees tentative s) : m.Agrees tentative s :=
  ⟨⟨h.1.1.trans h'.1.1, h.1.2.1.trans h'.1.2.1, h.1.2.2.trans h'.1.2.2⟩,
    fun ht => (h.2 ht).trans (h'.2 ht)⟩

theorem digest_of_matches {m r : Reply} (h : m.matches_ r) : m.rep.digest = r.rep.digest := by
  simp only [matches_, Bool.and_eq_true, beq_iff_eq] at h
  exact h.1

theorem isReplica_of_verify {N : ClientNode} {m : Reply} (h : m.verify N) :
    N.isReplica m.rep.replica := by
  simp only [verify, Bool.and_eq_true] at h
  exact h.1.1.1

end Reply

/-- `toNat` makes a negative identifier `0`, but then `verify` fails and
`add` does nothing. -/
instance : CertMessage Reply where
  id m := m.rep.replica.toNat
  agrees := Reply.matches_
  full := Reply.full

/-- `A_Client`: the identifier of the outstanding request (of the next
one where `out_req` is null), `cur_rid`, the certificates and the fields
`retransmit` uses. Of the request itself it reads whether it is read-only
and the replier. -/
structure AClient where
  out_req : Option (Bool × ℤ)
  out_rid : ℕ
  cur_rid : ℕ
  t_reps : Certificate Reply
  c_reps : Certificate Reply
  n_retrans : ℕ
  need_auth : Bool
  v : ℤ
  cur_primary : ℤ

namespace AClient

/-- `A_Client::A_Client`: the first identifier is `1`. -/
def init : AClient where
  out_req := none
  out_rid := 1
  cur_rid := 2
  t_reps := Certificate.new N.f (2 * N.f + 1)
  c_reps := Certificate.new N.f (N.f + 1)
  n_retrans := 0
  need_auth := true
  v := 0
  cur_primary := 0

variable (c : AClient)

/-- `send_request`; refused while a request is outstanding. -/
def sendRequest (ro : Bool) (replier : ℤ) : AClient :=
  if c.out_req.isSome then c
  else { c with out_req := some (ro, replier), need_auth := false, n_retrans := 0 }

/-- `send_new_key`. -/
def sendNewKey : AClient :=
  { c with need_auth := true, t_reps := c.t_reps.clear, c_reps := c.c_reps.clear }

/-- `retransmit`, the timer's handler; `new_rep` is the replier
`re_authenticate` settles on, and a change makes the request read-write. -/
def retransmit (new_rep : ℤ) : AClient :=
  match c.out_req with
  | none => c
  | some (ro, replier) =>
    let c := { c with n_retrans := c.n_retrans + 1 }
    let c := if c.n_retrans = 4 ∨ c.n_retrans % 100 = 0 then c.sendNewKey else c
    let change := (ro || decide (0 ≤ replier)) && decide (1 < c.n_retrans)
    if c.need_auth || change then
      let c := { c with out_req := some (ro && !change, new_rep), need_auth := false }
      if ro && change then { c with t_reps := c.t_reps.clear } else c
    else c

/-- The certificate for one kind of replies. -/
def reps (tentative : Bool) : Certificate Reply :=
  if tentative then c.t_reps else c.c_reps

/-- The certificate for one kind of replies is replaced. -/
def setReps (tentative : Bool) (cert : Certificate Reply) : AClient :=
  if tentative then { c with t_reps := cert } else { c with c_reps := cert }

/-- What `recv_reply` does before it returns `rep`. -/
def finish (rep : Reply) : AClient :=
  { c with
    out_rid := c.cur_rid
    cur_rid := c.cur_rid + 1
    out_req := none
    t_reps := c.t_reps.clear
    c_reps := c.c_reps.clear
    v := rep.rep.v
    cur_primary := rep.rep.v.tmod N.numReplicas }

/-- One iteration of `recv_reply`'s loop, and the reply it returns. -/
def recvIter (m : ClientMessage) : AClient × Option Reply :=
  match m with
  | .other => (c, none)
  | .reply rep =>
    if rep.rep.rid ≠ c.out_rid then (c, none)
    else if (c.reps rep.isTentative).isComplete then
      -- We have a complete certificate without a full reply.
      if rep.full && rep.verify N && (c.reps rep.isTentative).cvalue.any rep.matches_ then
        (c.finish N rep, some rep)
      else (c, none)
    else
      let cert := ((c.reps rep.isTentative).add N.numReplicas (rep.verify N) rep).1
      match cert.cvalue with
      | some r =>
        if cert.isComplete && r.full then ((c.setReps rep.isTentative cert).finish N r, some r)
        else (c.setReps rep.isTentative cert, none)
      | none => (c.setReps rep.isTentative cert, none)

end AClient

/-- What `aardvark_recv_reply` hands to its caller: a reply, or the
instance to go on with. -/
inductive Outcome where
  | reply (r : Reply)
  | leave (instance_id : ℕ)

/-- `aardvark_recv_reply`, for the reply `recv_reply` returned. -/
def aardvarkRecvReply (r : Reply) : Outcome :=
  if r.rep.should_switch then .leave r.rep.instance_id else .reply r

/-! ## Runs of the client -/

/-- The client, the replies its loop has read, and the replies it
returned with the request each answers. -/
structure ClientWorld where
  client : AClient
  delivered : List Reply
  returned : List (ℕ × Reply)

/-- What can happen at a client: the caller sends a request, one of the
timers runs out, or the loop of `recv_reply` gets a message. -/
inductive ClientEvent where
  | send (ro : Bool) (replier : ℤ)
  | retransmit (new_rep : ℤ)
  | newKey
  | deliver (m : ClientMessage)

namespace ClientWorld

def init : ClientWorld := ⟨AClient.init N, [], []⟩

/-- The reply an event delivers, if any. -/
def replyOf : ClientMessage → List Reply
  | .reply r => [r]
  | .other => []

/-- The loop reads one message; outside `recv_reply` nothing is read. -/
def deliver (w : ClientWorld) (m : ClientMessage) : ClientWorld :=
  if w.client.out_req.isSome then
    { client := (w.client.recvIter N m).1
      delivered := w.delivered ++ replyOf m
      returned :=
        w.returned ++ ((w.client.recvIter N m).2.map fun r => (w.client.out_rid, r)).toList }
  else w

def step (w : ClientWorld) : ClientEvent → ClientWorld
  | .send ro replier => { w with client := w.client.sendRequest ro replier }
  | .retransmit new_rep => { w with client := w.client.retransmit new_rep }
  | .newKey => { w with client := w.client.sendNewKey }
  | .deliver m => w.deliver N m

end ClientWorld

/-! ## What an accepted reply stands for -/

/-- `k` different replicas sent authenticated replies of this kind for
`rid` that say what `r` says, tentative ones from one view. -/
def ReplyVouched (delivered : List Reply) (rid k : ℕ) (tentative : Bool) (r : Reply) : Prop :=
  ∃ (v : ℤ) (S : Finset ℕ), k ≤ S.card ∧ ∀ i ∈ S, i < N.numReplicas ∧
    ∃ m ∈ delivered, m.rep.replica = i ∧ m.macOk N ∧ m.isTentative = tentative ∧
      m.rep.rid = rid ∧ m.SameResult r ∧ (tentative → m.rep.v = v)

/-- **The acceptance rule**: `2f+1` tentative replies or `f+1` committed
ones. -/
def ReplyAccepted (delivered : List Reply) (rid : ℕ) (r : Reply) : Prop :=
  ReplyVouched N delivered rid (2 * N.f + 1) true r ∨ ReplyVouched N delivered rid (N.f + 1) false r

/-- Some correct replica asked the client to go on with instance `p`. -/
def Asked (byz : Finset ℕ) (Sent : ℕ → ReplyRep → Prop) (p : ℕ) : Prop :=
  ∃ i < N.numReplicas, i ∉ byz ∧ ∃ rep, Sent i rep ∧ rep.should_switch ∧ rep.instance_id = p

variable {N} {D D' : List Reply} {rid k : ℕ} {tentative : Bool} {r : Reply}

theorem ReplyVouched.mono (hD : D ⊆ D') (h : ReplyVouched N D rid k tentative r) :
    ReplyVouched N D' rid k tentative r := by
  obtain ⟨v, S, hS, hi⟩ := h
  refine ⟨v, S, hS, fun i hiS => ?_⟩
  obtain ⟨hlt, m, hm, hrest⟩ := hi i hiS
  exact ⟨hlt, m, hD hm, hrest⟩

theorem ReplyAccepted.mono (hD : D ⊆ D') (h : ReplyAccepted N D rid r) : ReplyAccepted N D' rid r :=
  h.imp (.mono hD) (.mono hD)

/-- More than `f` replicas hold a correct one. -/
theorem ReplyVouched.asked {byz : Finset ℕ} {Sent : ℕ → ReplyRep → Prop} (hbyz : byz.card ≤ N.f)
    (hunf : ∀ m ∈ D, m.macOk N → ∀ i < N.numReplicas, m.rep.replica = i → i ∉ byz → Sent i m.rep)
    (hk : N.f < k) (h : ReplyVouched N D rid k tentative r) (hsw : r.rep.should_switch) :
    Asked N byz Sent r.rep.instance_id := by
  obtain ⟨v, S, hS, hi⟩ := h
  obtain ⟨i, hiS, hcorrect⟩ := Quorum.exists_correct_of_card hbyz (show N.f < S.card by omega)
  obtain ⟨hlt, m, hm, hid, hmac, -, -, hsame, -⟩ := hi i hiS
  exact ⟨i, hlt, hcorrect, m.rep, hunf m hm hmac i hlt hid hcorrect, hsame.2.1.trans hsw,
    hsame.2.2⟩

/-- **What a delivered reply must meet.** If it is for the outstanding
request and `verify` takes it, it carries a right MAC, and it agrees with
every reply in its certificate that has its digest. -/
def ReplyOk (N : ClientNode) (w : ClientWorld) : ClientEvent → Prop
  | .deliver (.reply m) => m.rep.rid = w.client.out_rid → m.verify N →
      m.macOk N ∧ ∀ val ∈ (w.client.reps m.isTentative).vals, val.m.rep.digest = m.rep.digest →
        m.Agrees m.isTentative val.m
  | _ => True

instance (N : ClientNode) (w : ClientWorld) (e : ClientEvent) : Decidable (ReplyOk N w e) := by
  rcases e with _ | _ | _ | ⟨_ | _⟩ <;> dsimp only [ReplyOk] <;> infer_instance

/-- Replica `j` sent an authenticated reply of this kind for `rid` that
agrees with `m`. -/
def Replied (N : ClientNode) (D : List Reply) (rid : ℕ) (tentative : Bool) (j : ℕ) (m : Reply) :
    Prop :=
  j < N.numReplicas ∧ ∃ m' ∈ D, m'.rep.replica = j ∧ m'.macOk N ∧ m'.isTentative = tentative ∧
    m'.rep.rid = rid ∧ m'.Agrees tentative m

theorem Replied.congr {m m' : Reply} (h : m.Agrees tentative m') {j : ℕ}
    (hr : Replied N D rid tentative j m) : Replied N D rid tentative j m' := by
  obtain ⟨hlt, m'', hm'', hid, hmac, hkind, hrid, hag⟩ := hr
  exact ⟨hlt, m'', hm'', hid, hmac, hkind, hrid, hag.trans h⟩

theorem Replied.mono (hD : D ⊆ D') {j : ℕ} {m : Reply} (h : Replied N D rid tentative j m) :
    Replied N D' rid tentative j m := by
  obtain ⟨hlt, m', hm', hrest⟩ := h
  exact ⟨hlt, m', hD hm', hrest⟩

/-- What the client keeps of one certificate: its threshold, and that the
counts are backed by authenticated replies for the outstanding request. -/
structure RepsInv (N : ClientNode) (D : List Reply) (rid k : ℕ) (tentative : Bool)
    (cert : Certificate Reply) : Prop where
  complete : cert.complete = k
  backed : Certificate.Backed (Replied N D rid tentative) N.numReplicas cert

namespace RepsInv

variable {cert : Certificate Reply}

theorem mono (hD : D ⊆ D') (h : RepsInv N D rid k tentative cert) :
    RepsInv N D' rid k tentative cert :=
  ⟨h.complete, h.backed.mono fun _ _ => Replied.mono hD⟩

theorem clear {rid' : ℕ} (h : RepsInv N D rid k tentative cert) :
    RepsInv N D' rid' k tentative cert.clear :=
  ⟨h.complete, .clear cert⟩

theorem add {m : Reply} (h : RepsInv N D rid k m.isTentative cert) (hm : m ∈ D)
    (hrid : m.rep.rid = rid)
    (hok : m.verify N → m.macOk N ∧ ∀ val ∈ cert.vals, val.m.rep.digest = m.rep.digest →
      m.Agrees m.isTentative val.m) :
    RepsInv N D rid k m.isTentative (cert.add N.numReplicas (m.verify N) m).1 := by
  refine ⟨by rw [Certificate.complete_add]; exact h.complete, h.backed.add_of_vals ?_ ?_⟩
  · intro hver val hval hag j
    have hagree := (hok hver).2 val hval (Reply.digest_of_matches hag)
    exact ⟨fun hr => hr.congr hagree.symm, fun hr => hr.congr hagree⟩
  · intro hver
    have hrep := Reply.isReplica_of_verify hver
    simp only [ClientNode.isReplica, Bool.and_eq_true, decide_eq_true_eq] at hrep
    have hid : CertMessage.id m < N.numReplicas := by
      show m.rep.replica.toNat < _
      omega
    exact ⟨hid.ne, hid, m, hm, (Int.toNat_of_nonneg hrep.1).symm, (hok hver).1, rfl, hrid,
      .refl _ m⟩

/-- A complete certificate vouches for what agrees with its value. -/
theorem vouched (h : RepsInv N D rid k tentative cert) (hk : 0 < k) (hcomp : cert.isComplete)
    {val : Reply} (hval : cert.cvalue = some val) (hag : val.Agrees tentative r) :
    ReplyVouched N D rid k tentative r := by
  obtain ⟨val', hval', S, hS, hcard⟩ := h.backed.exists_senders (by rw [h.complete]; exact hk) hcomp
  obtain rfl : val'.m = val := by
    rw [Certificate.cvalue, hval'] at hval
    exact Option.some.inj hval
  refine ⟨r.rep.v, S, by rw [← h.complete]; exact hcard, fun i hi => ?_⟩
  obtain ⟨hlt, m, hm, hid, hmac, hkind, hrid, hag'⟩ := hS i hi
  have hagree := hag'.trans hag
  exact ⟨hlt, m, hm, hid, hmac, hkind, hrid, hagree.1, hagree.2⟩

end RepsInv

/-! ## One iteration of the loop -/

namespace AClient

/-- **What one iteration can do with a message**: skip it, return it next
to a complete certificate, count it, or count it and return the value of
the certificate it completes. -/
inductive Received (N : ClientNode) (c : AClient) : ClientMessage → AClient × Option Reply → Prop
  | skipped (m : ClientMessage) : Received N c m (c, none)
  | late (rep val : Reply) (hrid : rep.rep.rid = c.out_rid) (hver : rep.verify N)
      (hcomp : (c.reps rep.isTentative).isComplete)
      (hval : (c.reps rep.isTentative).cvalue = some val) (hmatch : rep.matches_ val) :
      Received N c (.reply rep) (c.finish N rep, some rep)
  | counted (rep : Reply) (hrid : rep.rep.rid = c.out_rid) :
      Received N c (.reply rep) (c.setReps rep.isTentative
        ((c.reps rep.isTentative).add N.numReplicas (rep.verify N) rep).1, none)
  | completed (rep r : Reply) (hrid : rep.rep.rid = c.out_rid)
      (hval : ((c.reps rep.isTentative).add N.numReplicas (rep.verify N) rep).1.cvalue = some r)
      (hcomp : ((c.reps rep.isTentative).add N.numReplicas (rep.verify N) rep).1.isComplete) :
      Received N c (.reply rep) ((c.setReps rep.isTentative
        ((c.reps rep.isTentative).add N.numReplicas (rep.verify N) rep).1).finish N r, some r)

theorem received_recvIter (N : ClientNode) (c : AClient) (m : ClientMessage) :
    Received N c m (c.recvIter N m) := by
  unfold recvIter
  split
  · exact .skipped _
  next rep =>
  split
  · exact .skipped _
  next hrid =>
  rw [not_not] at hrid
  split
  · next hcomp =>
    split
    · next hcond =>
      simp only [Bool.and_eq_true, Option.any_eq_true] at hcond
      obtain ⟨⟨-, hver⟩, val, hval, hmatch⟩ := hcond
      exact .late rep val hrid hver hcomp hval hmatch
    · exact .skipped _
  · dsimp only
    split
    · next r hval =>
      split
      · next hcond =>
        rw [Bool.and_eq_true] at hcond
        exact .completed rep r hrid hval hcond.1
      · exact .counted rep hrid
    · exact .counted rep hrid

variable (c : AClient) (tentative : Bool) {tentative' : Bool} (cert : Certificate Reply)

/-- The timers only ever clear certificates. -/
theorem reps_sendNewKey : c.sendNewKey.reps tentative = (c.reps tentative).clear := by
  cases tentative <;> rfl

theorem reps_retransmit (new_rep : ℤ) :
    (c.retransmit new_rep).out_rid = c.out_rid ∧ ∀ tentative,
      (c.retransmit new_rep).reps tentative = c.reps tentative ∨
      (c.retransmit new_rep).reps tentative = (c.reps tentative).clear := by
  unfold retransmit
  split
  · exact ⟨rfl, fun _ => .inl rfl⟩
  dsimp only
  split
  · split
    · split
      · exact ⟨rfl, fun tentative => .inr (by cases tentative <;> rfl)⟩
      · exact ⟨rfl, fun tentative => .inr (by cases tentative <;> rfl)⟩
    · exact ⟨rfl, fun tentative => .inr (by cases tentative <;> rfl)⟩
  · split
    · split
      · refine ⟨rfl, fun tentative => ?_⟩
        cases tentative
        · exact .inl rfl
        · exact .inr rfl
      · exact ⟨rfl, fun _ => .inl rfl⟩
    · exact ⟨rfl, fun _ => .inl rfl⟩

theorem reps_finish (r : Reply) : (c.finish N r).reps tentative = (c.reps tentative).clear := by
  cases tentative <;> rfl

theorem reps_setReps_self : (c.setReps tentative cert).reps tentative = cert := by
  cases tentative <;> rfl

theorem reps_setReps_of_ne (h : tentative' ≠ tentative) :
    (c.setReps tentative cert).reps tentative' = c.reps tentative' := by
  cases tentative <;> cases tentative' <;> first | rfl | exact absurd rfl h

@[simp] theorem out_rid_setReps : (c.setReps tentative cert).out_rid = c.out_rid := by
  cases tentative <;> rfl

end AClient

/-- How many replies of a kind the client waits for. -/
def needed (N : ClientNode) (tentative : Bool) : ℕ := if tentative then 2 * N.f + 1 else N.f + 1

theorem needed_pos (N : ClientNode) (tentative : Bool) : 0 < needed N tentative := by
  cases tentative <;> exact Nat.succ_pos _

theorem RepsInv.setReps {c : AClient} {cert : Certificate Reply}
    (h : ∀ t, RepsInv N D rid (needed N t) t (c.reps t))
    (hcert : RepsInv N D rid (needed N tentative) tentative cert) (t : Bool) :
    RepsInv N D rid (needed N t) t ((c.setReps tentative cert).reps t) := by
  by_cases ht : t = tentative
  · rw [ht, AClient.reps_setReps_self]
    exact hcert
  · rw [AClient.reps_setReps_of_ne _ _ _ ht]
    exact h t

theorem ReplyAccepted.of_vouched (h : ReplyVouched N D rid (needed N tentative) tentative r) :
    ReplyAccepted N D rid r := by
  cases tentative
  · exact .inr h
  · exact .inl h

/-- The invariant of the client. -/
structure ClientInv (N : ClientNode) (w : ClientWorld) : Prop where
  reps : ∀ tentative, RepsInv N w.delivered w.client.out_rid (needed N tentative) tentative
    (w.client.reps tentative)
  accepted : ∀ p ∈ w.returned, ReplyAccepted N w.delivered p.1 p.2

namespace ClientInv

variable {w : ClientWorld}

theorem init (N : ClientNode) : ClientInv N (.init N) where
  reps tentative := by
    cases tentative
    · exact ⟨rfl, .new _ _⟩
    · exact ⟨rfl, .new _ _⟩
  accepted := nofun

theorem of_clear (h : ClientInv N w) {c : AClient} (hrid : c.out_rid = w.client.out_rid)
    (hreps : ∀ tentative, c.reps tentative = w.client.reps tentative ∨
      c.reps tentative = (w.client.reps tentative).clear) :
    ClientInv N { w with client := c } := by
  refine ⟨fun tentative => ?_, h.accepted⟩
  show RepsInv N w.delivered c.out_rid _ _ (c.reps tentative)
  rw [hrid]
  rcases hreps tentative with heq | heq
  · rw [heq]
    exact h.reps tentative
  · rw [heq]
    exact (h.reps tentative).clear

theorem deliver (h : ClientInv N w) (m : ClientMessage) (hok : ReplyOk N w (.deliver m)) :
    ClientInv N (w.deliver N m) := by
  unfold ClientWorld.deliver
  split
  swap
  · exact h
  have hrec := w.client.received_recvIter N m
  generalize w.client.recvIter N m = p at hrec
  have hD : w.delivered ⊆ w.delivered ++ ClientWorld.replyOf m := subset_append_left _ _
  have hreps : ∀ tentative, RepsInv N (w.delivered ++ ClientWorld.replyOf m) w.client.out_rid
      (needed N tentative) tentative (w.client.reps tentative) := fun t => (h.reps t).mono hD
  have hacc : ∀ p ∈ w.returned, ReplyAccepted N (w.delivered ++ ClientWorld.replyOf m) p.1 p.2 :=
    fun p hp => (h.accepted p hp).mono hD
  have hret : ∀ {t} r, ReplyVouched N (w.delivered ++ ClientWorld.replyOf m) w.client.out_rid
      (needed N t) t r → ∀ p ∈ w.returned ++ [(w.client.out_rid, r)],
        ReplyAccepted N (w.delivered ++ ClientWorld.replyOf m) p.1 p.2 := by
    intro t r hvouched p hp
    rcases mem_concat_iff.1 hp with hp | rfl
    · exact hacc p hp
    · exact .of_vouched hvouched
  cases hrec with
  | skipped => exact ⟨hreps, by simpa using hacc⟩
  | late rep val hrid hver hcomp hval hmatch =>
    have hvouched : ReplyVouched N (w.delivered ++ [rep]) w.client.out_rid
        (needed N rep.isTentative) rep.isTentative rep := by
      refine (hreps rep.isTentative).vouched (needed_pos _ _) hcomp hval ?_
      obtain ⟨val', hval', rfl⟩ := Option.map_eq_some_iff.1 hval
      obtain ⟨i, -, hvi⟩ := Certificate.exists_c_of_cval hval'
      exact ((hok hrid hver).2 val' (mem_of_getElem? hvi)
        (Reply.digest_of_matches hmatch).symm).symm
    refine ⟨fun tentative => ?_, hret rep hvouched⟩
    rw [AClient.reps_finish]
    exact (hreps tentative).clear
  | counted rep hrid =>
    have hadd := (hreps rep.isTentative).add (mem_append_right _ (mem_singleton.2 rfl))
      hrid (hok hrid)
    refine ⟨fun tentative => ?_, by simpa using hacc⟩
    rw [AClient.out_rid_setReps]
    exact .setReps hreps hadd tentative
  | completed rep r hrid hval hcomp =>
    have hadd := (hreps rep.isTentative).add (mem_append_right _ (mem_singleton.2 rfl))
      hrid (hok hrid)
    have hvouched := hadd.vouched (needed_pos _ _) hcomp hval (.refl _ r)
    refine ⟨fun tentative => ?_, hret r hvouched⟩
    rw [AClient.reps_finish]
    exact (RepsInv.setReps hreps hadd tentative).clear

theorem step (h : ClientInv N w) {e : ClientEvent} (hok : ReplyOk N w e) :
    ClientInv N (w.step N e) := by
  cases e with
  | send ro replier =>
    refine h.of_clear ?_ fun tentative => .inl ?_
    · unfold AClient.sendRequest
      split <;> rfl
    · unfold AClient.sendRequest
      split <;> rfl
  | retransmit new_rep =>
    obtain ⟨hrid, hreps⟩ := w.client.reps_retransmit new_rep
    exact h.of_clear hrid hreps
  | newKey => exact h.of_clear rfl fun tentative => .inr (w.client.reps_sendNewKey tentative)
  | deliver m => exact h.deliver m hok

end ClientInv

/-- **What an accepted reply stands for**: the acceptance rule, and where
the client leaves for another instance, a correct replica that asked it
to. -/
structure Sound (N : ClientNode) (byz : Finset ℕ) (Sent : ℕ → ReplyRep → Prop) (w : ClientWorld) :
    Prop where
  accepted : ∀ p ∈ w.returned, ReplyAccepted N w.delivered p.1 p.2
  asked : ∀ p ∈ w.returned, ∀ q, aardvarkRecvReply p.2 = .leave q → Asked N byz Sent q

/-- The MACs of correct replicas are not forged: what they authenticate
was sent. -/
def Unforged (N : ClientNode) (byz : Finset ℕ) (Sent : ℕ → ReplyRep → Prop) (w : ClientWorld) :
    Prop :=
  ∀ m ∈ w.delivered, m.macOk N → ∀ i < N.numReplicas, m.rep.replica = i → i ∉ byz → Sent i m.rep

open Machine

/-- **Client acceptance**, in every run in which the replies delivered
for the outstanding request carry right MACs where their header says so
and agree with those counted before under the same digest. -/
theorem sound_of_run {byz : Finset ℕ} {Sent : ℕ → ReplyRep → Prop} (hbyz : byz.card ≤ N.f)
    {es : List ClientEvent} (h : Guarded (ClientWorld.step N) (ReplyOk N) (.init N) es)
    (hunf : Unforged N byz Sent (exec (ClientWorld.step N) (.init N) es)) :
    Sound N byz Sent (exec (ClientWorld.step N) (.init N) es) := by
  have hinv : ClientInv N (exec (ClientWorld.step N) (.init N) es) :=
    h.invariant (fun _ _ hw hok => hw.step hok) (.init N)
  refine ⟨hinv.accepted, fun p hp q hq => ?_⟩
  unfold aardvarkRecvReply at hq
  split at hq
  · next hsw =>
    obtain rfl := Outcome.leave.inj hq
    rcases hinv.accepted p hp with hv | hv
    · exact hv.asked hbyz hunf (by omega) hsw
    · exact hv.asked hbyz hunf (by omega) hsw
  · cases hq

/-- An accepted reply was sent by two replicas, from one view if it is
tentative. -/
theorem ReplyAccepted.two (hf : 0 < N.f) (h : ReplyAccepted N D rid r) :
    ∃ m ∈ D, ∃ m' ∈ D, m.rep.replica ≠ m'.rep.replica ∧ m.macOk N ∧ m'.macOk N ∧
      m.SameResult r ∧ m'.SameResult r ∧ m.isTentative = m'.isTentative ∧
      (m.isTentative → m.rep.v = m'.rep.v) := by
  obtain ⟨k, tentative, hk, v, S, hS, hi⟩ :
      ∃ k tentative, 1 < k ∧ ReplyVouched N D rid k tentative r := by
    rcases h with h | h
    · exact ⟨_, _, by omega, h⟩
    · exact ⟨_, _, by omega, h⟩
  obtain ⟨i, hiS, j, hjS, hne⟩ := Finset.one_lt_card.1 (show 1 < S.card by omega)
  obtain ⟨-, m, hm, hid, hmac, hkind, -, hsame, hv⟩ := hi i hiS
  obtain ⟨-, m', hm', hid', hmac', hkind', -, hsame', hv'⟩ := hi j hjS
  refine ⟨m, hm, m', hm', ?_, hmac, hmac', hsame, hsame', hkind.trans hkind'.symm, fun ht => ?_⟩
  · rw [hid, hid']
    exact fun heq => hne (Int.ofNat.inj heq)
  · have ht' : tentative = true := hkind.symm.trans ht
    exact (hv ht').trans (hv' ht').symm

/-! ## Some runs -/

/-- Four replicas; the MAC of a replica shows its identifier. -/
def sampleClientNode : ClientNode :=
  ⟨1, fun _ => 0, fun i _ _ => List.replicate 8 (UInt8.ofNat i.toNat)⟩

/-- A full reply of replica `i` to the first request, with a MAC of
replica `key`. -/
def replyFrom (i key : ℕ) (extra v : ℤ) (leave : Option ℕ) : Reply where
  rep := ⟨extra, 1, v, 1, 0, i, 0, leave.isSome, leave.getD 0⟩
  tailSize := 16
  tail := fun _ => UInt8.ofNat key

/-- The client sends its first request and gets these replies. -/
def requestThen (l : List Reply) : List ClientEvent :=
  .send false (-1) :: l.map fun r => .deliver (.reply r)

/-- What the replicas sent are the replies with a MAC of their own. -/
def sentIn (l : List Reply) (i : ℕ) (rep : ReplyRep) : Prop :=
  ∃ m ∈ l, m.rep = rep ∧ m.macOk sampleClientNode ∧ rep.replica = i

/-- Two committed replies that ask the client to go on with instance
`5`. -/
theorem sound_of_run_two :
    Guarded (ClientWorld.step sampleClientNode) (ReplyOk sampleClientNode) (.init sampleClientNode)
        (requestThen [replyFrom 1 1 0 0 (some 5), replyFrom 2 2 0 0 (some 5)]) ∧
      (exec (ClientWorld.step sampleClientNode) (.init sampleClientNode)
        (requestThen [replyFrom 1 1 0 0 (some 5), replyFrom 2 2 0 0 (some 5)])).returned.length
          = 1 ∧
      Sound sampleClientNode {3} (sentIn [replyFrom 1 1 0 0 (some 5), replyFrom 2 2 0 0 (some 5)])
        (exec (ClientWorld.step sampleClientNode) (.init sampleClientNode)
          (requestThen [replyFrom 1 1 0 0 (some 5), replyFrom 2 2 0 0 (some 5)])) :=
  ⟨by decide +kernel, by decide +kernel, sound_of_run (by decide) (by decide +kernel)
    fun m hm hmac i _ hid _ => ⟨m, hm, rfl, hmac, hid⟩⟩

/-- **Three runs in which the client accepts too much.** Tentative
replies from three views; a committed reply of the faulty replica `3`
that carries the digest of a correct one and a switch notice of its own;
two replies without a right MAC. -/
theorem accepts_too_much :
    ¬ Sound sampleClientNode ∅
        (sentIn [replyFrom 1 1 1 1 none, replyFrom 2 2 1 2 none, replyFrom 3 3 1 3 none])
        (exec (ClientWorld.step sampleClientNode) (.init sampleClientNode)
          (requestThen
            [replyFrom 1 1 1 1 none, replyFrom 2 2 1 2 none, replyFrom 3 3 1 3 none])) ∧
      ¬ Sound sampleClientNode {3} (sentIn [replyFrom 3 3 0 0 (some 5), replyFrom 1 1 0 0 none])
        (exec (ClientWorld.step sampleClientNode) (.init sampleClientNode)
          (requestThen [replyFrom 3 3 0 0 (some 5), replyFrom 1 1 0 0 none])) ∧
      ¬ Sound sampleClientNode {3} (sentIn [replyFrom 1 3 0 0 none, replyFrom 2 3 0 0 none])
        (exec (ClientWorld.step sampleClientNode) (.init sampleClientNode)
          (requestThen [replyFrom 1 3 0 0 none, replyFrom 2 3 0 0 none])) := by
  refine ⟨fun h => ?_, fun h => ?_, fun h => ?_⟩
  · have hacc := h.accepted (1, replyFrom 1 1 1 1 none) (mem_singleton.2 rfl)
    exact absurd (hacc.two (by decide)) (by decide +kernel)
  · have hasked := h.asked (1, replyFrom 3 3 0 0 (some 5)) (mem_singleton.2 rfl) 5 rfl
    obtain ⟨i, -, hi, rep, ⟨m, hm, rfl, -, hid⟩, hsw, -⟩ := hasked
    simp only [mem_cons, not_mem_nil, or_false] at hm
    rcases hm with rfl | rfl
    · obtain rfl : i = 3 := (Int.ofNat.inj hid).symm
      exact hi (Finset.mem_singleton.2 rfl)
    · cases hsw
  · have hacc := h.accepted (1, replyFrom 1 3 0 0 none) (mem_singleton.2 rfl)
    exact absurd (hacc.two (by decide)) (by decide +kernel)

end AbstractBFT.Aardvark
