import AbstractBFT.Common.History
import AbstractBFT.Lib.Run
import Mathlib.Data.Finset.Card
import Mathlib.Data.Int.Interval
/-!
# Quorum — the client and its reply certificate

`Q_Client` sends a request to every replica and collects the replies in a
`Q_Certificate` until `3f+1` of them match. `Q_Reply::match` lets a reply
that is not full match anything, so what a complete certificate says
depends on the replies that were matched while one side was not full:
`CertInv` is what the counting loop keeps where those agree with the
certificate's value, and `recvIter_commit` reads the commit rule off it.
-/

namespace AbstractBFT.Quorum

open Machine List

/-- `Q_Reply_rep`, the part of a reply its MAC covers. -/
structure QReplyRep where
  v : ℕ
  rid : ℕ
  rh_digest : Digest
  digest : Digest
  replica : ℤ
  reply_size : ℤ
  cid : ℤ
  should_switch : Bool
  instance_id : ℕ
  deriving DecidableEq

/-- `Q_Reply`: the header, the number of bytes the message says follow
it, and the memory that does. -/
structure QReply where
  rep : QReplyRep
  tailSize : ℕ
  tail : ℕ → UInt8

/-- A message off the socket: `Q_Reply::convert` takes the ones with the
reply tag, an aligned size and a whole header. -/
inductive QMessage where
  | reply (r : QReply)
  | other

/-- What a client knows of the system: the fault bound, its own
identifier, and the UMAC it shares with each replica (tag of a header
under a nonce). -/
structure QNode where
  f : ℕ
  node_id : ℤ
  md5 : Md5
  umac : ℤ → QReplyRep → List UInt8 → List UInt8

/-- `num_replicas`. -/
def QNode.numReplicas (N : QNode) : ℕ := 3 * N.f + 1

/-- `Q_Node::is_replica`. -/
def QNode.isReplica (N : QNode) (id : ℤ) : Bool := 0 ≤ id && id < N.numReplicas

namespace QReply

/-- `id`. -/
def id (m : QReply) : ℤ := m.rep.replica

/-- `full`. -/
def full (m : QReply) : Bool := 0 ≤ m.rep.reply_size

/-- `Q_UNonce_size` and `Q_UMAC_size`. -/
def umacSize : ℕ := 8

/-- `Q_MAC_size`. -/
def macSize : ℕ := umacSize + umacSize

/-- `len` bytes of the memory after the header, from `off`. -/
def bytes (m : QReply) (off len : ℕ) : List UInt8 := (List.range len).map fun i => m.tail (off + i)

/-- `Q_Reply::verify`. The size test is an unsigned one: it compares the
difference of the sizes modulo `2^32`. -/
def verify (N : QNode) (m : QReply) : Bool :=
  let rep_size := if m.full then m.rep.reply_size.toNat else 0
  N.isReplica m.id
    && !decide (((m.tailSize : ℤ) - rep_size) % 2 ^ 32 < macSize)
    && (!m.full || N.md5 (m.bytes 0 rep_size) == m.rep.digest)
    && m.bytes (rep_size + umacSize) umacSize == N.umac m.id m.rep (m.bytes rep_size umacSize)

/-- `Q_Reply::match`. -/
def matches_ (m r : QReply) : Bool :=
  if r.rep.reply_size < 0 || m.rep.reply_size < 0 then true
  else
    m.rep.rh_digest == r.rep.rh_digest && m.rep.v == r.rep.v && m.rep.cid == r.rep.cid
      && m.rep.rid == r.rep.rid
      && (r.rep.reply_size < 0 || m.rep.reply_size < 0 || m.rep.digest == r.rep.digest)

/-- Two replies carry the same result digest and the same history
digest. -/
def Agrees (m r : QReply) : Prop :=
  m.rep.digest = r.rep.digest ∧ m.rep.rh_digest = r.rep.rh_digest
  deriving Decidable

variable {m r : QReply}

theorem Agrees.symm (h : m.Agrees r) : r.Agrees m := ⟨h.1.symm, h.2.symm⟩

theorem Agrees.trans {s : QReply} (h : m.Agrees r) (h' : r.Agrees s) : m.Agrees s :=
  ⟨h.1.trans h'.1, h.2.trans h'.2⟩

/-- Two full replies that match agree. -/
theorem agrees_of_matches (hm : m.full) (hr : r.full) (h : m.matches_ r) : m.Agrees r := by
  simp only [full, decide_eq_true_eq] at hm hr
  have hr' : ¬ r.rep.reply_size < 0 := by omega
  have hm' : ¬ m.rep.reply_size < 0 := by omega
  simp only [matches_, hr', hm', decide_false, Bool.or_self, Bool.false_eq_true, if_false,
    Bool.false_or, Bool.and_eq_true, beq_iff_eq] at h
  exact ⟨h.2, h.1.1.1.1⟩

end QReply

/-- `Q_Certificate`. -/
structure QCertificate (T : Type*) where
  complete : ℕ
  count : ℕ
  bmap : Finset ℤ
  value : Option T

namespace QCertificate

/-- `clear`. -/
def clear {T : Type*} (c : QCertificate T) : QCertificate T :=
  { c with count := 0, bmap := ∅, value := none }

/-- `is_complete`. -/
def isComplete {T : Type*} (c : QCertificate T) : Bool := c.complete ≤ c.count

/-- The value a certificate holds after taking `m`: a full reply takes
the place of one that is not. -/
def newValue (value : Option QReply) (m : QReply) : QReply :=
  match value with
  | some v => if !v.full && m.full then m else v
  | none => m

/-- `Q_Certificate::add`; `none` where it returns false and leaves the
certificate alone. -/
def add (N : QNode) (c : QCertificate QReply) (m : QReply) : Option (QCertificate QReply) :=
  if m.id = N.node_id then none
  else if m.verify N && N.isReplica m.id && c.value.all (·.matches_ m) then
    some
      { c with
        count := if m.id ∈ c.bmap then c.count else c.count + 1
        bmap := insert m.id c.bmap
        value := some (newValue c.value m) }
  else none

end QCertificate

/-- `Q_Client`: the outstanding request's identifier (`out_rid` names the
next one to send where `out_req` is null), the certificate and the
flags `retransmit` uses. -/
structure QClient where
  out_req : Bool
  out_rid : ℕ
  r_reps : QCertificate QReply
  n_retrans : ℕ
  is_panicking : Bool
  bail_out : Bool

/-- How an iteration of the loop in `recv_reply` ends. -/
inductive Recv where
  | loop
  | ret (r : Option QReply)

namespace QClient

/-- `Q_Client::Q_Client`. -/
def init (N : QNode) (rid : ℕ) : QClient where
  out_req := false
  out_rid := rid
  r_reps := ⟨3 * N.f + 1, 0, ∅, none⟩
  n_retrans := 0
  is_panicking := false
  bail_out := false

/-- `send_request`; refused while a request is outstanding. -/
def sendRequest (c : QClient) : QClient :=
  if c.out_req then c
  else { c with out_req := true, r_reps := c.r_reps.clear, n_retrans := 0, is_panicking := false }

/-- `retransmit`, the timer's handler. -/
def retransmit (c : QClient) : QClient :=
  if c.out_req then { c with n_retrans := c.n_retrans + 1 }
  else if c.is_panicking then
    if c.n_retrans + 1 = 40 then
      { c with n_retrans := 0, bail_out := true, r_reps := c.r_reps.clear, is_panicking := false }
    else { c with n_retrans := c.n_retrans + 1 }
  else c

/-- `new_rid`: the next identifier, or the first one of a new timestamp
when the low word is used up. -/
def newRid (cur now : ℕ) : ℕ := if cur % 2 ^ 32 = 2 ^ 32 - 1 then now * 2 ^ 32 + 1 else cur + 1

/-- One iteration of `recv_reply`'s loop, on the message the socket
hands it at time `now`. -/
def recvIter (N : QNode) (c : QClient) (m : QMessage) (now : ℕ) : QClient × Recv :=
  match m with
  | .other => (c, .loop)
  | .reply rep =>
    if c.bail_out then
      ({ c with
          bail_out := false, is_panicking := false, r_reps := c.r_reps.clear, out_req := false },
        .ret none)
    else if rep.rep.rid ≠ c.out_rid then (c, .loop)
    else if rep.rep.should_switch then
      ({ c with r_reps := c.r_reps.clear, out_req := false, out_rid := newRid c.out_rid now },
        .ret (some rep))
    else
      match c.r_reps.add N rep with
      | none => (c, .loop)
      | some r_reps =>
        if r_reps.isComplete then
          match r_reps.value with
          | some r =>
            if r.full then
              ({ c with
                  r_reps := r_reps.clear, out_req := false, out_rid := newRid c.out_rid now,
                  n_retrans := 0 },
                .ret (some r))
            else ({ c with r_reps }, .loop)
          | none => ({ c with r_reps }, .loop)
        else ({ c with r_reps }, .loop)

end QClient

/-! ## Runs of the client -/

/-- The client, the replies its loop has read, and the replies it handed
to the caller with the request each answers. -/
structure QWorld where
  client : QClient
  delivered : List QReply
  returned : List (ℕ × QReply)

/-- What can happen at a client. -/
inductive QEvent where
  | send
  | timeout
  | deliver (m : QMessage) (now : ℕ)

namespace QWorld

def init (N : QNode) (rid : ℕ) : QWorld := ⟨QClient.init N rid, [], []⟩

/-- The reply an event delivers, if any. -/
def replyOf : QMessage → List QReply
  | .reply r => [r]
  | .other => []

/-- The loop reads one message; outside `recv_reply` nothing is read. -/
def deliver (N : QNode) (w : QWorld) (m : QMessage) (now : ℕ) : QWorld :=
  if w.client.out_req then
    { client := (w.client.recvIter N m now).1
      delivered := w.delivered ++ replyOf m
      returned :=
        match (w.client.recvIter N m now).2 with
        | .ret (some r) => w.returned ++ [(w.client.out_rid, r)]
        | _ => w.returned }
  else w

def step (N : QNode) (w : QWorld) : QEvent → QWorld
  | .send => { w with client := w.client.sendRequest }
  | .timeout => { w with client := w.client.retransmit }
  | .deliver m now => w.deliver N m now

end QWorld

/-- **The commit rule.** `3f+1` distinct replicas each sent an
authenticated reply for `rid` with the result digest and the history
digest of `r`. -/
def Committed (N : QNode) (delivered : List QReply) (rid : ℕ) (r : QReply) : Prop :=
  ∃ S : Finset ℤ, 3 * N.f + 1 ≤ S.card ∧ ∀ i ∈ S, N.isReplica i ∧
    ∃ m ∈ delivered, m.id = i ∧ m.verify N ∧ m.rep.rid = rid ∧ m.Agrees r

theorem Committed.mono {N : QNode} {D D' : List QReply} {rid : ℕ} {r : QReply} (hD : D ⊆ D')
    (h : Committed N D rid r) : Committed N D' rid r := by
  obtain ⟨S, hS, hi⟩ := h
  refine ⟨S, hS, fun i hiS => ?_⟩
  obtain ⟨hrep, m, hm, hrest⟩ := hi i hiS
  exact ⟨hrep, m, hD hm, hrest⟩

/-- The condition on a step: a verified reply for the outstanding request
that meets the certificate's value while one of the two is not full
agrees with it on both digests. -/
def PartialAgrees (N : QNode) (w : QWorld) : QEvent → Prop
  | .deliver (.reply m) _ => ∀ v ∈ w.client.r_reps.value, m.verify N →
      m.rep.rid = w.client.out_rid → ¬ (m.full ∧ v.full) → m.Agrees v
  | _ => True

instance (N : QNode) (w : QWorld) (e : QEvent) : Decidable (PartialAgrees N w e) := by
  rcases e with _ | _ | ⟨_ | _, _⟩ <;> dsimp only [PartialAgrees] <;> infer_instance

/-- What the counting loop keeps: every replica counted sent a verified
reply for the outstanding request that agrees with the value. -/
structure CertInv (N : QNode) (D : List QReply) (rid : ℕ) (c : QCertificate QReply) : Prop where
  complete_eq : c.complete = 3 * N.f + 1
  count_eq : c.count = c.bmap.card
  backed : ∀ i ∈ c.bmap, N.isReplica i ∧ ∃ v, c.value = some v ∧
    ∃ m ∈ D, m.id = i ∧ m.verify N ∧ m.rep.rid = rid ∧ m.Agrees v

namespace CertInv

variable {N : QNode} {D D' : List QReply} {rid rid' : ℕ} {c c' : QCertificate QReply}

theorem clear (h : CertInv N D rid c) : CertInv N D' rid' c.clear :=
  ⟨h.complete_eq, rfl, fun i hi => absurd hi (Finset.notMem_empty i)⟩

theorem mono (hD : D ⊆ D') (h : CertInv N D rid c) : CertInv N D' rid c := by
  refine ⟨h.complete_eq, h.count_eq, fun i hi => ?_⟩
  obtain ⟨hrep, v, hv, m, hm, hrest⟩ := h.backed i hi
  exact ⟨hrep, v, hv, m, hD hm, hrest⟩

variable {m : QReply}

theorem add_cases (h : c.add N m = some c') :
    m.verify N ∧ N.isReplica m.id ∧ (∀ v, c.value = some v → v.matches_ m) ∧
      c' = { c with
        count := if m.id ∈ c.bmap then c.count else c.count + 1
        bmap := insert m.id c.bmap
        value := some (QCertificate.newValue c.value m) } := by
  simp only [QCertificate.add] at h
  split at h
  · cases h
  split at h
  · next hcond =>
    simp only [Bool.and_eq_true, Option.all_eq_true] at hcond
    exact ⟨hcond.1.1, hcond.1.2, hcond.2, (Option.some.inj h).symm⟩
  · cases h

/-- The new value agrees with the reply just counted and with the value
it replaces, where the two agree. -/
theorem newValue_agrees {value : Option QReply} (h : ∀ v, value = some v → m.Agrees v) :
    m.Agrees (QCertificate.newValue value m) ∧
      ∀ v, value = some v → v.Agrees (QCertificate.newValue value m) := by
  cases value with
  | none => exact ⟨⟨rfl, rfl⟩, fun v hv => by cases hv⟩
  | some v =>
    have hv := h v rfl
    simp only [QCertificate.newValue]
    split
    · exact ⟨⟨rfl, rfl⟩, fun w hw => by cases hw; exact hv.symm⟩
    · exact ⟨hv, fun w hw => by cases hw; exact ⟨rfl, rfl⟩⟩

/-- **Counting keeps the invariant**: a reply that matches the value
agrees with it, by `match` where both are full and by the step's
condition where one is not. -/
theorem add (h : CertInv N D rid c) (hm : m ∈ D) (hrid : m.rep.rid = rid)
    (hpart : ∀ v, c.value = some v → m.verify N → ¬ (m.full ∧ v.full) → m.Agrees v)
    (hadd : c.add N m = some c') : CertInv N D rid c' := by
  obtain ⟨hver, hrep, hmatch, rfl⟩ := add_cases hadd
  have hagree : ∀ v, c.value = some v → m.Agrees v := by
    intro v hv
    by_cases hfull : m.full ∧ v.full
    · exact (QReply.agrees_of_matches hfull.2 hfull.1 (hmatch v hv)).symm
    · exact hpart v hv hver hfull
  obtain ⟨hnew, hold⟩ := newValue_agrees hagree
  refine ⟨h.complete_eq, ?_, fun i hi => ?_⟩
  · by_cases hin : m.id ∈ c.bmap
    · simp [hin, h.count_eq]
    · simp [hin, h.count_eq]
  · rcases Finset.mem_insert.1 hi with rfl | hi
    · exact ⟨hrep, _, rfl, m, hm, rfl, hver, hrid, hnew⟩
    · obtain ⟨hrep', v, hv, m', hm', hid, hver', hrid', hag⟩ := h.backed i hi
      exact ⟨hrep', _, rfl, m', hm', hid, hver', hrid', hag.trans (hold v hv)⟩

/-- A complete certificate is the commit rule for its value. -/
theorem committed {r : QReply} (h : CertInv N D rid c) (hc : c.isComplete)
    (hr : c.value = some r) : Committed N D rid r := by
  refine ⟨c.bmap, ?_, fun i hi => ?_⟩
  · rw [← h.count_eq, ← h.complete_eq]; exact of_decide_eq_true hc
  · obtain ⟨hrep, v, hv, hm⟩ := h.backed i hi
    obtain rfl : v = r := Option.mem_unique hv hr
    exact ⟨hrep, hm⟩

end CertInv

/-! ## The commit rule over a run -/

/-- What one iteration of the loop can do with a reply: skip it, bail
out, hand back a switch notice, count it, or count it and return. -/
theorem QClient.recvIter_cases (N : QNode) (c : QClient) (rep : QReply) (now : ℕ) :
    c.recvIter N (.reply rep) now = (c, .loop) ∨
    ((c.recvIter N (.reply rep) now).1.r_reps = c.r_reps.clear ∧
      (c.recvIter N (.reply rep) now).2 = .ret none) ∨
    ((c.recvIter N (.reply rep) now).1.r_reps = c.r_reps.clear ∧ rep.rep.should_switch ∧
      (c.recvIter N (.reply rep) now).2 = .ret (some rep)) ∨
    (∃ r_reps, c.r_reps.add N rep = some r_reps ∧ rep.rep.rid = c.out_rid ∧
      c.recvIter N (.reply rep) now = ({ c with r_reps }, .loop)) ∨
    ∃ r_reps r, c.r_reps.add N rep = some r_reps ∧ rep.rep.rid = c.out_rid ∧
      r_reps.isComplete ∧ r_reps.value = some r ∧
      (c.recvIter N (.reply rep) now).1.r_reps = r_reps.clear ∧
      (c.recvIter N (.reply rep) now).2 = .ret (some r) := by
  simp only [recvIter]
  split
  · exact .inr (.inl ⟨rfl, rfl⟩)
  split
  · exact .inl rfl
  next hrid =>
  have hrid' : rep.rep.rid = c.out_rid := not_not.1 hrid
  split
  · next hsw => exact .inr (.inr (.inl ⟨rfl, hsw, rfl⟩))
  split
  · exact .inl rfl
  next r_reps hadd =>
  split
  · next hcomp =>
    split
    · next r hr =>
      split
      · exact .inr (.inr (.inr (.inr ⟨r_reps, r, hadd, hrid', hcomp, hr, rfl, rfl⟩)))
      · exact .inr (.inr (.inr (.inl ⟨r_reps, hadd, hrid', rfl⟩)))
    · exact .inr (.inr (.inr (.inl ⟨r_reps, hadd, hrid', rfl⟩)))
  · exact .inr (.inr (.inr (.inl ⟨r_reps, hadd, hrid', rfl⟩)))

/-- What a run keeps: the certificate's invariant, and the commit rule
for everything returned without a switch notice. -/
structure WorldInv (N : QNode) (w : QWorld) : Prop where
  cert : CertInv N w.delivered w.client.out_rid w.client.r_reps
  returned : ∀ p ∈ w.returned, p.2.rep.should_switch = false →
    Committed N w.delivered p.1 p.2

namespace WorldInv

variable {N : QNode} {w : QWorld}

theorem init (N : QNode) (rid : ℕ) : WorldInv N (QWorld.init N rid) :=
  ⟨⟨rfl, rfl, fun i hi => absurd hi (Finset.notMem_empty i)⟩, fun p hp => by cases hp⟩

variable (h : WorldInv N w)
include h

theorem send : WorldInv N (w.step N .send) := by
  refine ⟨?_, h.returned⟩
  simp only [QWorld.step, QClient.sendRequest]
  split
  · exact h.cert
  · exact h.cert.clear

theorem timeout : WorldInv N (w.step N .timeout) := by
  refine ⟨?_, h.returned⟩
  simp only [QWorld.step, QClient.retransmit]
  split
  · exact h.cert
  split
  · split
    · exact h.cert.clear
    · exact h.cert
  · exact h.cert

/-- Reading one reply inside `recv_reply`. -/
theorem deliver_reply {m : QReply} {now : ℕ} (hok : PartialAgrees N w (.deliver (.reply m) now)) :
    WorldInv N (w.step N (.deliver (.reply m) now)) := by
  simp only [QWorld.step, QWorld.deliver]
  split
  swap
  · exact h
  have hsub : w.delivered ⊆ w.delivered ++ QWorld.replyOf (.reply m) :=
    subset_append_left ..
  have hmem : m ∈ w.delivered ++ QWorld.replyOf (.reply m) := by simp [QWorld.replyOf]
  have hret : ∀ p ∈ w.returned, p.2.rep.should_switch = false →
      Committed N (w.delivered ++ QWorld.replyOf (.reply m)) p.1 p.2 :=
    fun p hp hsw => (h.returned p hp hsw).mono hsub
  -- the certificate after the reply was counted, in the two cases that count it
  have hcount : ∀ r_reps, w.client.r_reps.add N m = some r_reps →
      m.rep.rid = w.client.out_rid →
      CertInv N (w.delivered ++ QWorld.replyOf (.reply m)) w.client.out_rid r_reps :=
    fun r_reps hadd hrid => (h.cert.mono hsub).add hmem hrid
      (fun v hv hver hfull => hok v hv hver hrid hfull) hadd
  rcases w.client.recvIter_cases N m now with hc | ⟨hc, ho⟩ | ⟨hc, hsw, ho⟩ |
    ⟨r_reps, hadd, hrid, hc⟩ | ⟨r_reps, r, hadd, hrid, hcomp, hr, hc, ho⟩
  · rw [hc]; exact ⟨h.cert.mono hsub, hret⟩
  · refine ⟨?_, ?_⟩
    · rw [hc]; exact h.cert.clear
    · rw [ho]; exact hret
  · refine ⟨?_, ?_⟩
    · rw [hc]; exact h.cert.clear
    · rw [ho]
      intro p hp hps
      rcases mem_append.1 hp with hp | hp
      · exact hret p hp hps
      · rw [mem_singleton.1 hp] at hps
        exact absurd (hsw.symm.trans hps) (by decide)
  · rw [hc]; exact ⟨hcount r_reps hadd hrid, hret⟩
  · refine ⟨?_, ?_⟩
    · rw [hc]; exact (hcount r_reps hadd hrid).clear
    · rw [ho]
      intro p hp hps
      rcases mem_concat_iff.1 hp with hp | rfl
      · exact hret p hp hps
      · exact (hcount r_reps hadd hrid).committed hcomp hr

theorem step (e : QEvent) (hok : PartialAgrees N w e) : WorldInv N (w.step N e) := by
  cases e with
  | send => exact h.send
  | timeout => exact h.timeout
  | deliver m now =>
    cases m with
    | reply m => exact h.deliver_reply hok
    | other =>
      simp only [QWorld.step, QWorld.deliver, QClient.recvIter, QWorld.replyOf, append_nil]
      split
      · exact ⟨h.cert, h.returned⟩
      · exact h

end WorldInv

/-- **The Quorum commit rule.** In a run where every reply that meets the
certificate's value while one of the two is not full agrees with it, what
`recv_reply` returns without a switch notice was sent by `3f+1` distinct
replicas, with its result digest and its history digest. -/
theorem recvReply_committed (N : QNode) (rid : ℕ) (es : List QEvent)
    (hok : Guarded (QWorld.step N) (PartialAgrees N) (QWorld.init N rid) es) :
    ∀ p ∈ (exec (QWorld.step N) (QWorld.init N rid) es).returned,
      p.2.rep.should_switch = false →
      Committed N (exec (QWorld.step N) (QWorld.init N rid) es).delivered p.1 p.2 :=
  (hok.invariant (I := WorldInv N) (fun _ e h => h.step e) (WorldInv.init N rid)).returned

/-! Four replicas; the UMAC tag is all zeros and so is the memory after
every header. -/

section Sample

/-- A client of four replicas. -/
def sampleNode : QNode := ⟨1, 4, fun _ => 0, fun _ _ _ => List.replicate 8 0⟩

/-- Replica `i`'s reply to request `1`; `size` is `-1` for one that is
not full. -/
def sampleReply (i size : ℤ) (digest rh_digest : Digest) : QReply :=
  ⟨⟨0, 1, rh_digest, digest, i, size, 4, false, 0⟩, 16, fun _ => 0⟩

/-- Four full replies that agree. -/
def agreeingRun : List QEvent :=
  .send :: [0, 1, 2, 3].map fun i => .deliver (.reply (sampleReply i 0 0 7)) 0

/-- Replica `2` sends the full reply; the others send empty ones with
another result digest and no history digest. -/
def emptyRepliesRun : List QEvent :=
  [.send, .deliver (.reply (sampleReply 0 (-1) 9 0)) 0, .deliver (.reply (sampleReply 1 (-1) 9 0)) 0,
    .deliver (.reply (sampleReply 2 0 0 7)) 0, .deliver (.reply (sampleReply 3 (-1) 9 0)) 0]

/-- The run of agreeing replies returns one, and the commit rule holds of
it. -/
theorem recvReply_committed_agreeing :
    (exec (QWorld.step sampleNode) (QWorld.init sampleNode 1) agreeingRun).returned.length
        = 1 ∧
    ∀ p ∈ (exec (QWorld.step sampleNode) (QWorld.init sampleNode 1) agreeingRun).returned,
      p.2.rep.should_switch = false →
      Committed sampleNode
        (exec (QWorld.step sampleNode) (QWorld.init sampleNode 1) agreeingRun).delivered
        p.1 p.2 :=
  ⟨by decide, recvReply_committed sampleNode 1 agreeingRun (by decide)⟩

/-- **Empty replies match anything.** The client returns replica `2`'s
reply on a run in which no other replica sent its digests. -/
theorem recvReply_returns_uncommitted :
    ∃ p ∈ (exec (QWorld.step sampleNode) (QWorld.init sampleNode 1)
        emptyRepliesRun).returned,
      p.2.rep.should_switch = false ∧
      ¬ Committed sampleNode
        (exec (QWorld.step sampleNode) (QWorld.init sampleNode 1)
          emptyRepliesRun).delivered p.1 p.2 := by
  have hret : (exec (QWorld.step sampleNode) (QWorld.init sampleNode 1)
      emptyRepliesRun).returned = [(1, sampleReply 2 0 0 7)] := rfl
  have hdel : (exec (QWorld.step sampleNode) (QWorld.init sampleNode 1)
      emptyRepliesRun).delivered = [sampleReply 0 (-1) 9 0, sampleReply 1 (-1) 9 0,
        sampleReply 2 0 0 7, sampleReply 3 (-1) 9 0] := rfl
  rw [hret, hdel]
  refine ⟨(1, sampleReply 2 0 0 7), by simp, rfl, ?_⟩
  rintro ⟨S, hS, hi⟩
  have hsub : S ⊆ {2} := by
    intro i hiS
    obtain ⟨-, m, hm, rfl, -, -, hag⟩ := hi i hiS
    simp only [mem_cons, not_mem_nil, or_false] at hm
    rcases hm with rfl | rfl | rfl | rfl
    · exact absurd hag (by decide)
    · exact absurd hag (by decide)
    · exact Finset.mem_singleton_self _
    · exact absurd hag (by decide)
  have hcard : S.card ≤ 1 := Finset.card_le_card hsub
  have hfour : 3 * sampleNode.f + 1 = 4 := rfl
  omega

end Sample

end AbstractBFT.Quorum
