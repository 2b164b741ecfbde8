import AbstractBFT.Chain.Authenticator
import AbstractBFT.Lib.Quorum
import Mathlib.Order.Interval.Finset.Nat
/-!
# Chain — the client

A Chain client takes the first reply to its outstanding request that
passes `C_Reply::verify`. `verify_auth` checks the MACs of the last `f+1`
replicas, but `verify` throws its answer away, so which reply the client
takes is decided by the other checks alone: `recvReply_eq`.
-/

namespace AbstractBFT.Chain

/-- `C_Reply`: the header, the number of bytes the message says follow
it, and the memory from there on. -/
structure CReply where
  rep : CReplyRep
  tailSize : ℕ
  tail : ℤ → UInt8

/-- A message from the client's queue: `C_Reply::convert` takes the ones
with the reply tag, an aligned size and a whole header. -/
inductive CMessage where
  | reply (r : CReply)
  | other

/-- The header of a reply. -/
def CMessage.header : CMessage → Option CReplyRep
  | .reply r => some r.rep
  | .other => none

namespace CReply

/-- `len` bytes of memory, from `off`. -/
def bytes (r : CReply) (off : ℤ) (len : ℕ) : List UInt8 :=
  (List.range len).map fun i : ℕ => r.tail (off + i)

/-- The cells after the reply's body, where its MACs are. -/
def macs (r : CReply) : Mem := fun i =>
  (r.bytes (r.rep.reply_size + 8 * i) 8).foldr (fun b w => BitVec.ofNat 64 b.toNat + 256 * w) 0

/-- The checks of `verify` that decide its result: the sender's
identifier, the sizes and the digest of the body. -/
def checks (N : CNode) (r : CReply) : Bool :=
  N.isReplica r.rep.replica
    && !decide ((r.tailSize : ℤ) - r.rep.reply_size < (N.f + 1) * 16)
    && N.md5 (r.bytes 0 (r.rep.reply_size % 2 ^ 32).toNat) == r.rep.digest

/-- `C_Reply::verify` at client `me`. -/
def verify (N : CNode) (me : ℤ) (r : CReply) : Bool :=
  if !r.checks N then false
  else
    let _ret := (N.verifyAuth N.n me r.rep.replica (.reply r.rep) r.macs 0).isSome
    -- TODO these if condition must be removed
    if r.rep.cid ≠ -1 then true
    else true

@[simp] theorem verify_eq_checks (N : CNode) (me : ℤ) (r : CReply) :
    r.verify N me = r.checks N := by
  simp [verify]

end CReply

/-- `C_Client`. -/
structure CClient where
  id : ℤ
  out_req : Bool
  out_rid : ℕ
  nb_received_requests : ℕ

/-- How a call of `recv_reply` ends: it waits for more messages, there is
nothing to wait for, or it returns a reply. -/
inductive RecvResult where
  | blocked
  | nothing
  | ret (r : CReply)

namespace CClient

/-- What `recv_reply` does to the client when it returns; `rid` is what
`new_rid` hands out. -/
def done (c : CClient) (rid : ℕ) : CClient :=
  { c with nb_received_requests := c.nb_received_requests + 1, out_rid := rid, out_req := false }

/-- The loop of `recv_reply` over the messages of the queue. -/
def recvLoop (N : CNode) (c : CClient) (rid : ℕ) : List CMessage → CClient × RecvResult
  | [] => (c, .blocked)
  | .other :: queue => recvLoop N c rid queue
  | .reply rep :: queue =>
    if rep.rep.should_switch then (c.done rid, .ret rep)
    else if rep.rep.rid ≠ c.out_rid then recvLoop N c rid queue
    else if !rep.verify N c.id then recvLoop N c rid queue
    else (c.done rid, .ret rep)

/-- `recv_reply`. -/
def recvReply (N : CNode) (c : CClient) (rid : ℕ) (queue : List CMessage) : CClient × RecvResult :=
  if !c.out_req then (c, .nothing) else c.recvLoop N rid queue

/-- The reply a message makes `recv_reply` return: a switch notice, or
one for the outstanding request that passes the checks of `verify` other
than the MACs. -/
def taken (N : CNode) (c : CClient) : CMessage → Option CReply
  | .other => none
  | .reply r =>
    if r.rep.should_switch || (r.rep.rid == c.out_rid && r.checks N) then some r else none

end CClient

/-- The MACs of the last `f+1` replicas over the reply's header verify
for this client. -/
def MacsVerified (N : CNode) (me : ℤ) (r : CReply) : Prop :=
  ∀ j ≤ N.f, N.umac (key (2 * N.f + j) me) (.reply r.rep) (r.macs (2 * j)) = r.macs (2 * j + 1)
  deriving Decidable

/-! ## What the client takes -/

/-- **`recv_reply` takes the first message that passes the checks other
than the MACs.** -/
theorem CClient.recvReply_eq (N : CNode) (c : CClient) (hout : c.out_req) (rid : ℕ)
    (queue : List CMessage) :
    (c.recvReply N rid queue).2 =
      match queue.findSome? (c.taken N) with
      | some r => .ret r
      | none => .blocked := by
  simp only [recvReply, hout, Bool.not_true, Bool.false_eq_true, if_false]
  induction queue with
  | nil => rfl
  | cons m queue ih =>
    cases m with
    | other => simpa [recvLoop, taken, List.findSome?_cons] using ih
    | reply r =>
      rw [recvLoop, List.findSome?_cons]
      by_cases hsw : r.rep.should_switch
      · simp [taken, hsw]
      by_cases hrid : r.rep.rid = c.out_rid
      · cases hch : r.checks N <;> simp [taken, hsw, hrid, hch, ih]
      · simp [taken, hsw, hrid, ih]

/-- The reply the client takes as the result of its outstanding
request carries the MACs of the last `f+1` replicas. -/
def ReplyAuthentic (N : CNode) (c : CClient) (rid : ℕ) (queue : List CMessage) : Prop :=
  ∀ r, (c.recvReply N rid queue).2 = .ret r → r.rep.should_switch = false → MacsVerified N c.id r

variable {N : CNode} {r : CReply} {c : CClient} {rid : ℕ} {queue : List CMessage}

/-- With at most `f` faulty replicas and unforgeable MACs, the MACs of
the last `f+1` replicas include one a correct replica made. -/
theorem MacsVerified.exists_vouched {me : ℤ} (h : MacsVerified N me r) {byz : Finset ℕ}
    (hbyz : byz.card ≤ N.f) {vouched : ℕ → CReplyRep → Prop}
    (hunf : ∀ p ∉ byz, ∀ i, N.umac (key p me) (.reply r.rep) (r.macs i) = r.macs (i + 1) →
      vouched p r.rep) : ∃ p ∉ byz, 2 * N.f ≤ p ∧ p < N.n ∧ vouched p r.rep := by
  have hn : N.n = 3 * N.f + 1 := rfl
  obtain ⟨p, hp, hpb⟩ := Quorum.exists_correct_of_card (S := Finset.Ico (2 * N.f) N.n) hbyz
    (by rw [Nat.card_Ico]; omega)
  rw [Finset.mem_Ico] at hp
  have hmac := h (p - 2 * N.f) (by omega)
  have hkey : (2 * N.f + (p - 2 * N.f : ℕ) : ℤ) = p := by omega
  rw [hkey] at hmac
  exact ⟨p, hpb, hp.1, hp.2, hunf p hpb _ hmac⟩

/-- A reply the client returns is the first one it takes. -/
theorem CClient.findSome?_of_recvReply (h : (c.recvReply N rid queue).2 = .ret r) :
    queue.findSome? (c.taken N) = some r := by
  by_cases hout : c.out_req
  · rw [c.recvReply_eq N hout rid queue] at h
    split at h
    · next hr' =>
      cases h
      exact hr'
    · cases h
  · simp [recvReply, hout] at h

/-- A reply the client returns was in its queue, and is a switch notice
or answers the outstanding request. -/
theorem CClient.mem_of_recvReply (h : (c.recvReply N rid queue).2 = .ret r) :
    .reply r ∈ queue ∧ (r.rep.should_switch = false → r.rep.rid = c.out_rid) := by
  obtain ⟨m, hm, hmr⟩ := List.exists_of_findSome?_eq_some (findSome?_of_recvReply h)
  cases m with
  | other => cases hmr
  | reply r' =>
    simp only [taken, Option.ite_none_right_eq_some, Option.some.injEq] at hmr
    obtain ⟨hcond, rfl⟩ := hmr
    refine ⟨hm, fun hsw => ?_⟩
    simp only [hsw, Bool.false_or, Bool.and_eq_true, beq_iff_eq] at hcond
    exact hcond.1

/-- **When the reply a client takes is authentic**: exactly when the
first message that passes the other checks is a switch notice or carries
the MACs; then, with at most `f` faulty replicas and MACs no one forges
in the queue's replies, a correct one of the last `f+1` vouched for
it. -/
theorem replyAuthentic_iff (N : CNode) (c : CClient) (rid : ℕ) (queue : List CMessage) :
    (ReplyAuthentic N c rid queue ↔
      (c.out_req → ∀ r ∈ queue.findSome? (c.taken N), r.rep.should_switch = false →
        MacsVerified N c.id r)) ∧
    ∀ (byz : Finset ℕ) (vouched : ℕ → CReplyRep → Prop), byz.card ≤ N.f →
      (∀ p ∉ byz, ∀ r, .reply r ∈ queue → ∀ i,
        N.umac (key p c.id) (.reply r.rep) (r.macs i) = r.macs (i + 1) → vouched p r.rep) →
      ReplyAuthentic N c rid queue → ∀ r, (c.recvReply N rid queue).2 = .ret r →
        r.rep.should_switch = false → ∃ p ∉ byz, 2 * N.f ≤ p ∧ p < N.n ∧ vouched p r.rep := by
  refine ⟨?_, fun byz vouched hbyz hunf hauth r hr hsw => ?_⟩
  · by_cases hout : c.out_req
    · simp only [ReplyAuthentic, c.recvReply_eq N hout rid queue, hout, true_implies]
      cases queue.findSome? (c.taken N) <;> simp
    · have hnone : (c.recvReply N rid queue).2 = .nothing := by simp [CClient.recvReply, hout]
      simp [ReplyAuthentic, hnone, hout]
  · exact (hauth r hr hsw).exists_vouched hbyz fun p hp =>
      hunf p hp r (CClient.mem_of_recvReply hr).1

section Sample

/-- Client `4`, waiting for the reply to request `1`. -/
def sampleClient : CClient := ⟨4, true, 1, 0⟩

/-- A reply to request `1` with the given bytes after its header. -/
def sampleReply (tail : ℤ → UInt8) : CReply := ⟨⟨0, 1, 0, 0, 0, 0, -1, false, 0⟩, 32, tail⟩

/-- The bytes of the MACs of replicas `2` and `3` for client `4`, whose
keys are `2004` and `3004`. -/
def goodMacs : ℤ → UInt8
  | 8 => 0xd4
  | 9 => 0x07
  | 24 => 0xbc
  | 25 => 0x0b
  | _ => 0

/-- A reply with the MACs of replicas `2` and `3` is authentic, and with
replica `2` faulty replica `3` stands for it. -/
theorem replyAuthentic_goodMacs :
    ReplyAuthentic (sampleNode 1) sampleClient 2 [.reply (sampleReply goodMacs)] ∧
    ∃ p ∉ ({2} : Finset ℕ), 2 * (sampleNode 1).f ≤ p ∧ p < (sampleNode 1).n ∧
      (sampleReply goodMacs).rep.rid = 1 := by
  have h : ReplyAuthentic (sampleNode 1) sampleClient 2 [.reply (sampleReply goodMacs)] := by
    refine (replyAuthentic_iff _ _ _ _).1.2 fun _ r hr _ => ?_
    obtain rfl : sampleReply goodMacs = r := Option.some.inj hr
    decide
  refine ⟨h, (replyAuthentic_iff _ _ 2 _).2 {2} (fun _ rep => rep.rid = 1) (by decide) ?_ h
    (sampleReply goodMacs) rfl rfl⟩
  intro p _ r hr i _
  cases List.mem_singleton.1 hr
  rfl

/-- **The client takes a reply no replica made**: with zeros for MACs,
those of replicas `2` and `3` do not verify. -/
theorem not_replyAuthentic_forged :
    ¬ ReplyAuthentic (sampleNode 1) sampleClient 2 [.reply (sampleReply fun _ => 0)] := by
  intro h
  exact absurd (h (sampleReply fun _ => 0) rfl rfl) (by decide)

end Sample

end AbstractBFT.Chain
