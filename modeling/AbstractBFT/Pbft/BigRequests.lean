import AbstractBFT.Common.BigReqTable
/-!
# PBFT — requests and the table of big requests

With `big_req_thresh = 0` every request is big: a pre-prepare carries its
digest, and the request itself is kept in a table under the digest field
`od` of the message. `verify` compares that field with the MD5 of the
client, the request number and the command. A request gets into the table
verified, or unverified where a pre-prepare waits for its digest and either
`f` prepares match that pre-prepare or the replica is between views; the
primary puts in what it takes from its queue. `Named` is what the table
should keep: what is stored under a digest has that MD5.
-/

namespace AbstractBFT.Pbft

open List Option

/-- What a replica knows of the system: the fault bound, its identifier,
the number of principals and the digest. `j2ee` says that the environment
variable `PBFT_J2EE` is set. -/
structure Node where
  f : ℕ
  id : ℕ
  np : ℕ
  md5 : Md5
  j2ee : Bool

namespace Node

/-- `n`, the number of replicas. -/
def n (N : Node) : ℕ := 3 * N.f + 1

/-- `i_to_p` does not return a null pointer. -/
def isPrincipal (N : Node) (cid : ℤ) : Bool := 0 ≤ cid && cid < N.np

/-- `is_PBFT_R_replica`. -/
def isReplica (N : Node) (cid : ℤ) : Bool := 0 ≤ cid && cid < N.n

end Node

/-! ## Requests -/

/-- `PBFT_R_Request` as it arrives. `sized` says that the message has room
for its authenticator or signature, `auth` that this verifies as the
client's over the header, `od` included. `command` are the `command_size`
bytes behind the header, where that `short` is not negative. -/
structure RequestMsg where
  od : Digest
  read_only : Bool
  signed : Bool
  cid : ℤ
  rid : ℕ
  command : List UInt8
  sized : Bool
  auth : Bool
  deriving DecidableEq

namespace RequestMsg

/-- `comp_digest`. -/
def compDigest (md5 : Md5) (m : RequestMsg) : Digest :=
  md5 (leBytes 4 (m.cid % 2 ^ 32).toNat ++ leBytes 8 m.rid ++ m.command)

/-- `verify`. For a zero digest under J2EE the outcome of `verify_auth_out`
is not looked at. -/
def verify (N : Node) (m : RequestMsg) : Bool :=
  if N.j2ee && m.od == 0 then true
  else
    N.isPrincipal m.cid && m.compDigest N.md5 == m.od && m.sized && m.auth &&
      (m.signed || m.cid != N.id && decide ((N.n : ℤ) ≤ m.cid))

/-- Outside J2EE a request that verifies has the digest it claims. -/
theorem compDigest_of_verify {N : Node} {m : RequestMsg} (h : m.verify N)
    (hzero : (N.j2ee && m.od == 0) = false) : m.compDigest N.md5 = m.od := by
  rw [verify, hzero, if_neg Bool.false_ne_true] at h
  simp only [Bool.and_eq_true, beq_iff_eq] at h
  exact h.1.1.1.2

end RequestMsg

/-! ## The request queue -/

/-- `PBFT_R_Req_queue`: the requests in their order, at most one of a
client. -/
abbrev ReqQueue := List RequestMsg

namespace ReqQueue

/-- `append`; `none` where it returns false. -/
def append (q : ReqQueue) (r : RequestMsg) : Option ReqQueue :=
  match q.find? fun o => o.cid == r.cid with
  | none => some (q ++ [r])
  | some o => if o.rid < r.rid then some (q.filter (fun o => o.cid != r.cid) ++ [r]) else none

/-- `remove(cid, rid)`. -/
def removeUpTo (q : ReqQueue) (cid : ℤ) (rid : ℕ) : ReqQueue :=
  q.filter fun o => !(o.cid == cid && decide (o.rid ≤ rid))

theorem mem_of_append {q q' : ReqQueue} {r o : RequestMsg} (h : q.append r = some q') (ho : o ∈ q') :
    o = r ∨ o ∈ q := by
  rw [append] at h
  split at h
  · obtain rfl := some.inj h
    rcases mem_append.1 ho with ho | ho
    · exact .inr ho
    · exact .inl (mem_singleton.1 ho)
  · split at h
    · obtain rfl := some.inj h
      rcases mem_append.1 ho with ho | ho
      · exact .inr (mem_filter.1 ho).1
      · exact .inl (mem_singleton.1 ho)
    · cases h

theorem mem_of_removeUpTo {q : ReqQueue} {cid : ℤ} {rid : ℕ} {o : RequestMsg}
    (ho : o ∈ q.removeUpTo cid rid) : o ∈ q := (mem_filter.1 ho).1

end ReqQueue

/-! ## The table -/

/-- `PBFT_R_Big_req_table`. -/
abbrev BigReqTable := AbstractBFT.BigReqTable RequestMsg.od RequestMsg.cid

namespace BigReqTable

/-- What is stored under a digest has that MD5. -/
def Named (md5 : Md5) (brt : BigReqTable) : Prop :=
  ∀ rd r, brt.lookup rd = some r → r.compDigest md5 = rd

theorem named_empty (md5 : Md5) : Named md5 .empty := by
  intro rd r h
  cases h

end BigReqTable

/-! ## Pre-prepares -/

/-- `PBFT_R_Pre_prepare`: the requests it carries in full and the digests
of the big ones. -/
structure PrePrepare where
  view : ℕ
  seqno : ℕ
  rset : List RequestMsg
  big_reqs : List Digest
  deriving DecidableEq

/-- What `PBFT_R_Requests_iter` yields; `none` where a request is missing,
which is a failed assertion. -/
def PrePrepare.requests (brt : BigReqTable) (pp : PrePrepare) : Option (List RequestMsg) :=
  (pp.big_reqs.mapM brt.lookup).map (pp.rset ++ ·)

/-- The big requests are those the table has for the digests. -/
theorem PrePrepare.exists_of_requests {brt : BigReqTable} {pp : PrePrepare} {rs : List RequestMsg}
    (h : pp.requests brt = some rs) :
    ∃ big, rs = pp.rset ++ big ∧
      List.Forall₂ (fun rd r => brt.lookup rd = some r) pp.big_reqs big := by
  rw [requests, map_eq_some_iff] at h
  obtain ⟨big, hbig, rfl⟩ := h
  refine ⟨big, rfl, ?_⟩
  generalize pp.big_reqs = ds at hbig
  induction ds generalizing big with
  | nil =>
    obtain rfl := some.inj hbig
    exact .nil
  | cons d ds ih =>
    rw [mapM_cons] at hbig
    obtain ⟨r, hr, hbig⟩ := bind_eq_some_iff.1 hbig
    obtain ⟨rest, hrest, hbig⟩ := bind_eq_some_iff.1 hbig
    obtain rfl := some.inj hbig
    exact .cons hr (ih rest hrest)

end AbstractBFT.Pbft
