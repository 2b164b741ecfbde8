import AbstractBFT.Common.History
import Mathlib.Algebra.Order.Ring.Int
/-!
# Aardvark — requests and pre-prepares

A pre-prepare carries a batch: small requests in full, the digests of big
ones, and the primary's non-deterministic choices. Its digest is the MD5
of the digest *fields* of the inlined requests, the big digests and the
choices, written one after the other without lengths; `verify` recomputes
that MD5 but looks at the requests themselves only in some modes and only
where the request is not already queued. `eq_of_flatMap_digestBytes` is
what the concatenation determines: with the number of requests known, all
of its parts.
-/

namespace AbstractBFT.Aardvark

open List

/-- A view number (`long long`; negative for "no view"). -/
abbrev View := ℤ

/-- `max_out`, the size of the log window. -/
def maxOut : ℕ := 256

/-- `checkpoint_interval`. -/
def checkpointInterval : ℕ := 128

/-- What a replica knows of the system: the fault bound, its identifier,
the number of principals (replicas and clients), and MD5. -/
structure Node where
  f : ℕ
  id : ℕ
  np : ℕ
  md5 : Md5

namespace Node

/-- `n`, the number of replicas. -/
def n (N : Node) : ℕ := 3 * N.f + 1

/-- `n_f`, the size of a quorum. -/
def nf (N : Node) : ℕ := 2 * N.f + 1

/-- `primary(v)`. -/
def primary (N : Node) (v : View) : ℕ := (v % N.n).toNat

/-- `verify_auth_in`: does the authenticator's entry for this replica
verify? "A_Principal never verifies its own authenticator." -/
def verifyAuth (N : Node) (sender : ℕ) (auth : Bool) : Bool := sender != N.id && auth

theorem n_pos (N : Node) : 0 < N.n := Nat.succ_pos _

theorem primary_lt (N : Node) (v : View) : N.primary v < N.n := by
  have hpos : (0 : ℤ) < N.n := by exact_mod_cast N.n_pos
  have hlt := Int.emod_lt_of_pos v hpos
  rw [primary]
  omega

theorem verifyAuth_iff {N : Node} {sender : ℕ} {auth : Bool} :
    N.verifyAuth sender auth ↔ sender ≠ N.id ∧ auth := by
  simp [verifyAuth]

end Node

/-! ## Requests -/

/-- `A_Request`. `auth` is what checking the authenticator or signature
behind the command says at the replica that holds the message, sizes
included; `payload` are the bytes behind the header. -/
structure Request where
  od : Digest
  read_only : Bool
  signed : Bool
  command_size : ℤ
  cid : BitVec 32
  rid : BitVec 64
  payload : List UInt8
  auth : Bool
  deriving DecidableEq

namespace Request

/-- `command(len)`: what the service is called with. -/
def command (r : Request) : List UInt8 := r.payload.take r.command_size.toNat

/-- What executing a request reads of it. -/
def key (r : Request) : BitVec 32 × BitVec 64 × List UInt8 := (r.cid, r.rid, r.command)

/-- The bytes `comp_digest` hashes: `command_size` bytes from the command
on, and the client and request identifiers that stand right before it. A
negative `command_size` cuts into these. -/
def bytes (r : Request) : List UInt8 :=
  (leBytes 4 r.cid.toNat ++ leBytes 8 r.rid.toNat ++ r.payload).take (12 + r.command_size).toNat

/-- `comp_digest`. -/
def compDigest (md5 : Md5) (r : Request) : Digest := md5 r.bytes

/-- `verify`: the digest field is right, and the client's authenticator or
signature verifies. -/
def verify (N : Node) (r : Request) : Bool :=
  decide (0 ≤ r.cid.toInt ∧ r.cid.toInt < N.np) && r.compDigest N.md5 == r.od &&
    if r.signed then r.auth
    else decide (r.cid.toInt ≠ N.id ∧ (N.n : ℤ) ≤ r.cid.toInt) && r.auth

end Request

/-- The request queue, as far as verification reads it:
`rqueue.first_client(cid)`. -/
abbrev ReqQueue := BitVec 32 → Option Request

/-- `has_req`: the first queued request of the client has this digest
field. -/
def hasReq (q : ReqQueue) (cid : BitVec 32) (d : Digest) : Bool := (q cid).any (·.od == d)

/-! ## Pre-prepares -/

/-- The modes of `A_Pre_prepare::verify`: all checks, `NAC` without the
authenticator, `NRC` without the requests. -/
inductive Mode where
  | all
  | nac
  | nrc
  deriving DecidableEq

/-- `A_Pre_prepare`. `rset` lists the inlined requests, with `none` where
`A_Request::convert` refuses what stands there; `sized` says that the
message is as long as its header says, and `auth` that the authenticator
of the primary of `view` verifies here. -/
structure PrePrepare where
  view : View
  seqno : ℕ
  digest : Digest
  rset : List (Option Request)
  big_reqs : List Digest
  non_det : List UInt8
  sized : Bool
  auth : Bool
  deriving DecidableEq

def digestBytes (d : Digest) : List UInt8 := leBytes 16 d.toNat

namespace PrePrepare

/-- The digests a batch hashes, in order: the digest fields of the inlined
requests, then the digests of the big ones. -/
def reqDigests (m : PrePrepare) : List Digest := m.rset.reduceOption.map (·.od) ++ m.big_reqs

/-- What the batch digest is the MD5 of. -/
def batchBytes (m : PrePrepare) : List UInt8 := m.reqDigests.flatMap digestBytes ++ m.non_det

/-- The test of `verify` on one inlined request. -/
def checkReq (N : Node) (q : ReqQueue) (mode : Mode) : Option Request → Bool
  | none => false
  | some r => mode == .nrc || hasReq q r.cid r.od || r.verify N

/-- `verify(mode)`. -/
def verify (N : Node) (q : ReqQueue) (mode : Mode) (m : PrePrepare) : Bool :=
  m.sized && m.rset.all (checkReq N q mode) && N.md5 m.batchBytes == m.digest &&
    (mode == .nac || N.verifyAuth (N.primary m.view) m.auth)

/-- `Requests_iter`: the inlined requests, then the big ones as the table
of big requests has them; `none` where its assertion fails. -/
def requests (lookup : Digest → Option Request) (m : PrePrepare) : Option (List Request) :=
  (m.rset.mapM id).bind fun small => (m.big_reqs.mapM lookup).map fun big => small ++ big

/-- `clone(v)`. -/
def clone (m : PrePrepare) (v : View) : PrePrepare := { m with view := v }

variable {N : Node} {q : ReqQueue} {mode : Mode} {m : PrePrepare}

theorem md5_of_verify (h : m.verify N q mode) : N.md5 m.batchBytes = m.digest := by
  simp only [verify, Bool.and_eq_true, beq_iff_eq] at h
  exact h.1.2

theorem auth_of_verify (h : m.verify N q mode) (hmode : mode ≠ .nac) :
    N.primary m.view ≠ N.id ∧ m.auth := by
  simp only [verify, Bool.and_eq_true, Bool.or_eq_true, beq_iff_eq] at h
  exact Node.verifyAuth_iff.1 (h.2.resolve_left hmode)

end PrePrepare

/-! ## What the concatenation determines -/

/-- **The framing.** Two batches of equally many digests, followed by the
choices, that are written as the same bytes are the same. -/
theorem eq_of_flatMap_digestBytes {ds ds' : List Digest} {nd nd' : List UInt8}
    (hlen : ds.length = ds'.length)
    (h : ds.flatMap digestBytes ++ nd = ds'.flatMap digestBytes ++ nd') : ds = ds' ∧ nd = nd' := by
  induction ds generalizing ds' with
  | nil =>
    obtain rfl := length_eq_zero_iff.1 hlen.symm
    exact ⟨rfl, by simpa using h⟩
  | cons d ds ih =>
    cases ds' with
    | nil => cases hlen
    | cons d' ds' =>
      simp only [flatMap_cons, append_assoc] at h
      obtain ⟨hd, hrest⟩ := append_inj h (by simp [digestBytes])
      obtain ⟨rfl, hnd⟩ := ih (Nat.succ.inj hlen) hrest
      exact ⟨by rw [toNat_inj_of_leBytes_eq rfl hd], hnd⟩

namespace Request

/-- What a request stands for: the identifiers and the command. -/
def contents (r : Request) : List UInt8 :=
  leBytes 4 r.cid.toNat ++ (leBytes 8 r.rid.toNat ++ r.command)

/-- The digest field is the MD5 of what the request stands for. -/
def Sealed (md5 : Md5) (r : Request) : Prop := md5 r.contents = r.od

/-- With a `command_size` that is not negative, these are the bytes that
are hashed. -/
theorem bytes_eq_contents {r : Request} (h : 0 ≤ r.command_size) : r.bytes = r.contents := by
  have hlen : (12 + r.command_size).toNat = 4 + (8 + r.command_size.toNat) := by omega
  rw [bytes, hlen, append_assoc, take_append, take_append, contents, command,
    take_of_length_le (by simp), take_of_length_le (by simp)]
  simp

theorem contents_eq_iff {r s : Request} : r.contents = s.contents ↔ r.key = s.key := by
  constructor
  · intro h
    obtain ⟨hcid, hrest⟩ := append_inj h (by simp)
    obtain ⟨hrid, hcmd⟩ := append_inj hrest (by simp)
    rw [key, key, toNat_inj_of_leBytes_eq rfl hcid, toNat_inj_of_leBytes_eq rfl hrid, hcmd]
  · intro h
    obtain ⟨hcid, hrid, hcmd⟩ : r.cid = s.cid ∧ r.rid = s.rid ∧ r.command = s.command := by
      simpa [key] using h
    rw [contents, contents, hcid, hrid, hcmd]

end Request

/-! ## A small group -/

/-- A hash function that tells short strings apart. -/
def toyMd5 : Md5 := fun bs => BitVec.ofNat 128 (bs.foldl (fun a b => 257 * a + b.toNat + 1) 0)

/-- Replica `i` of `3f+1`, with one client behind the replicas. -/
def toyNode (f i : ℕ) : Node := ⟨f, i, 3 * f + 2, toyMd5⟩

/-- The client's first request, with a one-byte command. -/
def toyRequest (f : ℕ) (command : UInt8) : Request :=
  let r : Request := ⟨0, false, false, 1, BitVec.ofNat 32 (3 * f + 1), 1, [command], true⟩
  { r with od := r.compDigest toyMd5 }

end AbstractBFT.Aardvark
