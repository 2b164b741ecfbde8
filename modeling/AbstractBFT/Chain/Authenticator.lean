import AbstractBFT.Common.History
import Mathlib.Data.Int.Order.Basic
import Mathlib.Tactic.Ring
import Mathlib.Tactic.IntervalCases
/-!
# Chain — authenticators

A Chain request carries an array of nonces and MACs that every replica
checks and rewrites in place before it forwards the request: `gen_auth`
appends a nonce and the MACs for the next `f+1` replicas (or the client),
`verify_auth_from_client` and `verify_auth` check the first MAC of every
predecessor within `f+1` hops and close the gap it leaves. All offsets
are multiples of eight bytes, so memory is an array of 64-bit cells,
starting at the authenticator and going on past its end.
-/

namespace AbstractBFT.Chain

open List

/-- `C_Request_rep`. The `listnum` field is left out: it is zeroed before
every MAC and digest. -/
structure CRequestRep where
  extra : ℕ
  od : Digest
  seq_num : ℕ
  command_size : ℕ
  cid : ℤ
  rid : ℕ
  deriving DecidableEq

/-- `C_Reply_rep`. -/
structure CReplyRep where
  v : ℕ
  rid : ℕ
  rh_digest : Digest
  digest : Digest
  replica : ℤ
  reply_size : ℤ
  cid : ℤ
  should_switch : Bool
  instance_id : ℕ
  deriving DecidableEq

/-- What a MAC is computed over: a request header or a reply header. -/
inductive Payload where
  | request (h : CRequestRep)
  | reply (h : CReplyRep)
  deriving DecidableEq

/-- Eight bytes of a message. -/
abbrev Cell := BitVec 64

/-- The cells of a message from the start of its authenticator. -/
abbrev Mem := ℕ → Cell

/-- `memmove(dst, src, cnt)`, in cells. -/
def memmove (m : Mem) (dst src cnt : ℕ) : Mem :=
  fun i => if dst ≤ i ∧ i < dst + cnt then m (i - dst + src) else m i

/-- The memory after `cells` are written from `dst` on. -/
def putCells (m : Mem) (dst : ℕ) (cells : List Cell) : Mem :=
  fun i => if dst ≤ i ∧ i < dst + cells.length then cells.getD (i - dst) 0 else m i

/-- What every node of the system shares: the fault bound, MD5, and the
UMAC tag of a payload under a key and a nonce. -/
structure CNode where
  f : ℕ
  md5 : Md5
  umac : ℤ → Payload → Cell → Cell

/-- The key principals `i` and `j` share for messages from `i` to `j`:
`C_Principal` derives it from `i*1000 + j`. -/
def key (i j : ℤ) : ℤ := i * 1000 + j

namespace CNode

variable (N : CNode)

/-- `num_replicas`. -/
def n : ℕ := 3 * N.f + 1

/-- `C_Node::is_replica`. -/
def isReplica (id : ℤ) : Bool := 0 ≤ id && id < N.n

/-- `auth_size`, in cells: `(f+1)(f+2)/2` MACs and `f+1` nonces. -/
def authSize : ℕ := (N.f + 1) * (N.f + 2) / 2 + (N.f + 1)

/-- `C_Principal::verify_mac` of principal `p` at node `me`: the MAC
after the nonce at `dest`. -/
def verifyMac (p me : ℤ) (s : Payload) (mem : Mem) (dest : ℕ) : Bool :=
  N.umac (key p me) s (mem dest) == mem (dest + 1)

/-- `gen_auth` at node `me`: the consecutive cells it writes. `rr` is
null at a client. -/
def genAuth (me : ℤ) (s : Payload) (rr : Option CReplyRep) (principal_id cid : ℤ)
    (unonce : Cell) : List Cell :=
  let nb_MACs_for_replicas := min (N.f + 1) (N.n - (principal_id + 1)).toNat
  unonce ::
    ((List.range nb_MACs_for_replicas).map fun j : ℕ =>
      N.umac (key me (principal_id + j + 1)) s unonce) ++
    -- need to sign for the client
    if nb_MACs_for_replicas < N.f + 1 then
      rr.toList.map fun rr => N.umac (key me cid) (.reply rr) unonce
    else []

/-- `verify_auth_from_client` at replica `id`: the memory it leaves and
the authentication offset, or `none` where it returns false. Past
replica `f` requests carry nothing from the client. -/
def verifyAuthFromClient (id : ℕ) (cid : ℤ) (s : Payload) (mem : Mem) : Option (Mem × ℕ) :=
  if id > N.n then some (mem, 0)
  else if id > N.f then some (mem, 0)
  else
    let i := id + 1
    let remaining_size := N.authSize
    if !N.verifyMac cid id s mem 0 then none
    else
      let nb_MACs_from_p := min (N.f + 2 - i) (N.n - id + 1)
      if nb_MACs_from_p = 1 then
        some (memmove mem 0 2 (remaining_size - 2), 0)
      else
        some (memmove mem 1 2 (remaining_size - 2), 1 + (nb_MACs_from_p - 1))

/-- The loop of `verify_auth`, from `i` down to `1`; `n_id` stands for the
node the MACs are addressed to and `me` for the one that checks them. -/
def verifyAuthLoop (n_id : ℕ) (me cid : ℤ) (s : Payload) :
    (i : ℕ) → (mem : Mem) → (dest remaining_size : ℕ) → Option (Mem × ℕ)
  | 0, mem, dest, _ => some (mem, dest)
  | i + 1, mem, dest, remaining_size =>
    let p_id : ℤ := if (n_id : ℤ) - (i + 1) < 0 then cid else n_id - (i + 1)
    -- skip checking auth from the client
    if p_id ≠ cid ∧ !N.verifyMac p_id me s mem dest then none
    else
      let nb_MACs_from_p := min (N.f + 2 - (i + 1)) (N.n - n_id + 1)
      if nb_MACs_from_p = 1 then
        verifyAuthLoop n_id me cid s i
          (if p_id ≠ cid then memmove mem dest (dest + 2) (remaining_size - 2) else mem) dest
          (remaining_size - 2)
      else
        let mem' := memmove mem (dest + 1) (dest + 2) (remaining_size - 2)
        if p_id ≠ cid then
          verifyAuthLoop n_id me cid s i mem' (dest + (1 + (nb_MACs_from_p - 1)))
            (remaining_size - (1 + (nb_MACs_from_p - 1)))
        else verifyAuthLoop n_id me cid s i mem' dest remaining_size

/-- `verify_auth`. -/
def verifyAuth (n_id : ℕ) (me cid : ℤ) (s : Payload) (mem : Mem) (authentication_offset : ℕ) :
    Option (Mem × ℕ) :=
  N.verifyAuthLoop n_id me cid s (min (N.f + 1) (n_id + 1)) mem authentication_offset
    (if n_id < N.n then N.authSize else (N.f + 1) * 2)

end CNode

/-- `C_Request`: the header, the command, and the cells after it. -/
structure CRequest where
  rep : CRequestRep
  command : List UInt8
  auth : Mem

namespace CRequest

/-- `comp_digest`: MD5 of the client id, the request id and the
command, which lie next to each other in the message. -/
def compDigest (md5 : Md5) (r : CRequest) : Digest :=
  md5 (leBytes 2 (r.rep.cid % 2 ^ 16).toNat ++ leBytes 8 r.rep.rid ++
    r.command.take r.rep.command_size)

/-- `finalize`: set the flag, the command's length and the digest. -/
def finalize (md5 : Md5) (r : CRequest) (act_len : ℕ) (read_only : Bool) : CRequest :=
  let rep := { r.rep with extra := r.rep.extra / 2 * 2 + read_only.toNat, command_size := act_len }
  { r with rep := { rep with od := compDigest md5 { r with rep } } }

/-- A client's request for `command`: `C_Request(rid)`, whose sequence
number is zero, then `finalize`. The cells of the authenticator hold
whatever the buffer held. -/
def fresh (md5 : Md5) (cid : ℤ) (rid : ℕ) (command : List UInt8) (read_only : Bool) (auth : Mem) :
    CRequest :=
  finalize md5 ⟨⟨0, 0, 0, 0, cid, rid⟩, command, auth⟩ command.length read_only

/-- `is_read_only`. -/
def isReadOnly (r : CRequest) : Bool := r.rep.extra % 2 == 1

/-- `set_seqno`. -/
def setSeqno (r : CRequest) (seq : ℕ) : CRequest := { r with rep := { r.rep with seq_num := seq } }

/-- `authenticate` at node `me`: `gen_auth` from the authentication
offset on. -/
def authenticate (N : CNode) (r : CRequest) (me id : ℤ) (authentication_offset : ℕ)
    (rr : Option CReplyRep) (unonce : Cell) : CRequest :=
  { r with
    auth := putCells r.auth authentication_offset
      (N.genAuth me (.request r.rep) rr id r.rep.cid unonce) }

/-- `verify` at replica `id`: the digest, the client's MAC over the
header with sequence number zero, then the replicas' MACs over the header
as it is. `none` where it returns false. -/
def verify (N : CNode) (r : CRequest) (id : ℕ) : Option (CRequest × ℕ) :=
  if r.compDigest N.md5 ≠ r.rep.od then none
  else
    match N.verifyAuthFromClient id r.rep.cid (.request { r.rep with seq_num := 0 }) r.auth with
    | none => none
    | some (mem, off) =>
      match N.verifyAuth id id r.rep.cid (.request r.rep) mem off with
      | none => none
      | some (mem', off') => some ({ r with auth := mem' }, off')

end CRequest

/-! ## One request down the chain -/

/-- What correct replica `k` does with a request in the part of
`handle(C_Request)` that touches the authenticator: verify it, number it
at the head, authenticate it with the reply header `rr`. The second
component is the cell after the last one `gen_auth` wrote. -/
def hop (N : CNode) (seq : ℕ) (rr : CReplyRep) (unonce : Cell) (k : ℕ) (r : CRequest) :
    Option (CRequest × ℕ) :=
  match r.verify N k with
  | none => none
  | some (r', off) =>
    let r'' := if k = 0 then r'.setSeqno seq else r'
    some (r''.authenticate N k k off (some rr) unonce,
      off + (N.genAuth k (.request r''.rep) (some rr) k r''.rep.cid unonce).length)

/-- A client's request after the first `k` replicas, with the ends of the
writes so far; nonce `0` is the client's and nonce `k + 1` replica
`k`'s. -/
def pass (N : CNode) (seq : ℕ) (rr : CReplyRep) (nonce : ℕ → Cell) (r : CRequest) :
    ℕ → Option (CRequest × List ℕ)
  | 0 => some (r.authenticate N r.rep.cid (-1) 0 none (nonce 0),
      [(N.genAuth r.rep.cid (.request r.rep) none (-1) r.rep.cid (nonce 0)).length])
  | k + 1 =>
    match pass N seq rr nonce r k with
    | none => none
    | some (r', ends) =>
      match hop N seq rr (nonce (k + 1)) k r' with
      | none => none
      | some (r'', e) => some (r'', ends ++ [e])

/-- **Authenticator completeness.** The request gets through all
replicas, no MAC is written past the authenticator's end, and the cells
the last replica copies into the reply hold the nonces and MACs of the
last `f+1` replicas, which the client's `verify_auth` accepts. -/
def AuthComplete (N : CNode) (seq : ℕ) (rr : CReplyRep) (nonce : ℕ → Cell) (r : CRequest) : Prop :=
  ∃ r' ends, pass N seq rr nonce r N.n = some (r', ends) ∧ (∀ e ∈ ends, e ≤ N.authSize) ∧
    (∀ j ≤ N.f, r'.auth (2 * j) = nonce (2 * N.f + j + 1) ∧
      r'.auth (2 * j + 1) =
        N.umac (key (2 * N.f + j) r.rep.cid) (.reply rr) (nonce (2 * N.f + j + 1))) ∧
    (N.verifyAuth N.n r.rep.cid rr.replica (.reply rr) r'.auth 0).isSome

section Memory

variable {m : Mem} {dst src cnt i : ℕ} {cells : List Cell}

theorem memmove_of_mem (h : dst ≤ i) (h' : i < dst + cnt) :
    memmove m dst src cnt i = m (i - dst + src) := if_pos ⟨h, h'⟩

theorem memmove_of_lt (h : i < dst) : memmove m dst src cnt i = m i := if_neg (by omega)

theorem putCells_of_lt (h : i < dst) : putCells m dst cells i = m i := if_neg (by omega)

theorem putCells_add (h : i < cells.length) : putCells m dst cells (dst + i) = cells.getD i 0 := by
  rw [putCells, if_pos (by omega), Nat.add_sub_cancel_left]

end Memory

namespace CNode

variable {N : CNode} {me cid p : ℤ} {s : Payload} {mem : Mem} {n_id i dest rem : ℕ}

theorem verifyMac_iff :
    N.verifyMac p me s mem dest ↔ N.umac (key p me) s (mem dest) = mem (dest + 1) := by
  simp [verifyMac]

/-- The number of cells `gen_auth` writes never exceeds `f + 2`. -/
theorem length_genAuth_le (rr : Option CReplyRep) (principal_id : ℤ) (unonce : Cell) :
    (N.genAuth me s rr principal_id cid unonce).length ≤ N.f + 2 := by
  have hrr : rr.toList.length ≤ 1 := by cases rr <;> simp
  simp only [genAuth]
  split
  · simp; omega
  · simp

/-- The loop of `verify_auth` on the step that stands for the client. -/
theorem verifyAuthLoop_client (h : n_id < i + 1) :
    N.verifyAuthLoop n_id me cid s (i + 1) mem dest rem =
      if min (N.f + 2 - (i + 1)) (N.n - n_id + 1) = 1 then
        N.verifyAuthLoop n_id me cid s i mem dest (rem - 2)
      else
        N.verifyAuthLoop n_id me cid s i (memmove mem (dest + 1) (dest + 2) (rem - 2)) dest rem := by
  have hp : (n_id : ℤ) - (i + 1) < 0 := by omega
  simp [verifyAuthLoop, hp]

/-- And on the step of a replica whose MAC verifies. -/
theorem verifyAuthLoop_check (nb : ℕ) (hp : (n_id : ℤ) - (i + 1) = p) (hp0 : 0 ≤ p) (hpc : p ≠ cid)
    (hmac : N.umac (key p me) s (mem dest) = mem (dest + 1))
    (hnb : min (N.f + 2 - (i + 1)) (N.n - n_id + 1) = nb) :
    N.verifyAuthLoop n_id me cid s (i + 1) mem dest rem =
      if nb = 1 then
        N.verifyAuthLoop n_id me cid s i (memmove mem dest (dest + 2) (rem - 2)) dest (rem - 2)
      else
        N.verifyAuthLoop n_id me cid s i (memmove mem (dest + 1) (dest + 2) (rem - 2))
          (dest + (1 + (nb - 1))) (rem - (1 + (nb - 1))) := by
  subst hp hnb
  have hneg : ¬ (n_id : ℤ) - (i + 1) < 0 := by omega
  have hver := verifyMac_iff.2 hmac
  simp [verifyAuthLoop, hneg, hpc, hver]

/-- And on the step of a replica whose MAC does not. -/
theorem verifyAuthLoop_reject (hp : (n_id : ℤ) - (i + 1) = p) (hp0 : 0 ≤ p) (hpc : p ≠ cid)
    (hmac : N.umac (key p me) s (mem dest) ≠ mem (dest + 1)) :
    N.verifyAuthLoop n_id me cid s (i + 1) mem dest rem = none := by
  subst hp
  have hneg : ¬ (n_id : ℤ) - (i + 1) < 0 := by omega
  have hver : N.verifyMac (n_id - (i + 1)) me s mem dest = false := by
    simpa [verifyMac] using hmac
  simp [verifyAuthLoop, hneg, hpc, hver]

/-- What `verify_auth_from_client` does where the client's MAC
verifies. -/
theorem verifyAuthFromClient_ok (nb : ℕ) {id : ℕ} (hid : id ≤ N.f)
    (hmac : N.umac (key cid id) s (mem 0) = mem 1)
    (hnb : min (N.f + 2 - (id + 1)) (N.n - id + 1) = nb) :
    N.verifyAuthFromClient id cid s mem =
      if nb = 1 then some (memmove mem 0 2 (N.authSize - 2), 0)
      else some (memmove mem 1 2 (N.authSize - 2), 1 + (nb - 1)) := by
  subst hnb
  have hn : ¬ id > N.n := by simp only [n]; omega
  simp [verifyAuthFromClient, hn, hid, verifyMac_iff.2 hmac]

/-- And past replica `f`. -/
theorem verifyAuthFromClient_far {id : ℕ} (hid : N.f < id) :
    N.verifyAuthFromClient id cid s mem = some (mem, 0) := by
  simp [verifyAuthFromClient, hid]

end CNode

namespace CRequest

section Authenticate

variable {N : CNode} {r : CRequest} {me id : ℤ} {off : ℕ} {rr : Option CReplyRep} {unonce : Cell}

/-- `authenticate` leaves what lies before the offset. -/
theorem auth_authenticate_of_lt {i : ℕ} (h : i < off) :
    (r.authenticate N me id off rr unonce).auth i = r.auth i := putCells_of_lt h

/-- The first cell it writes is the nonce. -/
theorem auth_authenticate_nonce : (r.authenticate N me id off rr unonce).auth off = unonce :=
  putCells_add (i := 0) (by simp [CNode.genAuth])

/-- The next ones are the MACs for the following replicas. -/
theorem auth_authenticate_mac (j : ℕ) (hj : j < min (N.f + 1) (N.n - (id + 1)).toNat) :
    (r.authenticate N me id off rr unonce).auth (off + (j + 1)) =
      N.umac (key me (id + j + 1)) (.request r.rep) unonce := by
  refine (putCells_add ?_).trans ?_
  · simp only [CNode.genAuth, length_append, length_cons, length_map,
      length_range]
    omega
  simp only [CNode.genAuth, cons_append, getD_eq_getElem?_getD, getElem?_cons_succ]
  rw [getElem?_append_left (by simpa using hj)]
  simp [getElem?_range hj]

/-- Where fewer than `f+1` replicas follow, the last one is the MAC for
the client. -/
theorem auth_authenticate_client (nb : ℕ) {rr : CReplyRep}
    (hnb : min (N.f + 1) (N.n - (id + 1)).toNat = nb) (h : nb < N.f + 1) :
    (r.authenticate N me id off (some rr) unonce).auth (off + (nb + 1)) =
      N.umac (key me r.rep.cid) (.reply rr) unonce := by
  subst hnb
  refine (putCells_add (by simp [CNode.genAuth, h])).trans ?_
  simp [CNode.genAuth, h, getD_eq_getElem?_getD]

end Authenticate

variable {N : CNode} {r : CRequest} {id off : ℕ} {mem : Mem}

/-- `verify`, from its three checks. -/
theorem verify_eq {off' : ℕ} {mem' : Mem} (hd : r.compDigest N.md5 = r.rep.od)
    (hc : N.verifyAuthFromClient id r.rep.cid (.request { r.rep with seq_num := 0 }) r.auth =
      some (mem, off))
    (hv : N.verifyAuth id id r.rep.cid (.request r.rep) mem off = some (mem', off')) :
    r.verify N id = some ({ r with auth := mem' }, off') := by
  simp [verify, hd, hc, hv]

/-- Where the replicas' MACs fail, so does `verify`. -/
theorem verify_eq_none
    (hc : N.verifyAuthFromClient id r.rep.cid (.request { r.rep with seq_num := 0 }) r.auth =
      some (mem, off)) (hv : N.verifyAuth id id r.rep.cid (.request r.rep) mem off = none) :
    r.verify N id = none := by
  simp [verify, hc, hv]

end CRequest

section Pass

variable {N : CNode} {seq : ℕ} {rr : CReplyRep} {nonce : ℕ → Cell} {r : CRequest}
variable {k : ℕ} {r' : CRequest} {ends : List ℕ}

/-- One more replica verifies and authenticates the request. -/
theorem pass_succ {off : ℕ} {r'' : CRequest} (hp : pass N seq rr nonce r k = some (r', ends))
    (hv : r'.verify N k = some (r'', off)) :
    pass N seq rr nonce r (k + 1) =
      some ((if k = 0 then r''.setSeqno seq else r'').authenticate N k k off (some rr)
          (nonce (k + 1)),
        ends ++ [off + (N.genAuth k (.request (if k = 0 then r''.setSeqno seq else r'').rep)
          (some rr) k (if k = 0 then r''.setSeqno seq else r'').rep.cid
          (nonce (k + 1))).length]) := by
  simp [pass, hp, hop, hv]

/-- A replica that turns the request away ends the pass. -/
theorem pass_succ_eq_none (hp : pass N seq rr nonce r k = some (r', ends))
    (hv : r'.verify N k = none) : pass N seq rr nonce r (k + 1) = none := by
  simp [pass, hp, hop, hv]

theorem pass_eq_none_of_le {k' : ℕ} (h : pass N seq rr nonce r k = none) (hk : k ≤ k') :
    pass N seq rr nonce r k' = none := by
  induction k', hk using Nat.le_induction with
  | base => exact h
  | succ j _ ih => simp [pass, ih]

/-- The authenticator has room for a client's MACs and the head's. -/
theorem le_authSize (hf : 1 ≤ N.f) : 2 * N.f + 3 ≤ N.authSize := by
  have hmul : (N.f + 1) * (N.f + 2) = N.f * N.f + 3 * N.f + 2 := by ring
  have hsq : N.f ≤ N.f * N.f := Nat.le_mul_of_pos_left _ hf
  simp only [CNode.authSize]
  omega

/-! With `f = 1` the authenticator has five cells, and every replica
after the head finds two nonces with one MAC each for itself in front of
one more MAC. -/

/-- The memory replicas `1`, `2` and `3` leave after their checks. -/
theorem closeGaps_apply (m : Mem) :
    memmove (memmove m 0 2 3) 1 2 1 0 = m 2 ∧ memmove (memmove m 0 2 3) 1 2 1 1 = m 4 := by
  constructor <;> simp [memmove]

/-- A replica after the head moves its predecessors' last MACs to the
front and appends its own. -/
theorem pass_next (hf : N.f = 1) (hk : 1 ≤ k) (hp : pass N seq rr nonce r k = some (r', ends))
    (hv : r'.verify N k = some ({ r' with auth := memmove (memmove r'.auth 0 2 3) 1 2 1 }, 2)) :
    ∃ r'' e, pass N seq rr nonce r (k + 1) = some (r'', ends ++ [e]) ∧ e ≤ N.authSize ∧
      r''.rep = r'.rep ∧ r''.compDigest N.md5 = r'.compDigest N.md5 ∧
      r''.auth 0 = r'.auth 2 ∧ r''.auth 1 = r'.auth 4 ∧ r''.auth 2 = nonce (k + 1) ∧
      (∀ j < min (N.f + 1) (N.n - (k + 1 : ℤ)).toNat, r''.auth (2 + (j + 1)) =
        N.umac (key k (k + j + 1)) (.request r''.rep) (nonce (k + 1))) ∧
      ∀ nb, min (N.f + 1) (N.n - (k + 1 : ℤ)).toNat = nb → nb < N.f + 1 →
        r''.auth (2 + (nb + 1)) = N.umac (key k r''.rep.cid) (.reply rr) (nonce (k + 1)) := by
  have hA : N.authSize = 5 := by rw [CNode.authSize, hf]
  have hnext := pass_succ hp hv
  rw [if_neg (by omega)] at hnext
  obtain ⟨h0, h1⟩ := closeGaps_apply r'.auth
  refine ⟨_, _, hnext, ?_, rfl, rfl, ?_, ?_, CRequest.auth_authenticate_nonce,
    fun j hj => CRequest.auth_authenticate_mac j hj,
    fun nb hnb h => CRequest.auth_authenticate_client nb hnb h⟩
  · exact (Nat.add_le_add_left (CNode.length_genAuth_le ..) _).trans (by omega)
  · exact (CRequest.auth_authenticate_of_lt (by omega)).trans h0
  · exact (CRequest.auth_authenticate_of_lt (by omega)).trans h1

/-- The client's check of a reply with `f = 1`. -/
theorem verifyAuth_reply_isSome (hf : N.f = 1) {me : ℤ} {s : Payload} {m : Mem}
    (h1 : m 1 = N.umac (key 2 me) s (m 0)) (h3 : m 3 = N.umac (key 3 me) s (m 2)) :
    (N.verifyAuth N.n me 0 s m 0).isSome := by
  have hn : N.n = 4 := by rw [CNode.n, hf]
  have hmin : min (N.f + 1) (N.n + 1) = 2 := by omega
  rw [CNode.verifyAuth, hmin,
    CNode.verifyAuthLoop_check 1 (p := 2) (by rw [hn]; rfl) (by decide) (by decide) h1.symm
      (by omega), if_pos rfl,
    CNode.verifyAuthLoop_check 1 (p := 3) (by rw [hn]; rfl) (by decide) (by decide)
      (by simp [memmove, hn, hf, h3]) (by omega)]
  rfl

section

variable (hd : r.compDigest N.md5 = r.rep.od)

include hd

/-- **The head.** A client's request leaves it with the client's MAC for
replica `1` in front, and behind that the head's nonce and its MACs for
replicas `1` and `2`. -/
theorem pass_one (hf : 1 ≤ N.f) (hseq : r.rep.seq_num = 0) :
    ∃ r' ends, pass N seq rr nonce r 1 = some (r', ends) ∧
      r'.rep = { r.rep with seq_num := seq } ∧ r'.compDigest N.md5 = r'.rep.od ∧
      (∀ e ∈ ends, e ≤ N.authSize) ∧
      r'.auth 0 = nonce 0 ∧
      r'.auth 1 = N.umac (key r.rep.cid 1) (.request r.rep) (nonce 0) ∧
      r'.auth (N.f + 1) = nonce 1 ∧
      r'.auth (N.f + 2) = N.umac (key 0 1) (.request r'.rep) (nonce 1) ∧
      r'.auth (N.f + 3) = N.umac (key 0 2) (.request r'.rep) (nonce 1) := by
  have hn : N.n = 3 * N.f + 1 := rfl
  have hA := le_authSize hf
  -- the cells the client wrote and the head's checks read
  set r₀ := r.authenticate N r.rep.cid (-1) 0 none (nonce 0) with hr₀
  have h0 : r₀.auth 0 = nonce 0 := CRequest.auth_authenticate_nonce
  have h1 : r₀.auth 1 = N.umac (key r.rep.cid 0) (.request r.rep) (nonce 0) :=
    CRequest.auth_authenticate_mac 0 (by omega)
  have h2 : r₀.auth 2 = N.umac (key r.rep.cid 1) (.request r.rep) (nonce 0) :=
    CRequest.auth_authenticate_mac 1 (by omega)
  have hrep : { r.rep with seq_num := 0 } = r.rep := by rw [← hseq]
  have hc : N.verifyAuthFromClient 0 r.rep.cid (.request { r.rep with seq_num := 0 }) r₀.auth =
      some (memmove r₀.auth 1 2 (N.authSize - 2), N.f + 1) := by
    rw [hrep, CNode.verifyAuthFromClient_ok (N.f + 1) (by omega) (by rw [h0, h1]; rfl)
      (by omega), if_neg (by omega), Nat.add_sub_cancel, Nat.add_comm]
  set m₁ := memmove (memmove r₀.auth 1 2 (N.authSize - 2)) (N.f + 2) (N.f + 3) (N.authSize - 2)
    with hm₁
  have hv : N.verifyAuth 0 (0 : ℕ) r.rep.cid (.request r.rep)
      (memmove r₀.auth 1 2 (N.authSize - 2)) (N.f + 1) = some (m₁, N.f + 1) := by
    rw [CNode.verifyAuth, Nat.min_eq_right (by omega), CNode.verifyAuthLoop_client (by omega),
      if_neg (by omega), if_pos (by omega)]
    rfl
  have hver : r₀.verify N 0 = some ({ r₀ with auth := m₁ }, N.f + 1) :=
    CRequest.verify_eq hd hc hv
  have hm0 : m₁ 0 = nonce 0 := by
    rw [hm₁, memmove_of_lt (by omega), memmove_of_lt (by omega), h0]
  have hm1 : m₁ 1 = N.umac (key r.rep.cid 1) (.request r.rep) (nonce 0) := by
    rw [hm₁, memmove_of_lt (by omega), memmove_of_mem le_rfl (by omega), ← h2]
  refine ⟨_, _, pass_succ rfl hver, rfl, hd, ?_, ?_, ?_, CRequest.auth_authenticate_nonce,
    CRequest.auth_authenticate_mac 0 (by omega), CRequest.auth_authenticate_mac 1 (by omega)⟩
  · intro e he
    rcases mem_append.1 he with he | he <;> rw [mem_singleton.1 he]
    · exact (CNode.length_genAuth_le ..).trans (by omega)
    · exact (Nat.add_le_add_left (CNode.length_genAuth_le ..) _).trans (by omega)
  · exact (CRequest.auth_authenticate_of_lt (by omega)).trans hm0
  · exact (CRequest.auth_authenticate_of_lt (by omega)).trans hm1

variable (hcid : (N.n : ℤ) ≤ r.rep.cid)

include hcid

/-- **Replica `1` turns the request away once `f` is two or more.** The
step that stands for the client closes a gap the client's MAC did not
leave, so the head's MAC for replica `2` is checked in place of the one
for replica `1`. -/
theorem pass_two_eq_none (hf : 2 ≤ N.f) (hseq : r.rep.seq_num = 0)
    (hmac : N.umac (key 0 1) (.request { r.rep with seq_num := seq }) (nonce 1) ≠
      N.umac (key 0 2) (.request { r.rep with seq_num := seq }) (nonce 1)) :
    pass N seq rr nonce r 2 = none := by
  have hn : N.n = 3 * N.f + 1 := rfl
  have hA := le_authSize (N := N) (by omega)
  obtain ⟨r', ends, hp, hrep, hd', -, h0, h1, hu, -, h3⟩ :=
    @pass_one N seq rr nonce r hd (by omega) hseq
  have hcid' : r'.rep.cid = r.rep.cid := by rw [hrep]
  have hrep0 : { r'.rep with seq_num := 0 } = r.rep := by rw [hrep, ← hseq]
  have hc : N.verifyAuthFromClient 1 r'.rep.cid (.request { r'.rep with seq_num := 0 }) r'.auth =
      some (memmove r'.auth 1 2 (N.authSize - 2), N.f) := by
    rw [hrep0, hcid', CNode.verifyAuthFromClient_ok N.f (by omega) (by rw [h0, h1]; rfl)
      (by omega), if_neg (by omega), Nat.add_sub_cancel' (by omega)]
  have hv : N.verifyAuth 1 (1 : ℕ) r'.rep.cid (.request r'.rep)
      (memmove r'.auth 1 2 (N.authSize - 2)) N.f = none := by
    rw [CNode.verifyAuth, Nat.min_eq_right (by omega), CNode.verifyAuthLoop_client (by omega),
      if_neg (by omega), if_pos (by omega)]
    refine CNode.verifyAuthLoop_reject rfl (by decide) (by rw [hcid']; omega) ?_
    have hfu : memmove r'.auth 1 2 (N.authSize - 2) N.f = nonce 1 := by
      rw [memmove_of_mem (by omega) (by omega), ← hu]
      congr 1; omega
    have hf2 : memmove r'.auth 1 2 (N.authSize - 2) (N.f + 2) =
        N.umac (key 0 2) (.request r'.rep) (nonce 1) := by
      rw [memmove_of_mem (by omega) (by omega), ← h3]
      congr 1
    rw [memmove_of_lt (by omega), memmove_of_mem le_rfl (by omega), Nat.sub_self, Nat.zero_add,
      hfu, hf2, hrep]
    exact hmac
  exact pass_succ_eq_none hp (CRequest.verify_eq_none hc hv)

/-- Replica `1` checks the client's MAC and the head's. -/
theorem verify_one (hf : N.f = 1)
    (h1 : r.auth 1 = N.umac (key r.rep.cid 1) (.request { r.rep with seq_num := 0 }) (r.auth 0))
    (h3 : r.auth 3 = N.umac (key 0 1) (.request r.rep) (r.auth 2)) :
    r.verify N 1 = some ({ r with auth := memmove (memmove r.auth 0 2 3) 1 2 1 }, 2) := by
  have hn : N.n = 4 := by rw [CNode.n, hf]
  have hA : N.authSize = 5 := by rw [CNode.authSize, hf]
  have hc : N.verifyAuthFromClient 1 r.rep.cid (.request { r.rep with seq_num := 0 }) r.auth =
      some (memmove r.auth 0 2 3, 0) := by
    rw [CNode.verifyAuthFromClient_ok 1 (by omega) (by rw [h1]; rfl) (by omega), if_pos rfl, hA]
  have hv : N.verifyAuth 1 (1 : ℕ) r.rep.cid (.request r.rep) (memmove r.auth 0 2 3) 0 =
      some (memmove (memmove r.auth 0 2 3) 1 2 1, 2) := by
    have hmin : min (N.f + 1) (1 + 1) = 2 := by omega
    rw [CNode.verifyAuth, hmin, CNode.verifyAuthLoop_client (by omega), if_pos (by omega),
      if_pos (by omega), CNode.verifyAuthLoop_check 2 rfl (by decide) (by omega)
        (by simp [memmove, h3]) (by omega), if_neg (by omega), hA]
    rfl
  exact CRequest.verify_eq hd hc hv

/-- Replicas `2` and `3` check the MACs of the two replicas before
them. -/
theorem verify_two_three (hf : N.f = 1) {k : ℕ} (hk : 2 ≤ k) (hk' : k ≤ 3)
    (h1 : r.auth 1 = N.umac (key (k - 2) k) (.request r.rep) (r.auth 0))
    (h3 : r.auth 3 = N.umac (key (k - 1) k) (.request r.rep) (r.auth 2)) :
    r.verify N k = some ({ r with auth := memmove (memmove r.auth 0 2 3) 1 2 1 }, 2) := by
  have hn : N.n = 4 := by rw [CNode.n, hf]
  have hA : N.authSize = 5 := by rw [CNode.authSize, hf]
  have hv : N.verifyAuth k (k : ℕ) r.rep.cid (.request r.rep) r.auth 0 =
      some (memmove (memmove r.auth 0 2 3) 1 2 1, 2) := by
    have hmin : min (N.f + 1) (k + 1) = 2 := by omega
    rw [CNode.verifyAuth, hmin, if_pos (by omega),
      CNode.verifyAuthLoop_check 1 (p := k - 2) (by push_cast; ring) (by omega) (by omega) h1.symm
        (by omega), if_pos rfl,
      CNode.verifyAuthLoop_check 2 (p := k - 1) (by push_cast; ring) (by omega) (by omega)
        (by simp [memmove, hA, h3]) (by omega), if_neg (by omega), hA]
    rfl
  exact CRequest.verify_eq hd (CNode.verifyAuthFromClient_far (by omega)) hv

/-- **With `f = 1` a client's request gets through the chain.** -/
theorem authComplete_of_one (hf : N.f = 1) (hseq : r.rep.seq_num = 0) (hrr : rr.replica = 0) :
    AuthComplete N seq rr nonce r := by
  have hn : N.n = 4 := by rw [CNode.n, hf]
  obtain ⟨r₁, e₁, hp₁, hrep₁, hd₁, he₁, a0, a1, a2, a3, a4⟩ :=
    @pass_one N seq rr nonce r hd (by omega) hseq
  rw [hf] at a2 a3 a4
  have hcid₁ : r₁.rep.cid = r.rep.cid := by rw [hrep₁]
  have hrep0 : { r₁.rep with seq_num := 0 } = r.rep := by rw [hrep₁, ← hseq]
  -- replica 1
  obtain ⟨r₂, e₂, hp₂, he₂, hrep₂, hd₂, b0, b1, b2, b3, -⟩ := pass_next hf le_rfl hp₁
    (verify_one hd₁ (by rw [hcid₁]; exact hcid) hf (by rw [hrep0, hcid₁, a0]; exact a1)
      (by rw [a2]; exact a3))
  have b3' := b3 0 (by push_cast; omega)
  have b4' := b3 1 (by push_cast; omega)
  -- replica 2
  obtain ⟨r₃, e₃, hp₃, he₃, hrep₃, hd₃, c0, c1, c2, c3, c4⟩ := pass_next hf (by omega) hp₂
    (verify_two_three (by rw [hd₂, hd₁, hrep₂]) (by rw [hrep₂, hcid₁]; exact hcid) hf le_rfl
      (by omega) (by rw [b1, b0, a4, a2, hrep₂]; rfl) (by rw [b2]; exact b3'))
  have c3' := c3 0 (by push_cast; omega)
  have c4' := c4 1 (by push_cast; omega) (by omega)
  -- replica 3
  obtain ⟨r₄, e₄, hp₄, he₄, hrep₄, hd₄, d0, d1, d2, -, d4⟩ := pass_next hf (by omega) hp₃
    (verify_two_three (by rw [hd₃, hd₂, hd₁, hrep₃, hrep₂])
      (by rw [hrep₃, hrep₂, hcid₁]; exact hcid) hf (by omega) le_rfl
      (by rw [c1, c0, b2, hrep₃]; exact b4') (by rw [c2]; exact c3'))
  have d4' := d4 0 (by push_cast; omega) (by omega)
  have hcid₃ : r₃.rep.cid = r.rep.cid := by rw [hrep₃, hrep₂, hcid₁]
  have hcid₄ : r₄.rep.cid = r.rep.cid := by rw [hrep₄, hcid₃]
  rw [hcid₃] at c4'
  rw [hcid₄] at d4'
  have hslots : ∀ j ≤ N.f, r₄.auth (2 * j) = nonce (2 * N.f + j + 1) ∧
      r₄.auth (2 * j + 1) =
        N.umac (key (2 * N.f + j) r.rep.cid) (.reply rr) (nonce (2 * N.f + j + 1)) := by
    intro j hj
    rw [hf] at hj ⊢
    interval_cases j
    · exact ⟨d0.trans c2, d1.trans c4'⟩
    · exact ⟨d2, d4'⟩
  refine ⟨r₄, _, by rw [hn]; exact hp₄, ?_, hslots, ?_⟩
  · intro e he
    simp only [mem_append, mem_singleton] at he
    rcases he with ((he | rfl) | rfl) | rfl
    exacts [he₁ e he, he₂, he₃, he₄]
  · rw [hrr]
    exact verifyAuth_reply_isSome hf (by rw [d0, c2]; exact d1.trans c4') (by rw [d2]; exact d4')

end

/-- **When the authenticator works**: exactly with `f = 1`, for every
request a client builds. The MACs of the head for replicas `1` and `2`
are assumed to differ on this header and nonce. -/
theorem authComplete_iff (hf : 1 ≤ N.f) {cid : ℤ} {rid : ℕ} {command : List UInt8}
    {read_only : Bool} {auth : Mem} (hcid : (N.n : ℤ) ≤ cid) (hrr : rr.replica = 0)
    (hmac :
      let h := ((CRequest.fresh N.md5 cid rid command read_only auth).setSeqno seq).rep
      N.umac (key 0 1) (.request h) (nonce 1) ≠ N.umac (key 0 2) (.request h) (nonce 1)) :
    AuthComplete N seq rr nonce (CRequest.fresh N.md5 cid rid command read_only auth) ↔
      N.f = 1 := by
  constructor
  · rintro ⟨r', ends, hp, -⟩
    by_contra hne
    have hnone := @pass_two_eq_none N seq rr nonce
      (CRequest.fresh N.md5 cid rid command read_only auth) rfl hcid (by omega) rfl hmac
    rw [pass_eq_none_of_le hnone (by rw [CNode.n]; omega)] at hp
    cases hp
  · exact fun h => authComplete_of_one rfl hcid h rfl hrr

end Pass

section Sample

/-- A node whose MACs show their key. -/
def sampleNode (f : ℕ) : CNode := ⟨f, fun _ => 0, fun k _ _ => BitVec.ofInt 64 k⟩

/-- The header of a correct reply. -/
def sampleReplyRep : CReplyRep := ⟨0, 1, 0, 0, 0, 0, -1, false, 0⟩

/-- With four replicas the request of client `4` gets through. -/
theorem authComplete_four_replicas :
    AuthComplete (sampleNode 1) 1 sampleReplyRep (fun _ => 0)
      (CRequest.fresh (sampleNode 1).md5 4 1 [7] false fun _ => 0) :=
  (authComplete_iff (N := sampleNode 1) (by decide) (by decide) rfl (by decide)).2 rfl

/-- **With seven replicas it does not**: replica `1` turns client `7`'s
request away. -/
theorem not_authComplete_seven_replicas :
    ¬ AuthComplete (sampleNode 2) 1 sampleReplyRep (fun _ => 0)
      (CRequest.fresh (sampleNode 2).md5 7 1 [7] false fun _ => 0) := by
  rintro ⟨r', ends, hp, -⟩
  have hnone : pass (sampleNode 2) 1 sampleReplyRep (fun _ => 0)
      (CRequest.fresh (sampleNode 2).md5 7 1 [7] false fun _ => 0) 2 = none :=
    pass_two_eq_none rfl (by decide) (by decide) rfl (by decide)
  cases hp

end Sample

end AbstractBFT.Chain
