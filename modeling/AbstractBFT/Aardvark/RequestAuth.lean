import AbstractBFT.Aardvark.Halt
/-!
# Aardvark — who a request comes from

A client's request arrives wrapped: the wrapper holds the request, a digest
of the request's digest field, and an authenticator over the wrapper's
header. The verifier thread checks wrappers (`A_Replica::verify`) and hands
the requests to the main thread, which queues and proposes them.

What is checked is less than it seems. A wrapper whose digest does not
match is not rejected: only the check of the authenticator is left out. The
check of the authenticator is of a flag in the header, which the sender
sets. The client the wrapper names is not compared with the one the request
names. And a request from the socket of a replica, wrapped or not, is taken
as it is. `sound_iff` says when `verify` does what it should, and
`request_authentic` what it takes for every proposed request to come from
the client it names. The same gaps let others put a client on the
blacklist: `client_never_blacklisted` says which wrappers do not.
-/

namespace AbstractBFT.Aardvark

open Machine List Option

/-! ## Wrapped requests -/

/-- `A_Wrapped_request_rep`, the header the authenticator covers (its tag
apart). `client_id` is the field `view`. -/
structure WrappedRep where
  extra : BitVec 16
  size : ℤ
  mac_is_valid : ℤ
  client_id : BitVec 32
  seqno : BitVec 64
  digest : Digest
  rset_size : ℤ
  n_big_reqs : ℤ
  non_det_size : ℤ
  deriving DecidableEq

/-- `A_Wrapped_request`. `req` is the request that starts behind the
header, `none` where `A_Request::convert` refuses it; `rest` are the bytes
of the big requests' digests and the choices; `nonce` and `macs` are the
authenticator. -/
structure Wrapped where
  rep : WrappedRep
  req : Option Request
  rest : List UInt8
  nonce : BitVec 64
  macs : List (BitVec 64)

/-- The MAC function, and the key this replica shares with each
principal. -/
structure Macs where
  umac : BitVec 128 → WrappedRep → BitVec 64 → BitVec 64
  key : BitVec 32 → BitVec 128

/-- `circular_buffer_size`. -/
def circularBufferSize : ℕ := 15000

namespace Node

/-- `auth_size(i)`: a nonce, and for each other replica a MAC, of 8 bytes
each. -/
def authSize (N : Node) (i : ℤ) : ℤ :=
  let i := if i < 0 then (N.id : ℤ) else i
  (if i < N.n then (N.n : ℤ) - 1 else N.n) * 8 + 8

/-- Principals other than this replica: `i_to_p(i) != 0 && i != node_id`. -/
def IsOther (N : Node) (i : ℤ) : Prop := 0 ≤ i ∧ i < N.np ∧ i ≠ N.id
  deriving Decidable

end Node

namespace Wrapped

variable (M : Macs) (N : Node) (w : Wrapped)

/-- `A_Principal::verify_mac`. The MAC is computed and compared with the
entry, and what comes of that is not used: "since we have a problem with
mac generation/verification, the verification returns this value
instead". -/
def verifyMac : Bool := w.rep.mac_is_valid == 1

/-- `verify_auth_in` and `verify_auth_out`, for the client of the wrapper;
they differ in the key only. -/
def verifyAuth : Bool := decide (N.IsOther w.rep.client_id.toInt) && w.verifyMac

/-- What the wrapper's digest is the MD5 of. -/
def hashed (r : Request) : List UInt8 := w.rest ++ digestBytes r.od

/-- `min_size` of `verify_MAC`, an `int` that wraps; the header has 48
bytes. -/
def minSize : ℤ :=
  Int.bmod (48 + (w.rep.rset_size + w.rep.n_big_reqs * 16 + w.rep.non_det_size) +
    N.authSize w.rep.client_id.toInt) (2 ^ 32)

/-- `verify_MAC`. -/
def verifyMAC : Bool :=
  if w.rep.size < w.minSize N then false
  else
    match w.req with
    | none => false
    | some r =>
      if N.md5 (w.hashed r) = w.rep.digest then w.verifyAuth N
      -- where the digest is not valid, there is only a comment
      else true

/-- `verify_request`. -/
def verifyRequest : Bool :=
  match w.req with
  | none => false
  | some r => r.verify N

/-- The digest in the wrapper is that of the embedded request. -/
def DigestOk : Prop := ∃ r, w.req = some r ∧ N.md5 (w.hashed r) = w.rep.digest

/-- Where the entry for this replica is. -/
def entry : ℕ := if w.rep.client_id.toInt < N.id then N.id - 1 else N.id

/-- The authenticator's entry for this replica is the MAC of the header
under the key shared with the client. -/
def MacOk : Prop := w.macs[w.entry N]? = some (M.umac (M.key w.rep.client_id) w.rep w.nonce)

end Wrapped

/-! ## The two threads -/

/-- The verifier thread with its blacklist, the buffer to the main thread,
and the replica; `down` after the process crashed. -/
structure Gate (σ : Type) where
  server : Server σ
  blacklisted : BitVec 32 → Bool
  buffer : List Request
  down : Bool

/-- What the two threads get. `client` is a wrapper from the socket of a
client, and `read` the main thread taking a request from the buffer.
`request` and `wrapped` come from the socket of a replica; of a wrapper
there, the requests are listed. -/
inductive GateEvent (σ : Type) where
  | client (w : Wrapped)
  | read
  | request (r : Request)
  | wrapped (rs : List Request)
  | server (e : ServerEvent σ) (h : ∀ m, e ≠ .request m)

namespace Gate

variable {σ : Type}

def init (N : Node) (m : Memory σ) : Gate σ := ⟨.init N m, fun _ => false, [], false⟩

/-- `A_Replica::verify`. The iterator asserts, or its request is a null
pointer, if the wrapper has no bytes for the request. -/
def verify (N : Node) (G : Gate σ) (w : Wrapped) : Gate σ × Option Request :=
  if G.blacklisted w.rep.client_id then (G, none)
  else if w.verifyMAC N = false then (G, none)
  else if w.verifyRequest N = false then
    ({ G with blacklisted := Function.update G.blacklisted w.rep.client_id true }, none)
  else if 0 < w.rep.rset_size then (G, w.req)
  else ({ G with down := true }, none)

/-- The verifier thread on a wrapper; a request that does not fit into the
buffer is dropped. -/
def handleClient (N : Node) (G : Gate σ) (w : Wrapped) : Gate σ :=
  match G.verify N w with
  | (G, none) => G
  | (G, some r) =>
    if G.buffer.length + 1 < circularBufferSize then { G with buffer := G.buffer ++ [r] } else G

/-- `jump_table` on something for the replica. -/
def onServer (X : Service σ) (N : Node) (G : Gate σ) (e : ServerEvent σ) : Gate σ :=
  { G with server := G.server.step X N e }

def step (X : Service σ) (N : Node) (G : Gate σ) (e : GateEvent σ) : Gate σ :=
  if G.down then G
  else
    match e with
    | .client w => G.handleClient N w
    | .read =>
      match G.buffer with
      | [] => G
      | r :: rs => { G with buffer := rs }.onServer X N (.request r)
    | .request r => G.onServer X N (.request r)
    | .wrapped rs =>
      if N.primary G.server.ord.v = N.id then
        rs.foldl (fun G r => G.onServer X N (.request r)) G
      else G
    | .server e _ => G.onServer X N e

variable {X : Service σ} {N : Node} {M : Macs} {G : Gate σ} {w : Wrapped} {r : Request}

/-! ## When `verify` does what it should -/

/-- `verify` returns the embedded request, and only if the digest matches
and the authenticator verifies under the client's key. -/
def Sound (M : Macs) (N : Node) (G : Gate σ) (w : Wrapped) : Prop :=
  ∀ r, (G.verify N w).2 = some r → w.req = some r ∧ w.DigestOk N ∧ w.MacOk M N

/-- The wrapper meets what is checked besides digest and authenticator. -/
def Passes (N : Node) (G : Gate σ) (w : Wrapped) : Prop :=
  G.blacklisted w.rep.client_id = false ∧ w.minSize N ≤ w.rep.size ∧ w.verifyRequest N ∧
    0 < w.rep.rset_size

/-- **What a wrapper must meet**: if it passes the other checks its digest
matches, and if it also claims a valid authenticator of another principal,
it has one. -/
def Vetted (M : Macs) (N : Node) (G : Gate σ) (w : Wrapped) : Prop :=
  G.Passes N w → w.DigestOk N ∧ (w.verifyAuth N → w.MacOk M N)

theorem exists_req (hreq : w.verifyRequest N) : ∃ r, w.req = some r := by
  unfold Wrapped.verifyRequest at hreq
  cases hr : w.req with
  | none =>
    rw [hr] at hreq
    cases hreq
  | some r => exact ⟨r, rfl⟩

theorem verifyMAC_iff (hreq : w.verifyRequest N) :
    w.verifyMAC N ↔ w.minSize N ≤ w.rep.size ∧ (w.DigestOk N → w.verifyAuth N) := by
  obtain ⟨r, hr⟩ := exists_req hreq
  unfold Wrapped.verifyMAC Wrapped.DigestOk
  rw [hr]
  by_cases hsize : w.rep.size < w.minSize N
  · rw [if_pos hsize]
    exact ⟨nofun, fun h => absurd hsize (not_lt.2 h.1)⟩
  rw [if_neg hsize]
  dsimp only
  split
  · next hdigest =>
    exact ⟨fun h => ⟨not_lt.1 hsize, fun _ => h⟩, fun h => h.2 ⟨r, rfl, hdigest⟩⟩
  · next hdigest =>
    refine ⟨fun _ => ⟨not_lt.1 hsize, ?_⟩, fun _ => rfl⟩
    rintro ⟨r', heq, hyes⟩
    obtain rfl := some.inj heq
    exact absurd hyes hdigest

/-- **What `verify` returns**: the embedded request, if the other checks
pass and the authenticator's flag is set or the digest does not match. -/
theorem verify_eq_some_iff : (G.verify N w).2 = some r ↔
    G.Passes N w ∧ w.req = some r ∧ (w.DigestOk N → w.verifyAuth N) := by
  unfold verify Passes
  by_cases hblack : G.blacklisted w.rep.client_id
  · rw [if_pos hblack]
    refine ⟨nofun, fun h => ?_⟩
    rw [h.1.1] at hblack
    cases hblack
  rw [if_neg hblack]
  rw [Bool.not_eq_true] at hblack
  by_cases hreq : w.verifyRequest N
  · have hmac := verifyMAC_iff hreq
    by_cases hm : w.verifyMAC N
    · obtain ⟨hsize, hauth⟩ := hmac.1 hm
      rw [hm, if_neg nofun, hreq, if_neg nofun]
      split
      · rename_i hpos
        exact ⟨fun h => ⟨⟨hblack, hsize, rfl, hpos⟩, h, hauth⟩, fun h => h.2.1⟩
      · rename_i hnot
        exact ⟨nofun, fun h => absurd h.1.2.2.2 hnot⟩
    · rw [if_pos (Bool.eq_false_iff.2 hm)]
      exact ⟨nofun, fun h => absurd (hmac.2 ⟨h.1.2.1, h.2.2⟩) hm⟩
  · refine ⟨fun h => ?_, fun h => absurd h.1.2.2.1 hreq⟩
    rw [if_pos (Bool.eq_false_iff.2 hreq)] at h
    split at h <;> cases h

/-- **When `verify` is sound.** -/
theorem sound_of_vetted (h : G.Vetted M N w) : G.Sound M N w := by
  intro r hr
  obtain ⟨hpass, hreq, hauth⟩ := verify_eq_some_iff.1 hr
  obtain ⟨hdigest, hmac⟩ := h hpass
  exact ⟨hreq, hdigest, hmac (hauth hdigest)⟩

theorem sound_iff : G.Sound M N w ↔ G.Vetted M N w := by
  refine ⟨fun h hpass => ?_, sound_of_vetted⟩
  obtain ⟨r, hr⟩ := exists_req hpass.2.2.1
  have hdigest : w.DigestOk N := by
    by_contra hnot
    exact hnot (h r (verify_eq_some_iff.2 ⟨hpass, hr, fun hyes => absurd hyes hnot⟩)).2.1
  exact ⟨hdigest, fun hauth => (h r (verify_eq_some_iff.2 ⟨hpass, hr, fun _ => hauth⟩)).2.2⟩

end Gate

/-! ## Where the queue's requests come from -/

theorem RQueue.mem_append {q : RQueue} {m r : Request} (h : r ∈ (q.append m).1.reqs) :
    r ∈ q.reqs ∨ r = m := by
  unfold RQueue.append at h
  split at h
  · split at h
    · rcases mem_concat_iff.1 h with hold | rfl
      · exact Or.inl (filter_sublist.subset hold)
      · exact Or.inr rfl
    · exact Or.inl h
  · rcases mem_concat_iff.1 h with hold | rfl
    · exact Or.inl hold
    · exact Or.inr rfl

theorem RQueue.reqs_inProgress (q : RQueue) (cid : BitVec 32) (rid : BitVec 64) (v : View) :
    (q.inProgress cid rid v).1.reqs = q.reqs := by
  unfold RQueue.inProgress
  split <;> rfl

namespace Server

variable {σ : Type} {X : Service σ} {N : Node} {P : Request → Prop} {s s' : Server σ} {m : Request}

/-- Every request queued or proposed is one of `P`. -/
structure Stocked (P : Request → Prop) (s : Server σ) : Prop where
  queued : ∀ r ∈ s.rqueue.reqs, P r
  proposed : ∀ pp ∈ s.proposed, ∀ r, some r ∈ pp.rset → P r

namespace Stocked

variable (h : s.Stocked P)
include h

theorem flow (hflow : Flow s s') : s'.Stocked P where
  queued r hr := h.queued r (hflow.queued hr)
  proposed pp hpp r hr := by
    rcases hflow.proposed pp hpp with hold | hnew
    · exact h.proposed pp hold r hr
    · exact h.queued r (hnew r hr)

theorem setQueue {q : RQueue} (hq : ∀ r ∈ q.reqs, P r) : Stocked P { s with rqueue := q } :=
  ⟨hq, h.proposed⟩

theorem append (hm : P m) : ∀ r ∈ (s.rqueue.append m).1.reqs, P r := by
  intro r hr
  rcases RQueue.mem_append hr with hold | rfl
  · exact h.queued r hold
  · exact hm

theorem countRequest : (s.countRequest X).Stocked P := by
  unfold Server.countRequest
  split <;> exact ⟨h.queued, h.proposed⟩

theorem takeRequest (hm : P m) : (s.takeRequest X N m).Stocked P := by
  unfold Server.takeRequest
  split
  · split
    · split
      · exact h.flow (Flow.executeReadOnly s m)
      · exact ⟨h.queued, h.proposed⟩
    · split
      · split
        · have hprog : ∀ r ∈ (s.rqueue.inProgress m.cid m.rid s.ord.v).1.reqs, P r := by
            rw [RQueue.reqs_inProgress]
            exact h.queued
          have happend := (h.setQueue hprog).append hm
          dsimp only
          split
          · exact h.setQueue hprog
          · split
            · exact (h.setQueue happend).flow (Flow.sendPrePrepare _)
            · exact h.setQueue happend
        · exact h.setQueue (h.append hm)
      · split
        · exact h.setQueue (h.append hm)
        · exact h
  · exact h

/-- **One event.** Only an arriving request adds to the queue. -/
theorem step {e : ServerEvent σ} (hm : ∀ m, e = .request m → P m) : (s.step X N e).Stocked P := by
  unfold Server.step
  split
  · exact h
  by_cases hreq : ∃ m, e = .request m
  · obtain ⟨m, rfl⟩ := hreq
    rw [handle, handleRequest]
    split
    · exact h
    · exact h.countRequest.takeRequest (hm m rfl)
  by_cases hon : ∃ on, e = .enable on
  · obtain ⟨on, rfl⟩ := hon
    cases on <;> exact ⟨h.queued, h.proposed⟩
  · exact h.flow (Flow.handle s (fun m he => hreq ⟨m, he⟩) fun on he => hon ⟨on, he⟩)

end Stocked

end Server

/-! ## Clients -/

/-- **What clients did**: the headers each of them made an authenticator
for, and the requests it made. A correct client makes requests under its
own identifier, with their digest, and authenticators for wrappers of
them. A faulty one may authenticate anything, and that counts as making
every request under its identifier that the header stands for. -/
structure Clients (md5 : Md5) where
  faulty : BitVec 32 → Prop
  sent : BitVec 32 → WrappedRep → Prop
  made : BitVec 32 → Request → Prop
  sent_made : ∀ c rep, ¬ faulty c → sent c rep → ∃ q, made c q ∧ rep.digest = md5 (digestBytes q.od)
  made_own : ∀ c q, ¬ faulty c → made c q →
    q.cid = c ∧ q.od = q.compDigest md5 ∧ 0 ≤ q.command_size
  made_any : ∀ c rep r rest, faulty c → sent c rep → r.cid = c →
    rep.digest = md5 (rest ++ digestBytes r.od) → made c r

namespace Clients

variable {σ : Type} {X : Service σ} {N : Node} {M : Macs} {K : Clients N.md5} {G : Gate σ}
  {w : Wrapped} {r : Request}

/-- The request is one the client it names made. -/
def Produced (K : Clients N.md5) (r : Request) : Prop := ∃ q, K.made r.cid q ∧ q.key = r.key

/-- **The assumptions on the cryptography**, for one wrapper: the MAC under
a client's key is the client's, and there is no collision between what the
wrapper hashes and what a correct client hashed. -/
structure Unforged (M : Macs) (N : Node) (K : Clients N.md5) (w : Wrapped) : Prop where
  mac : w.MacOk M N → K.sent w.rep.client_id w.rep
  wrapper : ∀ q r, ¬ K.faulty w.rep.client_id → K.made w.rep.client_id q → w.req = some r →
    N.md5 (digestBytes q.od) = N.md5 (w.hashed r) → digestBytes q.od = w.hashed r
  request : ∀ q r, ¬ K.faulty w.rep.client_id → K.made w.rep.client_id q → w.req = some r →
    q.compDigest N.md5 = r.compDigest N.md5 → q.bytes = r.bytes

/-- **What a run must meet**: wrappers are vetted and name the client their
request names, and a request from the socket of a replica is one its client
made. -/
def Allowed (M : Macs) (N : Node) (K : Clients N.md5) (G : Gate σ) : GateEvent σ → Prop
  | .client w => G.Vetted M N w ∧ ∀ r, w.req = some r → r.cid = w.rep.client_id
  | .request r => K.Produced r
  | .wrapped rs => N.primary G.server.ord.v = N.id → ∀ r ∈ rs, K.Produced r
  | .read | .server _ _ => True

/-- A request with the digest of one that has a command of its own has one
too. -/
theorem command_size_of_bytes {q : Request} (hq : 0 ≤ q.command_size) (h : q.bytes = r.bytes) :
    0 ≤ r.command_size := by
  have hlen : 12 ≤ q.bytes.length := by
    rw [Request.bytes, length_take, length_append, length_append, length_leBytes,
      length_leBytes]
    omega
  have hle : r.bytes.length ≤ (12 + r.command_size).toNat := by
    exact length_take_le _ _
  rw [h] at hlen
  omega

/-- **A sound answer is the client's**: with the digest and the
authenticator right, the client made the request. -/
theorem produced_of_sound (hun : K.Unforged M N w) (hsound : G.Sound M N w)
    (hname : ∀ r, w.req = some r → r.cid = w.rep.client_id) (hr : (G.verify N w).2 = some r) :
    K.Produced r := by
  obtain ⟨hreq, ⟨r', hreq', hdigest⟩, hmac⟩ := hsound r hr
  obtain rfl : r = r' := mem_unique hreq hreq'
  have hsent := hun.mac hmac
  have hcid := hname r hreq
  by_cases hfaulty : K.faulty w.rep.client_id
  · refine ⟨r, ?_, rfl⟩
    rw [hcid]
    exact K.made_any _ w.rep r w.rest hfaulty hsent hcid hdigest.symm
  · obtain ⟨q, hq, hqdigest⟩ := K.sent_made _ _ hfaulty hsent
    obtain ⟨-, hod, hcmd⟩ := K.made_own _ q hfaulty hq
    -- the wrapper stands for one request digest only, and that for one request
    have hhash := hun.wrapper q r hfaulty hq hreq (hqdigest.symm.trans hdigest.symm)
    have hsame : q.od = r.od := by
      have hrest : w.rest = [] := by
        have hlen := congrArg List.length hhash
        rw [Wrapped.hashed, length_append, digestBytes, digestBytes, length_leBytes,
          length_leBytes] at hlen
        exact length_eq_zero_iff.1 (by omega)
      rw [Wrapped.hashed, hrest, nil_append] at hhash
      exact toNat_inj_of_leBytes_eq rfl hhash
    have hverify : r.compDigest N.md5 = r.od := by
      have hreqok := (Gate.verify_eq_some_iff.1 hr).1.2.2.1
      rw [Wrapped.verifyRequest, hreq] at hreqok
      simp only [Request.verify, Bool.and_eq_true, beq_iff_eq] at hreqok
      exact hreqok.1.2
    have hbytes := hun.request q r hfaulty hq hreq (by rw [← hod, hsame, hverify])
    have hcmd' := command_size_of_bytes hcmd hbytes
    rw [Request.bytes_eq_contents hcmd, Request.bytes_eq_contents hcmd'] at hbytes
    refine ⟨q, ?_, Request.contents_eq_iff.1 hbytes⟩
    rw [hcid]
    exact hq

/-! ## Runs -/

/-- Everything queued, proposed or in the buffer was made by the client it
names. -/
structure Clean (K : Clients N.md5) (G : Gate σ) : Prop where
  server : G.server.Stocked K.Produced
  buffer : ∀ r ∈ G.buffer, K.Produced r

theorem clean_init (K : Clients N.md5) (m : Memory σ) : K.Clean (Gate.init N m) :=
  ⟨⟨nofun, nofun⟩, nofun⟩

namespace Clean

variable (h : K.Clean G)
include h

theorem onServer {e : ServerEvent σ} (hm : ∀ m, e = .request m → K.Produced m) :
    K.Clean (G.onServer X N e) :=
  ⟨h.server.step hm, h.buffer⟩

theorem onRequest (hr : K.Produced r) : K.Clean (G.onServer X N (.request r)) :=
  h.onServer fun _ he => ServerEvent.request.inj he ▸ hr

theorem verify (w : Wrapped) : K.Clean (G.verify N w).1 := by
  unfold Gate.verify
  split
  · exact h
  split
  · exact h
  split
  · exact ⟨h.server, h.buffer⟩
  split
  · exact h
  · exact ⟨h.server, h.buffer⟩

theorem handleClient (hr : ∀ r, (G.verify N w).2 = some r → K.Produced r) :
    K.Clean (G.handleClient N w) := by
  have hclean := h.verify w
  unfold Gate.handleClient
  split
  · rename_i G' heq
    rw [heq] at hclean
    exact hclean
  · rename_i G' r heq
    rw [heq] at hclean hr
    split
    · refine ⟨hclean.server, fun q hq => ?_⟩
      rcases mem_concat_iff.1 hq with hold | rfl
      · exact hclean.buffer q hold
      · exact hr q rfl
    · exact hclean

theorem wrapped {rs : List Request} (hrs : ∀ r ∈ rs, K.Produced r) :
    K.Clean (rs.foldl (fun G r => G.onServer X N (.request r)) G) := by
  induction rs generalizing G with
  | nil => exact h
  | cons r rs ih =>
    obtain ⟨hr, hrest⟩ := forall_mem_cons.1 hrs
    exact ih (h.onRequest hr) hrest

theorem step {e : GateEvent σ} (hun : ∀ w, e = .client w → K.Unforged M N w)
    (hok : K.Allowed M N G e) : K.Clean (G.step X N e) := by
  unfold Gate.step
  split
  · exact h
  cases e with
  | client w =>
    exact h.handleClient fun r hr =>
      produced_of_sound (hun w rfl) (Gate.sound_of_vetted hok.1) hok.2 hr
  | read =>
    dsimp only
    split
    · exact h
    · rename_i r rs hbuf
      have hbuffer := h.buffer
      rw [hbuf] at hbuffer
      obtain ⟨hr, hrs⟩ := forall_mem_cons.1 hbuffer
      exact onRequest ⟨h.server, hrs⟩ hr
  | request r => exact h.onRequest hok
  | wrapped rs =>
    dsimp only
    split
    · rename_i hp
      exact h.wrapped (hok hp)
    · exact h
  | server e hno => exact h.onServer fun m he => absurd he (hno m)

end Clean

/-- **Requests are authentic.** `verify` is sound on a wrapper exactly if
the wrapper is vetted; and in a run whose events are all allowed, every
answer of `verify` is sound, and every request in a pre-prepare of this
replica was made by the client it names. -/
theorem request_authentic (X : Service σ) (N : Node) (M : Macs) (K : Clients N.md5) (m : Memory σ)
    (es : List (GateEvent σ)) (hcrypto : ∀ w, .client w ∈ es → K.Unforged M N w) :
    (∀ (G : Gate σ) (w : Wrapped), G.Sound M N w ↔ G.Vetted M N w) ∧
      (Guarded (Gate.step X N) (K.Allowed M N) (Gate.init N m) es →
        Guarded (Gate.step X N) (fun G e => ∀ w, e = .client w → G.Sound M N w) (Gate.init N m) es ∧
          ∀ pp ∈ (exec (Gate.step X N) (Gate.init N m) es).server.proposed,
            ∀ r, some r ∈ pp.rset → K.Produced r) := by
  refine ⟨fun G w => Gate.sound_iff, fun hrun => ⟨?_, ?_⟩⟩
  · refine hrun.mono fun G e hok w he => ?_
    subst he
    exact Gate.sound_of_vetted hok.1
  · have hunforged : ∀ e ∈ es, ∀ w, e = .client w → K.Unforged M N w :=
      fun e he w hw => hcrypto w (hw ▸ he)
    have hboth := (Guarded.of_forall_mem hunforged _).and hrun
    have hclean := hboth.invariant (I := K.Clean) (fun G e h hok => h.step hok.1 hok.2)
      (clean_init K m)
    exact hclean.server.proposed

/-- MACs that are all 0. -/
def toyMacs : Macs := ⟨fun _ _ _ => 0, fun _ => 0⟩

/-- The digest a wrapper of the sample request should have. -/
def toyWrapDigest : Digest := toyMd5 (digestBytes (toyRequest 1 7).od)

/-- A wrapper of the sample request, with some digest and some MACs. -/
def toyWrapped (digest : Digest) (mac : BitVec 64) : Wrapped where
  rep := ⟨0, 136, 1, 4, 0, digest, 48, 0, 0⟩
  req := some (toyRequest 1 7)
  rest := []
  nonce := 0
  macs := List.replicate 4 mac

/-- The primary gets a wrapper and reads the request. -/
def wrapperRun (w : Wrapped) : List (GateEvent ℕ) :=
  [.server (.enable true) nofun, .client w, .read]

/-- The client made the sample request and nothing else. -/
def oneRequest : Clients (toyNode 1 0).md5 where
  faulty _ := False
  sent c rep := c = 4 ∧ rep = (toyWrapped toyWrapDigest 0).rep
  made c q := c = 4 ∧ q = toyRequest 1 7
  sent_made := by
    rintro c rep - ⟨rfl, rfl⟩
    exact ⟨toyRequest 1 7, ⟨rfl, rfl⟩, rfl⟩
  made_own := by
    rintro c q - ⟨rfl, rfl⟩
    exact ⟨rfl, rfl, by decide⟩
  made_any _ _ _ _ h := h.elim

theorem request_authentic_proposed :
    let N := toyNode 1 0
    let m : Memory ℕ := ⟨0, fun _ => 0⟩
    let es := wrapperRun (toyWrapped toyWrapDigest 0)
    (exec (Gate.step Server.counting N) (Gate.init N m) es).server.proposed = [toyBatch 1 0 1 7] ∧
      Guarded (Gate.step Server.counting N) (fun G e => ∀ w, e = .client w → G.Sound toyMacs N w)
        (Gate.init N m) es ∧
      oneRequest.Produced (toyRequest 1 7) := by
  intro N m es
  have hproposed : (exec (Gate.step Server.counting N) (Gate.init N m) es).server.proposed =
      [toyBatch 1 0 1 7] := by decide +kernel
  have hcrypto : ∀ w, .client w ∈ es → oneRequest.Unforged toyMacs N w := by
    intro w hw
    obtain rfl : w = toyWrapped toyWrapDigest 0 := by
      simpa [es, wrapperRun] using hw
    refine ⟨fun _ => ⟨rfl, rfl⟩, ?_, ?_⟩
    · rintro q r - ⟨-, rfl⟩ hr -
      obtain rfl := some.inj hr
      rfl
    · rintro q r - ⟨-, rfl⟩ hr -
      obtain rfl := some.inj hr
      rfl
  have hallowed : Guarded (Gate.step Server.counting N) (oneRequest.Allowed toyMacs N)
      (Gate.init N m) es := by
    refine ⟨trivial, ⟨fun _ => ⟨⟨_, rfl, rfl⟩, fun _ => rfl⟩, fun r hr => ?_⟩, trivial, trivial⟩
    obtain rfl := some.inj hr
    rfl
  obtain ⟨hsound, hproduced⟩ :=
    (request_authentic Server.counting N toyMacs oneRequest m es hcrypto).2 hallowed
  rw [hproposed] at hproduced
  exact ⟨hproposed, hsound, hproduced _ (mem_singleton_self _) _ mem_cons_self⟩

/-- Nobody made anything. -/
def nobody : Clients (toyNode 1 0).md5 where
  faulty _ := False
  sent _ _ := False
  made _ _ := False
  sent_made _ _ _ h := h.elim
  made_own _ _ _ h := h.elim
  made_any _ _ _ _ h := h.elim

/-- **Forged requests are proposed.** `verify` returns the request of a
wrapper with a wrong digest, and of one with the right digest and wrong
MACs; and the primary proposes a request that no client made, from a
client's socket or from that of a replica. -/
theorem forged_request_proposed :
    let N := toyNode 1 0
    let G : Gate ℕ := Gate.init N ⟨0, fun _ => 0⟩
    (∀ w, .client w ∈ wrapperRun (toyWrapped 0 1) → nobody.Unforged toyMacs N w) ∧
      ¬ G.Sound toyMacs N (toyWrapped 0 1) ∧ ¬ G.Sound toyMacs N (toyWrapped toyWrapDigest 1) ∧
      (¬ ∀ pp ∈ (exec (Gate.step Server.counting N) G (wrapperRun (toyWrapped 0 1))).server.proposed,
        ∀ r, some r ∈ pp.rset → nobody.Produced r) ∧
      ¬ ∀ pp ∈ (exec (Gate.step Server.counting N) G
          [.server (.enable true) nofun, .request (toyRequest 1 7)]).server.proposed,
        ∀ r, some r ∈ pp.rset → nobody.Produced r := by
  intro N G
  have hmac : ∀ d, ¬ (toyWrapped d 1).MacOk toyMacs N := by
    intro d h
    have hone : (1 : BitVec 64) = 0 := some.inj h
    exact absurd hone (by decide)
  have hreturned : ∀ d, (G.verify N (toyWrapped d 1)).2 = some (toyRequest 1 7) →
      ¬ G.Sound toyMacs N (toyWrapped d 1) := fun d hr h => hmac d (h _ hr).2.2
  have hbad : ∀ ps : List PrePrepare, ps = [toyBatch 1 0 1 7] →
      ¬ ∀ pp ∈ ps, ∀ r, some r ∈ pp.rset → nobody.Produced r := by
    rintro ps rfl h
    obtain ⟨q, hq, -⟩ := h _ (mem_singleton_self _) (toyRequest 1 7) mem_cons_self
    exact hq
  refine ⟨fun w hw => ?_, hreturned 0 (by decide +kernel), hreturned _ (by decide +kernel),
    hbad _ (by decide +kernel), hbad _ (by decide +kernel)⟩
  obtain rfl : w = toyWrapped 0 1 := by
    simpa [wrapperRun] using hw
  exact ⟨fun h => absurd h (hmac 0), fun _ _ _ h => h.elim, fun _ _ _ h => h.elim⟩

end Clients

/-! ## The blacklist

A client whose wrapper gets through `verify_MAC` and whose request does not
verify is put on the blacklist for good. The client is the one the wrapper
names, and `verify_MAC` lets wrappers through that this client never
built. -/

namespace Wrapped

variable {N : Node} {w : Wrapped} {c : BitVec 32}

/-- **A wrapper client `c` built**: the request in it, if there is one (a
big request is not copied into the wrapper), has `c`'s identifier, its
digest, and an authenticator that verifies. -/
def BuiltBy (N : Node) (c : BitVec 32) (w : Wrapped) : Prop :=
  ∀ r, w.req = some r → r.cid = c ∧ r.od = r.compDigest N.md5 ∧ r.auth

/-- **A wrapper that gives itself away**: it is shorter than its own sizes
say, it has no request, or its digest is right and its authenticator is not
marked as valid. -/
def GivenAway (N : Node) (w : Wrapped) : Prop :=
  w.rep.size < w.minSize N ∨ w.req = none ∨ w.DigestOk N ∧ w.rep.mac_is_valid ≠ 1

theorem verifyMAC_of_givenAway (h : w.GivenAway N) : w.verifyMAC N = false := by
  unfold verifyMAC
  rcases h with hsize | hnone | ⟨⟨r, hr, hdigest⟩, hmark⟩
  · rw [if_pos hsize]
  · rw [hnone]
    split <;> rfl
  · rw [hr]
    dsimp only
    rw [if_pos hdigest, verifyAuth, verifyMac, beq_false_of_ne hmark, Bool.and_false]
    split <;> rfl

/-- What a client builds verifies, if it gets as far as that. -/
theorem verifyRequest_of_builtBy (hclient : (N.n : ℤ) ≤ c.toInt ∧ c.toInt < N.np) (hid : N.id < N.n)
    (h : w.BuiltBy N c) (hmac : w.verifyMAC N) : w.verifyRequest N := by
  cases hr : w.req with
  | none =>
    rw [verifyMAC_of_givenAway (Or.inr (Or.inl hr))] at hmac
    cases hmac
  | some r =>
    obtain ⟨rfl, hod, hauth⟩ := h r hr
    have hother : r.cid.toInt ≠ N.id ∧ (N.n : ℤ) ≤ r.cid.toInt := ⟨by omega, hclient.1⟩
    have hknown : 0 ≤ r.cid.toInt ∧ r.cid.toInt < N.np := ⟨by omega, hclient.2⟩
    simp only [verifyRequest, hr, Request.verify, hknown, hother, ← hod, hauth, beq_self_eq_true,
      and_self, ne_eq, not_false_eq_true, decide_true, Bool.and_self, ite_self]

end Wrapped

namespace Gate

variable {σ : Type} {X : Service σ} {N : Node} {G : Gate σ} {w : Wrapped} {c : BitVec 32}

/-- **How a client gets on the blacklist.** -/
theorem blacklisted_handleClient (h : (G.handleClient N w).blacklisted c) :
    G.blacklisted c ∨ w.rep.client_id = c ∧ w.verifyMAC N ∧ w.verifyRequest N = false := by
  have hblack : (G.handleClient N w).blacklisted = (G.verify N w).1.blacklisted := by
    unfold handleClient
    split
    · rename_i heq
      rw [heq]
    · rename_i heq
      rw [heq]
      split <;> rfl
  rw [hblack] at h
  unfold verify at h
  split at h
  · exact Or.inl h
  split at h
  · exact Or.inl h
  rename_i hmac
  split at h
  · rename_i hreq
    by_cases hc : w.rep.client_id = c
    · exact Or.inr ⟨hc, Bool.not_eq_false _ ▸ hmac, hreq⟩
    · dsimp only at h
      rw [Function.update_of_ne (Ne.symm hc)] at h
      exact Or.inl h
  · split at h <;> exact Or.inl h

theorem blacklisted_wrapped (rs : List Request) :
    (rs.foldl (fun G r => G.onServer X N (.request r)) G).blacklisted = G.blacklisted := by
  induction rs generalizing G with
  | nil => rfl
  | cons r rs ih => exact ih

/-- **One event.** Only a wrapper from a client's socket changes the
blacklist. -/
theorem blacklisted_step {e : GateEvent σ} (h : (G.step X N e).blacklisted c) :
    G.blacklisted c ∨ ∃ w, e = .client w ∧ w.rep.client_id = c ∧ w.verifyMAC N ∧
      w.verifyRequest N = false := by
  unfold step at h
  split at h
  · exact Or.inl h
  cases e with
  | client w =>
    rcases blacklisted_handleClient h with hold | hnew
    · exact Or.inl hold
    · exact Or.inr ⟨w, rfl, hnew⟩
  | read =>
    dsimp only at h
    split at h <;> exact Or.inl h
  | request r => exact Or.inl h
  | wrapped rs =>
    dsimp only at h
    split at h
    · rw [blacklisted_wrapped] at h
      exact Or.inl h
    · exact Or.inl h
  | server e _ => exact Or.inl h

/-- **What the wrappers of a run must meet**: one that names client `c` was
built by `c`, or gives itself away. -/
def Spared (N : Node) (c : BitVec 32) (_ : Gate σ) : GateEvent σ → Prop
  | .client w => w.rep.client_id = c → w.BuiltBy N c ∨ w.GivenAway N
  | _ => True

/-- **A correct client is not blacklisted**, in a run where every wrapper
that names it is its own or gives itself away. -/
theorem client_never_blacklisted (X : Service σ) (N : Node) (hid : N.id < N.n) (c : BitVec 32)
    (hclient : (N.n : ℤ) ≤ c.toInt ∧ c.toInt < N.np) (m : Memory σ) (es : List (GateEvent σ))
    (hrun : Guarded (Gate.step X N) (Spared N c) (Gate.init N m) es) :
    (exec (Gate.step X N) (Gate.init N m) es).blacklisted c = false := by
  refine hrun.invariant (I := fun G => G.blacklisted c = false) (fun G e hG hok => ?_) rfl
  rw [← Bool.not_eq_true] at hG ⊢
  intro h
  rcases blacklisted_step h with hold | ⟨w, rfl, hc, hmac, hreq⟩
  · exact hG hold
  rcases hok hc with hbuilt | hgiven
  · rw [Wrapped.verifyRequest_of_builtBy hclient hid hbuilt hmac] at hreq
    cases hreq
  · rw [Wrapped.verifyMAC_of_givenAway hgiven] at hmac
    cases hmac

/-- The sample wrapper around another request. -/
def rewrapped (digest : Digest) (r : Request) : Wrapped :=
  { Clients.toyWrapped digest 0 with req := some r }

/-- The client's own wrapper, and one by another node that is not marked as
authenticated. -/
def sparingRun : List (GateEvent ℕ) :=
  let unmarked := { Clients.toyWrapped Clients.toyWrapDigest 1 with
    rep := { (Clients.toyWrapped Clients.toyWrapDigest 1).rep with mac_is_valid := 0 } }
  [.server (.enable true) nofun, .client (Clients.toyWrapped Clients.toyWrapDigest 0),
    .client unmarked, .read]

theorem client_never_blacklisted_sparing :
    let N := toyNode 1 0
    let G : Gate ℕ := Gate.init N ⟨0, fun _ => 0⟩
    (exec (Gate.step Server.counting N) G sparingRun).server.proposed = [toyBatch 1 0 1 7] ∧
      (exec (Gate.step Server.counting N) G sparingRun).blacklisted 4 = false := by
  refine ⟨by decide +kernel, client_never_blacklisted Server.counting (toyNode 1 0) (by decide) 4
    (by decide) ⟨0, fun _ => 0⟩ sparingRun
    ⟨trivial, fun _ => Or.inl fun r hr => ?_, fun _ => Or.inr ?_, trivial, trivial⟩⟩
  · obtain rfl := some.inj hr
    exact ⟨rfl, rfl, rfl⟩
  · exact Or.inr (Or.inr ⟨⟨_, rfl, rfl⟩, by decide⟩)

/-- **Anyone gets a client blacklisted**: with a wrapper that names the
client and whose digest matches nothing, or with the header of the client's
own wrapper in front of a request with another command. -/
theorem client_blacklisted_by_others :
    let N := toyNode 1 0
    let G : Gate ℕ := Gate.init N ⟨0, fun _ => 0⟩
    let own := Clients.toyWrapped Clients.toyWrapDigest 0
    let mismatched := rewrapped 0 { toyRequest 1 7 with od := 0 }
    let altered := rewrapped Clients.toyWrapDigest { toyRequest 1 7 with payload := [8] }
    own.BuiltBy N 4 ∧ altered.rep = own.rep ∧
      (exec (Gate.step Server.counting N) G [.client own, .client mismatched]).blacklisted 4 ∧
      (exec (Gate.step Server.counting N) G [.client own, .client altered]).blacklisted 4 := by
  intro N G own mismatched altered
  refine ⟨fun r hr => ?_, rfl, by decide +kernel, by decide +kernel⟩
  obtain rfl := some.inj hr
  exact ⟨rfl, rfl, rfl⟩

end Gate

end AbstractBFT.Aardvark
