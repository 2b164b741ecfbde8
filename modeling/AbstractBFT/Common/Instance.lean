import AbstractBFT.Chain.Replica
import AbstractBFT.Lib.Once
import AbstractBFT.Quorum.Client
/-!
# The replicas of Quorum and ZLight

`Q_Replica` and `zl_Replica` have one text for most of what they do: the
layout and the verification of requests, the reply table, checkpoints, and
the notices a stopped replica answers with. They are modelled once, over the
headers `H` that an authenticator can cover.

Neither replica ever panics. `handle(Q_Panic)` and `handle(zl_Panic)` return
at once ("NEVER SWITCH"), and the timer that repeats a panic is started
behind that return. So no replica gets into state `PANICKING` or
`MISWAITING`, and the handlers of aborts and get-a-grips, which do nothing
in the other states, have nothing to do.

A handler is one step. In the code the thread that empties the queue and that
of the `RobustMonitor` both call `handle`, and the mutexes are held for parts
of a handler only; runs in which two handlers interleave are left out.
-/

namespace AbstractBFT.Instance

open Function

open Chain (ReplicaState CCheckpoint CheckpointSet Signed)
open AbstractBFT.Quorum (QReplyRep)

/-! ## Requests -/

/-- `Q_Request_rep` and `zl_Request_rep`. `rest` is what the header has
behind `rid`: eight unused bytes in the former, nothing in the latter. Headers
with a negative `command_size`, which is a `short`, are left out. -/
structure RequestRep where
  read_only : Bool
  od : Digest
  replier : ℤ
  command_size : ℕ
  cid : ℤ
  rid : ℕ
  rest : List UInt8
  deriving DecidableEq

/-- A request: the header, and the bytes of the message behind it. -/
structure Request where
  rep : RequestRep
  body : List UInt8
  deriving DecidableEq

/-- What a replica runs on: the fault bound, the number of principals, the
digests, the service's `exec_command`, whether bytes hold the MAC of a
principal over a header for this replica, the signatures of the replicas,
and the instance and the one to switch to. -/
structure INode (S H : Type) where
  f : ℕ
  num_principals : ℕ
  md5 : Md5
  M : Modulus
  exec_command : S → List UInt8 → ℤ → S × List UInt8
  verify_auth : ℤ → ℕ → H → List UInt8 → Bool
  gen_signature : ℤ → Signed → List UInt8
  verify_signature : ℤ → Signed → List UInt8 → Bool
  instance_id : ℕ
  next_instance_id : ℕ

namespace INode

variable {S H : Type} (N : INode S H)

/-- `num_replicas`. -/
def n : ℕ := 3 * N.f + 1

/-- `i_to_p` does not return a null pointer. -/
def isPrincipal (id : ℤ) : Bool := 0 ≤ id && id < N.num_principals

/-- `is_replica`. -/
def isReplica (id : ℤ) : Bool := 0 ≤ id && id < N.n

/-- `auth_size`, for a principal that is not negative. -/
def authSize (id : ℤ) : ℕ := (if id < N.n then N.n - 1 else N.n) * 8 + 8

end INode

namespace Request

/-- `command`. -/
def command (m : Request) : List UInt8 := m.body.take m.rep.command_size

/-- `comp_digest`: `command_size` bytes behind `rid`, where the rest of the
header comes first. -/
def compDigest (md5 : Md5) (m : Request) : Digest :=
  md5 (leBytes 4 (m.rep.cid % 2 ^ 32).toNat ++ leBytes 8 m.rep.rid ++
    (m.rep.rest ++ m.body).take m.rep.command_size)

/-- `verify` at replica `me`; `header` is the request's header among those
an authenticator can cover. The sizes are compared as unsigned numbers. -/
def verify {S H : Type} (N : INode S H) (header : RequestRep → H) (me : ℕ) (m : Request) : Bool :=
  N.isPrincipal m.rep.cid && m.compDigest N.md5 == m.rep.od && m.rep.cid != me &&
    decide ((N.n : ℤ) ≤ m.rep.cid) &&
    decide ((N.authSize m.rep.cid : ℤ) ≤ ((m.body.length : ℤ) - m.rep.command_size) % 2 ^ 32) &&
    N.verify_auth m.rep.cid me (header m.rep) (m.body.drop m.rep.command_size)

end Request

/-! ## Replicas -/

/-- A reply: its header, and the result behind it. -/
structure Reply where
  rep : QReplyRep
  body : List UInt8
  deriving DecidableEq

/-- A request that was executed: under which sequence number, with which
result, and the digest its reply carries for the history. -/
structure Execution where
  req : Request
  seqno : ℕ
  result : List UInt8
  rh_digest : Digest
  deriving DecidableEq

/-- `Q_Replica`, and the part of `zl_Replica` that it shares. `sent` and
`executed` record what the replica did. `down` is set when an assertion
fails or a null pointer is followed: the process is gone. -/
structure IReplica {S H : Type} (N : INode S H) where
  cur_state : ReplicaState
  seqno : ℕ
  replies : ℤ → Reply
  service : S
  rh : ReqHistoryLog N.M Request
  checkpoint_in_progress : Bool
  current_nb_requests_while_checkpointing : ℕ
  current_checkpoints : ℕ → Option CheckpointSet
  last_chkp_seqno : ℕ
  outstanding : List (ℤ × ℕ)
  down : Bool
  sent : List (ℤ × Reply)
  executed : List Execution

namespace IReplica

variable {S H : Type} {N : INode S H}

/-- The constructor, with the service in state `service`. -/
def init (N : INode S H) (service : S) : IReplica N where
  cur_state := .normal
  seqno := 0
  replies := fun _ => ⟨⟨0, 0, 0, 0, 0, -1, -1, false, 0⟩, []⟩
  service := service
  rh := ReqHistoryLog.empty N.M Request
  checkpoint_in_progress := false
  current_nb_requests_while_checkpointing := 0
  current_checkpoints := fun _ => none
  last_chkp_seqno := 0
  outstanding := []
  down := false
  sent := []
  executed := []

/-! ## The reply table -/

variable (r : IReplica N) (id : ℕ)

/-- `send_reply`. It fails if the entry has no reply. -/
def sendReply (cid : ℤ) : IReplica N :=
  let e := r.replies cid
  if e.rep.reply_size = -1 then { r with down := true }
  else { r with sent := r.sent ++ [(cid, ⟨{ e.rep with v := 0, replica := id, cid := -1 }, e.body⟩)] }

/-- The reply without the result that the constructor of `Q_Reply` and
`zl_Reply` makes. -/
def emptyReply (cid : ℤ) (rid : ℕ) : Reply :=
  ⟨⟨0, rid, 0, (r.replies cid).rep.digest, id, -1, cid, false, N.instance_id⟩, []⟩

/-- The notice a stopped replica answers a request with: it names the next
instance. There is no principal to make a MAC for if the client is none. -/
def notify (cid : ℤ) (rid : ℕ) : IReplica N :=
  if N.isPrincipal cid then
    { r with
      sent := r.sent ++ [(cid, ⟨{ (r.emptyReply id cid rid).rep with
        digest := N.md5 [], reply_size := 0, should_switch := true
        instance_id := N.next_instance_id }, []⟩)] }
  else { r with down := true }

/-- `new_reply`, `exec_command` and `end_reply`, with `d` the history digest
the reply gets. -/
def execute (req : Request) (seqno : ℕ) (d : Digest) : IReplica N :=
  let cid := req.rep.cid
  let out := N.exec_command r.service req.command cid
  { r with
    service := out.1
    replies := update r.replies cid
      ⟨{ (r.replies cid).rep with
          rid := req.rep.rid, reply_size := out.2.length, cid := -1, rh_digest := d
          digest := N.md5 out.2 }, out.2⟩
    executed := r.executed ++ [⟨req, seqno, out.2, d⟩] }

/-! ## Checkpoints -/

/-- `Q_Checkpoint::verify`. -/
def verifyCheckpoint (N : INode S H) (me : ℕ) (c : CCheckpoint) : Bool :=
  N.isReplica c.id &&
    (c.id == me || N.verify_signature c.id (.checkpoint c.id c.seqid c.digest) c.sig)

/-- `rh->truncate_history(seq)`. -/
def truncate (seq : ℕ) : IReplica N :=
  { r with rh := (r.rh.truncateHistory seq).getD r.rh }

/-- `handle(Q_Checkpoint)`. What it computes about the digests in the set is
not used, and the panic it may raise does nothing. -/
def handleCheckpoint (c : CCheckpoint) : IReplica N :=
  if !verifyCheckpoint N id c then r
  else if c.seqid ≤ r.last_chkp_seqno then r
  else
    let cset := (r.current_checkpoints c.seqid).getD ⟨fun _ => none, 0, c.seqid⟩
    match cset.add c.id c with
    | none =>
      { r with current_checkpoints := update r.current_checkpoints c.seqid (some cset) }
    | some cset =>
      if cset.n = 2 * N.f + 1 then
        { r.truncate c.seqid with
          current_nb_requests_while_checkpointing := 0
          checkpoint_in_progress := false
          last_chkp_seqno := c.seqid
          current_checkpoints := update r.current_checkpoints c.seqid none }
      else
        { r with current_checkpoints := update r.current_checkpoints c.seqid (some cset) }

/-- The test at `checkpointing_mutex`: while a checkpoint is in progress
`MAX_NB_REQS_CHKPT` more requests are handled; `none` for the others. -/
def canHandle : Option (IReplica N) :=
  if r.checkpoint_in_progress then
    if r.current_nb_requests_while_checkpointing < 256 then
      some { r with
        current_nb_requests_while_checkpointing := r.current_nb_requests_while_checkpointing + 1 }
    else none
  else some r

/-! ## Switching -/

/-- `enable_replica`. -/
def enableReplica (state : Bool) : IReplica N :=
  if r.cur_state = .normal ∨ r.cur_state = .stop then
    if state then
      if r.cur_state ≠ .normal then
        { r with
          rh := ReqHistoryLog.empty N.M Request
          current_checkpoints := fun _ => none
          outstanding := []
          seqno := 0
          cur_state := .normal }
      else r
    else { r with cur_state := .stop }
  else r

/-! ## What moves leave alone -/

variable {r r' r'' : IReplica N}

/-- Nothing is executed: the service, the reply table and the record of what
was executed stay as they are. -/
structure Still (r r' : IReplica N) : Prop where
  replies : r'.replies = r.replies
  service : r'.service = r.service
  executed : r'.executed = r.executed

namespace Still

theorem refl (r : IReplica N) : Still r r := ⟨rfl, rfl, rfl⟩

theorem trans (h : Still r r') (h' : Still r' r'') : Still r r'' :=
  ⟨h'.replies.trans h.replies, h'.service.trans h.service, h'.executed.trans h.executed⟩

theorem execute (h : Still r r') (req : Request) (seqno : ℕ) (d : Digest) :
    Still (r.execute req seqno d) (r'.execute req seqno d) := by
  unfold IReplica.execute
  exact ⟨by rw [h.replies, h.service], by rw [h.service], by rw [h.executed, h.service]⟩

theorem enableReplica (r : IReplica N) (state : Bool) : Still r (r.enableReplica state) := by
  unfold IReplica.enableReplica
  split
  · split
    · split
      · exact ⟨rfl, rfl, rfl⟩
      · exact refl r
    · exact ⟨rfl, rfl, rfl⟩
  · exact refl r

end Still

/-- Nothing is executed or numbered, and the state stays. -/
structure Keeps (r r' : IReplica N) : Prop where
  still : Still r r'
  cur_state : r'.cur_state = r.cur_state
  seqno : r'.seqno = r.seqno
  checkpoint_in_progress : r'.checkpoint_in_progress = r.checkpoint_in_progress

theorem keeps_sendReply (r : IReplica N) (id : ℕ) (cid : ℤ) : Keeps r (r.sendReply id cid) := by
  unfold sendReply
  dsimp only
  split <;> exact ⟨⟨rfl, rfl, rfl⟩, rfl, rfl, rfl⟩

theorem keeps_notify (r : IReplica N) (id : ℕ) (cid : ℤ) (rid : ℕ) :
    Keeps r (r.notify id cid rid) := by
  unfold notify
  split <;> exact ⟨⟨rfl, rfl, rfl⟩, rfl, rfl, rfl⟩

theorem keeps_of_canHandle (h : r.canHandle = some r') : Keeps r r' := by
  unfold canHandle at h
  split at h
  · split at h
    · obtain rfl := Option.some.inj h
      exact ⟨⟨rfl, rfl, rfl⟩, rfl, rfl, rfl⟩
    · cases h
  · obtain rfl := Option.some.inj h
    exact ⟨.refl r, rfl, rfl, rfl⟩

/-- What a checkpoint message leaves alone. It starts no checkpoint, and of
the history it can only take entries from the front. -/
structure CheckpointFrame (r r' : IReplica N) : Prop where
  still : Still r r'
  cur_state : r'.cur_state = r.cur_state
  seqno : r'.seqno = r.seqno
  sent : r'.sent = r.sent
  history : r'.rh.rh <:+ r.rh.rh
  idle : r.checkpoint_in_progress = false → r'.checkpoint_in_progress = false

theorem handleCheckpoint_frame (r : IReplica N) (id : ℕ) (c : CCheckpoint) :
    CheckpointFrame r (r.handleCheckpoint id c) := by
  have hrefl : CheckpointFrame r r := ⟨.refl r, rfl, rfl, rfl, List.suffix_rfl, fun h => h⟩
  unfold handleCheckpoint
  split
  · exact hrefl
  split
  · exact hrefl
  dsimp only
  split
  · exact ⟨⟨rfl, rfl, rfl⟩, rfl, rfl, rfl, List.suffix_rfl, fun h => h⟩
  · split
    · -- the checkpoint is stable
      exact ⟨⟨rfl, rfl, rfl⟩, rfl, rfl, rfl, r.rh.truncateHistory_getD_suffix c.seqid,
        fun _ => rfl⟩
    · exact ⟨⟨rfl, rfl, rfl⟩, rfl, rfl, rfl, List.suffix_rfl, fun h => h⟩

theorem enableReplica_cur_state (h : r.cur_state = .normal ∨ r.cur_state = .stop) (state : Bool) :
    (r.enableReplica state).cur_state = .normal ∨ (r.enableReplica state).cur_state = .stop := by
  unfold enableReplica
  rw [if_pos h]
  split
  · split
    · exact Or.inl rfl
    · exact h
  · exact Or.inr rfl

theorem enableReplica_checkpoint_in_progress (r : IReplica N) (state : Bool) :
    (r.enableReplica state).checkpoint_in_progress = r.checkpoint_in_progress := by
  unfold enableReplica
  split
  · split
    · split <;> rfl
    · rfl
  · rfl

end IReplica

/-! ## The reply table is what was executed -/

/-- The entry of the reply table an execution leaves. -/
def Execution.entry (md5 : Md5) (x : Execution) : Reply :=
  ⟨⟨0, x.req.rep.rid, x.rh_digest, md5 x.result, 0, x.result.length, -1, false, 0⟩, x.result⟩

/-- The reply replica `id` sends from that entry. -/
def Execution.reply (md5 : Md5) (id : ℕ) (x : Execution) : Reply :=
  ⟨{ (x.entry md5).rep with replica := id }, x.result⟩

/-- **The reply table**: it has, for each client, the last request executed
for it and the reply of that execution, and no client's requests were
executed out of order. -/
structure Tabled {S H : Type} {N : INode S H} (r : IReplica N) : Prop where
  tracks : Once.Tracks (fun x : Execution => x.req.rep.cid) (fun x => x.req.rep.rid)
    (fun cid => (r.replies cid).rep.rid) r.executed
  stored : ∀ x ∈ r.executed, (r.replies x.req.rep.cid).rep.rid = x.req.rep.rid →
    r.replies x.req.rep.cid = x.entry N.md5
  blank : ∀ cid, (r.replies cid).rep.v = 0 ∧ (r.replies cid).rep.replica = 0 ∧
    (r.replies cid).rep.should_switch = false ∧ (r.replies cid).rep.instance_id = 0

namespace Tabled

variable {S H : Type} {N : INode S H} {r r' : IReplica N}

theorem init (N : INode S H) (service : S) : Tabled (IReplica.init N service) :=
  ⟨.nil _ _, nofun, fun _ => ⟨rfl, rfl, rfl, rfl⟩⟩

theorem still (h : Tabled r) (hs : r.Still r') : Tabled r' := by
  refine ⟨?_, ?_, ?_⟩
  · rw [hs.replies, hs.executed]
    exact h.tracks
  · rw [hs.replies, hs.executed]
    exact h.stored
  · rw [hs.replies]
    exact h.blank

/-- **A request is executed that is new for its client.** -/
theorem execute (h : Tabled r) {req : Request} (seqno : ℕ) (d : Digest)
    (hnew : (r.replies req.rep.cid).rep.rid < req.rep.rid) : Tabled (r.execute req seqno d) := by
  obtain ⟨hv, hreplica, hswitch, hinst⟩ := h.blank req.rep.cid
  have hentry : (r.execute req seqno d).replies = update r.replies req.rep.cid
      (Execution.entry N.md5
        ⟨req, seqno, (N.exec_command r.service req.command req.rep.cid).2, d⟩) := by
    unfold IReplica.execute Execution.entry
    dsimp only
    rw [hv, hreplica, hswitch, hinst]
  have hlast : (fun cid => ((r.execute req seqno d).replies cid).rep.rid) =
      update (fun cid => (r.replies cid).rep.rid) req.rep.cid req.rep.rid := by
    exact comp_update (fun e : Reply => e.rep.rid) r.replies req.rep.cid _
  refine ⟨?_, fun x hx hrid => ?_, fun cid => ?_⟩
  · rw [hlast]
    exact h.tracks.concat (a := ⟨req, seqno, _, d⟩) hnew
  · rw [hentry] at hrid ⊢
    rcases List.mem_concat_iff.1 hx with hx | rfl
    · by_cases hcid : x.req.rep.cid = req.rep.cid
      · -- the table is past the earlier executions of this client
        have hle := h.tracks.le x hx
        rw [hcid, update_self] at hrid
        rw [hcid] at hle
        have : req.rep.rid = x.req.rep.rid := hrid
        omega
      · rw [update_of_ne hcid] at hrid ⊢
        exact h.stored x hx hrid
    · rw [update_self]
  · rw [hentry]
    by_cases hcid : cid = req.rep.cid
    · subst hcid
      rw [update_self]
      exact ⟨rfl, rfl, rfl, rfl⟩
    · rw [update_of_ne hcid]
      exact h.blank cid

end Tabled

end AbstractBFT.Instance
