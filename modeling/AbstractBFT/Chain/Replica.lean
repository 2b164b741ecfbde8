import AbstractBFT.Chain.Authenticator
import AbstractBFT.Common.Smasher
import AbstractBFT.Lib.Entries
import AbstractBFT.Lib.Run
/-!
# Chain — the replica

`C_Replica` runs in several threads. The request thread takes messages
off `incoming_queue`: it orders, executes and forwards requests, and puts
a copy of every executed request into `robust_messages_queue`. The
monitor's thread appends the messages of the other replicas to the same
queue. The robust thread takes that queue apart: it appends the copies to
the request history and handles the checkpoints, panics, aborts and
get-a-grips. Timers raise panics of their own.

`CReplica.step` is one move of one thread. A thread stops between two
moves where another one may come in between: after a test of `cur_state`,
before it takes `checkpointing_mutex`, and between the two halves of
`handle(C_Panic)`, which leaves state `NORMAL` and then builds the abort.
-/

namespace AbstractBFT.Chain

open Function

/-- `replica_state`. -/
inductive ReplicaState where
  | normal
  | panicking
  | miswaiting
  | stop
  deriving DecidableEq

/-- What a replica signs: the headers of checkpoints and aborts. -/
inductive Signed where
  | checkpoint (id : ℤ) (seqid : ℕ) (digest : Digest)
  | abort (rep : AbortRep)
  deriving DecidableEq

/-- What a replica runs on beside what every node shares: the AdHash
modulus, the service's `exec_command`, the signatures of the principals
and the instance to switch to. -/
structure RNode (S : Type) extends CNode where
  M : Modulus
  exec_command : S → List UInt8 → ℤ → S × List UInt8
  gen_signature : ℤ → Signed → List UInt8
  verify_signature : ℤ → Signed → List UInt8 → Bool
  next_instance_id : ℕ

/-- `C_Checkpoint`. -/
structure CCheckpoint where
  id : ℤ
  seqid : ℕ
  digest : Digest
  sig : List UInt8
  deriving DecidableEq

/-- `C_Missing`: the client and request identifiers it lists. -/
structure CMissing where
  replica : ℤ
  elems : List (ℤ × ℕ)

/-- `C_Get_a_grip`. -/
structure CGetAGrip where
  req_id : ℕ
  cid : ℤ
  replica : ℤ
  seqno : ℕ
  stored_request : CRequest

/-- A message a replica handles. -/
inductive RMessage where
  | request (m : CRequest)
  | checkpoint (m : CCheckpoint)
  | panic (cid : ℤ) (rid : ℕ)
  | abort (m : Abort)
  | missing (m : CMissing)
  | getAGrip (m : CGetAGrip)
  | other

/-- An entry of `C_Rep_info`: the header of the last reply to a
principal, the sequence number of its request, and its body. -/
structure RepEntry where
  rep : CReplyRep
  sent_seqno : ℕ
  body : List UInt8

/-- `CheckpointSet`, with the set's completeness bound left to the
caller. -/
structure CheckpointSet where
  elems : ℤ → Option CCheckpoint
  n : ℕ
  s : ℕ

/-- `C_Abort_certificate`. -/
structure AbortCertificate where
  ac : ℕ → Option Abort
  count : ℕ

/-- Where the request thread stands: waiting for a message; with a
request that came in while the replica was in state `NORMAL`; with
`checkpointing_mutex` held, handling the requests that were put off;
about to verify the request; stuck on a mutex it holds itself. -/
inductive RequestThread where
  | idle
  | admitted (req : CRequest)
  | draining (req : CRequest)
  | processing (req : CRequest)
  | deadlocked

/-- Where the robust thread stands: waiting for a message; with an
executed request it took while the replica was in state `NORMAL`; with a
checkpoint message it is about to send. -/
inductive RobustThread where
  | idle
  | logging (req : CRequest)
  | checkpointing (c : CCheckpoint)

/-- An abort a replica broadcast, with the state it was in and the
checkpoint its history was truncated at. -/
structure AbortRecord where
  abort : Abort
  state : ReplicaState
  truncated : ℕ

/-- A merge of abort histories: the set and the result. -/
structure MergeRecord where
  aborts : ℕ → Option Abort
  merged : AbortHistory

/-- The replica's `Req_history_log`. -/
abbrev CLog {S : Type} (N : RNode S) := ReqHistoryLog N.M CRequest

/-- `C_Replica`. The fields from `forwarded` on record what the replica
did: no code reads them. `pending_requests` stands for
`primary_pending_requests` at the head. -/
structure CReplica {S : Type} (N : RNode S) where
  cur_state : ReplicaState
  seqno : ℕ
  last_seqno : ℕ
  replies : ℤ → RepEntry
  service : S
  rh : CLog N
  aborts : AbortCertificate
  ah_2 : AbortHistory
  missing : AbortHistory
  missing_mask : List Bool
  missing_store : List (Option CRequest)
  missing_store_seq : List ℕ
  num_missing : ℕ
  checkpoint_in_progress : Bool
  current_nb_requests_while_checkpointing : ℕ
  current_checkpoints : ℕ → Option CheckpointSet
  pending_requests : List CRequest
  last_chkp_seqno : ℕ
  robust_messages_queue : List RMessage
  requestThread : RequestThread
  robustThread : RobustThread
  /-- the panics whose abort is still to be broadcast -/
  toAbort : List ℕ
  /-- written to the successor's socket -/
  forwarded : List CRequest
  /-- sent to clients: the header and where the MACs come from -/
  answered : List (CReplyRep × Mem)
  /-- sent through the monitor, `-1` for all replicas -/
  sent : List (ℤ × RMessage)
  /-- MACs generated: for whom, over what -/
  macs : List (ℤ × Payload)
  /-- requests executed in state `NORMAL` -/
  executed : List CRequest
  /-- how many of them were appended to `rh` -/
  logged : ℕ
  /-- the sequence number of the last truncation of `rh` -/
  truncated : ℕ
  aborted : List AbortRecord
  merges : List MergeRecord
  /-- how often the next instance was enabled -/
  switched : ℕ

/-! ## Messages -/

/-- `C_Checkpoint::verify` at replica `me`. -/
def CCheckpoint.verify {S : Type} (N : RNode S) (me : ℤ) (c : CCheckpoint) : Bool :=
  N.isReplica c.id &&
    (c.id == me || N.verify_signature c.id (.checkpoint c.id c.seqid c.digest) c.sig)

/-- The element an abort lists for a request of the history. -/
def CRequest.element (r : CRequest) : AbortHistoryElement := ⟨r.rep.cid, r.rep.rid, r.rep.od⟩

/-- The `C_Abort` constructor and `sign`: entries without a request are
skipped and counted. Past the elements lies what the buffer held. -/
def CAbort.ofHistory {S : Type} (N : RNode S) (replica : ℤ) (rid : ℕ)
    (req_h : CLog N) (buffer : ℕ → AbortHistoryElement) : Abort :=
  let elems := req_h.rh.filterMap fun e => e.req.map CRequest.element
  let rep : AbortRep :=
    { replica, rid
      digest := N.md5 (elems.flatMap AbortHistoryElement.bytes)
      hist_size := req_h.rh.length % 2 ^ 16 }
  { rep
    elems := fun j => elems.getD j (buffer j)
    sig := N.gen_signature replica (.abort rep) }

/-- `C_Abort::verify`. From `2^15` entries on the `short` is negative and
the bytes to be hashed would run through the whole address space. -/
def CAbort.verify {S : Type} (N : RNode S) (a : Abort) : Bool :=
  N.isReplica a.rep.replica && decide (a.rep.hist_size < 2 ^ 15) &&
    N.md5 (a.history.flatMap AbortHistoryElement.bytes) == a.rep.digest &&
    N.verify_signature a.rep.replica (.abort a.rep) a.sig

/-- `C_Abort_certificate::add`; `none` where it returns false. -/
def AbortCertificate.add (c : AbortCertificate) (a : Abort) : Option AbortCertificate :=
  let id := a.rep.replica.toNat
  match c.ac id with
  | none => some ⟨update c.ac id (some a), c.count + 1⟩
  | some b =>
    if b.rep.replica = a.rep.replica ∧ b.rep.digest = a.rep.digest ∧ b.rep.rid = a.rep.rid then
      some c
    else none

/-- The certificate after `clear`. -/
def AbortCertificate.empty : AbortCertificate := ⟨fun _ => none, 0⟩

/-- `CheckpointSet::add`; `none` where it returns false. -/
def CheckpointSet.add (cset : CheckpointSet) (i : ℤ) (c : CCheckpoint) : Option CheckpointSet :=
  if (cset.elems i).isSome ∨ c.seqid ≠ cset.s then none
  else some { cset with elems := update cset.elems i (some c), n := cset.n + 1 }

/-! ## The request history -/

section History

variable {S : Type} (N : RNode S)

/-- `rh->add_request(req, req->seqno(), req->digest())`: the digest is
passed by reference, so the history digest overwrites the request's
own. -/
def logRequest (log : CLog N) (req : CRequest) (seq : ℕ) : CLog N :=
  let p := log.addRequest N.md5 (fun r => r.rep.od) req seq
  { p.1 with rh := log.rh ++ [⟨some { req with rep := { req.rep with od := p.2 } }, seq, p.2⟩] }

/-- `Req_history_log::find`: the index of the first entry that holds this
request. -/
def findEntry (rh : List (RhEntry CRequest)) (cid : ℤ) (rid : ℕ) : Option ℕ :=
  rh.findIdx? fun e =>
    match e.req with
    | none => false
    | some r => r.rep.cid == cid && r.rep.rid == rid

/-- One element of the history a replica adopts: moved over from the old
history, leaving a null there, or taken from the requests that were
fetched. `newrh` is the history built so far. -/
def rebuildStep (store : List (CRequest × ℕ))
    (st : List (RhEntry CRequest) × CLog N) (e : AbortHistoryElement) :
    List (RhEntry CRequest) × CLog N :=
  match findEntry st.1 e.cid e.rid with
  | some i =>
    match st.1[i]? with
    | some ⟨some ar, seq, d⟩ =>
      (st.1.set i ⟨none, seq, d⟩, (st.2.addRequest N.md5 (fun r => r.rep.od) ar seq).1)
    | _ => st
  | none =>
    match store.find? fun p => p.1.rep.cid == e.cid && p.1.rep.rid == e.rid with
    | some p => (st.1, logRequest N st.2 p.1 p.2)
    | none => st

/-- The history that replaces `rh`: the elements of `AH_2` the replica
has, in their order. -/
def rebuild (rh : CLog N) (store : List (CRequest × ℕ)) (ah_2 : AbortHistory) : CLog N :=
  (ah_2.foldl (rebuildStep N store) (rh.rh, ReqHistoryLog.empty N.M CRequest)).2

end History

namespace CReplica

variable {S : Type} {N : RNode S}

/-- The constructor, with the service in state `service`. -/
def init (N : RNode S) (service : S) : CReplica N where
  cur_state := .normal
  seqno := 0
  last_seqno := 0
  replies := fun _ => ⟨⟨0, 0, 0, 0, 0, -1, 0, false, 0⟩, 0, []⟩
  service := service
  rh := ReqHistoryLog.empty N.M CRequest
  aborts := AbortCertificate.empty
  ah_2 := []
  missing := []
  missing_mask := []
  missing_store := []
  missing_store_seq := []
  num_missing := 0
  checkpoint_in_progress := false
  current_nb_requests_while_checkpointing := 0
  current_checkpoints := fun _ => none
  pending_requests := []
  last_chkp_seqno := 0
  robust_messages_queue := []
  requestThread := .idle
  robustThread := .idle
  toAbort := []
  forwarded := []
  answered := []
  sent := []
  macs := []
  executed := []
  logged := 0
  truncated := 0
  aborted := []
  merges := []
  switched := 0

variable (r : CReplica N) (id : ℕ)

/-- `enable_replica(true)` in state `STOP`. The record of what the replica did
starts over with the activation. -/
def enable : CReplica N :=
  { r with
    rh := ReqHistoryLog.empty N.M CRequest
    current_checkpoints := fun _ => none
    pending_requests := []
    checkpoint_in_progress := false
    seqno := 0
    last_seqno := 0
    cur_state := .normal
    forwarded := []
    answered := []
    sent := []
    macs := []
    executed := []
    logged := 0
    truncated := 0
    aborted := []
    merges := []
    switched := 0 }

/-- The request thread holds `checkpointing_mutex` between its moves. -/
def mutexHeld : Bool :=
  match r.requestThread with
  | .draining _ => true
  | .deadlocked => true
  | _ => false

/-! ## Panics and aborts -/

/-- `handle(C_Panic)` up to the call of `broadcast_abort`. -/
def handlePanic (cid : ℤ) (rid : ℕ) : CReplica N :=
  let r :=
    if r.cur_state ≠ .panicking ∧ r.cur_state ≠ .stop then
      { r with sent := r.sent ++ [(-1, .panic id rid)], cur_state := .panicking }
    else r
  if N.isReplica cid = false ∧ r.cur_state = .stop then r
  else { r with toAbort := r.toAbort ++ [rid] }

/-- `broadcast_abort`, for the `i`-th of the panics that wait for it. -/
def broadcastAbort (i : ℕ) (buffer : ℕ → AbortHistoryElement) : CReplica N :=
  match r.toAbort[i]? with
  | none => r
  | some rid =>
    let a := CAbort.ofHistory N id rid r.rh buffer
    { r with
      toAbort := r.toAbort.eraseIdx i
      sent := r.sent ++ [(-1, .abort a)]
      -- since we're not receiving it back
      aborts := (r.aborts.add a).getD r.aborts
      aborted := r.aborted ++ [⟨a, r.cur_state, r.truncated⟩] }

/-- Replace the history with `AH_2`, stop, and enable the next
instance. -/
def adopt (store : List (CRequest × ℕ)) : CReplica N :=
  let rh := rebuild N r.rh store r.ah_2
  { r with
    rh
    seqno := rh.getTopSeqno + 1
    ah_2 := []
    missing := []
    missing_mask := []
    missing_store := []
    missing_store_seq := []
    num_missing := 0
    checkpoint_in_progress := false
    cur_state := .stop
    switched := r.switched + 1 }

/-- `handle(C_Abort)` once the certificate is complete: extract the
history and find the missing requests. -/
def merge : CReplica N :=
  match Smasher.process N.n N.f r.aborts.ac id with
  | none => r
  | some (ah_2, missing) =>
    let r : CReplica N :=
      { r with
        ah_2
        missing
        missing_mask := missing.map fun _ => true
        missing_store := missing.map fun _ => none
        missing_store_seq := missing.map fun _ => 0
        num_missing := missing.length
        merges := r.merges ++ [⟨r.aborts.ac, ah_2⟩]
        aborts := AbortCertificate.empty }
    if missing.length = 0 then r.adopt []
    else
      { r with
        sent := r.sent ++ [(-1, .missing ⟨id, missing.map fun e => (e.cid, e.rid)⟩)]
        cur_state := .miswaiting }

/-- `handle(C_Abort)`. -/
def handleAbort (m : Abort) : CReplica N :=
  if r.cur_state ≠ .panicking then r
  else if !CAbort.verify N m then r
  else
    match r.aborts.add m with
    | none => r
    | some aborts =>
      if 3 * N.f + 1 ≤ aborts.count then merge { r with aborts } id else { r with aborts }

/-- `handle(C_Missing)`: answer with the requests the history holds. -/
def handleMissing (m : CMissing) : CReplica N :=
  { r with
    sent := r.sent ++ m.elems.filterMap fun p =>
      match findEntry r.rh.rh p.1 p.2 with
      | none => none
      | some i =>
        match r.rh.rh[i]? with
        | some ⟨some req, seq, _⟩ => some (m.replica, .getAGrip ⟨p.2, p.1, id, seq, req⟩)
        | _ => none }

/-- The missing element a get-a-grip is for. -/
def findMissing (m : CGetAGrip) : Option ℕ :=
  (r.missing.zip r.missing_mask).findIdx? fun p =>
    p.2 && p.1.cid == m.cid && p.1.rid == m.req_id && p.1.d == m.stored_request.rep.od

/-- `handle(C_Get_a_grip)`. -/
def handleGetAGrip (m : CGetAGrip) : CReplica N :=
  if r.cur_state ≠ .miswaiting then r
  else
    match r.findMissing m with
    | none => r
    | some i =>
      let r :=
        { r with
          missing_mask := r.missing_mask.set i false
          missing_store := r.missing_store.set i (some m.stored_request)
          missing_store_seq := r.missing_store_seq.set i m.seqno
          num_missing := r.num_missing - 1 }
      if r.num_missing = 0 then
        r.adopt ((r.missing_store.zip r.missing_store_seq).filterMap fun p =>
          p.1.map fun req => (req, p.2))
      else r

/-! ## Checkpoints -/

/-- `rh->truncate_history(seq)`. -/
def truncate (seq : ℕ) : CReplica N :=
  match r.rh.truncateHistory seq with
  | none => r
  | some rh => { r with rh, truncated := seq }

/-- The checkpoint set for `seq`, a new one if there is none. -/
def checkpointSet (seq : ℕ) : CheckpointSet :=
  (r.current_checkpoints seq).getD ⟨fun _ => none, 0, seq⟩

/-- The checkpoint set once `handle(C_Checkpoint)` took in `c`, if it
does. -/
def admitCheckpoint (c : CCheckpoint) : Option CheckpointSet :=
  if !c.verify N id then none
  else if c.seqid ≤ r.last_chkp_seqno then none
  else (r.checkpointSet c.seqid).add c.id c

/-- `handle(C_Checkpoint)`; `panics` is what the monitor answers when the
set is complete. Whether the digests in the set match is computed and
not used. -/
def handleCheckpoint (c : CCheckpoint) (panics : Bool) : CReplica N :=
  match r.admitCheckpoint id c with
  | none =>
    if c.verify N id ∧ r.last_chkp_seqno < c.seqid then
      { r with
        current_checkpoints :=
          update r.current_checkpoints c.seqid (some (r.checkpointSet c.seqid)) }
    else r
  | some cset =>
    if cset.n = 2 * N.f + 1 then
      let r :=
        { r.truncate c.seqid with
          current_nb_requests_while_checkpointing := 0
          checkpoint_in_progress := false
          last_chkp_seqno := c.seqid
          current_checkpoints := update r.current_checkpoints c.seqid none }
      if panics then r.handlePanic id id 0 else r
    else
      { r with current_checkpoints := update r.current_checkpoints c.seqid (some cset) }

/-! ## Requests -/

variable (req : CRequest)

/-- `is_seen`. -/
def isSeen : Bool :=
  req.rep.rid ≤ (r.replies req.rep.cid).rep.rid

/-- `is_old`. -/
def isOld : Bool :=
  req.rep.rid < (r.replies req.rep.cid).rep.rid

/-- `execute_request`. -/
def executeRequest : CReplica N :=
  let cid := req.rep.cid
  let out := N.exec_command r.service (req.command.take req.rep.command_size) cid
  let old := (r.replies cid).rep
  let rep : CReplyRep :=
    { old with
      v := 0, replica := 0, rid := req.rep.rid, reply_size := out.2.length, cid := -1
      digest := N.md5 out.2 }
  { r with
    service := out.1
    last_seqno := r.seqno
    robust_messages_queue := r.robust_messages_queue ++ [.request req]
    replies := update r.replies cid ⟨rep, r.seqno, out.2⟩
    executed := if r.cur_state = .normal then r.executed ++ [req] else r.executed }

/-- The part of `handle(C_Request)` that orders and executes a request
that was verified; `none` where the request is dropped. -/
def order : Option (CReplica N × CRequest) :=
  if id = 0 then
    if !r.isSeen req then
      let req := req.setSeqno (r.seqno + 1)
      some (executeRequest { r with seqno := r.seqno + 1 } req, req)
    else if !r.isOld req then
      some (r, req.setSeqno (r.replies req.rep.cid).sent_seqno)
    else none
  else
    if !r.isSeen req then
      if req.rep.seq_num ≠ r.last_seqno + 1 then none
      else some (executeRequest { r with seqno := r.last_seqno + 1 } req, req)
    else some (r, req)

/-- The MACs `authenticate` generates at replica `id`: for the next
replicas over the request's header, and at the end of the chain for the
client over the reply's. -/
def authMacs (N : RNode S) (id : ℕ) (req : CRequest) (rr : CReplyRep) : List (ℤ × Payload) :=
  let nb_MACs_for_replicas := min (N.f + 1) (N.n - (id + 1))
  (List.range nb_MACs_for_replicas).map (fun j : ℕ => ((id + j + 1 : ℤ), .request req.rep)) ++
    if nb_MACs_for_replicas < N.f + 1 then [(req.rep.cid, .reply rr)] else []

/-- The end of `handle(C_Request)`: authenticate the request and forward
it, or send the reply at the tail, as a switch notice if the replica
stopped meanwhile. -/
def send (authentication_offset : ℕ) (unonce : Cell) : CReplica N :=
  let rr := (r.replies req.rep.cid).rep
  let req := req.authenticate N.toCNode id id authentication_offset (some rr) unonce
  let r := { r with macs := r.macs ++ authMacs N id req rr }
  if id < N.n - 1 then { r with forwarded := r.forwarded ++ [req] }
  else
    { r with
      answered := r.answered ++
        [(if r.cur_state = .stop then
            { rr with should_switch := true, instance_id := N.next_instance_id }
          else rr, req.auth)] }

/-- `handle(C_Request)` from the check for read-only requests on. -/
def processRequest (unonce : Cell) : CReplica N :=
  if req.isReadOnly then r
  else
    match req.verify N.toCNode id with
    | none => r
    | some (req, authentication_offset) =>
      match r.order id req with
      | none => r
      | some (r, req) => r.send id req authentication_offset unonce

/-- `handle(C_Request)` in state `STOP`: forward the request as it came,
or answer with a switch notice. -/
def forwardStopped : CReplica N :=
  if id < N.n - 1 then { r with forwarded := r.forwarded ++ [req] }
  else
    let rr := (r.replies req.rep.cid).rep
    { r with
      answered := r.answered ++
        [({ rr with should_switch := true, instance_id := N.next_instance_id }, req.auth)] }

/-- A request that has to wait for a checkpoint: in the order of arrival
at the head, by sequence number and once for each elsewhere. -/
def putOff (pending : List CRequest) : List CRequest :=
  if id = 0 then pending ++ [req]
  else if pending.any fun p => p.rep.seq_num == req.rep.seq_num then pending
  else
    pending.takeWhile (fun p => p.rep.seq_num < req.rep.seq_num) ++
      req :: pending.dropWhile fun p => p.rep.seq_num < req.rep.seq_num

/-! ## The threads -/

/-- `handle(C_Message)` for a message other than a request. -/
def handle (m : RMessage) (panics : Bool) : CReplica N :=
  match m with
  | .checkpoint c => r.handleCheckpoint id c panics
  | .panic cid rid => r.handlePanic id cid rid
  | .abort m => r.handleAbort id m
  | .missing m => r.handleMissing id m
  | .getAGrip m => r.handleGetAGrip m
  | .request _ => r
  | .other => r

/-- `do_recv_from_queue`: the request thread takes a message off
`incoming_queue`, and tests the state if it is a request. -/
def takeIncoming (m : RMessage) (panics : Bool) : CReplica N :=
  match r.requestThread with
  | .idle =>
    match m with
    | .request req =>
      match r.cur_state with
      | .stop => r.forwardStopped id req
      | .normal => { r with requestThread := .admitted req }
      | _ => r
    | m => r.handle id m panics
  | _ => r

/-- `MAX_NB_REQS_CHKPT`. -/
def maxNbRequestsWhileCheckpointing : ℕ := 256

/-- The request thread goes on with the request it has. Handling a
request that was put off takes the mutex again. -/
def requestMove (unonce : Cell) : CReplica N :=
  match r.requestThread with
  | .idle => r
  | .deadlocked => r
  | .admitted req =>
    if r.checkpoint_in_progress then
      if r.current_nb_requests_while_checkpointing < maxNbRequestsWhileCheckpointing then
        { r with
          current_nb_requests_while_checkpointing := r.current_nb_requests_while_checkpointing + 1
          requestThread := .processing req }
      else
        { r with
          pending_requests := putOff id req r.pending_requests
          requestThread := .idle }
    else { r with requestThread := .draining req }
  | .draining req =>
    match r.pending_requests with
    | [] => { r with requestThread := .processing req }
    | p :: pending =>
      match r.cur_state with
      | .normal => { r with requestThread := .deadlocked }
      | .stop =>
        forwardStopped { r with pending_requests := pending, requestThread := .draining req } id p
      | _ => { r with pending_requests := pending, requestThread := .draining req }
  | .processing req => { r.processRequest id req unonce with requestThread := .idle }

/-- `robust_handler` appends an executed request to the history, and
makes a checkpoint if it is time for one. -/
def logExecuted : CReplica N :=
  let r :=
    { r with
      rh := logRequest N r.rh req req.rep.seq_num
      logged := r.logged + 1
      robustThread := .idle }
  if r.rh.shouldCheckpoint then
    if r.rh.getTopSeqno ≤ r.last_chkp_seqno then r.truncate r.last_chkp_seqno
    else
      let d := r.rh.rhDigest N.md5
      { r with
        robustThread := .checkpointing ⟨id, r.rh.getTopSeqno, d,
          N.gen_signature id (.checkpoint id r.rh.getTopSeqno d)⟩ }
  else r

/-- A message was taken off the robust thread's queue. -/
abbrev popped (queue : List RMessage) : CReplica N := { r with robust_messages_queue := queue }

/-- The robust thread sends the replica's own checkpoint. -/
def sends (c : CCheckpoint) : CReplica N :=
  { r with
    checkpoint_in_progress := true
    sent := r.sent ++ [(-1, .checkpoint c)]
    robustThread := .idle }

/-- The robust thread's next move. It waits where it needs the mutex and
the request thread holds it. -/
def robustMove (panics : Bool) : CReplica N :=
  match r.robustThread with
  | .logging req => r.logExecuted id req
  | .checkpointing c =>
    if r.mutexHeld then r
    else (r.sends c).handleCheckpoint id c panics
  | .idle =>
    match r.robust_messages_queue with
    | [] => r
    | .request req :: queue =>
      if r.cur_state ≠ .normal then r.popped queue
      else { r with robust_messages_queue := queue, robustThread := .logging req }
    | .checkpoint c :: queue =>
      if r.mutexHeld then r
      else (r.popped queue).handle id (.checkpoint c) panics
    | m :: queue => (r.popped queue).handle id m panics

/-- What can happen at a replica: a thread moves, a message reaches the
robust queue through the monitor, a timer fires, or a thread that left
state `NORMAL` broadcasts its abort. -/
inductive CEvent where
  | incoming (m : RMessage) (panics : Bool)
  | request (unonce : Cell)
  | arrive (m : RMessage)
  | robust (panics : Bool)
  | noCheckpointTimeout
  | noRequestTimeout (not_enough_requests : Bool)
  | abort (i : ℕ) (buffer : ℕ → AbortHistoryElement)

/-- One move at replica `id`. -/
def step (id : ℕ) (r : CReplica N) : CEvent → CReplica N
  | .incoming m panics => r.takeIncoming id m panics
  | .request unonce => r.requestMove id unonce
  | .arrive m => { r with robust_messages_queue := r.robust_messages_queue ++ [m] }
  | .robust panics => r.robustMove id panics
  | .noCheckpointTimeout =>
    if r.cur_state ≠ .normal ∨ r.mutexHeld then r else r.handlePanic id id 0
  | .noRequestTimeout not_enough_requests =>
    if r.cur_state = .normal ∧ not_enough_requests then r.handlePanic id id 0 else r
  | .abort i buffer => r.broadcastAbort id i buffer

end CReplica

end AbstractBFT.Chain
