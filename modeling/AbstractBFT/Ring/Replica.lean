import AbstractBFT.Common.History
import AbstractBFT.Lib.Entries
import AbstractBFT.Lib.Run
/-!
# The replica of Ring

`R_Replica`: requests travel around the ring of replicas from the one a
client sent them to, get their sequence number when they pass replica 0,
and turn into acknowledgements where the round ends, which travel on.

The build defines neither `USE_MACS` nor `USE_CHECKPOINTS`: nothing is
verified, and there is no history. Batching is gone from the code, so `pos`
is 0 in every `R_Message_State` and `rmid` is not read. `latest_seen_rid` is
never written.
-/

namespace AbstractBFT.Ring

open Function

/-! ## Messages -/

/-- `R_Request`. `seqno` is "given by the sequencer. it is non-nil if set";
`replica_id` is the "id of the replica that received this request first". -/
structure RRequest where
  cid : ℤ
  rid : ℕ
  replica_id : ℤ
  seqno : ℕ
  od : Digest
  read_only : Bool
  command : List UInt8
  deriving DecidableEq

/-- `R_Message_Id`. -/
abbrev MessageId := ℤ × ℕ

/-- The key of a request. -/
def RRequest.rmid (m : RRequest) : MessageId := (m.cid, m.rid)

/-- `R_ACK`. -/
structure RAck where
  cid : ℤ
  replica_id : ℤ
  seqno : ℕ
  rid : ℕ
  od : Digest
  deriving DecidableEq

/-- The key of the request that an acknowledgement is for. -/
def RAck.rmid (a : RAck) : MessageId := (a.cid, a.rid)

/-- What the replicas send around. -/
inductive RMessage where
  | request (m : RRequest)
  | ack (a : RAck)
  deriving DecidableEq

/-! ## The state of a replica -/

/-- `R_State`. -/
inductive RState where
  | pending
  | exec_not_acked
  | acked_not_exec
  | acked
  | stable
  deriving DecidableEq

/-- `state >= state_acked`. -/
def RState.isAcked : RState → Bool
  | .acked | .stable => true
  | _ => false

/-- `R_Message_State`. The request is `none` where the code holds a null
pointer. -/
structure MessageState where
  req : Option RRequest
  state : RState
  refcount : ℕ
  my_rmid : MessageId
  deriving DecidableEq

/-- What `std::map` puts under a key it does not have. -/
def MessageState.default : MessageState := ⟨none, .pending, 0, (0, 0)⟩

/-- An entry of the reply table; `result` is `none` where `reply_size` is
`-1`. -/
structure RReply where
  replica : ℤ
  rid : ℕ
  seqno : ℕ
  result : Option (List UInt8)
  deriving DecidableEq

/-- What a replica runs on: the fault bound, the number of principals and
the service's `exec_command`. -/
structure RNode (S : Type) where
  f : ℕ
  num_principals : ℕ
  exec_command : S → List UInt8 → ℤ → Bool → S × List UInt8

variable {S : Type}

namespace RNode

variable (N : RNode S)

/-- `num_replicas`. -/
def n : ℕ := 3 * N.f + 1

/-- The reply table has an entry for this client. -/
def isPrincipal (cid : ℤ) : Bool := 0 ≤ cid && cid < N.num_principals

/-- `distance`. -/
def distance (s d : ℤ) : ℤ := (d - s + N.n).tmod N.n

/-- `distance(s, d) == RANSWER`: the round of a message ends here. -/
def isLast (s : ℤ) (d : ℕ) : Bool := N.distance s d == N.n - 1

end RNode

/-- `R_Replica`. `execution_queue` is in the order of a priority queue,
lowest sequence number first. `replied` and `executed` record what the
replica did. `down` is set where the process fails or hangs for ever. -/
structure RReplica (N : RNode S) where
  seqno : ℕ
  last_executed : ℕ
  replies : ℤ → RReply
  service : S
  requests : MessageId → Option MessageState
  execution_queue : List (ℕ × MessageId)
  down : Bool
  replied : List (ℤ × RReply)
  executed : List RRequest

namespace RReplica

variable {N : RNode S}

/-- The constructor, with the service in state `service`. -/
def init (N : RNode S) (service : S) : RReplica N where
  seqno := 0
  last_executed := 0
  replies := fun _ => ⟨0, 0, 0, none⟩
  service := service
  requests := fun _ => none
  execution_queue := []
  down := false
  replied := []
  executed := []

/-! ## Execution -/

variable (r : RReplica N) (id : ℕ)

/-- `execution_queue.push`. -/
def push (seqno : ℕ) (rmid : MessageId) : RReplica N :=
  { r with
    execution_queue := r.execution_queue.takeWhile (fun e => e.1 < seqno) ++
      (seqno, rmid) :: r.execution_queue.dropWhile (fun e => e.1 < seqno) }

/-- The condition of the loop of `process_execution_queue`: the lowest
number queued is the next to execute. -/
def queueReady : Bool :=
  match r.execution_queue with
  | [] => false
  | e :: _ => e.1 == r.last_executed + 1

/-- `process_execution_queue`. The loop has an empty body: it is left at
once if its condition does not hold, and never otherwise. -/
def processExecutionQueue : RReplica N :=
  if r.queueReady then { r with down := true } else r

variable (req : RRequest)

/-- `execute_request_main`. -/
def executeRequestMain : RReplica N :=
  let out := N.exec_command r.service req.command req.cid req.read_only
  { r with
    service := out.1
    replies := update r.replies req.cid ⟨req.replica_id, req.rid, req.seqno, some out.2⟩
    executed := r.executed ++ [req] }

/-- `Execution`. -/
inductive Execution where
  | old
  | ok
  | wait
  deriving DecidableEq

/-- The execution proper, and what `execute_request` does after it. -/
def executeNow : RReplica N :=
  processExecutionQueue
    { r.executeRequestMain req with
      last_executed := req.seqno
      execution_queue := r.execution_queue.dropWhile (fun e => e.1 < req.seqno) }

/-- `execute_request`. Processing the queue leaves `last_executed` alone, so
that the two tests after it come out as before. -/
def executeRequest : RReplica N × Execution :=
  if req.seqno ≤ r.last_executed then (r, .old)
  else if req.seqno ≠ r.last_executed + 1 then
    if !r.execution_queue.isEmpty && !r.queueReady then (r, .wait)
    else (r.processExecutionQueue, .wait)
  else (r.executeNow req, .ok)

/-- `do_execute`. -/
def doExecute : RReplica N :=
  if req.seqno = 0 then r else (r.executeRequest req).1

/-! ## Requests -/

/-- `seqno++`. -/
def countUp : RReplica N := { r with seqno := r.seqno + 1 }

/-- `assign_sequence`, with `get_seqno_for_request`: the sequencer is
replica 0. -/
def assignSequence : RReplica N × RRequest :=
  if id = 0 then
    if req.rid ≤ (r.replies req.cid).rid then
      (r, { req with seqno := (r.replies req.cid).seqno })
    else (r.countUp, { req with seqno := r.seqno + 1 })
  else (r, req)

/-- `refcount--`, on an unsigned number. -/
def decr (refcount : ℕ) : ℕ := if refcount = 0 then 2 ^ 32 - 1 else refcount - 1

/-- `rms_remove`, on the map. -/
def rmsRemove (requests : MessageId → Option MessageState) (rms : MessageState) :
    MessageId → Option MessageState :=
  if decr rms.refcount = 0 then update requests rms.my_rmid none
  else update requests rms.my_rmid (some { rms with refcount := decr rms.refcount })

/-- The state of a new request. `my_rmid` keeps the value of its
constructor: the assignment is commented out. -/
def pendingReq : MessageState :=
  ⟨some req, if req.seqno ≠ 0 ∧ req.seqno ≤ r.last_executed then .exec_not_acked else .pending,
    1, (0, 0)⟩

/-- `create_state_for_request`. -/
def createStateForRequest : RReplica N :=
  let requests := (r.requests req.rmid).elim r.requests (rmsRemove r.requests)
  let r' := { r with requests := update requests req.rmid (some (r.pendingReq req)) }
  if req.seqno ≠ 0 ∧ r.last_executed < req.seqno then r'.push req.seqno req.rmid else r'

/-- The acknowledgement that a request turns into. -/
def ackOf : RAck := ⟨req.cid, req.replica_id, req.seqno, req.rid, req.od⟩

/-- `transform_handle` or `forward_handle` of a request: what goes to the
successor. -/
def passOn (N : RNode S) (id : ℕ) (req : RRequest) : RMessage :=
  if N.isLast req.replica_id id then .ack (ackOf req) else .request req

/-- `handle(R_Request)`, with what is sent to the successor. -/
def handleRequest : RReplica N × List RMessage :=
  if !N.isPrincipal req.cid then ({ r with down := true }, [])
  else if req.rid < (r.replies req.cid).rid then (r, [])
  else
    let s := r.assignSequence id req
    let r := s.1.doExecute s.2
    if r.down then (r, [])
    else (r.createStateForRequest s.2, [passOn N id s.2])

/-! ## Acknowledgements -/

/-- What `transform_handle` and `forward_handle` of an acknowledgement do
with the entry of its request. -/
def settle (rms : MessageState) : RReplica N :=
  { r with requests := update r.requests rms.my_rmid (some { rms with state := .stable }) }

/-- `send_reply_to_client`. It fails if the table has no reply. -/
def sendReplyToClient (cid : ℤ) : RReplica N :=
  if (r.replies cid).result.isNone then { r with down := true }
  else { r with replied := r.replied ++ [(cid, r.replies cid)] }

/-- `transform_handle(ack)`: the round of the acknowledgement ends here. -/
def transformAck (ack : RAck) : RReplica N :=
  match r.requests ack.rmid with
  | none => r
  | some rms => if rms.state.isAcked then (r.sendReplyToClient ack.cid).settle rms else r

/-- `forward_handle(ack)`, but for the sending. -/
def forwardAck (ack : RAck) : RReplica N :=
  match r.requests ack.rmid with
  | none => r
  | some rms => if rms.state.isAcked then r.settle rms else r

/-- The changes of the entry that `arms` refers to, with the execution of
`areq` if the entry is acknowledged and not executed. -/
def upgrade (arms : MessageState) (areq : RRequest) : RReplica N × MessageState :=
  let arms := if arms.state = .pending then { arms with state := .acked_not_exec } else arms
  let arms := if arms.state = .exec_not_acked then { arms with state := .acked } else arms
  if arms.state = .acked_not_exec then
    match r.executeRequest areq with
    | (r, .wait) => (r.push areq.seqno arms.my_rmid, arms)
    | (r, _) => (r, { arms with state := .acked })
  else (r, arms)

/-- `handle(R_ACK)`, with what is sent to the successor. -/
def handleAck (ack : RAck) : RReplica N × List RMessage :=
  if !N.isPrincipal ack.cid then ({ r with down := true }, [])
  else if ack.rid < (r.replies ack.cid).rid then (r, [])
  else
    match r.requests ack.rmid with
    | none => (r, [])
    | some rms =>
      match rms.req with
      | none => ({ r with down := true }, [])
      | some areq =>
        let u := r.upgrade ((r.requests rms.my_rmid).getD .default) areq
        let r := { u.1 with requests := update u.1.requests rms.my_rmid (some u.2) }
        if r.down then (r, [])
        else if N.isLast areq.replica_id id then (r.transformAck ack, [])
        else (r.forwardAck ack, [.ack ack])

/-- One message at replica `id`. -/
def handle : RMessage → RReplica N × List RMessage
  | .request m => r.handleRequest id m
  | .ack a => r.handleAck id a

/-! ## What a message does -/

variable {r r' r'' : RReplica N} {req : RRequest} {P : RRequest → Prop}

/-- Nothing is executed or numbered. -/
structure Idle (r r' : RReplica N) : Prop where
  seqno : r'.seqno = r.seqno
  last_executed : r'.last_executed = r.last_executed
  replies : r'.replies = r.replies
  executed : r'.executed = r.executed

theorem Idle.refl (r : RReplica N) : Idle r r := ⟨rfl, rfl, rfl, rfl⟩

theorem Idle.trans (h : Idle r r') (h' : Idle r' r'') : Idle r r'' :=
  ⟨h'.seqno.trans h.seqno, h'.last_executed.trans h.last_executed, h'.replies.trans h.replies,
    h'.executed.trans h.executed⟩

/-- **At most one request is executed, and it is the next**: what each
message can do. -/
inductive Moves (P : RRequest → Prop) (r : RReplica N) : RReplica N → Prop where
  | idle {r' : RReplica N} (h : Idle r r') : Moves P r r'
  | exec {r' : RReplica N} (req : RRequest) (hreq : P req)
      (hnext : req.seqno = r.last_executed + 1) (h : Idle (r.executeNow req) r') : Moves P r r'

theorem Moves.trans_idle (h : Moves P r r') (h' : Idle r' r'') : Moves P r r'' := by
  cases h with
  | idle h => exact .idle (h.trans h')
  | exec req hreq hnext h => exact .exec req hreq hnext (h.trans h')

section

variable (r)

theorem idle_processExecutionQueue : Idle r r.processExecutionQueue := by
  unfold processExecutionQueue
  split <;> exact ⟨rfl, rfl, rfl, rfl⟩

theorem idle_push (seqno : ℕ) (rmid : MessageId) : Idle r (r.push seqno rmid) :=
  ⟨rfl, rfl, rfl, rfl⟩

theorem idle_createStateForRequest (req : RRequest) : Idle r (r.createStateForRequest req) := by
  unfold createStateForRequest
  split_ifs <;> exact ⟨rfl, rfl, rfl, rfl⟩

theorem idle_sendReplyToClient (cid : ℤ) : Idle r (r.sendReplyToClient cid) := by
  unfold sendReplyToClient
  split <;> exact ⟨rfl, rfl, rfl, rfl⟩

theorem idle_transformAck (ack : RAck) : Idle r (r.transformAck ack) := by
  unfold transformAck
  split
  · exact .refl r
  · split
    · exact (idle_sendReplyToClient r ack.cid).trans ⟨rfl, rfl, rfl, rfl⟩
    · exact .refl r

theorem idle_forwardAck (ack : RAck) : Idle r (r.forwardAck ack) := by
  unfold forwardAck
  split
  · exact .refl r
  · split
    · exact ⟨rfl, rfl, rfl, rfl⟩
    · exact .refl r

theorem executeNow_spec (req : RRequest) :
    (r.executeNow req).seqno = r.seqno ∧ (r.executeNow req).last_executed = req.seqno ∧
      (r.executeNow req).executed = r.executed ++ [req] ∧
      (∀ cid, (r.executeNow req).replies cid =
        if cid = req.cid then ⟨req.replica_id, req.rid, req.seqno,
          some (N.exec_command r.service req.command req.cid req.read_only).2⟩
        else r.replies cid) := by
  have h := idle_processExecutionQueue (N := N) { r.executeRequestMain req with
    last_executed := req.seqno
    execution_queue := r.execution_queue.dropWhile (fun e => e.1 < req.seqno) }
  refine ⟨h.seqno, h.last_executed, h.executed, fun cid => ?_⟩
  rw [executeNow, h.replies]
  exact update_apply ..

theorem executeNow_requests (req : RRequest) : (r.executeNow req).requests = r.requests := by
  unfold executeNow processExecutionQueue
  split <;> rfl

theorem executeRequest_requests (req : RRequest) :
    (r.executeRequest req).1.requests = r.requests := by
  unfold executeRequest
  split
  · rfl
  split
  · split
    · rfl
    · unfold processExecutionQueue
      split <;> rfl
  · exact executeNow_requests r req

theorem moves_executeRequest (hreq : P req) : Moves P r (r.executeRequest req).1 := by
  unfold executeRequest
  split
  · exact .idle (.refl r)
  split
  · split
    · exact .idle (.refl r)
    · exact .idle (idle_processExecutionQueue r)
  · next hnext => exact .exec req hreq (by omega) (.refl _)

theorem moves_doExecute (hreq : P req) : Moves P r (r.doExecute req) := by
  unfold doExecute
  split
  · exact .idle (.refl r)
  · exact moves_executeRequest r hreq

theorem doExecute_requests (req : RRequest) : (r.doExecute req).requests = r.requests := by
  unfold doExecute
  split
  · rfl
  · exact executeRequest_requests r req

theorem upgrade_requests (arms : MessageState) (areq : RRequest) :
    (r.upgrade arms areq).1.requests = r.requests := by
  have h := executeRequest_requests r areq
  unfold upgrade
  dsimp only
  generalize r.executeRequest areq = out at h
  obtain ⟨r', x⟩ := out
  split_ifs <;> cases x <;> first | exact h | rfl

theorem upgrade_req (arms : MessageState) (areq : RRequest) :
    (r.upgrade arms areq).2.req = arms.req := by
  unfold upgrade
  dsimp only
  generalize r.executeRequest areq = out
  obtain ⟨r', x⟩ := out
  split_ifs <;> cases x <;> rfl

theorem moves_upgrade (arms : MessageState) {areq : RRequest} (hreq : P areq) :
    Moves P r (r.upgrade arms areq).1 := by
  have h := moves_executeRequest r hreq
  unfold upgrade
  dsimp only
  generalize r.executeRequest areq = out at h
  obtain ⟨r', x⟩ := out
  split_ifs <;> cases x <;>
    first | exact h | exact h.trans_idle (idle_push _ _ _) | exact .idle (.refl r)

theorem createStateForRequest_requests (req : RRequest) :
    (r.createStateForRequest req).requests =
      update ((r.requests req.rmid).elim r.requests (RReplica.rmsRemove r.requests))
        req.rmid (some (r.pendingReq req)) := by
  unfold createStateForRequest
  split_ifs <;> rfl

theorem sendReplyToClient_requests (cid : ℤ) : (r.sendReplyToClient cid).requests = r.requests := by
  unfold sendReplyToClient
  split <;> rfl

theorem assignSequence_requests (id : ℕ) (req : RRequest) :
    (r.assignSequence id req).1.requests = r.requests := by
  unfold assignSequence
  split_ifs <;> rfl

end

/-! ## The requests that the map holds -/

variable {requests : MessageId → Option MessageState}

/-- Every request that the map holds is as `P` says. -/
def Stored (P : RRequest → Prop) (requests : MessageId → Option MessageState) : Prop :=
  ∀ k rms q, requests k = some rms → rms.req = some q → P q

theorem Stored.mono {Q : RRequest → Prop} (hPQ : ∀ q, P q → Q q) (h : Stored P requests) :
    Stored Q requests := fun k rms q hk hq => hPQ q (h k rms q hk hq)

theorem Stored.update (h : Stored P requests) (k : MessageId) {rms : MessageState}
    (hrms : ∀ q, rms.req = some q → P q) : Stored P (update requests k (some rms)) := by
  have hall : ∀ k rms, requests k = some rms → ∀ q, rms.req = some q → P q :=
    fun k rms hk q => h k rms q hk
  intro k' rms' q hk'
  exact Entries.forall_write hall hrms k' rms' hk' q

theorem Stored.rmsRemove (h : Stored P requests) {k : MessageId} {old : MessageState}
    (hold : requests k = some old) : Stored P (RReplica.rmsRemove requests old) := by
  unfold RReplica.rmsRemove
  split
  · exact fun k' rms q hk' => h k' rms q (Entries.of_erase hk')
  · exact h.update old.my_rmid fun q hq => h k old q hold hq

section

variable (h : Stored P r.requests)
include h

theorem Stored.createStateForRequest (hreq : P req) :
    Stored P (r.createStateForRequest req).requests := by
  rw [createStateForRequest_requests]
  have hold : Stored P ((r.requests req.rmid).elim r.requests (RReplica.rmsRemove r.requests)) := by
    cases hold : r.requests req.rmid with
    | none => exact h
    | some old =>
      exact h.rmsRemove hold
  refine hold.update req.rmid fun q hq => ?_
  obtain rfl : req = q := Option.some.inj hq
  exact hreq

theorem Stored.settle {k : MessageId} {rms : MessageState} (hk : r.requests k = some rms) :
    Stored P (r.settle rms).requests :=
  h.update rms.my_rmid fun q hq => h k rms q hk hq

theorem Stored.transformAck (ack : RAck) : Stored P (r.transformAck ack).requests := by
  unfold RReplica.transformAck
  split
  · exact h
  · next rms hrms =>
    split
    · have hsent := sendReplyToClient_requests r ack.cid
      refine Stored.settle (k := ack.rmid) ?_ ?_
      · rw [hsent]
        exact h
      · rw [hsent]
        exact hrms
    · exact h

theorem Stored.forwardAck (ack : RAck) : Stored P (r.forwardAck ack).requests := by
  unfold RReplica.forwardAck
  split
  · exact h
  · next rms hrms =>
    split
    · exact h.settle hrms
    · exact h

end

/-! ## The handlers -/

/-- The request is not older than what the client's entry of the reply
table has. -/
def Accepts (r : RReplica N) (req : RRequest) : Prop :=
  N.isPrincipal req.cid = true ∧ (r.replies req.cid).rid ≤ req.rid

theorem handleRequest_of_not_accepts (id : ℕ) (h : ¬ r.Accepts req) :
    Idle r (r.handleRequest id req).1 ∧ (r.handleRequest id req).1.requests = r.requests ∧
      (r.handleRequest id req).2 = [] := by
  unfold handleRequest
  split
  · exact ⟨⟨rfl, rfl, rfl, rfl⟩, rfl, rfl⟩
  split
  · exact ⟨.refl r, rfl, rfl⟩
  · next hcid hrid => exact absurd ⟨by simpa using hcid, by omega⟩ h

theorem handleRequest_of_accepts (id : ℕ) (h : r.Accepts req) :
    r.handleRequest id req =
      if ((r.assignSequence id req).1.doExecute (r.assignSequence id req).2).down then
        ((r.assignSequence id req).1.doExecute (r.assignSequence id req).2, [])
      else
        (((r.assignSequence id req).1.doExecute (r.assignSequence id req).2).createStateForRequest
          (r.assignSequence id req).2, [passOn N id (r.assignSequence id req).2]) := by
  have hrid := h.2
  unfold handleRequest
  rw [h.1, if_neg (by decide), if_neg (by omega)]

/-- **A request that is accepted**: at most it is executed, and it is what
the map holds and the successor gets. -/
theorem Accepts.handleRequest (id : ℕ) (h : r.Accepts req) (hstored : Stored P r.requests)
    (hreq : P (r.assignSequence id req).2) :
    Moves P (r.assignSequence id req).1 (r.handleRequest id req).1 ∧
      Stored P (r.handleRequest id req).1.requests ∧
      ∀ m, .request m ∈ (r.handleRequest id req).2 → P m := by
  have hmoves := moves_doExecute (r.assignSequence id req).1 hreq
  have hmap := (doExecute_requests (r.assignSequence id req).1 (r.assignSequence id req).2).trans
    (assignSequence_requests r id req)
  rw [handleRequest_of_accepts id h]
  generalize (r.assignSequence id req).1.doExecute (r.assignSequence id req).2 = x at hmoves hmap ⊢
  have hx : Stored P x.requests := by
    rw [hmap]
    exact hstored
  split
  · exact ⟨hmoves, hx, by simp⟩
  · refine ⟨hmoves.trans_idle (idle_createStateForRequest ..), hx.createStateForRequest hreq, ?_⟩
    intro m hm
    rw [List.mem_singleton, passOn] at hm
    split at hm
    · cases hm
    · obtain rfl := RMessage.request.inj hm
      exact hreq

/-- **An acknowledgement**: at most the request it is for is executed, and
no request is sent. -/
theorem handleAck_spec (id : ℕ) (ack : RAck) (hstored : Stored P r.requests) :
    Moves P r (r.handleAck id ack).1 ∧ Stored P (r.handleAck id ack).1.requests ∧
      ∀ m, .request m ∉ (r.handleAck id ack).2 := by
  unfold handleAck
  split
  · exact ⟨.idle ⟨rfl, rfl, rfl, rfl⟩, hstored, by simp⟩
  split
  · exact ⟨.idle (.refl r), hstored, by simp⟩
  split
  · exact ⟨.idle (.refl r), hstored, by simp⟩
  next rms hrms =>
  split
  · exact ⟨.idle ⟨rfl, rfl, rfl, rfl⟩, hstored, by simp⟩
  next areq hareq =>
  have hmoves := moves_upgrade r ((r.requests rms.my_rmid).getD .default)
    (hstored ack.rmid rms areq hrms hareq)
  have hmap := upgrade_requests r ((r.requests rms.my_rmid).getD .default) areq
  have harms := upgrade_req r ((r.requests rms.my_rmid).getD .default) areq
  dsimp only
  generalize r.upgrade ((r.requests rms.my_rmid).getD .default) areq = u at hmoves hmap harms ⊢
  -- the entry that is written has the request it had
  have hwrite : ∀ q, u.2.req = some q → P q := by
    intro q hq
    rw [harms] at hq
    cases hentry : r.requests rms.my_rmid with
    | none =>
      rw [hentry] at hq
      cases hq
    | some arms =>
      rw [hentry] at hq
      exact hstored rms.my_rmid arms q hentry hq
  have hnext : Stored P (update u.1.requests rms.my_rmid (some u.2)) := by
    rw [hmap]
    exact hstored.update rms.my_rmid hwrite
  have hidle : Idle u.1 { u.1 with requests := update u.1.requests rms.my_rmid (some u.2) } :=
    ⟨rfl, rfl, rfl, rfl⟩
  split_ifs
  · exact ⟨hmoves.trans_idle hidle, hnext, by simp⟩
  · exact ⟨hmoves.trans_idle (hidle.trans (idle_transformAck _ ack)), Stored.transformAck hnext ack,
      by simp⟩
  · exact ⟨hmoves.trans_idle (hidle.trans (idle_forwardAck _ ack)), Stored.forwardAck hnext ack,
      by simp⟩

end RReplica

/-! ## The ring -/

/-- The replicas, and the messages on the link from each to its successor,
in the order they were sent. -/
structure World (N : RNode S) where
  replica : ℕ → RReplica N
  link : ℕ → List RMessage

/-- A client's request arrives at replica `i`, or the next message from its
predecessor. -/
inductive Event where
  | client (i : ℕ) (m : RRequest)
  | deliver (i : ℕ)
  deriving DecidableEq

namespace World

variable {N : RNode S}

/-- All replicas start, and nothing is on the links. -/
def init (N : RNode S) (service : S) : World N := ⟨fun _ => .init N service, fun _ => []⟩

/-- The predecessor in the ring. -/
def pred (N : RNode S) (i : ℕ) : ℕ := (i + N.n - 1) % N.n

variable (w : World N)

/-- Replica `i` handles a message, and what it sends joins its link. -/
def handleAt (i : ℕ) (m : RMessage) : World N :=
  let out := (w.replica i).handle i m
  ⟨update w.replica i out.1, update w.link i (w.link i ++ out.2)⟩

theorem handleAt_replica_self (i : ℕ) (m : RMessage) :
    (w.handleAt i m).replica i = ((w.replica i).handle i m).1 := by
  simp only [handleAt, update_self]

theorem handleAt_replica_of_ne {i j : ℕ} (m : RMessage) (h : j ≠ i) :
    (w.handleAt i m).replica j = w.replica j := by
  simp only [handleAt, update_of_ne h]

theorem handleAt_link_self (i : ℕ) (m : RMessage) :
    (w.handleAt i m).link i = w.link i ++ ((w.replica i).handle i m).2 := by
  simp only [handleAt, update_self]

theorem handleAt_link_of_ne {i j : ℕ} (m : RMessage) (h : j ≠ i) :
    (w.handleAt i m).link j = w.link j := by
  simp only [handleAt, update_of_ne h]

/-- One step. A replica that is down takes nothing from its link. -/
def step : Event → World N
  | .client i m =>
    if i < N.n ∧ (w.replica i).down = false then w.handleAt i (.request m) else w
  | .deliver i =>
    if i < N.n ∧ (w.replica i).down = false then
      match w.link (pred N i) with
      | [] => w
      | m :: rest => { w with link := update w.link (pred N i) rest }.handleAt i m
    else w

/-- **What a step is**: nothing, or a message that is handled, from a client
or off the link. -/
theorem step_cases (e : Event) :
    w.step e = w ∨
      (∃ i m, e = .client i m ∧ w.step e = w.handleAt i (.request m)) ∨
      ∃ i m rest, e = .deliver i ∧ w.link (pred N i) = m :: rest ∧
        w.step e = { w with link := update w.link (pred N i) rest }.handleAt i m := by
  cases e with
  | client i m =>
    unfold step
    dsimp only
    split
    · exact Or.inr (Or.inl ⟨i, m, rfl, rfl⟩)
    · exact Or.inl rfl
  | deliver i =>
    unfold step
    dsimp only
    split
    · split
      · exact Or.inl rfl
      · next m rest hlink => exact Or.inr (Or.inr ⟨i, m, rest, rfl, hlink, rfl⟩)
    · exact Or.inl rfl

def run (N : RNode S) (service : S) (es : List Event) : World N :=
  Machine.exec step (init N service) es

end World

section Sample

/-- Four replicas and two clients; the service counts its commands. -/
def sampleNode : RNode ℕ := ⟨1, 6, fun s _ _ _ => (s + 1, [UInt8.ofNat s])⟩

/-- A request that client `cid` sends to replica `entry`, as `R_Request`'s
constructor makes it. -/
def sampleRequest (cid : ℤ) (rid : ℕ) (entry : ℤ) : RRequest :=
  ⟨cid, rid, entry, 0, 0, false, []⟩

end Sample

end AbstractBFT.Ring
