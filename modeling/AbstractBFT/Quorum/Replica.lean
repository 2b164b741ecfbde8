import AbstractBFT.Common.Instance
/-!
# The replica of Quorum

`Q_Replica::handle(Q_Request)` and `execute_request`, and the runs of a
replica over requests, retransmissions, checkpoints and switches. Each
client's requests are executed in the order of their ids, and the last one
is answered from the reply table when it comes again (`executes_once`).

A stopped replica is the exception: it looks at no request and answers
each with the notice to switch, also one it has the reply for.
Handlers are single steps, as `Instance` says.
-/

namespace AbstractBFT.Quorum

open Instance
open Chain (CCheckpoint)

variable {S : Type} {N : INode S RequestRep}

/-! ## The handlers -/

/-- `execute_request`. The replier is always replica 2. -/
def executeRequest (r : IReplica N) (id : ℕ) (req : Request) : IReplica N :=
  let cid := req.rep.cid
  let rid := req.rep.rid
  if rid < (r.replies cid).rep.rid then r
  else if (r.replies cid).rep.rid = rid then r.sendReply id cid
  else
    let log := r.rh.addRequest N.md5 (fun q => q.rep.od) req r.seqno
    let r : IReplica N := { r.execute req r.seqno log.2 with rh := log.1, seqno := r.seqno + 1 }
    let size := (r.replies cid).body.length
    let r : IReplica N :=
      if size = 0 then r
      else if size < 50 ∨ id = 2 then r.sendReply id cid
      else { r with sent := r.sent ++ [(cid, r.emptyReply id cid rid)] }
    if r.rh.shouldCheckpoint then r.truncate r.rh.getTopSeqno else r

/-- The request verifies and is not a read-only one. -/
def Accepts (N : INode S RequestRep) (id : ℕ) (m : Request) : Prop :=
  m.verify N (fun rep => rep) id = true ∧ m.rep.read_only = false
  deriving Decidable

/-- `handle(Q_Request)`. -/
def handleRequest (r : IReplica N) (id : ℕ) (m : Request) : IReplica N :=
  match r.canHandle with
  | none => r
  | some r =>
    match r.cur_state with
    | .stop => r.notify id m.rep.cid m.rep.rid
    | .normal =>
      if !m.verify N (fun rep => rep) id then r
      else if m.rep.read_only then r
      else if (r.replies m.rep.cid).rep.rid ≤ m.rep.rid then executeRequest r id m
      else r
    | _ => { r with outstanding := r.outstanding ++ [(m.rep.cid, m.rep.rid)] }

/-- What a replica takes. `other` is a panic, an abort, a get-a-grip, a
missing-request message or a timer: they find nothing to do. -/
inductive ReplicaEvent where
  | request (m : Request)
  | checkpoint (c : CCheckpoint)
  | enable (state : Bool)
  | other
  deriving DecidableEq

/-- One event at replica `id`. -/
def replicaStep (id : ℕ) (r : IReplica N) (e : ReplicaEvent) : IReplica N :=
  if r.down then r
  else
    match e with
    | .request m => handleRequest r id m
    | .checkpoint c => r.handleCheckpoint id c
    | .enable state => r.enableReplica state
    | .other => r

/-- A run of replica `id` from its start. -/
def replicaRun (N : INode S RequestRep) (id : ℕ) (service : S) (es : List ReplicaEvent) :
    IReplica N :=
  Machine.exec (replicaStep id) (IReplica.init N service) es

/-! ## What a request does -/

variable {id : ℕ} {r r' : IReplica N} {m : Request}

/-- A request that is new for its client is executed, and nothing but the
bookkeeping of the reply and of the history follows. -/
theorem executeRequest_new (id : ℕ) (hnew : (r.replies m.rep.cid).rep.rid < m.rep.rid) :
    ∃ d, (r.execute m r.seqno d).Still (executeRequest r id m) ∧
      (executeRequest r id m).cur_state = r.cur_state ∧
      (executeRequest r id m).checkpoint_in_progress = r.checkpoint_in_progress := by
  unfold executeRequest
  rw [if_neg (by omega), if_neg (by omega)]
  refine ⟨(r.rh.addRequest N.md5 (fun q => q.rep.od) m r.seqno).2, ?_⟩
  -- the ways to reply, with or without the truncation of the history
  unfold IReplica.sendReply IReplica.truncate
  dsimp only
  split_ifs <;> exact ⟨⟨rfl, rfl, rfl⟩, rfl, rfl⟩

/-- A request of the last id executed is answered from the table. -/
theorem executeRequest_again (hrid : (r.replies m.rep.cid).rep.rid = m.rep.rid) :
    executeRequest r id m = r.sendReply id m.rep.cid := by
  unfold executeRequest
  rw [if_neg (by omega), if_pos hrid]

/-- In state `NORMAL` a request that is accepted and not older than the
last one goes to `execute_request`. -/
theorem handleRequest_normal (hidle : r.checkpoint_in_progress = false)
    (hstate : r.cur_state = .normal) (hm : Accepts N id m)
    (hle : (r.replies m.rep.cid).rep.rid ≤ m.rep.rid) :
    handleRequest r id m = executeRequest r id m := by
  simp [handleRequest, IReplica.canHandle, hidle, hstate, hm.1, hm.2, hle]

/-- In state `STOP` it is answered with the notice. -/
theorem handleRequest_stop (hidle : r.checkpoint_in_progress = false)
    (hstate : r.cur_state = .stop) : handleRequest r id m = r.notify id m.rep.cid m.rep.rid := by
  simp [handleRequest, IReplica.canHandle, hidle, hstate]

/-- What is not accepted or older than the last one is dropped. -/
theorem handleRequest_dropped (hidle : r.checkpoint_in_progress = false)
    (hstate : r.cur_state = .normal)
    (hm : ¬ (Accepts N id m ∧ (r.replies m.rep.cid).rep.rid ≤ m.rep.rid)) :
    handleRequest r id m = r := by
  unfold handleRequest IReplica.canHandle
  simp only [hidle, hstate, Bool.false_eq_true, if_false]
  split
  · rfl
  split
  · rfl
  · next hverify hread =>
    rw [if_neg]
    intro hle
    exact hm ⟨⟨by simpa using hverify, by simpa using hread⟩, hle⟩

/-! ## The invariant -/

/-- What every run keeps: the reply table is what was executed, only
accepted requests were, and the replica is running or stopped and never in
a checkpoint. -/
structure Served (id : ℕ) (r : IReplica N) : Prop where
  tabled : Tabled r
  accepted : ∀ x ∈ r.executed, Accepts N id x.req
  state : r.cur_state = .normal ∨ r.cur_state = .stop
  idle : r.checkpoint_in_progress = false

namespace Served

theorem init (N : INode S RequestRep) (id : ℕ) (service : S) :
    Served id (IReplica.init N service) :=
  ⟨Tabled.init N service, nofun, Or.inl rfl, rfl⟩

variable (h : Served id r)

include h

/-- What executes nothing, if it leaves the replica running or stopped. -/
theorem still (hs : r.Still r') (hstate : r'.cur_state = .normal ∨ r'.cur_state = .stop)
    (hidle : r'.checkpoint_in_progress = false) : Served id r' := by
  refine ⟨h.tabled.still hs, ?_, hstate, hidle⟩
  rw [hs.executed]
  exact h.accepted

theorem keeps (hf : r.Keeps r') : Served id r' := by
  refine h.still hf.still ?_ ?_
  · rw [hf.cur_state]
    exact h.state
  · rw [hf.checkpoint_in_progress]
    exact h.idle

theorem executeRequest (hm : Accepts N id m) (hle : (r.replies m.rep.cid).rep.rid ≤ m.rep.rid) :
    Served id (Quorum.executeRequest r id m) := by
  rcases Nat.lt_or_eq_of_le hle with hlt | heq
  · obtain ⟨d, hstill, hstate, hidle⟩ := executeRequest_new id hlt
    refine ⟨(h.tabled.execute r.seqno d hlt).still hstill, fun x hx => ?_, ?_, ?_⟩
    · rw [hstill.executed] at hx
      rcases List.mem_concat_iff.1 hx with hx | rfl
      · exact h.accepted x hx
      · exact hm
    · rw [hstate]
      exact h.state
    · rw [hidle]
      exact h.idle
  · rw [executeRequest_again heq]
    exact h.keeps (IReplica.keeps_sendReply ..)

theorem handleRequest (m : Request) : Served id (Quorum.handleRequest r id m) := by
  rcases h.state with hstate | hstate
  · by_cases hm : Accepts N id m ∧ (r.replies m.rep.cid).rep.rid ≤ m.rep.rid
    · rw [handleRequest_normal h.idle hstate hm.1 hm.2]
      exact h.executeRequest hm.1 hm.2
    · rw [handleRequest_dropped h.idle hstate hm]
      exact h
  · rw [handleRequest_stop h.idle hstate]
    exact h.keeps (IReplica.keeps_notify ..)

theorem handleCheckpoint (c : CCheckpoint) : Served id (r.handleCheckpoint id c) := by
  have hf := r.handleCheckpoint_frame id c
  refine h.still hf.still ?_ (hf.idle h.idle)
  rw [hf.cur_state]
  exact h.state

theorem enableReplica (state : Bool) : Served id (r.enableReplica state) := by
  refine h.still (.enableReplica r state) (IReplica.enableReplica_cur_state h.state state) ?_
  rw [IReplica.enableReplica_checkpoint_in_progress]
  exact h.idle

theorem step (e : ReplicaEvent) : Served id (replicaStep id r e) := by
  unfold replicaStep
  split
  · exact h
  cases e with
  | request m => exact h.handleRequest m
  | checkpoint c => exact h.handleCheckpoint c
  | enable state => exact h.enableReplica state
  | other => exact h

end Served

theorem Served.run (N : INode S RequestRep) (id : ℕ) (service : S) (es : List ReplicaEvent) :
    Served id (replicaRun N id service es) :=
  Machine.exec_invariant (fun _ e h => h.step e) (Served.init N id service) es

/-! ## At most once -/

/-- The ids executed for each client go up. -/
def IdsIncrease (executed : List Execution) : Prop :=
  executed.Pairwise fun x y => x.req.rep.cid = y.req.rep.cid → x.req.rep.rid < y.req.rep.rid
  deriving Decidable

/-- `x` is the last execution for its client. -/
def IsLast (executed : List Execution) (x : Execution) : Prop :=
  x ∈ executed ∧ ∀ y ∈ executed, y.req.rep.cid = x.req.rep.cid → y.req.rep.rid ≤ x.req.rep.rid
  deriving Decidable

/-- `m` is accepted and asks for `x` again. -/
def Retransmits (N : INode S RequestRep) (id : ℕ) (x : Execution) (m : Request) : Prop :=
  Accepts N id m ∧ m.rep.cid = x.req.rep.cid ∧ m.rep.rid = x.req.rep.rid
  deriving Decidable

/-- The table has the last execution of a client. -/
theorem Served.replies_of_isLast (h : Served id r) {x : Execution} (hx : IsLast r.executed x) :
    r.replies x.req.rep.cid = x.entry N.md5 := by
  refine h.tabled.stored x hx.1 ?_
  have hle := h.tabled.tracks.le x hx.1
  rcases h.tabled.tracks.source x.req.rep.cid with hzero | ⟨y, hy, hcid, hrid⟩
  · have : (r.replies x.req.rep.cid).rep.rid = 0 := hzero
    omega
  · have := hx.2 y hy hcid
    omega

theorem replicaStep_request (hup : r.down = false) (m : Request) :
    replicaStep id r (.request m) = handleRequest r id m := by
  rw [replicaStep, if_neg (by rw [hup]; decide)]

/-- What comes of a retransmission `m` of `x`: neither the service nor the
history changes, and a replica that is not stopped sends the stored reply
and does nothing else. -/
structure AnswersAgain (id : ℕ) (r : IReplica N) (x : Execution) (m : Request) : Prop where
  service : (replicaStep id r (.request m)).service = r.service
  history : (replicaStep id r (.request m)).rh = r.rh
  executed : (replicaStep id r (.request m)).executed = r.executed
  reply : r.cur_state ≠ .stop → replicaStep id r (.request m) =
    { r with sent := r.sent ++ [(x.req.rep.cid, x.reply N.md5 id)] }

section

variable {x : Execution} (h : Served id r) (hm : Retransmits N id x m) (hup : r.down = false)

include h hm hup

/-- **Sent again while it is stopped**: the notice to switch goes out. -/
theorem Served.step_retransmits_stop (hstate : r.cur_state = .stop) :
    replicaStep id r (.request m) = r.notify id x.req.rep.cid x.req.rep.rid := by
  rw [replicaStep_request hup, handleRequest_stop h.idle hstate, hm.2.1, hm.2.2]

variable (hx : IsLast r.executed x)

include hx

/-- **Sent again while the replica runs**: the stored reply goes out, and
nothing else changes. -/
theorem Served.step_retransmits (hstate : r.cur_state = .normal) :
    replicaStep id r (.request m) =
      { r with sent := r.sent ++ [(x.req.rep.cid, x.reply N.md5 id)] } := by
  obtain ⟨haccept, hcid, hrid⟩ := hm
  have hentry := h.replies_of_isLast hx
  have htable : (r.replies m.rep.cid).rep.rid = m.rep.rid := by
    rw [hcid, hrid, hentry]
    rfl
  have hsize : (x.entry N.md5).rep.reply_size ≠ -1 := by
    simp only [Execution.entry]
    omega
  rw [replicaStep_request hup, handleRequest_normal h.idle hstate haccept (by omega),
    executeRequest_again htable, IReplica.sendReply, hcid, hentry]
  rfl

theorem Served.answersAgain : AnswersAgain id r x m := by
  rcases h.state with hstate | hstate
  · have heq := h.step_retransmits hm hup hx hstate
    refine ⟨?_, ?_, ?_, fun _ => heq⟩ <;> rw [heq]
  · have heq := h.step_retransmits_stop hm hup hstate
    refine ⟨?_, ?_, ?_, fun hne => absurd hstate hne⟩ <;>
    · rw [heq, IReplica.notify]
      split <;> rfl

end

/-- **At most once.** Over requests, retransmissions, checkpoints and
switches in any order, the ids executed for each client go up; and the last
request of a client that is sent again is answered with the stored reply
and changes neither the service nor the history, but that a stopped replica
answers with the notice to switch. -/
theorem executes_once (N : INode S RequestRep) (id : ℕ) (service : S) (es : List ReplicaEvent) :
    IdsIncrease (replicaRun N id service es).executed ∧
      (∀ x ∈ (replicaRun N id service es).executed, Accepts N id x.req) ∧
      ∀ x m, IsLast (replicaRun N id service es).executed x → Retransmits N id x m →
        (replicaRun N id service es).down = false →
        AnswersAgain id (replicaRun N id service es) x m := by
  have h := Served.run N id service es
  exact ⟨h.tabled.tracks.up, h.accepted, fun x m hx hm hup => h.answersAgain hm hup hx⟩

section Sample

/-- Four replicas and two clients; the service counts its commands. -/
def sampleINode : INode ℕ RequestRep where
  f := 1
  num_principals := 6
  md5 := fun _ => 0
  M := ReqHistoryLog.sampleModulus
  exec_command := fun s _ _ => (s + 1, [UInt8.ofNat s])
  verify_auth := fun _ _ _ _ => true
  gen_signature := fun _ _ => []
  verify_signature := fun _ _ _ => true
  instance_id := 1
  next_instance_id := 2

/-- A request without a command. -/
def sampleRequest (cid : ℤ) (rid : ℕ) : Request :=
  ⟨⟨false, 0, -1, 0, cid, rid, []⟩, List.replicate 40 0⟩

/-- The first execution of the run that starts with `sampleRequest cid rid`. -/
def sampleExecution (cid : ℤ) (rid : ℕ) : Execution := ⟨sampleRequest cid rid, 0, [0], 0⟩

theorem executes_once_two_clients :
    let es := [.request (sampleRequest 4 1), .request (sampleRequest 5 1), .enable false,
      .enable true]
    let r := replicaRun sampleINode 0 0 es
    r.executed.length = 2 ∧ IdsIncrease r.executed ∧
      AnswersAgain 0 r (sampleExecution 4 1) (sampleRequest 4 1) := by
  intro es r
  obtain ⟨hup, -, hagain⟩ := executes_once sampleINode 0 0 es
  refine ⟨by decide +kernel, hup, ?_⟩
  exact hagain (sampleExecution 4 1) (sampleRequest 4 1) (by decide +kernel) (by decide +kernel)
    (by decide +kernel)

/-- Stopped after the execution, the replica has the reply and does not
send it. -/
theorem stopped_answers_notice :
    let x := sampleExecution 4 1
    let r := replicaRun sampleINode 0 0 [.request (sampleRequest 4 1), .enable false]
    let r' := replicaStep 0 r (.request (sampleRequest 4 1))
    IsLast r.executed x ∧ Retransmits sampleINode 0 x (sampleRequest 4 1) ∧ r.down = false ∧
      r.replies 4 = x.entry sampleINode.md5 ∧
      r'.sent ≠ r.sent ++ [(4, x.reply sampleINode.md5 0)] ∧
      r'.sent = r.sent ++ [(4, ⟨⟨0, 1, 0, 0, 0, 0, 4, true, 2⟩, []⟩)] := by
  decide +kernel

end Sample

end AbstractBFT.Quorum
