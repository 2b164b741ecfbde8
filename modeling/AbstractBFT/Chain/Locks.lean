import AbstractBFT.Lib.Locks
import AbstractBFT.Chain.Applied
import AbstractBFT.Chain.Checkpoint
/-!
# Chain — the request thread's mutexes

`handle(C_Request)` takes `checkpointing_mutex` for the test whether the
request has to wait for a checkpoint. With no checkpoint in progress it
first handles the requests that were put off, by calling itself, and the
inner call takes the mutex again in state `NORMAL`. `requestOps` lists the
lock operations of each move of the request thread, and
`callOf_disciplined_iff` says that the thread keeps to the discipline
exactly as long as it finds nothing put off.
-/

namespace AbstractBFT

open Function List

/-- The mutexes of the replicas. All are initialised with no attributes, so
none is recursive. -/
inductive Mutex where
  | checkpointing
  | robustQueue
  | switching
  deriving DecidableEq

namespace Chain

open Machine Locks

variable {S : Type} {N : RNode S}

/-- What the request thread holds where it stands, unless it is stuck. -/
def RequestThread.holds : RequestThread → Finset Mutex
  | .draining _ => {.checkpointing}
  | _ => ∅

namespace CReplica

variable {id : ℕ} {r : CReplica N} {e : CEvent}

/-- The lock operations of the request thread in this move. -/
def requestOps (id : ℕ) (r : CReplica N) (e : CEvent) : List (Op Mutex) :=
  match e with
  | .incoming m panics =>
    match r.requestThread, m with
    | .idle, .checkpoint c =>
      if c.verify N id ∧ r.last_chkp_seqno < c.seqid then
        [.lock .checkpointing, .unlock .checkpointing]
      else []
    | .idle, m =>
      -- `enable_replica(false)`, once the history was adopted
      if (r.handle id m panics).switched ≠ r.switched then
        [.lock .checkpointing, .unlock .checkpointing]
      else []
    | _, _ => []
  | .request _ =>
    match r.requestThread with
    | .idle => []
    | .deadlocked => []
    | .admitted _ =>
      if r.checkpoint_in_progress then [.lock .checkpointing, .unlock .checkpointing]
      else [.lock .checkpointing]
    | .draining _ =>
      match r.pending_requests with
      | [] => [.unlock .checkpointing]
      | _ :: _ =>
        -- `handle(r, true)`: outside state `NORMAL` it returns before the mutex
        if r.cur_state = .normal then [.lock .checkpointing] else []
    | .processing _ =>
      -- `execute_request` appends to the robust thread's queue
      (r.applies id e).flatMap fun _ => [.lock .robustQueue, .unlock .robustQueue]
  | _ => []

/-- The lock operations of the request thread in a run. -/
def runOps (id : ℕ) : CReplica N → List CEvent → List (Op Mutex)
  | _, [] => []
  | r, e :: es => requestOps id r e ++ runOps id (r.step id e) es

/-- The calls the request thread made in a run; the last one has returned
if the thread waits for a message. -/
def callOf (id : ℕ) (r : CReplica N) (es : List CEvent) : Call Mutex where
  ops := runOps id r es
  returns :=
    match (exec (CReplica.step id) r es).requestThread with
    | .idle => true
    | _ => false

/-- The request thread holds `checkpointing_mutex`, the replica is in state
`NORMAL`, and a request was put off. -/
def reenters (r : CReplica N) : CEvent → Bool
  | .request _ =>
    match r.requestThread, r.cur_state with
    | .draining _, .normal => !r.pending_requests.isEmpty
    | _, _ => false
  | _ => false

/-! ## One move -/

/-- Only its own moves take the request thread further than to a request
that came in. -/
theorem requestThread_step (hno : ∀ unonce, e ≠ .request unonce) :
    (r.step id e).requestThread = r.requestThread ∨
      r.requestThread = .idle ∧ ∃ req, (r.step id e).requestThread = .admitted req := by
  rcases r.execFrame_step id e with ⟨unonce, he⟩ | ⟨req, hidle, -, heq⟩ | hf
  · exact absurd he (hno unonce)
  · exact .inr ⟨hidle, req, by rw [heq]⟩
  · exact .inl hf.requestThread

/-- Locking and unlocking the robust thread's queue, however often. -/
theorem performAll_appends (l : List CRequest) :
    performAll ∅ (l.flatMap fun _ => [Op.lock Mutex.robustQueue, .unlock .robustQueue]) =
      some ∅ := by
  induction l with
  | nil => rfl
  | cons q l ih =>
    rw [flatMap_cons]
    exact (performAll_section (Finset.notMem_empty _) _).trans ih

/-- A message that comes in is handled with nothing held afterwards. -/
theorem performAll_incoming (r : CReplica N) (id : ℕ) (m : RMessage) (panics : Bool) :
    performAll r.requestThread.holds (requestOps id r (.incoming m panics)) =
      some r.requestThread.holds := by
  unfold requestOps
  dsimp only
  split
  · next hidle =>
    rw [hidle]
    split
    · exact performAll_section (Finset.notMem_empty _) []
    · rfl
  · next hidle _ =>
    rw [hidle]
    split
    · exact performAll_section (Finset.notMem_empty _) []
    · rfl
  · rfl

/-- **One move.** The request thread gets stuck in a move that reenters
`handle(C_Request)` and in no other, and after the others it runs on. -/
theorem performAll_requestOps (id : ℕ) (hgo : r.requestThread ≠ .deadlocked) (e : CEvent) :
    performAll r.requestThread.holds (requestOps id r e) =
        (if r.reenters e then none else some (r.step id e).requestThread.holds) ∧
      (r.reenters e = false → (r.step id e).requestThread ≠ .deadlocked) := by
  by_cases hreq : ∃ unonce, e = .request unonce
  swap
  · have hno : ∀ unonce, e ≠ .request unonce := fun u hu => hreq ⟨u, hu⟩
    have hops : performAll r.requestThread.holds (requestOps id r e) =
        some r.requestThread.holds := by
      cases e with
      | incoming m panics => exact performAll_incoming r id m panics
      | request unonce => exact absurd rfl (hno unonce)
      | _ => rfl
    have hre : r.reenters e = false := by
      cases e with
      | request unonce => exact absurd rfl (hno unonce)
      | _ => rfl
    rw [hops, hre]
    rcases requestThread_step (r := r) hno with heq | ⟨hidle, req, heq⟩
    · rw [heq]
      exact ⟨rfl, fun _ => hgo⟩
    · rw [heq, hidle]
      exact ⟨rfl, fun _ hdead => by cases hdead⟩
  obtain ⟨unonce, rfl⟩ := hreq
  rw [step]
  unfold requestOps requestMove reenters
  cases hthread : r.requestThread with
  | idle =>
    dsimp only
    rw [hthread]
    exact ⟨rfl, fun _ hdead => by cases hdead⟩
  | deadlocked => exact absurd hthread hgo
  | admitted req =>
    dsimp only
    cases hflag : r.checkpoint_in_progress with
    | false => exact ⟨rfl, fun _ hdead => by cases hdead⟩
    | true =>
      by_cases hroom :
          r.current_nb_requests_while_checkpointing < maxNbRequestsWhileCheckpointing
      · simp only [if_pos hroom]
        exact ⟨performAll_section (Finset.notMem_empty _) [], fun _ hdead => by cases hdead⟩
      · simp only [if_neg hroom]
        exact ⟨performAll_section (Finset.notMem_empty _) [], fun _ hdead => by cases hdead⟩
  | draining req =>
    dsimp only
    cases hpend : r.pending_requests with
    | nil => cases hs : r.cur_state <;> exact ⟨rfl, fun _ hdead => by cases hdead⟩
    | cons p pending =>
      cases hs : r.cur_state with
      | normal => exact ⟨rfl, fun hre => by cases hre⟩
      | stop =>
        dsimp only
        rw [(execFrame_forwardStopped _ id p).requestThread]
        exact ⟨rfl, fun _ hdead => by cases hdead⟩
      | panicking => exact ⟨rfl, fun _ hdead => by cases hdead⟩
      | miswaiting => exact ⟨rfl, fun _ hdead => by cases hdead⟩
  | processing req => exact ⟨performAll_appends _, fun _ hdead => by cases hdead⟩

/-! ## Whole runs -/

/-- **The request thread gets as far as a run without reentrance takes it**,
with the mutexes of the place it is at. -/
theorem performAll_runOps (hgo : r.requestThread ≠ .deadlocked) {es : List CEvent}
    (hok : Guarded (CReplica.step id) (fun r e => r.reenters e = false) r es) :
    performAll r.requestThread.holds (runOps id r es) =
      some (exec (CReplica.step id) r es).requestThread.holds := by
  induction es generalizing r with
  | nil => rfl
  | cons e es ih =>
    obtain ⟨hre, hrest⟩ := hok
    obtain ⟨hops, hrun⟩ := performAll_requestOps id hgo e
    rw [runOps, performAll_append, hops, hre, exec_cons]
    exact ih (hrun hre) hrest

/-- With a reentrance it gets stuck. -/
theorem performAll_runOps_of_not_guarded (hgo : r.requestThread ≠ .deadlocked) {es : List CEvent}
    (hno : ¬ Guarded (CReplica.step id) (fun r e => r.reenters e = false) r es) :
    performAll r.requestThread.holds (runOps id r es) = none := by
  induction es generalizing r with
  | nil => exact absurd trivial hno
  | cons e es ih =>
    obtain ⟨hops, hrun⟩ := performAll_requestOps id hgo e
    rw [runOps, performAll_append, hops]
    cases hre : r.reenters e with
    | true => rfl
    | false => exact ih (hrun hre) fun h => hno ⟨hre, h⟩

/-- **The request thread's discipline.** It is kept in exactly the runs in
which `handle(C_Request)` finds nothing put off whenever it drains in state
`NORMAL`. -/
theorem callOf_disciplined_iff (hidle : r.requestThread = .idle) (es : List CEvent) :
    (callOf id r es).Disciplined ↔
      Guarded (CReplica.step id) (fun r e => r.reenters e = false) r es := by
  have hgo : r.requestThread ≠ .deadlocked := by
    rw [hidle]
    exact nofun
  have hnone : r.requestThread.holds = ∅ := by
    rw [hidle]
    rfl
  constructor
  · intro h
    by_contra hno
    have hstuck := performAll_runOps_of_not_guarded hgo hno
    rw [hnone] at hstuck
    exact Call.not_disciplined_of_none hstuck h
  · intro hok
    have hrun := performAll_runOps hgo hok
    rw [hnone] at hrun
    refine ⟨_, hrun, fun hret => ?_⟩
    unfold callOf at hret
    cases hthread : (exec (CReplica.step id) r es).requestThread with
    | idle => rfl
    | draining req =>
      rw [hthread] at hret
      cases hret
    | _ => rfl

end CReplica

/-! ## A run that gets stuck

The head executes and logs requests until it makes a checkpoint, and so
many requests come in meanwhile that one is put off. When the checkpoint is
stable the next request finds it. -/

section Sample

open CReplica

/-- Client `4`'s `k`-th request. -/
def numbered (k : ℕ) : CRequest :=
  (CRequest.fresh sampleRNode.md5 4 k [7] false fun _ => 0).authenticate sampleRNode.toCNode 4 (-1)
    0 none 0

/-- A read-only request, which the head drops. -/
def readOnly : CRequest := CRequest.fresh sampleRNode.md5 4 1 [7] true fun _ => 0

/-- The head executes a request and logs it. -/
def executesNext (k : ℕ) : List CEvent :=
  [.incoming (.request (numbered k)) false, .request 0, .request 0, .request 0, .robust false,
    .robust false]

/-- The head takes up a request, counts it and drops it. -/
def drops : List CEvent := [.incoming (.request readOnly) false, .request 0, .request 0]

/-- The head has executed `k` requests and has nothing to do. -/
structure Resting (k : ℕ) (r : CReplica sampleRNode) : Prop where
  normal : r.cur_state = .normal
  request_idle : r.requestThread = .idle
  robust_idle : r.robustThread = .idle
  queue : r.robust_messages_queue = []
  pending : r.pending_requests = []
  flag : r.checkpoint_in_progress = false
  nb : r.current_nb_requests_while_checkpointing = 0
  last : r.last_chkp_seqno = 0
  sets : r.current_checkpoints = fun _ => none
  seqno : r.seqno = k
  rid : (r.replies 4).rep.rid = k

namespace Resting

variable {k : ℕ} {r : CReplica sampleRNode}

theorem init : Resting 0 (CReplica.init sampleRNode ()) :=
  ⟨rfl, rfl, rfl, rfl, rfl, rfl, rfl, rfl, rfl, rfl, rfl⟩

theorem send_eq (r : CReplica sampleRNode) (q : CRequest) (off : ℕ) :
    ∃ macs forwarded, r.send 0 q off 0 = { r with macs, forwarded } :=
  ⟨(r.send 0 q off 0).macs, (r.send 0 q off 0).forwarded, rfl⟩

/-- The head executes the next request under the next number. -/
theorem processRequest_next (hseqno : r.seqno = k) (hrid : (r.replies 4).rep.rid = k) :
    ∃ q macs forwarded, q.rep.cid = 4 ∧ q.rep.rid = k + 1 ∧ q.rep.seq_num = k + 1 ∧
      r.processRequest 0 (numbered (k + 1)) 0 =
        { executeRequest { r with seqno := k + 1 } q with macs, forwarded } := by
  obtain ⟨p, hver⟩ : ∃ p, (numbered (k + 1)).verify sampleRNode.toCNode 0 = some p := ⟨_, rfl⟩
  obtain ⟨req, off⟩ := p
  obtain ⟨hrep, -⟩ := CRequest.verify_sound hver
  have hcid : req.rep.cid = 4 := congrArg (fun rep => rep.cid) hrep
  have hnext : req.rep.rid = k + 1 := congrArg (fun rep => rep.rid) hrep
  have hseen : r.isSeen req = false := by
    unfold isSeen
    rw [hcid, hnext, hrid]
    simp
  have hreadOnly : (numbered (k + 1)).isReadOnly = false := by
    simp [CRequest.isReadOnly, numbered, CRequest.authenticate, CRequest.fresh, CRequest.finalize]
  have horder : r.order 0 req = some (executeRequest { r with seqno := k + 1 }
      (req.setSeqno (k + 1)), req.setSeqno (k + 1)) := by
    unfold order
    rw [hseen, hseqno]
    rfl
  obtain ⟨macs, forwarded, hsend⟩ := send_eq (executeRequest { r with seqno := k + 1 }
    (req.setSeqno (k + 1))) (req.setSeqno (k + 1)) off
  refine ⟨req.setSeqno (k + 1), macs, forwarded, hcid, hnext, rfl, ?_⟩
  unfold processRequest
  rw [hreadOnly, hver]
  dsimp only
  rw [horder]
  exact hsend

theorem incoming_eq (hidle : r.requestThread = .idle) (hnormal : r.cur_state = .normal)
    (req : CRequest) :
    r.step 0 (.incoming (.request req) false) = { r with requestThread := .admitted req } := by
  show r.takeIncoming 0 (.request req) false = _
  unfold takeIncoming
  rw [hidle, hnormal]

theorem drain_eq (hflag : r.checkpoint_in_progress = false) {req : CRequest} :
    step 0 { r with requestThread := .admitted req } (.request 0) =
      { r with requestThread := .draining req } := by
  show requestMove { r with requestThread := .admitted req } 0 0 = _
  unfold requestMove
  dsimp only
  rw [hflag]
  rfl

/-- With nothing put off and no checkpoint in progress the head gets to
handling it. -/
theorem request_eq (hflag : r.checkpoint_in_progress = false) (hpending : r.pending_requests = [])
    (req : CRequest) :
    exec (step 0) { r with requestThread := .admitted req } [.request 0, .request 0] =
      { r with requestThread := .processing req } := by
  rw [exec_cons, drain_eq hflag, exec_cons, exec_nil]
  show requestMove { r with requestThread := .draining req } 0 0 = _
  unfold requestMove
  dsimp only
  rw [hpending]

/-- The robust thread takes an executed request off its queue. -/
theorem robust_eq (hidle : r.robustThread = .idle) (hnormal : r.cur_state = .normal)
    {q : CRequest} {queue : List RMessage}
    (hqueue : r.robust_messages_queue = .request q :: queue) :
    r.step 0 (.robust false) =
      { r with robust_messages_queue := queue, robustThread := .logging q } := by
  show r.robustMove 0 false = _
  unfold robustMove
  rw [hidle, hqueue]
  dsimp only
  rw [if_neg (not_not.2 hnormal)]

theorem length_logRequest (log : CLog sampleRNode) (q : CRequest) (seq : ℕ) :
    (logRequest sampleRNode log q seq).rh.length = log.rh.length + 1 := by
  unfold logRequest
  exact length_append

/-- Whether a checkpoint is due with it. -/
theorem shouldCheckpoint_logRequest {log : CLog sampleRNode}
    (hlen : log.rh.length = k) (hk : k + 1 ≤ 1024) (q : CRequest) (seq : ℕ) :
    (logRequest sampleRNode log q seq).shouldCheckpoint = decide (k + 1 = 1024) := by
  unfold ReqHistoryLog.shouldCheckpoint
  rw [length_logRequest, hlen, Bool.eq_iff_iff]
  simp only [ReqHistoryLog.truncateSize, Bool.and_eq_true, bne_iff_ne, beq_iff_eq,
    decide_eq_true_eq]
  omega

/-- The head executes the next request, and the robust thread logs it. -/
theorem exec_request (h : Resting k r) :
    ∃ q r', exec (step 0) r (executesNext (k + 1)) =
        logExecuted { r' with robustThread := .logging q } 0 q ∧
      q.rep.seq_num = k + 1 ∧ r'.rh = r.rh ∧ Resting (k + 1) r' := by
  obtain ⟨q, macs, forwarded, hcid, hrid, hseq, hproc⟩ :=
    processRequest_next (r := { r with requestThread := .processing (numbered (k + 1)) })
      h.seqno h.rid
  have hmove : step 0 { r with requestThread := .processing (numbered (k + 1)) } (.request 0) =
      { executeRequest { r with seqno := k + 1 } q with
        macs, forwarded, requestThread := .idle } := by
    show { processRequest { r with requestThread := .processing (numbered (k + 1)) } 0
      (numbered (k + 1)) 0 with requestThread := .idle } = _
    rw [hproc]
    rfl
  let r' : CReplica sampleRNode := { executeRequest { r with seqno := k + 1 } q with
    macs, forwarded, requestThread := .idle, robust_messages_queue := [] }
  refine ⟨q, r', ?_, hseq, rfl, ?_⟩
  · unfold executesNext
    rw [exec_cons, incoming_eq h.request_idle h.normal]
    show exec (step 0) _ ([.request 0, .request 0] ++ [.request 0, .robust false, .robust false]) = _
    rw [exec_append, request_eq h.flag h.pending, exec_cons, hmove, exec_cons]
    have hqueue : r.robust_messages_queue ++ [.request q] = [.request q] := by
      rw [h.queue]
      rfl
    rw [robust_eq (q := q) ?idle ?normal ?queue]
    case idle => exact h.robust_idle
    case normal => exact h.normal
    case queue => exact hqueue
    rfl
  · refine { h with request_idle := rfl, queue := rfl, seqno := rfl, rid := ?_ }
    show (update r.replies q.rep.cid _ 4).rep.rid = k + 1
    rw [hcid, update_self]
    exact hrid

/-- **One more request**, as long as no checkpoint is due. -/
theorem exec_executesNext (h : Resting k r) (hlen : r.rh.rh.length = k) (hk : k + 1 < 1024) :
    Resting (k + 1) (exec (step 0) r (executesNext (k + 1))) ∧
      (exec (step 0) r (executesNext (k + 1))).rh.rh.length = k + 1 := by
  obtain ⟨q, r', hexec, hseq, hrh, hr'⟩ := h.exec_request
  rw [hexec]
  unfold logExecuted
  dsimp only
  rw [if_neg]
  · refine ⟨{ hr' with robust_idle := rfl }, ?_⟩
    rw [length_logRequest, hrh, hlen]
  · rw [shouldCheckpoint_logRequest (hrh ▸ hlen) hk.le, decide_eq_true_eq]
    exact hk.ne

/-- The request that makes a checkpoint due. -/
theorem exec_due (h : Resting k r) (hlen : r.rh.rh.length = k) (hk : k + 1 = 1024) :
    ∃ r', exec (step 0) r (executesNext (k + 1)) =
        { r' with robustThread := .checkpointing ⟨0, 1024, 0, []⟩ } ∧ Resting 1024 r' := by
  obtain ⟨q, r', hexec, hseq, hrh, hr'⟩ := h.exec_request
  have htop : (logRequest sampleRNode r'.rh q q.rep.seq_num).getTopSeqno = 1024 := by
    unfold ReqHistoryLog.getTopSeqno logRequest
    rw [getLast?_append]
    exact hseq.trans hk
  refine ⟨{ r' with
    rh := logRequest sampleRNode r'.rh q q.rep.seq_num
    logged := r'.logged + 1 }, ?_, ?_⟩
  · rw [hexec]
    unfold logExecuted
    dsimp only
    rw [if_pos, if_neg, htop]
    · rfl
    · rw [htop, hr'.last]
      decide
    · rw [shouldCheckpoint_logRequest (hrh ▸ hlen) hk.le, decide_eq_true_eq]
      exact hk
  · rw [hk] at hr'
    exact { hr' with }

/-- The head has executed and logged the first `k` requests. -/
theorem exec_executesAll (hk : k < 1024) :
    Resting k (exec (step 0) (CReplica.init sampleRNode ())
        ((List.range k).flatMap fun i => executesNext (i + 1))) ∧
      (exec (step 0) (CReplica.init sampleRNode ())
        ((List.range k).flatMap fun i => executesNext (i + 1))).rh.rh.length = k := by
  induction k with
  | zero => exact ⟨init, rfl⟩
  | succ k ih =>
    obtain ⟨hrest, hlen⟩ := ih (by omega)
    rw [range_succ, flatMap_append, flatMap_singleton, exec_append]
    exact hrest.exec_executesNext hlen hk

end Resting

/-- The checkpoint set for `1024` with the message of replica `0`. -/
def ownSet : CheckpointSet :=
  ⟨update (fun _ => none) 0 (some ⟨0, 1024, 0, []⟩), 1, 1024⟩

/-- The head waits for its checkpoint at `1024`, for which it has `cset`;
`j` requests came in meanwhile, and those in `pending` were put off. -/
structure Collecting (cset : CheckpointSet) (j : ℕ) (pending : List CRequest)
    (r : CReplica sampleRNode) : Prop where
  normal : r.cur_state = .normal
  idle : r.requestThread = .idle
  flag : r.checkpoint_in_progress = true
  nb : r.current_nb_requests_while_checkpointing = j
  pending : r.pending_requests = pending
  last : r.last_chkp_seqno = 0
  sets : r.current_checkpoints 1024 = some cset

namespace Collecting

variable {cset cset' : CheckpointSet} {j k : ℕ} {pending : List CRequest}
variable {r : CReplica sampleRNode} {c : CCheckpoint}

/-- The robust thread sends the checkpoint and takes it in. -/
theorem of_resting (h : Resting k r) :
    Collecting ownSet 0 [] (step 0
      { r with robustThread := .checkpointing ⟨0, 1024, 0, []⟩ } (.robust false)) := by
  have hmutex : mutexHeld { r with robustThread := .checkpointing ⟨0, 1024, 0, []⟩ } =
      false := by
    unfold mutexHeld
    dsimp only
    rw [h.request_idle]
  have htake : (r.sends ⟨0, 1024, 0, []⟩).admitCheckpoint 0 ⟨0, 1024, 0, []⟩ = some ownSet := by
    unfold admitCheckpoint checkpointSet sends
    dsimp only
    rw [h.last, h.sets]
    rfl
  show Collecting ownSet 0 [] (robustMove
    { r with robustThread := .checkpointing ⟨0, 1024, 0, []⟩ } 0 false)
  unfold robustMove
  dsimp only
  rw [hmutex]
  show Collecting ownSet 0 [] ((r.sends _).handleCheckpoint 0 _ false)
  unfold handleCheckpoint
  rw [htake]
  have hset : update r.current_checkpoints 1024 (some ownSet) 1024 = _ := update_self ..
  exact ⟨h.normal, h.request_idle, rfl, h.nb, h.pending, h.last, hset⟩

/-- A request that is dropped still counts. -/
theorem exec_drops (h : Collecting cset j [] r) (hj : j < 256) :
    Collecting cset (j + 1) [] (exec (step 0) r drops) := by
  have hcount : step 0 { r with requestThread := .admitted readOnly } (.request 0) =
      { r with
        current_nb_requests_while_checkpointing := j + 1
        requestThread := .processing readOnly } := by
    show requestMove { r with requestThread := .admitted readOnly } 0 0 = _
    unfold requestMove
    dsimp only
    rw [if_pos h.flag, h.nb, if_pos (show j < maxNbRequestsWhileCheckpointing from hj)]
  unfold drops
  rw [exec_cons, Resting.incoming_eq h.idle h.normal, exec_cons, hcount]
  exact { h with idle := rfl, nb := rfl }

theorem exec_dropsAll (h : Collecting cset 0 [] r) (hj : j ≤ 256) :
    Collecting cset j [] (exec (step 0) r ((List.range j).flatMap fun _ => drops)) := by
  induction j with
  | zero => exact h
  | succ j ih =>
    rw [range_succ, flatMap_append, flatMap_singleton, exec_append]
    exact (ih (by omega)).exec_drops (by omega)

/-- The next one is put off. -/
theorem exec_putOff (h : Collecting cset 256 [] r) :
    Collecting cset 256 [readOnly]
      (exec (step 0) r [.incoming (.request readOnly) false, .request 0]) := by
  have hput : step 0 { r with requestThread := .admitted readOnly } (.request 0) =
      { r with pending_requests := [readOnly], requestThread := .idle } := by
    show requestMove { r with requestThread := .admitted readOnly } 0 0 = _
    unfold requestMove
    dsimp only
    rw [if_pos h.flag, h.nb, if_neg (show ¬ 256 < maxNbRequestsWhileCheckpointing from
      by decide), h.pending]
    rfl
  rw [exec_cons, Resting.incoming_eq h.idle h.normal, exec_cons, hput]
  exact { h with idle := rfl, pending := rfl }

variable (h : Collecting cset j pending r) (hseq : c.seqid = 1024)
  (hver : c.verify sampleRNode 0 = true) (hadd : cset.add c.id c = some cset')

include h hseq hver hadd

/-- A message that is taken in and does not complete the set. -/
theorem step_checkpoint :
    r.admitCheckpoint 0 c = some cset' ∧
      r.step 0 (.incoming (.checkpoint c) false) = r.handleCheckpoint 0 c false := by
  constructor
  · unfold admitCheckpoint checkpointSet
    rw [if_neg (by simp [hver]), hseq, h.last, h.sets, if_neg (by decide)]
    exact hadd
  · show r.takeIncoming 0 (.checkpoint c) false = _
    unfold takeIncoming
    rw [h.idle]
    rfl

theorem step_more (hn : cset'.n ≠ 3) :
    Collecting cset' j pending (r.step 0 (.incoming (.checkpoint c) false)) := by
  obtain ⟨htake, hstep⟩ := h.step_checkpoint hseq hver hadd
  rw [hstep]
  unfold handleCheckpoint
  rw [htake]
  dsimp only
  rw [if_neg (show ¬ cset'.n = 2 * sampleRNode.f + 1 from hn)]
  refine { h with sets := ?_ }
  dsimp only
  rw [hseq, update_self]

/-- The message that makes the checkpoint stable. -/
theorem step_stable (hn : cset'.n = 3) :
    let r' := r.step 0 (.incoming (.checkpoint c) false)
    r'.cur_state = .normal ∧ r'.requestThread = .idle ∧ r'.checkpoint_in_progress = false ∧
      r'.pending_requests = pending := by
  obtain ⟨htake, hstep⟩ := h.step_checkpoint hseq hver hadd
  have htrunc : (r.truncate c.seqid).cur_state = r.cur_state ∧
      (r.truncate c.seqid).requestThread = r.requestThread ∧
      (r.truncate c.seqid).pending_requests = r.pending_requests := by
    unfold truncate
    split
    · exact ⟨rfl, rfl, rfl⟩
    · exact ⟨rfl, rfl, rfl⟩
  obtain ⟨hs, hthread, hpending⟩ := htrunc
  intro r'
  rw [show r' = _ from hstep]
  unfold handleCheckpoint
  rw [htake]
  dsimp only
  rw [if_pos (show cset'.n = 2 * sampleRNode.f + 1 from hn)]
  exact ⟨hs.trans h.normal, hthread.trans h.idle, rfl, hpending.trans h.pending⟩

end Collecting

/-- The head makes a checkpoint, `257` requests come in, and the checkpoint
becomes stable. -/
def untilStable (k j : ℕ) : List CEvent :=
  ((List.range k).flatMap fun i => executesNext (i + 1)) ++ executesNext (k + 1) ++
    [.robust false] ++ ((List.range j).flatMap fun _ => drops) ++
    [.incoming (.request readOnly) false, .request 0] ++
    [checkpointOf 1 1024 0, checkpointOf 2 1024 0]

/-- The next request comes in. -/
def reentered : List CEvent :=
  [.incoming (.request readOnly) false, .request 0, .request 0]

theorem exec_untilStable {k j : ℕ} (hk : k + 1 = 1024) (hj : j = 256) :
    let r := exec (step 0) (CReplica.init sampleRNode ()) (untilStable k j)
    r.cur_state = .normal ∧ r.requestThread = .idle ∧ r.checkpoint_in_progress = false ∧
      r.pending_requests = [readOnly] := by
  obtain ⟨hrest, hlen⟩ := Resting.exec_executesAll (k := k) (by omega)
  obtain ⟨r', hdue, hr'⟩ := hrest.exec_due hlen hk
  have hfull := (Collecting.of_resting hr').exec_dropsAll hj.le
  generalize hdrops : (List.range j).flatMap (fun _ => drops) = dropped at hfull
  rw [hj] at hfull
  have hone := hfull.exec_putOff.step_more (c := ⟨1, 1024, 0, []⟩) rfl rfl rfl (by decide)
  have htwo := hone.step_stable (c := ⟨2, 1024, 0, []⟩) rfl rfl rfl (by decide)
  unfold untilStable
  rw [exec_append, exec_append, exec_append, exec_append, exec_append, hdue, hdrops]
  exact htwo

/-- The next request finds the one that was put off. -/
theorem reenters_of_stable {r : CReplica sampleRNode} (hs : r.cur_state = .normal)
    (hidle : r.requestThread = .idle) (hflag : r.checkpoint_in_progress = false)
    (hpending : r.pending_requests = [readOnly]) :
    reenters (exec (step 0) r [.incoming (.request readOnly) false, .request 0])
      (.request 0) = true := by
  rw [exec_cons, Resting.incoming_eq hidle hs, exec_cons, Resting.drain_eq hflag, exec_nil]
  unfold reenters
  dsimp only
  rw [hs, hpending]
  rfl

end Sample

end Chain

end AbstractBFT
