import AbstractBFT.Chain.Replica
import AbstractBFT.Pbft.BigRequests
import AbstractBFT.Pbft.Execution
/-!
# PBFT — the replica, with its requests and its switching

`PBFT_R_Replica` in full, where `Pbft.Replica` follows the service state
alone: how requests come in, the table of big requests, the reply table,
read-only requests and their queue, panics and aborts, and the switch to
the next instance. The certificates of prepares, commits and checkpoints
stand for themselves: that one has enough messages is an event. Proactive
recovery is left out, and with it `in_check_state`, the check of the fetched
state during which nothing is executed.

`jump_table` knows neither `PBFT_R_Missing` nor `PBFT_R_Get_a_grip` ("Unknown
message type"), and nothing calls `retransmit_panic`, so their handlers never
run. A replica that misses a request of the merged history waits for ever.
-/

namespace AbstractBFT.Pbft

open Function (update)

open Chain (ReplicaState AbortCertificate)

/-- `congestion_window`. -/
def congestionWindow : ℕ := 1

/-- `big_req_max`, the bits of a `BR_map`. -/
def bigReqMax : ℕ := 64

/-- What a replica runs on beside what every node shares: the AdHash
modulus, the service's `exec_command`, which gets the command, the client,
`last_executed` and the read-only flag and gives the reply and whether it
failed (under J2EE, `my_java_server_exec`), the function registered for the
next instance, and the signatures of aborts. -/
structure SNode (S X : Type) extends Node where
  M : Modulus
  exec_command : S → List UInt8 → ℤ → ℕ → Bool → S × List UInt8 × Bool
  enable_next : Bool → X → X
  gen_signature : ℕ → AbortRep → List UInt8
  verify_signature : ℤ → AbortRep → List UInt8 → Bool

/-- An entry of `PBFT_R_Rep_info`; there is no reply between `new_reply`
and `end_reply`. -/
structure RepEntry where
  rid : ℕ
  reply : Option (List UInt8)
  tentative : Bool

/-- `PBFT_R_Prepared_cert`: the pre-prepare and how many of its big requests
are missing; whether `f` prepares match it (`is_pp_correct`), and whether
`2f` do. -/
structure PEntry where
  pp : Option PrePrepare
  mreqs : ℤ
  correct : Bool
  prepared : Bool

/-- `is_complete`. -/
def PEntry.isComplete (e : PEntry) : Bool := e.pp.isSome && e.mreqs == 0 && e.prepared

/-- `pi.add(rd, i)`. -/
def PEntry.addDigest (e : PEntry) (rd : Digest) (i : ℕ) : PEntry :=
  if e.pp.any fun pp => pp.big_reqs[i]? == some rd then { e with mreqs := e.mreqs - 1 } else e

/-- The commits of a sequence number: too few, all but the own one, or
enough. -/
inductive CEntry where
  | few
  | near
  | complete
  deriving DecidableEq

/-- The part of the replica that read-only requests are to leave alone.
`next` is the state of the next instance's replica, and `nv_complete` is
`vi.has_new_view(v)`. The last fields are records: `ran` of the batches
executed, each with the requests it was executed with; `tentative` and
`executed` of the client requests executed for `last_tentative_execute`, and
of those committed in this activation with their sequence numbers; `aborted`
of the aborts that were broadcast, each with what was committed above
`last_stable` by then. -/
structure Core {S X : Type} (N : SNode S X) where
  cur_state : ReplicaState
  next : X
  v : ℕ
  has_nv_state : Bool
  nv_complete : Bool
  seqno : ℕ
  last_executed : ℕ
  last_tentative_execute : ℕ
  last_stable : ℕ
  low_bound : ℕ
  fetching : Bool
  plog : ℕ → PEntry
  clog : ℕ → CEntry
  elog : ℕ → Bool
  mine : ℕ → Bool
  brt : BigReqTable
  rqueue : ReqQueue
  out : ℤ → ℕ × ℤ
  replies : ℤ → RepEntry
  service : S
  max_rec_n : ℕ
  ckpt : Option (ℕ × S × (ℤ → RepEntry))
  rh : ReqHistoryLog N.M RequestMsg
  aborts : AbortCertificate
  halted : Bool
  ran : List (PrePrepare × List RequestMsg)
  tentative : List RequestMsg
  executed : List (ℕ × RequestMsg)
  aborted : List (Abort × List RequestMsg)

namespace Core

variable {S X : Type} {N : SNode S X}

/-- The constructor. -/
def init (N : SNode S X) (service : S) (next : X) : Core N where
  cur_state := .normal
  next := next
  v := 0
  has_nv_state := true
  nv_complete := false
  seqno := 0
  last_executed := 0
  last_tentative_execute := 0
  last_stable := 0
  low_bound := 0
  fetching := false
  plog := fun _ => ⟨none, 0, false, false⟩
  clog := fun _ => .few
  elog := fun _ => false
  mine := fun _ => false
  brt := .empty
  rqueue := []
  out := fun _ => (0, -1)
  replies := fun _ => ⟨0, none, true⟩
  service := service
  max_rec_n := 0
  ckpt := some (0, service, fun _ => ⟨0, none, true⟩)
  rh := .empty N.M RequestMsg
  aborts := .empty
  halted := false
  ran := []
  tentative := []
  executed := []
  aborted := []

variable (c : Core N)

/-- `has_new_view`. -/
def hasNewView : Bool := c.v == 0 || c.has_nv_state && c.nv_complete

/-- `primary() == id()`. -/
def isPrimary : Bool := c.v % N.n == N.id

/-- The client requests committed in this activation above `last_stable`. -/
def recent : List RequestMsg :=
  (c.executed.filter fun p => decide (c.last_stable < p.1)).map Prod.snd

/-! ## The switch -/

/-- `enable_replica(false)`. -/
def disable : Core N :=
  if c.cur_state = .normal ∨ c.cur_state = .stop then { c with cur_state := .stop } else c

/-- `enable_replica(true)`. -/
def enable : Core N :=
  if c.cur_state = .stop then
    { c with cur_state := .normal, rh := .empty N.M RequestMsg, executed := [] }
  else c

/-- `switch_state(instance_id(), false)`, then
`switch_state(next_instance_id(), true)`. -/
def switchAway : Core N :=
  { c.disable with next := N.enable_next true c.next }

/-! ## The log -/

/-- `pi.add(p)`: the big requests of the pre-prepare are looked up in the
table, and those that are missing are waited for. -/
def addPrePrepare (p : PrePrepare) : Core N :=
  let t := p.big_reqs.zipIdx.foldl
    (fun (s : BigReqTable × ℤ) rd =>
      let t := s.1.addPrePrepare rd.1 rd.2 p.seqno p.view
      (t.1, if t.2 then s.2 - 1 else s.2)) (c.brt, (p.big_reqs.length : ℤ))
  { c with
    brt := t.1
    plog := update c.plog p.seqno { c.plog p.seqno with pp := some p, mreqs := t.2 } }

/-- `pi.add_complete(p)`: nothing is looked up and nothing is missing. -/
def addComplete (p : PrePrepare) : Core N :=
  { c with plog := update c.plog p.seqno { c.plog p.seqno with pp := some p, mreqs := 0 } }

/-- `send_pre_prepare`: a pre-prepare for what is in the queue. -/
def sendPrePrepare : Core N :=
  if c.rqueue ≠ [] ∧ c.seqno + 1 ≤ c.last_executed + congestionWindow ∧
      c.seqno + 1 ≤ maxOut + c.last_stable ∧ c.hasNewView then
    let n := c.seqno + 1
    let rs := c.rqueue.take bigReqMax
    { c with
      seqno := n
      rqueue := c.rqueue.drop bigReqMax
      brt := rs.foldl (fun t r => t.addOwn r n c.v) c.brt
      plog := update c.plog n
        { c.plog n with pp := some ⟨c.v, n, [], rs.map (·.od)⟩, mreqs := 0 } }
  else c

/-- `send_pre_prepare` at the primary. -/
def packQueue : Core N := if c.isPrimary then c.sendPrePrepare else c

/-- `prepared`. -/
def prepared (n : ℕ) : Option PrePrepare :=
  if (c.plog n).isComplete then (c.plog n).pp else none

/-- `n` is in the log. -/
def inLog (n : ℕ) : Bool := decide (c.last_stable < n ∧ n ≤ c.last_stable + maxOut)

/-- `committed`. -/
def committed (n : ℕ) : Option PrePrepare :=
  if c.clog n = .complete then c.prepared n else none

/-- `replies.new_state`: every reply is committed, and requests that the
table has replies for leave the queue. -/
def newReplies : Core N :=
  { c with
    replies := fun cid => { c.replies cid with tentative := false }
    rqueue := c.rqueue.filter fun r => decide ((c.replies r.cid).rid < r.rid) }

/-- `mark_stable`, without what it finds stable in turn. -/
def markStable (n : ℕ) (have_state : Bool) : Core N :=
  if n ≤ c.last_stable then c
  else
    let c : Core N := { c with last_stable := n, low_bound := max n c.low_bound }
    let c : Core N := if have_state ∧ c.last_executed < n then
      { c.newReplies with last_executed := n, last_tentative_execute := n } else c
    let c : Core N :=
      { c with
        seqno := max n c.seqno
        plog := fun k => if k ≤ n then ⟨none, 0, false, false⟩ else c.plog k
        clog := fun k => if k ≤ n then .few else c.clog k
        elog := fun k => if k < n then false else c.elog k
        mine := fun k => if k < n then false else c.mine k
        ckpt := c.ckpt.filter fun k => !decide (k.1 < n ∧ k.1 < c.last_executed)
        brt := c.brt.markStable n }
    let c : Core N := if have_state then { c with mine := update c.mine n true } else c
    c.packQueue

/-! ## Execution -/

/-- The body of the loop over the requests of a batch. A request that was
executed before is not executed again; a request of a replica is for
recovery, and its reply is the sequence number. `exec_command` is told that
the request is read-only, the Java server that it is not. -/
def execRequest (r : RequestMsg) : Core N :=
  if r.rid ≤ (c.replies r.cid).rid then c
  else if N.isReplica r.cid then
    if r.command.length ≠ 8 then
      { c with
        replies := update c.replies r.cid ⟨(c.replies r.cid).rid, none, true⟩ }
    else
      { c with
        max_rec_n := c.last_tentative_execute
        replies := update c.replies r.cid
          ⟨r.rid, some (leBytes 8 c.last_tentative_execute), true⟩ }
  else
    let out := N.exec_command c.service r.command r.cid c.last_executed (!N.j2ee)
    { c with
      service := out.1
      replies := update c.replies r.cid ⟨r.rid, some out.2.1, true⟩
      tentative := c.tentative ++ [r] }

/-- `execute_prepared`. -/
def executePrepared : Core N :=
  if c.last_tentative_execute < c.last_executed + 1 ∧ c.last_executed < c.last_stable + maxOut ∧
      c.fetching = false ∧ c.hasNewView then
    match (c.prepared (c.last_executed + 1)).filter fun pp => pp.view == c.v with
    | none => c
    | some pp =>
      match pp.requests c.brt with
      | none => { c with halted := true }
      | some rs =>
        let n := c.last_executed + 1
        let c := rs.foldl execRequest
          { c with last_tentative_execute := n, ran := c.ran ++ [(pp, rs)], tentative := [] }
        if n % checkpointInterval = 0 then { c with ckpt := some (n, c.service, c.replies) } else c
  else c

/-- What `execute_committed` does before the read-only requests. -/
def commitNext : Core N :=
  let c := c.executePrepared
  { c with
    last_executed := c.last_executed + 1
    executed := c.executed ++ c.tentative.map fun r => (c.last_executed + 1, r)
    tentative := [] }

/-- And after them: the replies to the batch are committed, and at the end
of an interval the own checkpoint message is logged. -/
def commitBatch (rs : List RequestMsg) : Core N :=
  let c :=
    { c with
      replies := fun cid =>
        if rs.any fun r => r.cid == cid then { c.replies cid with tentative := false }
        else c.replies cid
      rqueue := rs.foldl (fun q r => ReqQueue.removeUpTo q r.cid r.rid) c.rqueue }
  if c.last_executed % checkpointInterval = 0 then
    let c := { c with mine := update c.mine c.last_executed true }
    if c.elog c.last_executed then c.markStable c.last_executed true else c
  else c

/-- `execute_committed` goes on: `last_executed` is in the window, and no
assertion failed. -/
def inWindow : Bool :=
  decide (c.last_executed < c.last_stable + maxOut ∧ c.last_stable ≤ c.last_executed) && !c.halted

/-- `execute_read_only`: `none` where it returns false. -/
def executeReadOnly (m : RequestMsg) : Option (Core N) :=
  if c.last_tentative_execute = c.last_executed ∧ c.fetching = false then
    let out := N.exec_command c.service m.command m.cid c.last_executed true
    let c := { c with service := out.1 }
    some (if out.2.2 then c else c.switchAway)
  else none

/-- The replies that come back with the memory of a checkpoint. Whether they
are tentative is in `ireps`, which is not part of that memory. -/
def restored (replies : ℤ → RepEntry) : ℤ → RepEntry :=
  fun cid => { replies cid with tentative := (c.replies cid).tentative }

/-- `last_tentative_execute = last_executed = state.rollback()`. Without a
checkpoint, or while state is fetched, an assertion fails. -/
def rollback : Core N :=
  match c.ckpt with
  | none => { c with halted := true }
  | some (k, service, replies) =>
    if c.fetching then { c with halted := true }
    else
      { c with
        service
        replies := c.restored replies
        last_executed := k
        last_tentative_execute := k
        tentative := []
        executed := c.executed.filter fun p => decide (p.1 ≤ k) }

/-- The rollback of what is executed tentatively. -/
def undo : Core N :=
  if c.last_executed < c.last_tentative_execute then c.rollback else c

/-- `state.start_fetch`. -/
def startFetch : Core N :=
  if c.fetching then c
  else
    { c with
      fetching := true
      ckpt := if c.ckpt.any fun k => decide (k.1 < c.last_executed) then
        some (c.last_executed, c.service, c.replies) else c.ckpt }

/-- The end of a fetch: the memory is the state at checkpoint `k`. -/
def endFetch (k : ℕ) (service : S) (replies : ℤ → RepEntry) : Core N :=
  { c with
    fetching := false
    service
    replies := c.restored replies
    ckpt := some (k, service, replies)
    has_nv_state := c.has_nv_state || c.nv_complete && decide (c.low_bound ≤ k) }

/-- The part of `new_state` for a state past `last_executed`. -/
def advance (k : ℕ) : Core N :=
  if c.last_executed < k then
    let c : Core N := { c.newReplies with last_executed := k, last_tentative_execute := k }
    let c := if c.last_stable + maxOut < k then c.markStable (k - maxOut) (c.mine (k - maxOut)) else c
    { c with mine := update c.mine k true }
  else c

/-- `new_state(k)` up to the execution of committed requests; `stable` says
that `f+1` replicas have a stable checkpoint at `k` or later. -/
def takeState (k : ℕ) (service : S) (replies : ℤ → RepEntry) (stable : Bool) : Core N :=
  let c := (c.endFetch k service replies).advance k
  let c := if stable then c.markStable k true else c
  { c with seqno := max k c.seqno }

/-! ## Views -/

/-- `send_view_change`. The replica goes to the next view, or on to `maxv`
if `f+1` replicas are there; `logged` are the big requests of the pre-prepares
that are kept, with their indices and sequence numbers. -/
def sendViewChange (maxv : ℕ) (logged : List (Digest × ℕ × ℕ)) : Core N :=
  let c := { c with v := max (c.v + 1) maxv, nv_complete := false }
  let c := c.undo
  let brt := logged.foldl (fun t p => (t.addPrePrepare p.1 p.2.1 p.2.2 c.v).1) c.brt
  { c with
    plog := fun _ => ⟨none, 0, false, false⟩
    clog := fun _ => .few
    brt := brt.viewChange c.v }

/-- `process_new_view` up to the read-only requests: the pre-prepares `pps`
of the new view go to the log, from the checkpoint `min` on. -/
def processNewView (min max ms : ℕ) (pps : List PrePrepare) : Core N :=
  let c := { c with nv_complete := true, seqno := max - 1 }
  let min := Nat.max min c.last_stable
  let c := { c with low_bound := min }
  let c := c.markStable ms (ms ≤ c.last_executed)
  let c := pps.foldl (fun c p => if c.isPrimary then c.addComplete p else c.addPrePrepare p) c
  let c := c.packQueue
  if c.last_executed < min then { c.startFetch with has_nv_state := false }
  else { c with has_nv_state := true }

/-! ## Panics -/

/-- A panic makes a running instance panic. -/
def startPanic : Core N :=
  if c.cur_state ≠ .panicking ∧ c.cur_state ≠ .stop then { c with cur_state := .panicking } else c

/-- The constructor of `PBFT_R_Abort` and `sign`: entries without a request
are skipped and counted. Past the elements lies what the buffer held. -/
def makeAbort (rid : ℕ) (buffer : ℕ → AbortHistoryElement) : Abort :=
  let elems := c.rh.rh.filterMap fun e => e.req.map fun r => ⟨r.cid, r.rid, r.od⟩
  let rep : AbortRep :=
    { replica := N.id, rid
      digest := N.md5 (elems.flatMap AbortHistoryElement.bytes)
      hist_size := c.rh.rh.length % 2 ^ 16 }
  { rep, elems := fun j => elems.getD j (buffer j), sig := N.gen_signature N.id rep }

/-- `broadcast_abort`. -/
def broadcastAbort (rid : ℕ) (buffer : ℕ → AbortHistoryElement) : Core N :=
  let a := c.makeAbort rid buffer
  { c with
    -- since we're not receiving it back
    aborts := (c.aborts.add a).getD c.aborts
    aborted := c.aborted ++ [(a, c.recent)] }

/-- The history replaced with `AH_2`: the requests of it that the replica
has, in their order. -/
def rebuild (ah_2 : AbortHistory) : ReqHistoryLog N.M RequestMsg :=
  (ah_2.foldl
    (fun (st : List (RhEntry RequestMsg) × ReqHistoryLog N.M RequestMsg) e =>
      match st.1.findIdx? fun x => x.req.any fun r => r.cid == e.cid && r.rid == e.rid with
      | none => st
      | some i =>
        match st.1[i]? with
        | some ⟨some r, seq, d⟩ =>
          (st.1.set i ⟨none, seq, d⟩, (st.2.addRequest N.md5 (·.od) r seq).1)
        | _ => st)
    (c.rh.rh, .empty N.M RequestMsg)).2

/-- `PBFT_R_Abort::verify`. -/
def verifyAbort (N : SNode S X) (a : Abort) : Bool :=
  N.isReplica a.rep.replica && decide (a.rep.hist_size < 2 ^ 15) &&
    N.md5 (a.history.flatMap AbortHistoryElement.bytes) == a.rep.digest &&
    N.verify_signature a.rep.replica a.rep a.sig

/-- `handle(PBFT_R_Abort)`. -/
def handleAbort (m : Abort) : Core N :=
  if c.cur_state ≠ .panicking ∨ !verifyAbort N m then c
  else
    match c.aborts.add m with
    | none => c
    | some aborts =>
      if aborts.count < 3 * N.f + 1 then { c with aborts }
      else
        match Smasher.process N.n N.f aborts.ac N.id with
        | none => { c with halted := true }
        | some (ah_2, missing) =>
          if missing = [] then
            switchAway { c with aborts := .empty, rh := c.rebuild ah_2, cur_state := .stop }
          else { c with aborts := .empty, cur_state := .miswaiting }

end Core

/-! ## The replica -/

/-- `PBFT_R_Replica`: the rest of it, the queue of read-only requests, and
the requests of clients to be told when the panic is over. `disturbed`
records that a read-only request was executed whose switch changed
something. -/
structure Server {S X : Type} (N : SNode S X) where
  core : Core N
  ro_rqueue : ReqQueue
  outstanding : List (ℤ × ℕ)
  disturbed : Bool

namespace Server

variable {S X : Type} {N : SNode S X}

/-- The constructor. -/
def init (N : SNode S X) (service : S) (next : X) : Server N :=
  ⟨Core.init N service next, [], [], false⟩

/-- Change the rest of the replica. -/
def on (s : Server N) (f : Core N → Core N) : Server N := { s with core := f s.core }

section Execution

variable [DecidableEq X] (s : Server N)

/-- A read-only request that is executed now, without an error, switches
the instances; does that change anything? -/
def disturbs (c : Core N) (m : RequestMsg) : Bool :=
  decide (c.last_tentative_execute = c.last_executed ∧ c.fetching = false) &&
    !(N.exec_command c.service m.command m.cid c.last_executed true).2.2 &&
    decide (c.cur_state = .normal ∨ N.enable_next true c.next ≠ c.next)

/-- `execute_read_only(m)`, whatever it returns. -/
def readOnly (m : RequestMsg) : Server N :=
  { s with
    core := (s.core.executeReadOnly m).getD s.core
    disturbed := s.disturbed || disturbs s.core m }

/-- "Execute any buffered read-only requests." -/
def drain : Server N :=
  s.ro_rqueue.foldl readOnly { s with ro_rqueue := [] }

/-- One round of the loop in `execute_committed`; `none` where it ends. -/
def executeRound : Option (Server N) :=
  if s.core.inWindow then
    match (s.core.committed (s.core.last_executed + 1)).filter fun pp => pp.view == s.core.v with
    | none => none
    | some pp =>
      let s := (s.on Core.commitNext).drain
      some (s.on fun c => c.commitBatch ((pp.requests c.brt).getD []))
  else none

/-- The loop in `execute_committed`. -/
def executeLoop : ℕ → Server N → Server N
  | 0, s => s
  | k + 1, s =>
    match s.executeRound with
    | none => s
    | some s' => executeLoop k s'

/-- `execute_committed`. Every round takes an entry of the log, which has
`max_out` of them. The primary looks at its queue if the loop ends for lack
of a committed batch. -/
def executeCommitted : Server N :=
  if s.core.fetching = false ∧ s.core.hasNewView then
    let s := s.executeLoop (maxOut + 1)
    if s.core.inWindow then s.on Core.packQueue else s
  else s

/-- `send_commit`. -/
def sendCommit (n : ℕ) : Server N :=
  let s := s.on fun c => if n = c.last_executed + 1 then c.executePrepared else c
  if s.core.clog n = .few then s
  else (s.on fun c => { c with clog := update c.clog n .complete }).executeCommitted

/-- `send_commit` if the certificate of `n` is complete. -/
def tryCommit (n : ℕ) : Server N :=
  if (s.core.plog n).isComplete then s.sendCommit n else s

/-! ## Requests -/

/-- The loop of `add_request` over the pre-prepares that waited for the
request with digest `rd`. Between views the missing pre-prepares are in the
view-change information. -/
def fillWaiting (rd : Digest) (ws : List WaitingPp) : Server N :=
  ws.foldl
    (fun s w =>
      if s.core.hasNewView ∧ s.core.inLog w.n then
        (s.on fun c => { c with plog := update c.plog w.n ((c.plog w.n).addDigest rd w.i) })
          |>.tryCommit w.n
      else s) s

/-- `!has_new_view() || check_pcerts(bre)`. -/
def unverifiedOk (c : Core N) (ws : List WaitingPp) : Bool :=
  !c.hasNewView || ws.any fun w => c.inLog w.n && (c.plog w.n).correct

/-- `brt.add_request`; `none` where it returns false. -/
def addRequest (m : RequestMsg) (verified : Bool) : Option (Server N) :=
  (s.core.brt.addRequest RequestMsg.rid m verified (unverifiedOk s.core)).map fun t =>
    (s.on fun c => { c with brt := t.1 }).fillWaiting m.od t.2

/-- `rqueue.append`; `none` where it returns false. -/
def enqueue (m : RequestMsg) : Option (Server N) :=
  (ReqQueue.append s.core.rqueue m).map fun q => s.on fun c => { c with rqueue := q }

/-- A verified request that is not read-only. -/
def handleOrdered (m : RequestMsg) : Server N :=
  let last := (s.core.replies m.cid).rid
  if last < m.rid then
    if s.core.isPrimary then
      let o := s.core.out m.cid
      if o.1 < m.rid ∨ o.2 < s.core.v then
        let s := s.on fun c => { c with out := update c.out m.cid (m.rid, (c.v : ℤ)) }
        match s.enqueue m with
        | some s => s.on Core.sendPrePrepare
        | none => s
      else s
    else (s.addRequest m true).getD ((s.enqueue m).getD s)
  else if last = m.rid ∧ s.core.isPrimary = false ∧ (s.core.replies m.cid).tentative then
    (s.enqueue m).getD s
  else s

/-- `handle(PBFT_R_Request)`. -/
def handleRequest (m : RequestMsg) : Server N :=
  if s.core.cur_state = .stop then s
  else if s.core.cur_state ≠ .normal then
    { s with outstanding := s.outstanding ++ [(m.cid, m.rid)] }
  else if s.core.hasNewView ∧ m.verify N.toNode then
    if N.isReplica m.cid = false ∨ m.signed ∧ m.read_only = false then
      if m.read_only then
        match s.core.executeReadOnly m with
        | some _ => s.readOnly m
        | none => { s with ro_rqueue := (ReqQueue.append s.ro_rqueue m).getD s.ro_rqueue }
      else s.handleOrdered m
    else s
  else if m.read_only then s
  else (s.addRequest m false).getD s

/-! ## The other handlers -/

/-- `handle(PBFT_R_Pre_prepare)`; `ok` says that `pc.add` finds it verified
in one of its ways, or between views that the view change waits for it. In
that case its requests are looked up in the table and no more. -/
def handlePrePrepare (m : PrePrepare) (ok : Bool) : Server N :=
  if s.core.inLog m.seqno ∧ m.view = s.core.v ∧ s.core.low_bound < m.seqno ∧ s.core.hasNewView then
    if (s.core.plog m.seqno).pp.isNone ∧ ok then
      (s.on fun c => c.addPrePrepare m).tryCommit m.seqno
    else s
  else if s.core.hasNewView = false ∧ ok then
    s.on fun c => { c with brt := (c.addPrePrepare { m with view := c.v }).brt }
  else s

/-- `new_state`. -/
def newState (k : ℕ) (service : S) (replies : ℤ → RepEntry) (stable : Bool) : Server N :=
  (s.on fun c => c.takeState k service replies stable).executeCommitted.drain.on Core.packQueue

/-- `handle(PBFT_R_Panic)`. -/
def handlePanic (cid : ℤ) (rid : ℕ) (buffer : ℕ → AbortHistoryElement) : Server N :=
  let s := s.on Core.startPanic
  if N.isReplica cid then s.on fun c => c.broadcastAbort rid buffer
  else if s.core.cur_state = .stop then s
  else
    { s with
      core := s.core.broadcastAbort rid buffer
      outstanding := s.outstanding ++ [(cid, rid)] }

/-- `enable_replica`, called by another instance. -/
def setEnabled (state : Bool) : Server N :=
  if state then
    { s with
      core := s.core.enable
      outstanding := if s.core.cur_state = .stop then [] else s.outstanding }
  else s.on Core.disable

end Execution

end Server

/-- What can happen at a replica. -/
inductive SEvent (S : Type) where
  | request (m : RequestMsg)
  | prePrepare (m : PrePrepare) (ok : Bool)
  /-- `f` prepares match the pre-prepare logged for `n` -/
  | vouched (n : ℕ)
  /-- the `2f`-th prepare for `n` arrives -/
  | prepares (n : ℕ)
  /-- commits for `n` arrive: all but the own one, or enough -/
  | commits (n : ℕ) (enough : Bool)
  /-- enough checkpoint messages for `n` arrive -/
  | checkpoint (n : ℕ)
  /-- `f+1` stable checkpoints above the window start a fetch -/
  | fetch
  | newState (k : ℕ) (service : S) (replies : ℤ → RepEntry) (stable : Bool)
  | viewChange (maxv : ℕ) (logged : List (Digest × ℕ × ℕ))
  | newView (min max ms : ℕ) (pps : List PrePrepare)
  | panic (cid : ℤ) (rid : ℕ) (buffer : ℕ → AbortHistoryElement)
  | abort (m : Abort)
  | setEnabled (state : Bool)

namespace Server

variable {S X : Type} {N : SNode S X} [DecidableEq X]

/-- One event at a replica that runs. -/
def handle (s : Server N) : SEvent S → Server N
  | .request m => s.handleRequest m
  | .prePrepare m ok => s.handlePrePrepare m ok
  | .vouched n => s.on fun c =>
    if c.inLog n then
      { c with plog := update c.plog n { c.plog n with correct := true } }
    else c
  | .prepares n =>
    if s.core.inLog n then
      (s.on fun c => { c with plog := update c.plog n { c.plog n with prepared := true } })
        |>.tryCommit n
    else s
  | .commits n enough =>
    if s.core.inLog n = false then s
    else if enough then
      (s.on fun c => { c with clog := update c.clog n .complete }).executeCommitted
    else s.on fun c =>
      if c.clog n = .few then { c with clog := update c.clog n .near } else c
  | .checkpoint n => s.on fun c =>
    if c.inLog n then
      let c : Core N := { c with elog := update c.elog n true }
      if c.mine n then c.markStable n true else c
    else c
  | .fetch => s.on fun c => c.undo.startFetch
  | .newState k service replies stable => s.newState k service replies stable
  | .viewChange maxv logged => s.on fun c => c.sendViewChange maxv logged
  | .newView min max ms pps =>
    let s := s.on fun c => c.processNewView min max ms pps
    if s.core.has_nv_state then s.drain else s
  | .panic cid rid buffer => s.handlePanic cid rid buffer
  | .abort m => s.on fun c => c.handleAbort m
  | .setEnabled state => s.setEnabled state

/-- One event. Nothing is handled after an assertion failed. -/
def step (s : Server N) (e : SEvent S) : Server N := if s.core.halted then s else s.handle e

end Server

end AbstractBFT.Pbft
