import AbstractBFT.Aardvark.ReplicaStep
import AbstractBFT.Lib.Run
/-!
# Aardvark — requests, execution and switching

`A_Replica` around its ordering part: client requests and their queue,
the tentative and committed execution of batches, checkpoints, rollback
and fetched state, and the state `NORMAL` or `STOP` the replica is in for
the switching between protocol instances. The ordering part is the
`Replica` of the earlier modules; every call into it is one of its events.

What the code leaves to others is in the events here too: the pages of a
fetched state, which checkpoint certificates are complete, and when the
replica leaves a view. A request is at most `Max_message_size` bytes, less
than `big_req_thresh`, so the branches for big requests are not taken. The
new keys a replica sends when it executes another one's recovery request
are an event of their own.
-/

namespace AbstractBFT.Aardvark

open List Option

/-- `AARDVARK_NB_REQS_BEFORE_SWITCHING`, as the repository has it. -/
def reqsBeforeSwitching : ℕ := 200000

/-- `replica_state`, as far as Aardvark uses it. -/
inductive ReplicaState where
  | normal
  | stop
  deriving DecidableEq

/-! ## The request queue -/

/-- `A_Req_queue`: the requests in order, at most one of a client, and for
each client the last request for which a pre-prepare was sent, with its
view. -/
structure RQueue where
  reqs : List Request
  out : BitVec 32 → BitVec 64 × View

namespace RQueue

def empty : RQueue := ⟨[], fun _ => (0, -1)⟩

/-- `first_client`. -/
def firstClient (q : RQueue) : ReqQueue := fun cid => q.reqs.find? (·.cid == cid)

/-- `remove(cid, rid)`. -/
def remove (q : RQueue) (cid : BitVec 32) (rid : BitVec 64) : RQueue :=
  { q with reqs := q.reqs.filter fun r => !(r.cid == cid && decide (r.rid ≤ rid)) }

/-- `append`. -/
def append (q : RQueue) (r : Request) : RQueue × Bool :=
  match q.firstClient r.cid with
  | some r' =>
    if r'.rid < r.rid then
      let q := q.remove r.cid r.rid
      ({ q with reqs := q.reqs ++ [r] }, true)
    else (q, false)
  | none => ({ q with reqs := q.reqs ++ [r] }, true)

/-- `in_progress`. -/
def inProgress (q : RQueue) (cid : BitVec 32) (rid : BitVec 64) (v : View) : RQueue × Bool :=
  if (q.out cid).1 < rid ∨ (q.out cid).2 < v then
    ({ q with out := Function.update q.out cid (rid, v) }, false)
  else (q, true)

end RQueue

/-! ## The server -/

/-- What the code calls: `exec_command` of the service, with the choices
of the primary (none for a read-only request) and whether the request is
read-only; how many of the queued requests fit into a pre-prepare; the
choices for it; and `AARDVARK_NB_REQS_BEFORE_SWITCHING`, a constant of the
build. -/
structure Service (σ : Type) where
  exec_command : σ → BitVec 32 → List UInt8 → Option (List UInt8) → Bool → σ
  capacity : List Request → ℕ
  compute_non_det : ℕ → List UInt8
  nb_reqs_before_switching : ℕ

/-- The memory that is checkpointed: the state of the service, and the
reply table with the last request executed for each client. -/
structure Memory (σ : Type) where
  service : σ
  rids : BitVec 32 → BitVec 64

/-- What is recorded of an executed request: client, number and command. -/
abbrev Key := BitVec 32 × BitVec 64 × List UInt8

/-- `A_Replica`. `tentative` is `ireps` of the reply table, `lc` the last
checkpoint (`none` for `-1`), and `mine` the replica's own checkpoint
messages in `elog`. The fields from `proposed` on record what happened:
the pre-prepares sent, the requests executed and the read-only ones
answered, what had been executed whenever the threshold was reached and the
next instance enabled, and how many requests were counted in all. -/
structure Server (σ : Type) where
  ord : Replica
  cur_state : ReplicaState
  req_count_switch : ℕ
  rqueue : RQueue
  ro_rqueue : RQueue
  mem : Memory σ
  tentative : BitVec 32 → Bool
  last_tentative_execute : ℕ
  lc : Option (ℕ × Memory σ)
  mine : List ℕ
  fetching : Bool
  proposed : List PrePrepare
  executed : List Key
  answered : List Key
  switches : List (List Key)
  counted : ℕ

variable {σ : Type}

/-- What `send_pre_prepare` asks of the ordering part. -/
def Replica.MaySend (N : Node) (r : Replica) : Prop :=
  r.halted = false ∧ r.hasNewView N ∧ N.primary r.v = N.id ∧
    r.seqno + 1 ≤ r.last_executed + Replica.congestionWindow ∧ r.InLog (r.seqno + 1)
  deriving Decidable

namespace Server

/-- A replica at the start. It waits to be enabled. -/
def init (N : Node) (m : Memory σ) : Server σ where
  ord := .init N
  cur_state := .stop
  req_count_switch := 0
  rqueue := .empty
  ro_rqueue := .empty
  mem := m
  tentative := fun _ => true
  last_tentative_execute := 0
  lc := some (0, m)
  mine := []
  fetching := false
  proposed := []
  executed := []
  answered := []
  switches := []
  counted := 0

/-- A call into the ordering part. -/
def onOrd (N : Node) (s : Server σ) (e : Event) : Server σ := { s with ord := s.ord.step N e }

/-- A failed assertion. -/
def halt (s : Server σ) : Server σ := { s with ord := { s.ord with halted := true } }

variable (X : Service σ) (N : Node) (s : Server σ)

/-- `is_replica`. -/
def isReplica (cid : BitVec 32) : Bool := decide (0 ≤ cid.toInt ∧ cid.toInt < N.n)

/-- The pre-prepare for the requests `small`, logged and sent. There are no
choices for a null batch. -/
def propose (small : List Request) : Server σ :=
  let n := s.ord.seqno + 1
  let nd := if small = [] then [] else X.compute_non_det n
  { s.onOrd N (.propose small [] nd) with
    proposed := s.proposed ++ [Replica.batch N s.ord.v n small [] nd] }

/-- `send_pre_prepare`. -/
def sendPrePrepare : Server σ :=
  if s.rqueue.reqs ≠ [] ∧ s.ord.MaySend N then
    let k := X.capacity s.rqueue.reqs
    { s.propose X N (s.rqueue.reqs.take k) with
      rqueue := { s.rqueue with reqs := s.rqueue.reqs.drop k } }
  else s

/-! ### Execution -/

/-- The body of the loop over a batch in `execute_prepared`, with the
choices `nd`. -/
def executeRequest (nd : List UInt8) (s : Server σ) (r : Request) : Server σ :=
  if r.rid ≤ s.mem.rids r.cid then s
  else
    let s := { s with tentative := Function.update s.tentative r.cid true }
    let rids := Function.update s.mem.rids r.cid r.rid
    if isReplica N r.cid then
      -- Handle recovery requests, i.e., requests from replicas, differently.
      if r.command_size ≠ 8 then s else { s with mem := { s.mem with rids } }
    else
      { s with
        mem := ⟨X.exec_command s.mem.service r.cid r.command (some nd) false, rids⟩
        executed := s.executed ++ [r.key] }

/-- `state.checkpoint`. -/
def checkpoint (n : ℕ) : Server σ := { s with lc := some (n, s.mem) }

/-- What `execute_prepared` does with the batch it can execute. -/
def executeBatch (pp : PrePrepare) (reqs : List Request) : Server σ :=
  let n := s.ord.last_executed + 1
  let s := reqs.foldl (executeRequest X N pp.non_det) { s with last_tentative_execute := n }
  if n % checkpointInterval = 0 then s.checkpoint n else s

/-- `execute_prepared`. -/
def executePrepared : Server σ :=
  if s.last_tentative_execute < s.ord.last_executed + 1 ∧
      s.ord.last_executed < s.ord.last_stable + maxOut ∧ s.fetching = false ∧ s.ord.hasNewView N then
    match s.ord.prepared (s.ord.last_executed + 1) with
    | none => s
    | some pp =>
      if pp.view = s.ord.v then
        match pp.requests s.ord.brt.lookup with
        | none => s.halt
        | some reqs => s.executeBatch X N pp reqs
      else s
  else s

/-- `execute_read_only`, for the requests in `ro_rqueue` and for one that
just arrived. -/
def executeReadOnly (r : Request) : Server σ :=
  if s.last_tentative_execute = s.ord.last_executed ∧ s.fetching = false then
    { s with
      mem := { s.mem with service := X.exec_command s.mem.service r.cid r.command none true }
      answered := s.answered ++ [r.key] }
  else s

/-- "Execute any buffered read-only requests". -/
def flushReadOnly : Server σ :=
  s.ro_rqueue.reqs.foldl (executeReadOnly X) { s with ro_rqueue := { s.ro_rqueue with reqs := [] } }

/-! ### Stable checkpoints -/

/-- `replies.new_state`. -/
def newReplies : Server σ :=
  { s with
    tentative := fun _ => false
    rqueue := { s.rqueue with
      reqs := s.rqueue.reqs.filter fun r => !decide (r.rid ≤ s.mem.rids r.cid) } }

/-- `state.discard_checkpoint`. -/
def discardCheckpoint (n : ℕ) : Server σ :=
  { s with lc := s.lc.filter fun c => !decide (c.1 < n ∧ c.1 < s.ord.last_executed) }

/-- The body of `mark_stable`. -/
def mark (n : ℕ) (have_state : Bool) : Server σ :=
  let s :=
    if have_state ∧ s.ord.last_executed < n then { s.newReplies with last_tentative_execute := n }
    else s
  let s := (s.onOrd N (.stable n have_state)).discardCheckpoint n
  if have_state then { s with mine := s.mine ++ [n] } else s

/-- `mark_stable` of checkpoints that become stable one after the other,
each found in the call for the one before. -/
def markStable : List ℕ → Server σ → Server σ
  | [], s => s
  | n :: ns, s =>
    if n ≤ s.ord.last_stable then s
    else
      let s := markStable ns (s.mark N n (s.mine.contains n))
      -- Try to send any Pre_prepares for any buffered requests.
      if N.primary s.ord.v = N.id then s.sendPrePrepare X N else s

variable (stable : ℕ → List ℕ)

/-- What `execute_committed` does after the execution of the batch
`reqs`; `stable n` are the checkpoints that become stable with the
replica's own message for `n`. -/
def commitBatch (reqs : List Request) : Server σ :=
  let n := s.ord.last_executed + 1
  let s := (s.onOrd N .execute).flushReadOnly X
  let s :=
    { s with
      tentative := fun cid => s.tentative cid && !reqs.any (·.cid == cid)
      rqueue := reqs.foldl (fun q r => q.remove r.cid r.rid) s.rqueue }
  if n % checkpointInterval = 0 then { s with mine := s.mine ++ [n] }.markStable X N (stable n)
  else s

/-- One round of the loop in `execute_committed`; `none` where it ends. -/
def executeRound : Option (Server σ) :=
  if s.ord.halted = false ∧ s.ord.last_executed < s.ord.last_stable + maxOut ∧
      s.ord.last_stable ≤ s.ord.last_executed then
    match s.ord.committed (s.ord.last_executed + 1) with
    | none => none
    | some pp =>
      if pp.view = s.ord.v then
        -- Tentatively execute last_executed + 1 if needed.
        let s := s.executePrepared X N
        if s.ord.halted then some s
        else
          match pp.requests s.ord.brt.lookup with
          | none => some s.halt
          | some reqs => some (s.commitBatch X N stable reqs)
      else none
  else none

/-- The loop in `execute_committed`. -/
def executeLoop : ℕ → Server σ → Server σ
  | 0, s => s
  | k + 1, s =>
    match s.executeRound X N stable with
    | none => s
    | some s' => executeLoop k s'

/-- `execute_committed`. Where the loop returns for the bounds of the
window nothing follows. -/
def executeCommitted : Server σ :=
  if s.fetching = false ∧ s.ord.hasNewView N then
    let s := s.executeLoop X N stable (maxOut + 1)
    if s.ord.last_executed < s.ord.last_stable + maxOut ∧
        s.ord.last_stable ≤ s.ord.last_executed ∧ N.primary s.ord.v = N.id then
      s.sendPrePrepare X N
    else s
  else s

/-- `send_commit`, after its commit is logged and sent. -/
def afterCommit (n : ℕ) : Server σ :=
  let s := if n = s.ord.last_executed + 1 then s.executePrepared X N else s
  if (s.ord.log n).cc.isComplete then s.executeCommitted X N stable else s

/-! ### Handlers -/

/-- `handle(A_Request*)` after the switching. -/
def takeRequest (m : Request) : Server σ :=
  if s.ord.hasNewView N ∧ (isReplica N m.cid = false ∨ m.signed ∧ m.read_only = false) then
    if m.read_only then
      if s.last_tentative_execute = s.ord.last_executed ∧ s.fetching = false then
        s.executeReadOnly X m
      else { s with ro_rqueue := (s.ro_rqueue.append m).1 }
    else if s.mem.rids m.cid < m.rid then
      -- A_Request has not been executed.
      if N.primary s.ord.v = N.id then
        let t := s.rqueue.inProgress m.cid m.rid s.ord.v
        if t.2 then { s with rqueue := t.1 }
        else
          let u := t.1.append m
          if u.2 then { s with rqueue := u.1 }.sendPrePrepare X N else { s with rqueue := u.1 }
      else { s with rqueue := (s.rqueue.append m).1 }
    else if s.mem.rids m.cid = m.rid ∧ N.primary s.ord.v ≠ N.id ∧ s.tentative m.cid then
      { s with rqueue := (s.rqueue.append m).1 }
    else s
  else s

/-- The switching in `handle(A_Request*)`: reaching the threshold stops
this instance and enables the next. -/
def countRequest : Server σ :=
  let s :=
    if s.req_count_switch = X.nb_reqs_before_switching then
      { s with cur_state := .stop, switches := s.switches ++ [s.executed] }
    else s
  { s with req_count_switch := s.req_count_switch + 1, counted := s.counted + 1 }

/-- `handle(A_Request*)`. A stopped replica answers with the next
instance. -/
def handleRequest (m : Request) : Server σ :=
  match s.cur_state with
  | .stop => s
  | .normal => (s.countRequest X).takeRequest X N m

/-- Does the pre-prepare `m` make this replica send a commit? -/
def commitsOnPrePrepare (q : ReqQueue) (s : Server σ) (m : PrePrepare) : Bool :=
  let t := (s.ord.log m.seqno).pc.add N q s.ord.brt m
  t.2 && (({ s.ord.log m.seqno with pc := t.1.1 } : Slot).sendPrepare N s.ord.v m.seqno).pc.isComplete

/-- `handle(A_Pre_prepare*)`. -/
def handlePrePrepare (m : PrePrepare) : Server σ :=
  if s.ord.InWv m.view m.seqno ∧ s.ord.low_bound < m.seqno ∧ s.ord.hasNewView N then
    let q := s.rqueue.firstClient
    let s' := s.onOrd N (.prePrepare q m)
    if s.commitsOnPrePrepare N q m then s'.afterCommit X N stable m.seqno else s'
  else s

/-- `handle(A_Prepare*)`. -/
def handlePrepare (m : Prepare) : Server σ :=
  if s.ord.InWv m.view m.seqno ∧ s.ord.low_bound < m.seqno ∧ N.primary s.ord.v ≠ m.id ∧
      s.ord.hasNewView N then
    let t := (s.ord.log m.seqno).pc.addPrepare N m
    let s' := s.onOrd N (.prepare m)
    if t.2 && t.1.isComplete then s'.afterCommit X N stable m.seqno else s'
  else s

/-- `handle(A_Commit*)`. -/
def handleCommit (m : Commit) : Server σ :=
  if s.ord.InWv m.view m.seqno ∧ s.ord.low_bound < m.seqno then
    let t := (s.ord.log m.seqno).cc.add N.n (m.verify N) m
    let s' := s.onOrd N (.commit m)
    if t.2 && t.1.isComplete then s'.executeCommitted X N stable else s'
  else s

/-- `last_tentative_execute = last_executed = state.rollback()`. -/
def rollback : Server σ :=
  match s.lc with
  | none => s.halt
  | some (c, m) =>
    if s.fetching then s.halt
    else
      { s with mem := m, last_tentative_execute := c, ord := { s.ord with last_executed := c } }

/-- `state.start_fetch`. -/
def startFetch : Server σ :=
  if s.fetching then s
  else
    let s := { s with fetching := true }
    if s.lc.any (·.1 < s.ord.last_executed) then s.checkpoint s.ord.last_executed else s

/-- `handle(A_Checkpoint*)` where `f+1` replicas have stable checkpoints
this one has not executed. -/
def handleLate : Server σ :=
  let s := if s.ord.last_executed < s.last_tentative_execute then s.rollback else s
  if s.ord.halted then s else s.startFetch

/-- The first part of `new_state`. -/
def advance (c : ℕ) : Server σ :=
  let s :=
    if (s.ord.nvInfo N).is_complete ∧ s.ord.low_bound ≤ c then
      { s with ord := { s.ord with has_nv_state := true } }
    else s
  if s.ord.last_executed < c then
    let s :=
      { s with ord := { s.ord with last_executed := c }, last_tentative_execute := c }.newReplies
    let s := if s.ord.last_stable + maxOut < c then s.markStable X N [c - maxOut] else s
    { s with mine := s.mine ++ [c] }
  else s

/-- `new_state`; `known` are the checkpoints found stable, from `c` on. -/
def newState (known : List ℕ) (s : Server σ) (c : ℕ) : Server σ :=
  let s := s.advance X N c
  let s := if known.head? = some c then { s with mine := s.mine ++ [c] }.markStable X N known else s
  let s := { s with ord := { s.ord with seqno := max c s.ord.seqno } }
  let s := (s.executeCommitted X N stable).flushReadOnly X
  if N.primary s.ord.v = N.id then s.sendPrePrepare X N else s

/-- The end of a fetch at checkpoint `c`. -/
def handleFetched (known : List ℕ) (s : Server σ) (c : ℕ) : Server σ :=
  if s.fetching then
    if s.lc.all (·.1 ≤ c) then
      ({ s with fetching := false }.checkpoint c).newState X N stable known c
    else s.halt
  else s

/-- `send_null`, called by its timer. -/
def sendNull : Server σ :=
  if s.cur_state = .normal ∧ s.rqueue.reqs = [] ∧ s.ord.seqno ≤ s.ord.last_executed ∧
      s.ord.MaySend N then
    s.propose X N []
  else s

/-- `send_view_change`, to view `w`. -/
def sendViewChange (w : View) (ckpts : List Digest) : Server σ :=
  if w ≤ s.ord.v then s
  else if s.ord.last_executed < s.last_tentative_execute then
    let s := s.rollback
    if s.ord.halted then s else s.onOrd N (.leave w (some s.ord.last_executed) ckpts)
  else s.onOrd N (.leave w none ckpts)

/-- `process_new_view`, called on the event `e` of the ordering part with
the stable checkpoint `ms`. Its calls of `send_pre_prepare` come before
`has_nv_state` is set. -/
def processNewView (e : Event) (ms : ℕ) : Server σ :=
  let r := s.ord.step N e
  if (s.ord.nvInfo N).is_complete = false ∧ (r.nvInfo N).is_complete ∧ r.halted = false then
    let s' := { s with
      ord := { r with has_nv_state := s.ord.has_nv_state }
      mine := if ms ≤ s.ord.last_executed then s.mine ++ [ms] else s.mine }.discardCheckpoint ms
    let s' := if s.ord.last_stable < ms ∧ N.primary r.v = N.id then s'.sendPrePrepare X N else s'
    let s' := if N.primary r.v = N.id then s'.sendPrePrepare X N else s'
    let s' := { s' with ord := { s'.ord with has_nv_state := r.has_nv_state } }
    if r.has_nv_state then s'.flushReadOnly X else s'.startFetch
  else { s with ord := r }

/-- `enable_replica`. -/
def enableReplica (on : Bool) : Server σ :=
  if on then
    { s with
      req_count_switch := if s.cur_state = .normal then s.req_count_switch else 0
      cur_state := .normal }
  else { s with cur_state := .stop }

end Server

/-- What can happen at a replica. -/
inductive ServerEvent (σ : Type) where
  | request (m : Request)
  | prePrepare (m : PrePrepare) (stable : ℕ → List ℕ)
  | prepare (m : Prepare) (stable : ℕ → List ℕ)
  | commit (m : Commit) (stable : ℕ → List ℕ)
  /-- only what was sent before is sent again -/
  | status
  | newKey
  | stable (ns : List ℕ)
  | late
  | data (m : Memory σ)
  | fetched (c : ℕ) (known : List ℕ) (stable : ℕ → List ℕ)
  | null
  | leave (w : View) (ckpts : List Digest)
  | viewChange (vc : ViewChange) (auth : Bool)
  | newView (nv : NewView) (auth : Bool)
  | install (ms : ℕ) (pps : ℕ → PrePrepare)
  | make (nv : NewView) (ms : ℕ) (pps : ℕ → PrePrepare)
  | enable (on : Bool)

namespace Server

variable (X : Service σ) (N : Node)

def handle (s : Server σ) : ServerEvent σ → Server σ
  | .request m => s.handleRequest X N m
  | .prePrepare m stable => s.handlePrePrepare X N stable m
  | .prepare m stable => s.handlePrepare X N stable m
  | .commit m stable => s.handleCommit X N stable m
  | .status => s
  | .newKey => s.onOrd N .newKey
  | .stable ns => s.markStable X N ns
  | .late => s.handleLate
  | .data m => if s.fetching then { s with mem := m } else s
  | .fetched c known stable => s.handleFetched X N stable known c
  | .null => s.sendNull X N
  | .leave w ckpts => s.sendViewChange N w ckpts
  | .viewChange vc auth => s.onOrd N (.viewChange vc auth)
  | .newView nv auth => s.onOrd N (.newView nv auth)
  | .install ms pps => s.processNewView X N (.install ms pps) ms
  | .make nv ms pps => s.processNewView X N (.make nv ms pps) ms
  | .enable on => s.enableReplica on

def step (s : Server σ) (e : ServerEvent σ) : Server σ :=
  if s.ord.halted then s else s.handle X N e

end Server

/-! ## What the calls into the ordering part do -/

namespace Slot

variable {N : Node} {v : View} {n : ℕ} {σ : Slot}

@[simp] theorem pp_sendPrepare (N : Node) (v : View) (n : ℕ) (σ : Slot) :
    (σ.sendPrepare N v n).pc.pi.pp = σ.pc.pi.pp := by
  unfold sendPrepare
  split
  · split
    · dsimp only
      split <;> rfl
    · rfl
  · rfl

@[simp] theorem pp_commitIfComplete (N : Node) (v : View) (n : ℕ) (σ : Slot) :
    (σ.commitIfComplete N v n).pc.pi.pp = σ.pc.pi.pp := by
  unfold commitIfComplete
  split <;> rfl

theorem not_isComplete_of_pp (h : σ.pc.pi.pp = none) : ¬ σ.pc.isComplete := by
  intro hcomp
  obtain ⟨pp, hpp, -⟩ := PreparedCert.exists_of_isComplete hcomp
  rw [h] at hpp
  cases hpp

theorem commitIfComplete_of_pp (h : σ.pc.pi.pp = none) : σ.commitIfComplete N v n = σ := by
  rw [commitIfComplete, if_neg (not_isComplete_of_pp h)]

@[simp] theorem pp_prepare (N : Node) (v : View) (m : Prepare) (σ : Slot) :
    (σ.prepare N v m).pc.pi.pp = σ.pc.pi.pp := by
  unfold prepare
  dsimp only
  split
  · rw [pp_commitIfComplete]
    rfl
  · rfl

/-- What a pre-prepare leaves. -/
theorem pp_prePrepare {q : ReqQueue} {brt : BigReqTable} {m pp : PrePrepare}
    (h : (σ.prePrepare N q v brt m).1.pc.pi.pp = some pp) :
    σ.pc.pi.pp = some pp ∨ pp = m ∧ N.primary m.view ≠ N.id ∧ m.auth := by
  unfold prePrepare at h
  dsimp only at h
  split at h
  · rename_i hadd
    right
    have hauth : N.primary m.view ≠ N.id ∧ m.auth := by
      rcases (PreparedCert.add_true hadd).2.2 with hver | hver
      · exact PrePrepare.auth_of_verify hver nofun
      · exact PrePrepare.auth_of_verify hver nofun
    rw [pp_commitIfComplete, pp_sendPrepare, PreparedCert.add_of_true hadd,
      PreparedCert.pp_addOld] at h
    exact ⟨(some.inj h).symm, hauth⟩
  · exact Or.inl h

theorem pp_released {rd : Digest} (is : List ℕ) (σ : Slot) :
    (is.foldl (fun σ i => σ.bigRequest N v n rd i) σ).pc.pi.pp = σ.pc.pi.pp := by
  induction is generalizing σ with
  | nil => rfl
  | cons i is ih =>
    rw [foldl_cons, ih, bigRequest, pp_commitIfComplete, pp_sendPrepare]
    exact PrePrepareInfo.pp_addDigest σ.pc.pi rd i

theorem pp_markStale {b : Bool} {pp : PrePrepare} (h : (σ.markStale b).pc.pi.pp = some pp) :
    σ.pc.pi.pp = some pp := by
  unfold markStale PreparedCert.markStale at h
  split at h
  · exact h
  · dsimp only at h
    split at h
    · exact h
    · cases h

end Slot

namespace Replica

variable {N : Node} {r r' : Replica}

/-- **Where a pre-prepare in the log comes from.** -/
theorem Moved.pp_cases {n : ℕ} {e : Event} {τ : Slot} (h : Moved N r r' n e τ) {pp : PrePrepare}
    (hpp : τ.pc.pi.pp = some pp) :
    (r.log n).pc.pi.pp = some pp ∨
      (∃ q, e = .prePrepare q pp ∧ pp.seqno = n ∧ pp.view = r.v ∧ N.primary pp.view ≠ N.id ∧
        pp.auth) ∨
      (∃ small big nd, e = .propose small big nd ∧ n = r.seqno + 1 ∧
        pp = batch N r.v n small big nd) ∨
      0 < r.v := by
  cases h with
  | same _ => exact Or.inl hpp
  | truncated _ => cases hpp
  | prePrepare hin hv hs hnv =>
    rcases Slot.pp_prePrepare hpp with hold | ⟨rfl, hauth⟩
    · exact Or.inl hold
    · exact Or.inr (Or.inl ⟨_, rfl, hs, hv, hauth⟩)
  | prepare hin hv hs hid hnv =>
    rw [Slot.pp_prepare] at hpp
    exact Or.inl hpp
  | commit hin hv hs => exact Or.inl hpp
  | released hin hbre hnv =>
    rw [Slot.pp_released] at hpp
    exact Or.inl hpp
  | stale hs => exact Or.inl (Slot.pp_markStale hpp)
  | proposed hlive hp hnv hs =>
    exact Or.inr (Or.inr (Or.inl ⟨_, _, _, rfl, hs, (some.inj hpp).symm⟩))
  | installed _ _ hv _ _ _ _ _ _ _ => exact Or.inr (Or.inr (Or.inr hv))
  | made _ _ hv _ _ _ _ => exact Or.inr (Or.inr (Or.inr hv))
  | left _ _ => cases hpp

/-- Does the event leave `last_executed` alone? -/
def keepsExecuted : Event → Bool
  | .stable _ _ | .newState _ | .execute | .leave _ (some _) _ | .install _ _ | .make _ _ _ => false
  | _ => true

theorem last_executed_step {e : Event} (he : keepsExecuted e) :
    (r.step N e).last_executed = r.last_executed := by
  unfold step
  split
  · rfl
  cases e with
  | prePrepare q m =>
    dsimp only [handle, handlePrePrepare]
    split <;> rfl
  | prepare m =>
    dsimp only [handle, handlePrepare]
    split <;> rfl
  | commit m =>
    dsimp only [handle, handleCommit]
    split <;> rfl
  | request req verified =>
    obtain ⟨log', brt', heq, -⟩ := addRequest_cases N r req verified
    rw [handle, heq]
  | newKey => rfl
  | propose small big nd =>
    dsimp only [handle, sendPrePrepare]
    split <;> rfl
  | leave w rc ckpts =>
    cases rc with
    | some c => cases he
    | none =>
      dsimp only [handle, sendViewChange]
      split
      · rfl
      · unfold viewChange
        split <;> rfl
  | viewChange vc auth =>
    obtain ⟨_, _, _, heq⟩ := v_handleViewChange N r vc auth
    rw [handle, heq]
  | newView nv auth =>
    obtain ⟨_, _, heq⟩ := v_handleNewView N r nv auth
    rw [handle, heq]
  | stable n b => cases he
  | newState c => cases he
  | execute => cases he
  | install ms pps => cases he
  | make nv ms pps => cases he

theorem trimNewView_frame (N : Node) (r : Replica) :
    (r.trimNewView N).last_executed = r.last_executed ∧ (r.trimNewView N).halted = r.halted := by
  unfold trimNewView
  dsimp only
  split <;> exact ⟨rfl, rfl⟩

theorem halted_markStable (N : Node) (r : Replica) (n : ℕ) (have_state : Bool) :
    (r.markStable N n have_state).halted = r.halted := by
  unfold markStable
  split
  · rfl
  · exact (trimNewView_frame N _).2

theorem last_executed_markStable {n : ℕ} (hn : ¬ n ≤ r.last_stable) (have_state : Bool) :
    (r.markStable N n have_state).last_executed =
      if have_state then max n r.last_executed else r.last_executed := by
  rw [markStable, if_neg hn]
  exact (trimNewView_frame N _).1

end Replica

/-! ## What the handlers share -/

namespace Server

def switching (s : Server σ) : ReplicaState × ℕ × ℕ × List (List Key) :=
  (s.cur_state, s.req_count_switch, s.counted, s.switches)

/-- **What no execution changes.** From `s` to `s'` the switching stood
still, queued requests were at most removed, and pre-prepares were sent for
queued requests only. -/
structure Flow (s s' : Server σ) : Prop where
  switching : s'.switching = s.switching
  queued : s'.rqueue.reqs ⊆ s.rqueue.reqs
  proposed : ∀ pp ∈ s'.proposed, pp ∈ s.proposed ∨ ∀ r, some r ∈ pp.rset → r ∈ s.rqueue.reqs

namespace Flow

variable {X : Service σ} {N : Node} {s s' s'' : Server σ}

theorem refl (s : Server σ) : Flow s s :=
  ⟨rfl, List.Subset.refl _, fun _ => Or.inl⟩

theorem trans (h : Flow s s') (h' : Flow s' s'') : Flow s s'' where
  switching := h'.switching.trans h.switching
  queued := List.Subset.trans h'.queued h.queued
  proposed := by
    intro pp hpp
    rcases h'.proposed pp hpp with hold | hnew
    · exact h.proposed pp hold
    · exact Or.inr fun r hr => h.queued (hnew r hr)

/-- What a step that only removes requests looks at. -/
def part (s : Server σ) : (ReplicaState × ℕ × ℕ × List (List Key)) × List PrePrepare :=
  (s.switching, s.proposed)

theorem of_subset (h : part s' = part s) (hq : s'.rqueue.reqs ⊆ s.rqueue.reqs) : Flow s s' := by
  obtain ⟨hswitching, hproposed⟩ := Prod.mk.inj h
  exact ⟨hswitching, hq, fun _ hpp => Or.inl (hproposed ▸ hpp)⟩

theorem of_part (h : part s' = part s) (hq : s'.rqueue.reqs = s.rqueue.reqs) : Flow s s' :=
  of_subset h (hq ▸ List.Subset.refl _)

/-- What is left alone first does not matter. -/
theorem after (h : Flow s' s'') (hs : part s' = part s) (hq : s'.rqueue.reqs = s.rqueue.reqs) :
    Flow s s'' :=
  (of_part hs hq).trans h

theorem ite {c : Prop} [Decidable c] (h : Flow s s') (h' : Flow s s'') :
    Flow s (if c then s' else s'') := by
  split
  · exact h
  · exact h'

theorem onOrd (s : Server σ) (e : Event) : Flow s (s.onOrd N e) := of_part rfl rfl

theorem ord (s : Server σ) (r : Replica) : Flow s { s with ord := r } := of_part rfl rfl

theorem propose {small : List Request} (h : small ⊆ s.rqueue.reqs) :
    Flow s (s.propose X N small) where
  switching := rfl
  queued := List.Subset.refl _
  proposed := by
    intro pp hpp
    rcases mem_concat_iff.1 hpp with hold | rfl
    · exact Or.inl hold
    · right
      intro r hr
      obtain ⟨r', hr', heq⟩ := mem_map.1 hr
      obtain rfl := some.inj heq
      exact h hr'

variable (s)

theorem sendPrePrepare : Flow s (s.sendPrePrepare X N) := by
  unfold Server.sendPrePrepare
  split
  · exact { propose (X := X) (N := N) (take_subset _ s.rqueue.reqs) with
      queued := drop_subset _ _ }
  · exact refl s

theorem executeRequest (nd : List UInt8) (s : Server σ) (r : Request) :
    Flow s (s.executeRequest X N nd r) := by
  unfold Server.executeRequest
  exact ite (refl s) (ite (ite (of_part rfl rfl) (of_part rfl rfl)) (of_part rfl rfl))

theorem foldl {α : Type} {f : Server σ → α → Server σ} (hf : ∀ s a, Flow s (f s a)) (as : List α)
    (s : Server σ) : Flow s (as.foldl f s) := by
  induction as generalizing s with
  | nil => exact refl s
  | cons a as ih => exact (hf s a).trans (ih (f s a))

theorem executeBatch (pp : PrePrepare) (reqs : List Request) :
    Flow s (s.executeBatch X N pp reqs) := by
  have hstart : Flow s { s with last_tentative_execute := s.ord.last_executed + 1 } :=
    of_part rfl rfl
  have hflow := hstart.trans (foldl (executeRequest (X := X) (N := N) pp.non_det) reqs _)
  unfold Server.executeBatch
  exact ite (hflow.trans (of_part rfl rfl)) hflow

theorem executePrepared : Flow s (s.executePrepared X N) := by
  unfold Server.executePrepared
  split
  · split
    · exact refl s
    · split
      · split
        · exact ord s _
        · exact executeBatch s _ _
      · exact refl s
  · exact refl s

theorem executeReadOnly (r : Request) : Flow s (s.executeReadOnly X r) :=
  ite (of_part rfl rfl) (refl s)

theorem flushReadOnly : Flow s (s.flushReadOnly X) := by
  have hstart : Flow s { s with ro_rqueue := { s.ro_rqueue with reqs := [] } } := of_part rfl rfl
  exact hstart.trans (foldl executeReadOnly s.ro_rqueue.reqs _)

theorem newReplies : Flow s s.newReplies :=
  of_subset rfl filter_sublist.subset

theorem mark (n : ℕ) (have_state : Bool) : Flow s (s.mark N n have_state) := by
  have hjump : Flow s (if have_state ∧ s.ord.last_executed < n then
      { s.newReplies with last_tentative_execute := n } else s) :=
    ite ((newReplies s).trans (of_part rfl rfl)) (refl s)
  refine hjump.trans ?_
  unfold Server.mark
  split <;> exact ite (of_part rfl rfl) (of_part rfl rfl)

theorem markStable (ns : List ℕ) (s : Server σ) : Flow s (s.markStable X N ns) := by
  induction ns generalizing s with
  | nil => exact refl s
  | cons n ns ih =>
    have hmark := (mark (N := N) s n (s.mine.contains n)).trans (ih _)
    exact ite (refl s) (ite (hmark.trans (sendPrePrepare _)) hmark)

theorem removeAll (q : RQueue) (reqs : List Request) :
    (reqs.foldl (fun q r => q.remove r.cid r.rid) q).reqs ⊆ q.reqs := by
  induction reqs generalizing q with
  | nil => exact List.Subset.refl _
  | cons r reqs ih =>
    exact List.Subset.trans (ih (q.remove r.cid r.rid)) filter_sublist.subset

variable (stable : ℕ → List ℕ)

theorem commitBatch (s : Server σ) (reqs : List Request) :
    Flow s (s.commitBatch X N stable reqs) := by
  have hflow := (onOrd (N := N) s .execute).trans (flushReadOnly (X := X) _)
  unfold Server.commitBatch
  refine ite (hflow.trans (Flow.trans ?_ (markStable _ _))) (hflow.trans ?_)
  · exact of_subset rfl (removeAll _ reqs)
  · exact of_subset rfl (removeAll _ reqs)

variable {s} in
theorem executeRound {stable : ℕ → List ℕ} (h : s.executeRound X N stable = some s') :
    Flow s s' := by
  unfold Server.executeRound at h
  split at h
  · split at h
    · cases h
    · split at h
      · dsimp only at h
        split at h
        · obtain rfl := some.inj h
          exact executePrepared s
        · split at h
          · obtain rfl := some.inj h
            exact (executePrepared s).trans (ord _ _)
          · obtain rfl := some.inj h
            exact (executePrepared s).trans (commitBatch stable _ _)
      · cases h
  · cases h

theorem executeLoop (k : ℕ) (s : Server σ) : Flow s (s.executeLoop X N stable k) := by
  induction k generalizing s with
  | zero => exact refl s
  | succ k ih =>
    unfold Server.executeLoop
    split
    · exact refl s
    · rename_i s' hround
      exact (executeRound hround).trans (ih s')

theorem executeCommitted (s : Server σ) : Flow s (s.executeCommitted X N stable) := by
  have hloop := executeLoop (X := X) (N := N) stable (maxOut + 1) s
  exact ite (ite (hloop.trans (sendPrePrepare _)) hloop) (refl s)

theorem afterCommit (s : Server σ) (n : ℕ) : Flow s (s.afterCommit X N stable n) := by
  have hflow := ite (c := n = s.ord.last_executed + 1) (executePrepared (X := X) (N := N) s) (refl s)
  exact ite (hflow.trans (executeCommitted stable _)) hflow

theorem rollback : Flow s s.rollback := by
  unfold Server.rollback
  split
  · exact ord s _
  · exact ite (of_part rfl rfl) (of_part rfl rfl)

theorem startFetch : Flow s s.startFetch :=
  ite (refl s) (ite (of_part rfl rfl) (of_part rfl rfl))

theorem handleLate : Flow s s.handleLate := by
  have hflow := ite (c := s.ord.last_executed < s.last_tentative_execute) (rollback s) (refl s)
  exact ite hflow (hflow.trans (startFetch _))

theorem advance (c : ℕ) : Flow s (s.advance X N c) := by
  have hflow := ite (c := (s.ord.nvInfo N).is_complete ∧ s.ord.low_bound ≤ c)
    (ord s { s.ord with has_nv_state := true }) (refl s)
  refine ite (hflow.trans ?_) hflow
  have hjump : ∀ s' : Server σ, Flow s' { s' with
      ord := { s'.ord with last_executed := c }, last_tentative_execute := c }.newReplies :=
    fun s' => (newReplies _).after rfl rfl
  exact ((hjump _).trans (ite (markStable [c - maxOut] _) (refl _))).trans (of_part rfl rfl)

theorem newState (known : List ℕ) (s : Server σ) (c : ℕ) :
    Flow s (s.newState X N stable known c) := by
  have hknown : ∀ s' : Server σ, Flow s' (if known.head? = some c then
      { s' with mine := s'.mine ++ [c] }.markStable X N known else s') :=
    fun s' => ite ((markStable known _).after rfl rfl) (refl s')
  have hcommitted : ∀ s' : Server σ, Flow s'
      (({ s' with ord := { s'.ord with seqno := max c s'.ord.seqno } }.executeCommitted
        X N stable).flushReadOnly X) :=
    fun s' => ((ord s' _).trans (executeCommitted stable _)).trans (flushReadOnly _)
  have hflow := ((advance (X := X) (N := N) s c).trans (hknown _)).trans (hcommitted _)
  exact ite (hflow.trans (sendPrePrepare _)) hflow

theorem handleFetched (known : List ℕ) (s : Server σ) (c : ℕ) :
    Flow s (s.handleFetched X N stable known c) := by
  unfold Server.handleFetched
  split
  · exact ite ((newState stable known _ c).after rfl rfl) (ord s _)
  · exact refl s

theorem processNewView (e : Event) (ms : ℕ) : Flow s (s.processNewView X N e ms) := by
  have hsend (c : Prop) [Decidable c] (s' : Server σ) :
      Flow s' (if c then s'.sendPrePrepare X N else s') := ite (sendPrePrepare s') (refl s')
  unfold Server.processNewView
  dsimp only
  split
  · have hstart : Flow s ({ s with
        ord := { s.ord.step N e with has_nv_state := s.ord.has_nv_state }
        mine := if ms ≤ s.ord.last_executed then s.mine ++ [ms] else s.mine }.discardCheckpoint ms) :=
      of_part rfl rfl
    have hsent := (hstart.trans (hsend (s.ord.last_stable < ms ∧
      N.primary (s.ord.step N e).v = N.id) _)).trans (hsend (N.primary (s.ord.step N e).v = N.id) _)
    split
    · exact (hsent.trans (ord _ _)).trans (flushReadOnly _)
    · exact (hsent.trans (ord _ _)).trans (startFetch _)
  · exact ord s _

/-- **Every handler but the ones for requests and for enabling.** -/
theorem handle {e : ServerEvent σ} (hreq : ∀ m, e ≠ .request m) (hon : ∀ on, e ≠ .enable on) :
    Flow s (s.handle X N e) := by
  cases e with
  | request m => exact absurd rfl (hreq m)
  | prePrepare m stable =>
    exact ite (ite ((onOrd s _).trans (afterCommit stable _ _)) (onOrd s _)) (refl s)
  | prepare m stable =>
    exact ite (ite ((onOrd s _).trans (afterCommit stable _ _)) (onOrd s _)) (refl s)
  | commit m stable =>
    exact ite (ite ((onOrd s _).trans (executeCommitted stable _)) (onOrd s _)) (refl s)
  | status => exact refl s
  | newKey => exact onOrd s _
  | stable ns => exact markStable ns s
  | late => exact handleLate s
  | data m => exact ite (of_part rfl rfl) (refl s)
  | fetched c known stable => exact handleFetched stable known s c
  | null => exact ite (propose (nil_subset _)) (refl s)
  | leave w ckpts =>
    have hroll := rollback s
    exact ite (refl s) (ite (ite hroll (hroll.trans (onOrd _ _))) (onOrd s _))
  | viewChange vc auth => exact onOrd s _
  | newView nv auth => exact onOrd s _
  | install ms pps => exact processNewView s _ ms
  | make nv ms pps => exact processNewView s _ ms
  | enable on => exact absurd rfl (hon on)

end Flow

end Server

end AbstractBFT.Aardvark
