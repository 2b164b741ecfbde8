import AbstractBFT.Common.Instance
/-!
# The replica of ZLight

`zl_Replica`: the primary, replica 0, numbers the requests it executes and
sends each to the backups in an order request; a backup executes the order
request that is next after the last it executed. What the replica shares
with that of Quorum is in `Instance`; handlers are single steps here too.

The constructor does not set `last_seqno`; `ZReplica.init` takes the value
the memory has there.
-/

namespace AbstractBFT.ZLight

open Instance
open Chain (CCheckpoint)

/-! ## Messages -/

/-- `zl_Order_request_rep`, but for the word that nothing sets. -/
structure OrderRep where
  v : ℕ
  seq_num : ℕ
  req_id : ℕ
  cid : ℤ
  deriving DecidableEq

/-- The headers that authenticators cover. -/
inductive Header where
  | request (rep : RequestRep)
  | order (rep : OrderRep)
  deriving DecidableEq

/-- `zl_Order_request`: the header, the authenticator over it, and the whole
request behind that, which the authenticator does not cover. -/
structure OrderRequest where
  rep : OrderRep
  auth : List UInt8
  stored_request : Request
  deriving DecidableEq

/-- What a replica runs on; `gen_auth` makes the primary's authenticators. -/
structure ZNode (S : Type) extends INode S Header where
  gen_auth : Header → List UInt8

variable {S : Type} {N : ZNode S}

/-- The order request that the primary makes of a request. -/
def orderRequest (N : ZNode S) (seqno : ℕ) (m : Request) : OrderRequest :=
  let rep : OrderRep := ⟨0, seqno, m.rep.rid, m.rep.cid⟩
  ⟨rep, N.gen_auth (.order rep), m⟩

/-- `zl_Order_request::verify` at replica `me`. `verify_auth` accepts no
message of the node itself. -/
def OrderRequest.verify (N : ZNode S) (me : ℕ) (o : OrderRequest) : Bool :=
  me != 0 && N.verify_auth 0 me (.order o.rep) o.auth

/-- `zl_Request::verify`. -/
def verifyRequest (N : ZNode S) (me : ℕ) (m : Request) : Bool :=
  m.verify N.toINode Header.request me

/-! ## The replica -/

/-- `zl_Replica`. `orders` and `checkpoints` record what it sent to the
other replicas. -/
structure ZReplica (N : ZNode S) where
  core : IReplica N.toINode
  last_seqno : ℕ
  orders : List OrderRequest
  checkpoints : List CCheckpoint

namespace ZReplica

/-- The constructor, with `last_seqno` as the memory has it. -/
def init (N : ZNode S) (service : S) (last_seqno : ℕ) : ZReplica N :=
  ⟨IReplica.init N.toINode service, last_seqno, [], []⟩

variable (r : ZReplica N) (id : ℕ)

/-- The own checkpoint: it is sent to the others and handled at once. -/
def takeCheckpoint : ZReplica N :=
  let seqid := r.core.rh.getTopSeqno
  let digest := r.core.rh.rhDigest N.md5
  let chkp : CCheckpoint := ⟨id, seqid, digest, N.gen_signature id (.checkpoint id seqid digest)⟩
  { r with
    core := { r.core with checkpoint_in_progress := true }.handleCheckpoint id chkp
    checkpoints := r.checkpoints ++ [chkp] }

/-- The reply to a request just executed: in full if it is short or the
replica is the replier. -/
def sendResult (core : IReplica N.toINode) (id : ℕ) (req : Request) : IReplica N.toINode :=
  let cid := req.rep.cid
  if (core.replies cid).body.length < 50 ∨ req.rep.rid % N.n = id then core.sendReply id cid
  else { core with sent := core.sent ++ [(cid, core.emptyReply id cid req.rep.rid)] }

/-- `execute_request`, with what it returns. -/
def executeRequest (req : Request) : ZReplica N × Bool :=
  let cid := req.rep.cid
  let rid := req.rep.rid
  if rid < (r.core.replies cid).rep.rid then (r, false)
  else if (r.core.replies cid).rep.rid = rid then
    ({ r with core := r.core.sendReply id cid }, false)
  else
    let log := r.core.rh.addRequest N.md5 (fun q => q.rep.od) req r.core.seqno
    let core := sendResult { r.core.execute req r.core.seqno log.2 with rh := log.1 } id req
    let r : ZReplica N := { r with core := core, last_seqno := core.seqno }
    (if core.rh.shouldCheckpoint then r.takeCheckpoint id else r, true)

/-- The assignment to `seqno`. -/
def setSeqno (seqno : ℕ) : ZReplica N :=
  { r with core := { r.core with seqno := seqno } }

/-- What the primary does with a request that passed the tests. -/
def orderNext (m : Request) : ZReplica N :=
  let r : ZReplica N :=
    if (r.core.replies m.rep.cid).rep.rid = m.rep.rid then r
    else r.setSeqno (r.core.seqno + 1)
  let out := r.executeRequest id m
  if out.2 then { out.1 with orders := out.1.orders ++ [orderRequest N out.1.core.seqno m] }
  else out.1

/-- `handle(zl_Request)`. -/
def handleRequest (m : Request) : ZReplica N :=
  match r.core.cur_state with
  | .stop => { r with core := r.core.notify id m.rep.cid m.rep.rid }
  | .normal =>
    if !verifyRequest N id m then r
    else if m.rep.read_only then r
    else
      match r.core.canHandle with
      | none => r
      | some core =>
        let r : ZReplica N := { r with core := core }
        let last_rid := (core.replies m.rep.cid).rep.rid
        if id = 0 then if last_rid ≤ m.rep.rid then r.orderNext id m else r
        else if last_rid = m.rep.rid then (r.executeRequest id m).1
        else r
  | _ =>
    { r with
      core := { r.core with outstanding := r.core.outstanding ++ [(m.rep.cid, m.rep.rid)] } }

/-- `handle(zl_Order_request)`. It does not look at `cur_state`. -/
def handleOrderRequest (o : OrderRequest) : ZReplica N :=
  if !o.verify N id then r
  else if (r.core.replies o.rep.cid).rep.rid ≤ o.rep.req_id then
    if o.rep.seq_num ≠ r.last_seqno + 1 then r
    else if !verifyRequest N id o.stored_request then r
    else
      ((r.setSeqno (r.last_seqno + 1)).executeRequest id o.stored_request).1
  else r

/-- `enable_replica`. -/
def enableReplica (state : Bool) : ZReplica N :=
  { r with
    core := r.core.enableReplica state
    last_seqno := if r.core.cur_state = .stop ∧ state = true then 0 else r.last_seqno }

/-- What a replica takes. `other` is a panic, an abort, a get-a-grip, a
missing-request message, a client's notification or a timer: they find
nothing to do. -/
inductive Event where
  | request (m : Request)
  | order (o : OrderRequest)
  | checkpoint (c : CCheckpoint)
  | enable (state : Bool)
  | other
  deriving DecidableEq

/-- One event at replica `id`. -/
def step (id : ℕ) (r : ZReplica N) (e : Event) : ZReplica N :=
  if r.core.down then r
  else
    match e with
    | .request m => r.handleRequest id m
    | .order o => r.handleOrderRequest id o
    | .checkpoint c => { r with core := r.core.handleCheckpoint id c }
    | .enable state => r.enableReplica state
    | .other => r

/-! ## What the parts of a step do -/

variable {r r' r'' : ZReplica N} {id : ℕ} {m : Request}

/-- Nothing is executed, numbered or ordered. -/
structure Calm (r r' : ZReplica N) : Prop where
  still : r.core.Still r'.core
  last_seqno : r'.last_seqno = r.last_seqno
  orders : r'.orders = r.orders

theorem Calm.refl (r : ZReplica N) : Calm r r := ⟨.refl _, rfl, rfl⟩

theorem calm_setSeqno (r : ZReplica N) (seqno : ℕ) : Calm r (r.setSeqno seqno) :=
  ⟨⟨rfl, rfl, rfl⟩, rfl, rfl⟩

/-- A request of the last id executed is answered from the table. -/
theorem executeRequest_again (h : (r.core.replies m.rep.cid).rep.rid = m.rep.rid) :
    r.executeRequest id m = ({ r with core := r.core.sendReply id m.rep.cid }, false) := by
  unfold executeRequest
  rw [if_neg (by omega), if_pos h]

/-- An older one is dropped. -/
theorem executeRequest_old (h : m.rep.rid < (r.core.replies m.rep.cid).rep.rid) :
    r.executeRequest id m = (r, false) := by
  unfold executeRequest
  rw [if_pos h]

/-- The own checkpoint executes nothing. -/
theorem calm_takeCheckpoint (r : ZReplica N) (id : ℕ) : Calm r (r.takeCheckpoint id) := by
  have hstart : r.core.Still { r.core with checkpoint_in_progress := true } := ⟨rfl, rfl, rfl⟩
  exact ⟨hstart.trans (IReplica.handleCheckpoint_frame _ id _).still, rfl, rfl⟩

theorem takeCheckpoint_seqno (r : ZReplica N) (id : ℕ) :
    (r.takeCheckpoint id).core.seqno = r.core.seqno :=
  (IReplica.handleCheckpoint_frame { r.core with checkpoint_in_progress := true } id _).seqno

theorem still_sendResult (core : IReplica N.toINode) (id : ℕ) (req : Request) :
    core.Still (sendResult core id req) := by
  unfold sendResult
  dsimp only
  split
  · exact (core.keeps_sendReply id req.rep.cid).still
  · exact ⟨rfl, rfl, rfl⟩

theorem sendResult_seqno (core : IReplica N.toINode) (id : ℕ) (req : Request) :
    (sendResult core id req).seqno = core.seqno := by
  unfold sendResult
  dsimp only
  split
  · exact (core.keeps_sendReply id req.rep.cid).seqno
  · rfl

/-- **A request that is new for its client is executed** under `seqno`,
which becomes the last. -/
theorem executeRequest_new (id : ℕ) (hnew : (r.core.replies m.rep.cid).rep.rid < m.rep.rid) :
    ∃ d, (r.core.execute m r.core.seqno d).Still (r.executeRequest id m).1.core ∧
      (r.executeRequest id m).1.core.seqno = r.core.seqno ∧
      (r.executeRequest id m).1.last_seqno = r.core.seqno ∧
      (r.executeRequest id m).1.orders = r.orders ∧ (r.executeRequest id m).2 = true := by
  unfold executeRequest
  dsimp only
  rw [if_neg (by omega), if_neg (by omega)]
  generalize r.core.rh.addRequest N.md5 (fun q => q.rep.od) m r.core.seqno = log
  refine ⟨log.2, ?_⟩
  have hstill := still_sendResult { r.core.execute m r.core.seqno log.2 with rh := log.1 } id m
  have hseqno := sendResult_seqno { r.core.execute m r.core.seqno log.2 with rh := log.1 } id m
  generalize sendResult { r.core.execute m r.core.seqno log.2 with rh := log.1 } id m = core
    at hstill hseqno ⊢
  have hadd : (r.core.execute m r.core.seqno log.2).Still
      { r.core.execute m r.core.seqno log.2 with rh := log.1 } := ⟨rfl, rfl, rfl⟩
  have hexec := hadd.trans hstill
  split
  · have hcalm := calm_takeCheckpoint ({ r with core := core, last_seqno := core.seqno }) id
    refine ⟨hexec.trans hcalm.still, ?_, ?_, hcalm.orders, rfl⟩
    · rw [takeCheckpoint_seqno]
      exact hseqno
    · rw [hcalm.last_seqno]
      exact hseqno
  · exact ⟨hexec, hseqno, hseqno, rfl, rfl⟩

/-- The primary, on a request that is new for its client. -/
theorem orderNext_new (id : ℕ) (hnew : (r.core.replies m.rep.cid).rep.rid < m.rep.rid) :
    ∃ d, (r.core.execute m (r.core.seqno + 1) d).Still (r.orderNext id m).core ∧
      (r.orderNext id m).core.seqno = r.core.seqno + 1 ∧
      (r.orderNext id m).orders = r.orders ++ [orderRequest N (r.core.seqno + 1) m] := by
  have hcount := calm_setSeqno r (r.core.seqno + 1)
  obtain ⟨d, hstill, hseqno, -, horders, hret⟩ :=
    executeRequest_new id (r := r.setSeqno (r.core.seqno + 1)) hnew
  have hne : (r.core.replies m.rep.cid).rep.rid ≠ m.rep.rid := by omega
  unfold orderNext
  rw [if_neg hne]
  rw [if_pos hret]
  refine ⟨d, (hcount.still.execute m _ d).trans hstill, hseqno, ?_⟩
  rw [horders, hseqno]
  rfl

/-- The primary, on the request it executed last for the client. -/
theorem orderNext_again (h : (r.core.replies m.rep.cid).rep.rid = m.rep.rid) :
    r.orderNext id m = { r with core := r.core.sendReply id m.rep.cid } := by
  unfold orderNext
  rw [if_pos h]
  dsimp only
  rw [executeRequest_again h, if_neg Bool.false_ne_true]

/-- An order request that a replica executes: it verifies, it is next in
order, and its request verifies and is new for its client. -/
structure Takes (id : ℕ) (r : ZReplica N) (o : OrderRequest) : Prop where
  verified : o.verify N id = true
  header : (r.core.replies o.rep.cid).rep.rid ≤ o.rep.req_id
  next : o.rep.seq_num = r.last_seqno + 1
  request : verifyRequest N id o.stored_request = true
  new : (r.core.replies o.stored_request.rep.cid).rep.rid < o.stored_request.rep.rid

variable {o : OrderRequest}

/-- **An order request that is taken.** -/
theorem Takes.handleOrderRequest (h : Takes id r o) :
    ∃ d, (r.core.execute o.stored_request (r.last_seqno + 1) d).Still
        (r.handleOrderRequest id o).core ∧
      (r.handleOrderRequest id o).last_seqno = r.last_seqno + 1 ∧
      (r.handleOrderRequest id o).orders = r.orders := by
  have hcount := calm_setSeqno r (r.last_seqno + 1)
  obtain ⟨d, hstill, -, hlast, horders, -⟩ :=
    executeRequest_new id (r := r.setSeqno (r.last_seqno + 1)) h.new
  unfold ZReplica.handleOrderRequest
  rw [h.verified, h.request, if_neg (by decide), if_pos h.header, if_neg (by simp [h.next]),
    if_neg (by decide)]
  exact ⟨d, (hcount.still.execute _ _ d).trans hstill, hlast, horders⟩

/-- One that is not taken: it is dropped, or its request is, or the client
gets the reply it has already. -/
theorem handleOrderRequest_of_not_takes (h : ¬ Takes id r o) :
    r.handleOrderRequest id o = r ∨
      r.handleOrderRequest id o = r.setSeqno (r.last_seqno + 1) ∨
      r.handleOrderRequest id o = { r.setSeqno (r.last_seqno + 1) with
        core := (r.setSeqno (r.last_seqno + 1)).core.sendReply id o.stored_request.rep.cid } := by
  unfold ZReplica.handleOrderRequest
  split
  · exact Or.inl rfl
  split
  · split
    · exact Or.inl rfl
    split
    · exact Or.inl rfl
    · next hverify hheader hnext hreq =>
      rcases Nat.lt_trichotomy (r.core.replies o.stored_request.rep.cid).rep.rid
        o.stored_request.rep.rid with hlt | heq | hgt
      · exact absurd ⟨by simpa using hverify, hheader, by simpa using hnext,
          by simpa using hreq, hlt⟩ h
      · rw [executeRequest_again (r := r.setSeqno (r.last_seqno + 1)) heq]
        exact Or.inr (Or.inr rfl)
      · rw [executeRequest_old (r := r.setSeqno (r.last_seqno + 1)) hgt]
        exact Or.inr (Or.inl rfl)
  · exact Or.inl rfl

theorem calm_of_not_takes (h : ¬ Takes id r o) : Calm r (r.handleOrderRequest id o) := by
  rcases handleOrderRequest_of_not_takes h with heq | heq | heq <;> rw [heq]
  · exact .refl r
  · exact calm_setSeqno r _
  · have hcount := calm_setSeqno r (r.last_seqno + 1)
    exact ⟨hcount.still.trans (IReplica.keeps_sendReply ..).still, rfl, rfl⟩

/-- A request at a backup executes nothing. -/
theorem calm_handleRequest_backup (hid : id ≠ 0) (r : ZReplica N) (m : Request) :
    Calm r (r.handleRequest id m) := by
  unfold handleRequest
  split
  · exact ⟨(r.core.keeps_notify id _ _).still, rfl, rfl⟩
  · split
    · exact .refl r
    split
    · exact .refl r
    split
    · exact .refl r
    · next core hgate =>
      have hstill := (IReplica.keeps_of_canHandle hgate).still
      dsimp only
      split
      · next hrid =>
        rw [executeRequest_again hrid]
        exact ⟨hstill.trans (core.keeps_sendReply id _).still, rfl, rfl⟩
      · exact ⟨hstill, rfl, rfl⟩
  · exact ⟨⟨rfl, rfl, rfl⟩, rfl, rfl⟩

/-- **A request at the primary** executes nothing, or is the next in
order. -/
theorem handleRequest_primary (r : ZReplica N) (m : Request) :
    (Calm r (r.handleRequest 0 m) ∧ (r.handleRequest 0 m).core.seqno = r.core.seqno) ∨
      (r.core.replies m.rep.cid).rep.rid < m.rep.rid ∧
      ∃ d, (r.core.execute m (r.core.seqno + 1) d).Still (r.handleRequest 0 m).core ∧
        (r.handleRequest 0 m).core.seqno = r.core.seqno + 1 ∧
        (r.handleRequest 0 m).orders = r.orders ++ [orderRequest N (r.core.seqno + 1) m] := by
  unfold handleRequest
  split
  · have hf := r.core.keeps_notify 0 m.rep.cid m.rep.rid
    exact Or.inl ⟨⟨hf.still, rfl, rfl⟩, hf.seqno⟩
  · split
    · exact Or.inl ⟨.refl r, rfl⟩
    split
    · exact Or.inl ⟨.refl r, rfl⟩
    split
    · exact Or.inl ⟨.refl r, rfl⟩
    · next core hgate =>
      have hgate := IReplica.keeps_of_canHandle hgate
      rw [if_pos rfl]
      split
      · next hle =>
        rcases Nat.lt_or_eq_of_le hle with hlt | heq
        · obtain ⟨d, hexec, hnum, horders⟩ := orderNext_new 0 (r := { r with core := core }) hlt
          rw [hgate.seqno] at hexec hnum horders
          rw [hgate.still.replies] at hlt
          exact Or.inr ⟨hlt, d, (hgate.still.execute m _ d).trans hexec, hnum, horders⟩
        · rw [orderNext_again (r := { r with core := core }) heq]
          have hsend := core.keeps_sendReply 0 m.rep.cid
          exact Or.inl ⟨⟨hgate.still.trans hsend.still, rfl, rfl⟩, hsend.seqno.trans hgate.seqno⟩
      · exact Or.inl ⟨⟨hgate.still, rfl, rfl⟩, hgate.seqno⟩
  · exact Or.inl ⟨⟨⟨rfl, rfl, rfl⟩, rfl, rfl⟩, rfl⟩

end ZReplica

section Sample

/-- Four replicas and two clients; the service counts its commands. -/
def sampleNode : ZNode ℕ where
  f := 1
  num_principals := 6
  md5 := fun _ => 0
  M := ReqHistoryLog.sampleModulus
  exec_command := fun s _ _ => (s + 1, [UInt8.ofNat s])
  verify_auth := fun _ _ _ _ => true
  gen_signature := fun _ _ => []
  verify_signature := fun _ _ _ => true
  instance_id := 1
  next_instance_id := 2
  gen_auth := fun _ => []

/-- A request without a command. -/
def sampleRequest (cid : ℤ) (rid : ℕ) : Request :=
  ⟨⟨false, 0, -1, 0, cid, rid, []⟩, List.replicate 40 0⟩

end Sample

end AbstractBFT.ZLight
