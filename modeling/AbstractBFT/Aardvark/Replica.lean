import AbstractBFT.Aardvark.PreparedCert
import AbstractBFT.Aardvark.ViewChange
/-!
# Aardvark — the replica

The ordering and view-change part of `A_Replica`: handlers for
pre-prepares, prepares, commits and big requests, key refreshes, stable
checkpoints, and the move to a new view. `plog` and `clog` are indexed by
sequence number, and almost every handler touches one entry of both, so
the model keeps them together in a `Slot`, with the pre-prepares, prepares
and commits this replica ever sent for that sequence number.

What the modelled code does not determine is part of the event: when a
checkpoint becomes stable, when state is fetched or a committed batch
executed, which batch the primary proposes, when a replica leaves its view
(its own timeout or `f+1` view-changes) and when it has the pre-prepares a
new view needs. A replica that fails the assertion on the log space in
`process_new_view` stops there, with what it sent before (`halted`).
-/

namespace AbstractBFT.Aardvark

open Function

/-! ## One sequence number -/

/-- What a replica sends for a sequence number, in a view. -/
inductive Own where
  | prePrepare (v : View) (d : Digest)
  | prepare (v : View) (d : Digest)
  | commit (v : View)
  deriving DecidableEq

/-- `plog.fetch(n)` and `clog.fetch(n)`, and what was sent for `n`. -/
structure Slot where
  pc : PreparedCert
  cc : Certificate Commit
  out : List Own

namespace Slot

def new (f : ℕ) : Slot := ⟨.new f, .new f 0, []⟩

/-- `clear` of both certificates. -/
def clear (σ : Slot) : Slot := { σ with pc := σ.pc.clear, cc := σ.cc.clear }

/-- `mark_stale` of both certificates. -/
def markStale (isPrimary : Bool) (σ : Slot) : Slot :=
  { σ with pc := σ.pc.markStale isPrimary, cc := σ.cc.markStale }

/-- `send_prepare`: "Send prepare to all replicas and log it." What
`add_mine` answers is not looked at; at the primary its assertion fails
after the message is out. -/
def sendPrepare (N : Node) (v : View) (n : ℕ) (σ : Slot) : Slot :=
  if σ.pc.myPrepare.isNone && σ.pc.isPpComplete then
    match σ.pc.prePrepare with
    | some pp =>
      { σ with
        pc := if N.primary v = N.id then σ.pc else σ.pc.addMine ⟨v, n, pp.digest, N.id, false, true⟩
        out := σ.out ++ [.prepare v pp.digest] }
    | none => σ
  else σ

/-- `send_commit`. -/
def sendCommit (N : Node) (v : View) (n : ℕ) (σ : Slot) : Slot :=
  { σ with
    cc := (σ.cc.addMine ⟨v, n, N.id, true⟩).1
    out := σ.out ++ [.commit v] }

/-- `if (pc.is_complete()) send_commit(n)`. -/
def commitIfComplete (N : Node) (v : View) (n : ℕ) (σ : Slot) : Slot :=
  if σ.pc.isComplete then σ.sendCommit N v n else σ

/-- The certificate part of `handle(A_Pre_prepare*)`. -/
def prePrepare (N : Node) (q : ReqQueue) (v : View) (brt : BigReqTable) (m : PrePrepare)
    (σ : Slot) : Slot × BigReqTable :=
  let t := σ.pc.add N q brt m
  if t.2 then
    ((({ σ with pc := t.1.1 } : Slot).sendPrepare N v m.seqno).commitIfComplete N v m.seqno, t.1.2)
  else (σ, brt)

/-- The certificate part of `handle(A_Prepare*)`. -/
def prepare (N : Node) (v : View) (m : Prepare) (σ : Slot) : Slot :=
  let t := σ.pc.addPrepare N m
  let σ' : Slot := { σ with pc := t.1 }
  if t.2 then σ'.commitIfComplete N v m.seqno else σ'

/-- The certificate part of `handle(A_Commit*)`. -/
def commit (N : Node) (m : Commit) (σ : Slot) : Slot :=
  { σ with cc := (σ.cc.add N.n (m.verify N) m).1 }

/-- A big request arrives that pre-prepare `n` waits for, as its `i`-th. -/
def bigRequest (N : Node) (v : View) (n : ℕ) (rd : Digest) (i : ℕ) (σ : Slot) : Slot :=
  (({ σ with pc := σ.pc.addDigest rd i } : Slot).sendPrepare N v n).commitIfComplete N v n

/-- The primary logs and sends a pre-prepare. -/
def propose (v : View) (pp : PrePrepare) (σ : Slot) : Slot :=
  { σ with pc := σ.pc.addMinePrePrepare pp, out := σ.out ++ [.prePrepare v pp.digest] }

/-- One round of the loop in `process_new_view`: the primary logs the
pre-prepare, a backup logs and sends a prepare and adds the pre-prepare. -/
def adopt (N : Node) (v : View) (brt : BigReqTable) (pp : PrePrepare) (σ : Slot) :
    Slot × BigReqTable :=
  if N.primary v = N.id then (σ.propose v pp, brt)
  else
    let t := (σ.pc.addMine ⟨v, pp.seqno, pp.digest, N.id, false, true⟩).addOld brt pp
    ({ σ with pc := t.1, out := σ.out ++ [.prepare v pp.digest] }, t.2)

theorem clear_clear (σ : Slot) : σ.clear.clear = σ.clear := rfl

end Slot

/-! ## The replica -/

/-- `A_Replica`, with the members of its `A_View_info` (`oplog`,
`last_views`, `last_vcs`, `last_nvs`) and the view-change and new-view
messages it sent. -/
structure Replica where
  v : View
  seqno : ℕ
  last_stable : ℕ
  low_bound : ℕ
  last_executed : ℕ
  has_nv_state : Bool
  log : ℕ → Slot
  brt : BigReqTable
  oplog : ℕ → OReqInfo
  last_views : ℕ → View
  last_vcs : ℕ → Option ViewChange
  last_nvs : ℕ → NVInfo
  sentVcs : List ViewChange
  sentNvs : List NewView
  halted : Bool

namespace Replica

def init (N : Node) : Replica where
  v := 0
  seqno := 0
  last_stable := 0
  low_bound := 0
  last_executed := 0
  has_nv_state := true
  log := fun _ => .new N.f
  brt := .empty
  oplog := fun _ => .new N.f
  last_views := fun _ => 0
  last_vcs := fun _ => none
  last_nvs := fun _ => .empty
  sentVcs := []
  sentNvs := []
  halted := false

variable (N : Node) (r : Replica)

/-- `last_nvs[primary(v)]`. -/
def nvInfo : NVInfo := r.last_nvs (N.primary r.v)

/-- `has_new_view`. -/
def hasNewView : Bool :=
  r.v == 0 || r.has_nv_state && (r.nvInfo N).is_complete

/-- `within_range` of the logs, which start behind the last stable
checkpoint. -/
def InLog (n : ℕ) : Prop := r.last_stable < n ∧ n ≤ r.last_stable + maxOut
  deriving Decidable

/-- `in_wv`, for a message for view `w` and sequence number `n`. -/
def InWv (w : View) (n : ℕ) : Prop := r.InLog n ∧ w = r.v
  deriving Decidable

/-- `prepared`. -/
def prepared (n : ℕ) : Option PrePrepare :=
  if (r.log n).pc.isComplete then (r.log n).pc.prePrepare else none

/-- `committed`. -/
def committed (n : ℕ) : Option PrePrepare :=
  if (r.log n).cc.isComplete then r.prepared n else none

/-- Change the entries for one sequence number. -/
def onSlot (n : ℕ) (σ : Slot) : Replica :=
  { r with log := update r.log n σ }

/-- `handle(A_Pre_prepare*)`; `q` is the request queue at that time. -/
def handlePrePrepare (q : ReqQueue) (r : Replica) (m : PrePrepare) : Replica :=
  if r.InWv m.view m.seqno ∧ r.low_bound < m.seqno ∧ r.hasNewView N then
    let t := (r.log m.seqno).prePrepare N q r.v r.brt m
    { r.onSlot m.seqno t.1 with brt := t.2 }
  else r

/-- `handle(A_Prepare*)`. -/
def handlePrepare (m : Prepare) : Replica :=
  if r.InWv m.view m.seqno ∧ r.low_bound < m.seqno ∧ N.primary r.v ≠ m.id ∧ r.hasNewView N then
    r.onSlot m.seqno ((r.log m.seqno).prepare N r.v m)
  else r

/-- `handle(A_Commit*)`. -/
def handleCommit (m : Commit) : Replica :=
  if r.InWv m.view m.seqno ∧ r.low_bound < m.seqno then
    r.onSlot m.seqno ((r.log m.seqno).commit N m)
  else r

/-- `is_pp_correct`, as `check_pcerts` asks it of a waiting pre-prepare. -/
def isPpCorrect (n : ℕ) : Bool :=
  decide (r.InLog n) && (r.log n).pc.prePrepare.any fun pp =>
    (r.log n).pc.pc.vals.any fun val => decide (N.f ≤ val.count) && pp.digest == val.m.digest

/-- A big request for one of the pre-prepares that wait for it. -/
def release (rd : Digest) (r : Replica) (wp : WaitingPp) : Replica :=
  if r.hasNewView N ∧ r.InLog wp.n then
    r.onSlot wp.n ((r.log wp.n).bigRequest N r.v wp.n rd wp.i)
  else r

/-- `A_Big_req_table::add_request`. -/
def addRequest (req : Request) (verified : Bool) : Replica :=
  match r.brt.addRequest Request.rid req verified fun ws =>
      !r.hasNewView N || ws.any fun wp => r.isPpCorrect N wp.n with
  | some (brt', ws) => ws.foldl (release N req.od) { r with brt := brt' }
  | none => r

/-- `vi.mark_stale`. -/
def markStaleVi : Replica :=
  { r with
    last_vcs := fun i =>
      if i = N.id then
        (((r.nvInfo N).markStale N).2.filter fun vc => vc.view == r.v).or (r.last_vcs i)
      else none
    last_views := fun i => if i ≠ N.id ∧ r.v ≤ r.last_views i then r.v else r.last_views i
    last_nvs := fun i => ((r.last_nvs i).markStale N).1 }

/-- The sequence numbers whose certificates `send_new_key` marks stale. -/
def Refreshed (n : ℕ) : Prop :=
  (if r.last_stable < r.last_executed then r.last_executed else r.last_stable) < n ∧
    n ≤ r.last_stable + maxOut
  deriving Decidable

/-- `send_new_key`. -/
def sendNewKey : Replica :=
  { r with
    log := fun n =>
      if r.Refreshed n then (r.log n).markStale (N.primary r.v = N.id) else r.log n }.markStaleVi N

/-- `last_nvs[primary(v)].mark_stable`: a new view whose requests are all
below a stable checkpoint is complete. -/
def trimNewView : Replica :=
  let n := r.nvInfo N
  if 0 < n.v ∧ n.is_complete = false ∧ n.chosen ∧ n.max ≤ r.last_stable ∧ N.primary n.v ≠ N.id then
    { r with
      last_nvs := update r.last_nvs (N.primary r.v) { n with is_complete := true }
      seqno := r.last_stable - 1
      low_bound := r.last_stable
      has_nv_state := decide (r.last_stable ≤ r.last_executed) }
  else r

/-- `mark_stable`. -/
def markStable (n : ℕ) (have_state : Bool) : Replica :=
  if n ≤ r.last_stable then r
  else
    { r with
      last_stable := n
      low_bound := max n r.low_bound
      last_executed := if have_state then max n r.last_executed else r.last_executed
      seqno := max n r.seqno
      log := fun k => if k ≤ n then (r.log k).clear else r.log k
      oplog := fun k => if k ≤ n then (r.oplog k).clear else r.oplog k
      brt := r.brt.markStable n }.trimNewView N

/-- `new_state`. -/
def newState (c : ℕ) : Replica :=
  let r := if (r.nvInfo N).is_complete ∧ r.low_bound ≤ c then { r with has_nv_state := true } else r
  let r :=
    if r.last_executed < c then
      let r := { r with last_executed := c }
      if r.last_stable + maxOut < c then r.markStable N (c - maxOut) false else r
    else r
  { r with seqno := max c r.seqno }

/-- One round of the loop in `execute_committed`. -/
def executeCommitted : Replica :=
  if r.hasNewView N ∧ r.last_stable ≤ r.last_executed ∧ r.last_executed < r.last_stable + maxOut ∧
      (r.committed (r.last_executed + 1)).any fun pp => pp.view == r.v then
    { r with last_executed := r.last_executed + 1 }
  else r

/-- `congestion_window`. -/
def congestionWindow : ℕ := 1

/-- `A_Pre_prepare(v, s, reqs)`; a null request has no choices. -/
def batch (v : View) (s : ℕ) (small big : List Request) (nd : List UInt8) : PrePrepare :=
  let nd := if small.isEmpty && big.isEmpty then [] else nd
  let pp : PrePrepare := ⟨v, s, 0, small.map some, big.map (·.od), nd, true, true⟩
  { pp with digest := N.md5 pp.batchBytes }

/-- `send_pre_prepare`, with the requests taken from the queue and the
choices made for them. (`send_null` sends an empty batch in a subset of
these states.) `plog.fetch` asserts that the number is in the log before
anything is sent. -/
def sendPrePrepare (small big : List Request) (nd : List UInt8) : Replica :=
  if r.hasNewView N ∧ N.primary r.v = N.id ∧ r.seqno + 1 ≤ r.last_executed + congestionWindow ∧
      r.InLog (r.seqno + 1) then
    let s := r.seqno + 1
    { r.onSlot s ((r.log s).propose r.v (batch N r.v s small big nd)) with
      seqno := s
      brt := big.foldl (fun brt req => brt.addOwn req s r.v) r.brt }
  else r

/-! ### View changes -/

/-- What `send_view_change` logs of a certificate it is about to clear. -/
def logged (v : View) (ri : OReqInfo) (cert : PreparedCert) : OReqInfo :=
  match cert.isComplete, cert.prePrepare with
  | true, some pp => ri.addComplete pp
  | _, _ =>
    match cert.myPrepare with
    | some p => ri.addIncomplete v p.digest
    | none =>
      match cert.myPrePrepare with
      | some pp => ri.addIncomplete v pp.digest
      | none => ri

/-- `vi.view_change`, after the log of the old view is written: the
view-change message, and at the new primary an empty new view. -/
def viewChange (w : View) (ckpts : List Digest) : Replica :=
  let vc := ViewChange.make w r.last_stable N.id ckpts r.oplog
  let last_vcs := update
    (fun i => (r.last_vcs i).filter fun vc => !decide (vc.view < w)) N.id (some vc)
  let last_nvs := fun i => if (r.last_nvs i).v < w then NVInfo.empty else r.last_nvs i
  let brt := (List.range' (r.last_stable + 1) maxOut).foldl (fun brt i =>
    match (r.oplog i).m with
    | some pp => pp.big_reqs.zipIdx.foldl (fun brt rd => (brt.addPrePrepare rd.1 rd.2 i w).1) brt
    | none => brt) r.brt
  let r := { r with
    v := w
    brt := brt.viewChange w
    sentVcs := r.sentVcs ++ [vc]
    last_views := update r.last_views N.id w
    last_vcs, last_nvs }
  if N.primary w = N.id then
    { r with
      last_nvs := update r.last_nvs N.id
        { NVInfo.empty with v := w, vcs := fun i => (last_vcs i).filter fun vc => vc.view == w }
      last_vcs := fun i => (last_vcs i).filter fun vc => !(vc.view == w) }
  else r

/-- The logs when a view is left; `rc` is the checkpoint a tentative
execution was rolled back to. The loop over the window reaches every entry
of the logs. -/
def closeView (rc : Option ℕ) : Replica :=
  { r with
    last_executed := rc.getD r.last_executed
    oplog := fun i => logged r.v (r.oplog i) (r.log i).pc
    log := fun i => (r.log i).clear }

/-- `send_view_change`, moving to view `w`. -/
def sendViewChange (w : View) (rc : Option ℕ) (ckpts : List Digest) : Replica :=
  if w ≤ r.v then r else (r.closeView rc).viewChange N w ckpts

/-- `vi.add(A_View_change*)`. -/
def handleViewChange (vc : ViewChange) (auth : Bool) : Replica :=
  if vc.view < r.v then r
  else
    let verified := vc.verify N auth
    let p := N.primary vc.view
    if (r.last_nvs p).v = vc.view then
      { r with
        last_nvs := update r.last_nvs p ((r.last_nvs p).addViewChange N vc verified).1
        last_views :=
          if verified ∧ r.last_views vc.id < vc.view then update r.last_views vc.id vc.view
          else r.last_views }
    else if r.last_views vc.id < vc.view ∧ verified then
      { r with
        last_vcs := update r.last_vcs vc.id (some vc)
        last_views := update r.last_views vc.id vc.view }
    else r

/-- Move the waiting view-change of replica `i` to the new view it is for. -/
def matchVc (w : View) (s : NVInfo × (ℕ → Option ViewChange)) (i : ℕ) :
    NVInfo × (ℕ → Option ViewChange) :=
  match s.2 i with
  | some vc =>
    if vc.view = w then
      let t := s.1.addViewChange N vc true
      (t.1, if t.2 then update s.2 i none else s.2)
    else s
  | none => s

/-- `vi.add(A_New_view*)`. -/
def handleNewView (nv : NewView) (auth : Bool) : Replica :=
  let p := N.primary nv.view
  if r.v ≤ nv.view ∧ nv.verify N auth ∧ (r.last_nvs p).v < nv.view then
    let t := (List.range N.n).foldl (matchVc N nv.view)
      (((r.last_nvs p).addNewView nv).1, r.last_vcs)
    { r with last_nvs := update r.last_nvs p t.1, last_vcs := t.2 }
  else r

/-- One round of the loop in `process_new_view`; the pre-prepare has the
digest `d` and whatever requests this replica got for it. -/
def adopt (d : ℕ → Digest) (pps : ℕ → PrePrepare) (r : Replica) (i : ℕ) : Replica :=
  let pp := { pps i with view := r.v, seqno := i, digest := d i }
  let t := (r.log i).adopt N r.v r.brt pp
  { r.onSlot i t.1 with brt := t.2 }

/-- `process_new_view`. -/
def processNewView (min max ms : ℕ) (d : ℕ → Digest) (pps : ℕ → PrePrepare) : Replica :=
  let min := Max.max min r.last_stable
  let r := { r with seqno := max - 1, low_bound := min }
  let r := r.markStable N ms (ms ≤ r.last_executed)
  if max ≤ r.last_stable + maxOut + 1 then
    let r := (List.range' (min + 1) (max - (min + 1))).foldl (adopt N d pps) r
    { r with has_nv_state := decide (min ≤ r.last_executed) }
  else { r with halted := true }

/-- A backup has everything the new view it accepted needs; `ms` is what
`known_stable` says, at most the checkpoint the view starts from. -/
def installNewView (ms : ℕ) (pps : ℕ → PrePrepare) : Replica :=
  let n := r.nvInfo N
  match n.nv with
  | some nv =>
    if N.primary r.v ≠ N.id ∧ 0 < r.v ∧ n.v = r.v ∧ n.accepted ∧ n.is_complete = false ∧
        ms ≤ nv.min then
      { r with last_nvs := update r.last_nvs (N.primary r.v) { n with is_complete := true }
        }.processNewView N nv.min nv.max ms (nv.fetchDigest N.md5 n.vcs) pps
    else r
  | none => r

/-- `make_new_view`: the primary has enough for the new view `nv`. -/
def makeNewView (nv : NewView) (ms : ℕ) (pps : ℕ → PrePrepare) : Replica :=
  let n := r.nvInfo N
  if N.primary r.v = N.id ∧ 0 < r.v ∧ n.v = r.v ∧ n.is_complete = false ∧ nv.view = r.v ∧
      ms ≤ nv.min then
    { r with
      last_nvs := update r.last_nvs (N.primary r.v)
        { n with nv := some nv, is_complete := true }
      sentNvs := r.sentNvs ++ [nv]
      }.processNewView N nv.min nv.max ms (nv.fetchDigest N.md5 nv.viewChange) pps
  else r

end Replica

/-! ## Events -/

/-- What can happen at a replica. -/
inductive Event where
  | prePrepare (q : ReqQueue) (m : PrePrepare)
  | prepare (m : Prepare)
  | commit (m : Commit)
  | request (req : Request) (verified : Bool)
  | newKey
  | stable (n : ℕ) (have_state : Bool)
  | newState (c : ℕ)
  | execute
  | propose (small big : List Request) (nd : List UInt8)
  | leave (w : View) (rc : Option ℕ) (ckpts : List Digest)
  | viewChange (vc : ViewChange) (auth : Bool)
  | newView (nv : NewView) (auth : Bool)
  | install (ms : ℕ) (pps : ℕ → PrePrepare)
  | make (nv : NewView) (ms : ℕ) (pps : ℕ → PrePrepare)

def Replica.handle (N : Node) (r : Replica) : Event → Replica
  | .prePrepare q m => r.handlePrePrepare N q m
  | .prepare m => r.handlePrepare N m
  | .commit m => r.handleCommit N m
  | .request req verified => r.addRequest N req verified
  | .newKey => r.sendNewKey N
  | .stable n have_state => r.markStable N n have_state
  | .newState c => r.newState N c
  | .execute => r.executeCommitted N
  | .propose small big nd => r.sendPrePrepare N small big nd
  | .leave w rc ckpts => r.sendViewChange N w rc ckpts
  | .viewChange vc auth => r.handleViewChange N vc auth
  | .newView nv auth => r.handleNewView N nv auth
  | .install ms pps => r.installNewView N ms pps
  | .make nv ms pps => r.makeNewView N nv ms pps

def Replica.step (N : Node) (r : Replica) (e : Event) : Replica :=
  if r.halted then r else r.handle N e

end AbstractBFT.Aardvark
