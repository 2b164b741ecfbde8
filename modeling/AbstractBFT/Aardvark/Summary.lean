import AbstractBFT.Aardvark.PreparedCert
import AbstractBFT.Aardvark.ViewChange
/-!
# Aardvark — collecting the requests of a new view

`A_NV_info` in full, where `NVInfo` keeps the messages alone: the primary
summarizes the view-changes as they are acknowledged, a backup those its
new-view names once it has all of them, and for each sequence number both
keep what is known of each request proposed for it (`ReqSum`). Positive
proofs come from view-changes, from prepares sent as proofs, and from the own
log (`OpLog`); a request with more than `f` of them whose pre-prepare is
complete is marked in `comp_reqs`.

Once the information is complete the loops of the source run into the
assertion that it is not; here they stop.
-/

namespace AbstractBFT.Aardvark

open Function

/-! ## The own log -/

/-- `oplog`, a `Log<OReq_info>` of `max_out` entries that sequence numbers
share modulo `max_out`. `logged` records what was ever logged for which
sequence number. -/
structure OpLog where
  head : ℕ
  elems : ℕ → OReqInfo
  logged : List (ℕ × Digest)

namespace OpLog

def new (f : ℕ) : OpLog := ⟨1, fun _ => .new f, []⟩

variable (l : OpLog)

/-- `fetch`. -/
def fetch (n : ℕ) : OReqInfo := l.elems (n % maxOut)

/-- `within_range`. -/
def InRange (n : ℕ) : Prop := l.head ≤ n ∧ n < l.head + maxOut
  deriving Decidable

/-- Write the entry of `n`, for the digest `d`. -/
def record (n : ℕ) (d : Digest) (ri : OReqInfo) : OpLog :=
  if l.InRange n then
    { l with elems := update l.elems (n % maxOut) ri, logged := l.logged ++ [(n, d)] }
  else l

/-- `add_complete`. -/
def addComplete (pp : PrePrepare) : OpLog :=
  l.record pp.seqno pp.digest ((l.fetch pp.seqno).addComplete pp)

/-- `add_incomplete`, in view `v`. -/
def addIncomplete (n : ℕ) (v : View) (d : Digest) : OpLog :=
  l.record n d ((l.fetch n).addIncomplete v d)

/-- `truncate`: the entries below the new head are cleared, with the
digests they remember left in place. -/
def truncate (new_head : ℕ) : OpLog :=
  if new_head ≤ l.head then l
  else
    { l with
      head := new_head
      elems := fun k =>
        if l.head + maxOut ≤ new_head ∨
            (List.range' l.head (new_head - l.head)).any fun i => i % maxOut == k then
          (l.elems k).clear
        else l.elems k }

/-- `pre_prepare(n, d)`. -/
def prePrepare (n : ℕ) (d : Digest) : Option PrePrepare :=
  if l.InRange n then (l.fetch n).m.filter fun _ => (l.fetch n).d == d else none

/-- `prepare(n, d)`. -/
def prepare (n : ℕ) (d : Digest) : Bool :=
  decide (l.InRange n) && ((l.fetch n).d == d || (l.fetch n).ods.any fun o => o.1 == d)

end OpLog

/-- `check_digest`. -/
def PrePrepare.checkDigest (N : Node) (m : PrePrepare) : Bool :=
  m.sized && m.rset.all Option.isSome && N.md5 m.batchBytes == m.digest

/-! ## What is known of a request -/

/-- `Req_sum`: a request proposed for a sequence number, with the number of
view-changes that do not contradict it (`n_le`) and that prove it could have
prepared (`n_proofs`), and the positive proofs with a bitmap of who they are
from. -/
structure ReqSum where
  v : View
  d : Digest
  n_le : ℕ
  n_proofs : ℕ
  n_pproofs : ℕ
  r_pproofs : Finset ℕ
  pi : PrePrepareInfo
  id : ℕ

namespace ReqSum

def proof (cur : ReqSum) : ReqSum := { cur with n_proofs := cur.n_proofs + 1 }

/-- A positive proof of replica `k`. -/
def pproof (cur : ReqSum) (k : ℕ) : ReqSum :=
  { cur with n_pproofs := cur.n_pproofs + 1, r_pproofs := insert k cur.r_pproofs }

/-- `get_proofs`. -/
def getProofs (cur : ReqSum) (vc : ViewChange) (i : ℕ) : ReqSum :=
  match vc.proofs i with
  | none => if vc.ls < i ∧ cur.v < 0 then cur.proof else cur
  | some ri =>
    if ri.prepared then
      if cur.v ≤ ri.lv ∧ ri.d = cur.d then cur.proof.pproof vc.id else cur
    else if cur.v ≤ ri.v ∧ ri.d = cur.d then cur.proof.pproof vc.id
    else if cur.v ≤ ri.lv then cur.proof
    else cur

/-- What a view-change that reports `r` for the sequence number adds. -/
def summarize (cur : ReqSum) (vc : ViewChange) (i : ℕ) (r : View × Digest) : ReqSum :=
  if cur.v = r.1 ∧ cur.d = r.2 then
    { cur.proof.pproof vc.id with n_le := cur.n_le + 1 }
  else
    let cur := cur.getProofs vc i
    if r.1 < cur.v then { cur with n_le := cur.n_le + 1 } else cur

/-- The proofs of the first `m` view-changes. -/
def gather (vcs : ℕ → Option ViewChange) (i m : ℕ) (cur : ReqSum) : ReqSum :=
  (List.range m).foldl (fun cur k => ((vcs k).map fun vc => cur.getProofs vc i).getD cur) cur

/-- A new entry for `r`, reported by replica `id`, with the proofs of the
view-changes in `vcs`. -/
def make (N : Node) (vcs : ℕ → Option ViewChange) (i : ℕ) (r : View × Digest) (n_le id : ℕ) :
    ReqSum :=
  gather vcs i N.n ⟨r.1, r.2, n_le, 0, 0, ∅, .empty, id⟩

end ReqSum

/-- `Ckpt_sum`: a checkpoint view-changes report as their last stable one. -/
structure CkptSum where
  n : ℕ
  d : Digest
  n_le : ℕ
  max_seqno : ℤ
  n_proofs : ℕ
  id : ℕ

/-- What can happen to the information about a new view. View-changes and
acknowledgements that waited in `last_vcs` and `vacks` come when they are
moved from there. -/
inductive NvEvent where
  /-- a backup gets the new-view message -/
  | newView (nv : NewView) (auth : Bool)
  /-- the primary starts to collect -/
  | start (w : View)
  | viewChange (vc : ViewChange) (auth : Bool)
  /-- the replica's own view-change -/
  | own (vc : ViewChange)
  /-- replica `id` acknowledges the view-change `vc` -/
  | ack (id : ℕ) (vc : ViewChange) (auth : Bool)
  | prepare (p : Prepare)
  | prePrepare (pp : PrePrepare)
  /-- the big request with digest `rd`, the `k`-th of pre-prepare `n` -/
  | bigRequest (rd : Digest) (n k : ℕ)
  | logComplete (pp : PrePrepare)
  | logIncomplete (n : ℕ) (v : View) (d : Digest)
  | stable (ls : ℕ)
  /-- `clear`: the view is left, or keys were changed -/
  | reset

/-- `A_NV_info`, with the own log and the table of big requests it uses.
`named` is `nv->view_change(i)`, and entries of `reqs` and `comp_reqs` stand
under their sequence number. `heard` records the events. -/
structure NVSummary where
  v : View
  nv : Option NewView
  named : ℕ → Bool
  vcs : ℕ → Option ViewChange
  req_sum : ℕ → Bool
  acks : ℕ → Finset ℕ
  ckpts : List CkptSum
  chosen_ckpt : Option ℕ
  min : ℕ
  max : ℤ
  reqs : ℕ → List ReqSum
  comp_reqs : ℕ → Option ℕ
  n_complete : ℤ
  is_complete : Bool
  log : OpLog
  brt : BigReqTable
  heard : List NvEvent

namespace NVSummary

def init (N : Node) : NVSummary where
  v := 0
  nv := none
  named := fun _ => false
  vcs := fun _ => none
  req_sum := fun _ => false
  acks := fun _ => ∅
  ckpts := []
  chosen_ckpt := none
  min := 0
  max := 0
  reqs := fun _ => []
  comp_reqs := fun _ => none
  n_complete := 0
  is_complete := false
  log := .new N.f
  brt := .empty
  heard := []

variable (N : Node) (s : NVSummary)

/-- `clear`. -/
def clear : NVSummary :=
  { init N with log := s.log, brt := s.brt, heard := s.heard }

/-- Change the `j`-th entry for sequence number `i`. -/
def onReq (i j : ℕ) (f : ReqSum → ReqSum) : NVSummary :=
  { s with reqs := update s.reqs i ((s.reqs i).modify j f) }

/-- A new entry for sequence number `i`. -/
def addReq (i : ℕ) (cur : ReqSum) : NVSummary :=
  { s with reqs := update s.reqs i (s.reqs i ++ [cur]) }

/-- "If we gathered enough information, make the new-view message." -/
def finish : NVSummary :=
  if s.n_complete = s.max - s.min - 1 then { s with is_complete := true } else s

/-! ## Checking a request -/

/-- The missing pre-prepare may be in the own log. -/
def ownPrePrepare (i : ℕ) (cur : ReqSum) : ReqSum × BigReqTable :=
  match (if cur.pi.pp.isNone then s.log.prePrepare i cur.d else none) with
  | some opp =>
    let t := PrePrepareInfo.add s.brt (opp.clone s.v)
    ({ cur with pi := t.1, n_pproofs := N.n }, t.2)
  | none => (cur, s.brt)

/-- "If A_node sent a prepare for this digest in the past, we do not need
more positive proofs." -/
def ownPrepare (i : ℕ) (cur : ReqSum) : ReqSum :=
  if cur.n_pproofs ≤ N.f ∧ s.log.prepare i cur.d then { cur with n_pproofs := N.n } else cur

/-- `check_comp`. -/
def checkComp (i j : ℕ) : NVSummary :=
  match (s.reqs i)[j]? with
  | none => s
  | some cur =>
    if s.comp_reqs i = none ∧ N.f + 1 ≤ cur.n_proofs ∧ N.nf ≤ cur.n_le then
      let t := ownPrePrepare N s i cur
      let cur := ownPrepare N s i t.1
      let s := { s.onReq i j (fun _ => cur) with brt := t.2 }
      if cur.v < 0 ∨ cur.pi.isComplete ∧ N.f < cur.n_pproofs then
        finish { s with
          comp_reqs := update s.comp_reqs i (some j)
          n_complete := s.n_complete + 1 }
      else s
    else s.finish

/-! ## The primary -/

variable (vc : ViewChange)

/-- One round of the inner loop of `summarize_reqs`. -/
def summarizeOld (i : ℕ) (s : NVSummary) (j : ℕ) : NVSummary :=
  if s.is_complete then s
  else checkComp N (s.onReq i j fun cur => cur.summarize vc i (vc.req i)) i j

/-- One round of the outer loop. -/
def summarizeAt (s : NVSummary) (i : ℕ) : NVSummary :=
  let r := vc.req i
  let old := s.reqs i
  let s := (List.range old.length).foldl (summarizeOld N vc i) s
  if s.is_complete ∨ old.any (fun cur => decide (cur.v = r.1 ∧ cur.d = r.2)) then s
  else
    -- "No entry matches this request: add a new one."
    let n_le := old.countP fun cur => decide (cur.v < r.1)
    checkComp N (s.addReq i (.make N (fun k => if s.req_sum k then s.vcs k else none) i r (n_le + 1)
      vc.id)) i old.length

/-- `summarize_reqs`. -/
def summarizeReqs : NVSummary :=
  let lo := Max.max s.min vc.ls + 1
  (List.range' lo (s.max - lo).toNat).foldl (summarizeAt N vc)
    { s with req_sum := update s.req_sum vc.id true }

/-- "Summarize requests for all view-change messages in new-view." -/
def summarizeNamed (k : ℕ) : NVSummary :=
  if s.is_complete ∨ s.named k = false then s
  else ((s.vcs k).map (summarizeReqs N s)).getD s

/-- `choose_ckpt`. -/
def chooseCkpt (index : ℕ) : NVSummary :=
  match s.ckpts[index]? with
  | none => s
  | some cur =>
    match s.chosen_ckpt with
    | none =>
      let s := (List.range N.n).foldl (summarizeNamed N)
        { s with
          chosen_ckpt := some index
          min := cur.n
          max := cur.max_seqno + 1
          reqs := fun _ => []
          comp_reqs := fun _ => none }
      if s.is_complete then s else s.finish
    | some c =>
      if (s.ckpts[c]?.map (·.n)).getD 0 < cur.n then
        -- "Adjust n_complete to account for change of range."
        finish { s with
          n_complete := s.n_complete -
            (List.range' (s.min + 1) (cur.n - s.min)).countP fun i => (s.comp_reqs i).isSome
          chosen_ckpt := some index
          min := cur.n
          max := Min.min (cur.max_seqno + 1) s.max }
      else s.finish

/-- The view-change seen by a known checkpoint. -/
def CkptSum.summarize (cur : CkptSum) (vc : ViewChange) : CkptSum :=
  if cur.n = vc.ls ∧ some cur.d = vc.ckpt vc.ls then
    { cur with
      n_proofs := cur.n_proofs + 1
      n_le := cur.n_le + 1
      max_seqno := Max.max cur.max_seqno vc.maxSeqno }
  else
    let cur := if vc.ckpt cur.n = some cur.d then { cur with n_proofs := cur.n_proofs + 1 } else cur
    if vc.ls < cur.n then
      { cur with n_le := cur.n_le + 1, max_seqno := Max.max cur.max_seqno vc.maxSeqno }
    else cur

/-- Enough view-changes support the checkpoint. -/
def CkptSum.proven (cur : CkptSum) : Bool :=
  decide (N.f + 1 ≤ cur.n_proofs ∧ N.nf ≤ cur.n_le)

/-- One round of the loop of `summarize` over the known checkpoints. -/
def summarizeCkpt (s : NVSummary) (k : ℕ) : NVSummary :=
  let s := { s with ckpts := s.ckpts.modify k fun cur => CkptSum.summarize cur vc }
  if s.ckpts[k]?.any (CkptSum.proven N) then chooseCkpt N s k else s

/-- The last checkpoint of the view-change, if no entry matches it. -/
def newCkpt (s : NVSummary) (old : List CkptSum) : NVSummary :=
  match vc.ckpt vc.ls with
  | none => s
  | some d =>
    if old.any fun cur => decide (cur.n = vc.ls ∧ cur.d = d) then s
    else
      let below := old.filter fun cur => decide (cur.n < vc.ls)
      let ns : CkptSum :=
        { n := vc.ls, d
          n_le := below.length + 1
          max_seqno := (below.map (·.max_seqno)).foldl Max.max vc.maxSeqno
          n_proofs := (List.range N.n).countP fun k =>
            s.named k && (s.vcs k).any fun o => o.ckpt vc.ls == some d
          id := vc.id }
      let s := { s with ckpts := s.ckpts ++ [ns] }
      if CkptSum.proven N ns then chooseCkpt N s (s.ckpts.length - 1) else s

/-- `summarize`. -/
def summarize : NVSummary :=
  let was_chosen := s.chosen_ckpt.isSome
  let old := s.ckpts
  let s := (List.range old.length).foldl (summarizeCkpt N vc) s
  let s := newCkpt N vc s old
  if was_chosen ∧ s.is_complete = false then summarizeReqs N s vc else s

/-- The acknowledgement counts. Only the primary counts any. -/
def countsAck (id : ℕ) (vc : ViewChange) (auth : Bool) : Prop :=
  auth ∧ N.primary s.v = N.id ∧ s.is_complete = false ∧ s.vcs vc.id = some vc ∧
    s.named vc.id = false ∧ id ∉ s.acks vc.id
  deriving Decidable

/-- The acknowledgement is the last one the view-change needs. -/
def lastAck : Prop :=
  (s.acks vc.id).card + 1 = 2 * N.f - 1
  deriving Decidable

/-- `add(A_View_change_ack*)`. -/
def addAck (id : ℕ) (vc : ViewChange) (auth : Bool) : NVSummary :=
  if countsAck N s id vc auth then
    let t := { s with acks := update s.acks vc.id (insert id (s.acks vc.id)) }
    if lastAck N s vc then summarize N { t with named := update t.named vc.id true } vc
    else t
  else s

/-! ## A backup -/

/-- The loop of `check_new_view` over the picked requests. -/
def checkPicked (nv : NewView) (s : NVSummary) : List ℕ → NVSummary
  | [] => s
  | i :: is =>
    match (nv.whichPicked i).bind s.vcs with
    | none => s
    | some vc =>
      if i ≤ vc.ls ∨ countVcs N s.vcs (fun o => decide (¬ o.Answers i)) ≠ 0 then s
      else
        let n_le := countVcs N s.vcs fun o => decide ((o.req i).1 ≤ (vc.req i).1)
        let cur := ReqSum.make N s.vcs i (vc.req i) n_le vc.id
        let s := s.addReq i cur
        if cur.n_proofs < N.f + 1 ∨ cur.n_le < N.nf then s
        else checkPicked nv (checkComp N s i 0) is

/-- `check_new_view`. -/
def checkNewView (nv : NewView) (s : NVSummary) : NVSummary :=
  if checkCkpt N nv s.vcs = some true then
    let s := { s with chosen_ckpt := some 0, min := nv.min }
    if checkMax N nv s.vcs then
      let s := { s with max := nv.max, reqs := fun _ => [], comp_reqs := fun _ => none }
      if nv.min + 1 = nv.max then { s with is_complete := true }
      else checkPicked N nv s (List.range' (nv.min + 1) (nv.max - (nv.min + 1)))
    else s
  else s

/-- `add(A_View_change*)`. -/
def addViewChange (verified : Bool) : NVSummary :=
  if vc.view ≠ s.v ∨ (s.vcs vc.id).isSome ∨ s.is_complete then s
  else
    let t := { s with vcs := update s.vcs vc.id (some vc) }
    if N.primary s.v = N.id then
      if verified = false then s
      else if vc.id = N.id then
        summarize N { t with named := update t.named vc.id true } vc
      else t
    else
      match s.nv with
      | none => s
      | some nv =>
        if nv.viewChange vc.id = some vc ∧ (verified ∨ N.f = 0) then
          if countVcs N t.vcs (fun _ => true) = countVcs N nv.viewChange (fun _ => true) then
            checkNewView N nv t
          else t
        else s

/-! ## What was missing -/

/-- The sequence number is one that something is missing for. -/
def Missing (n : ℕ) : Prop :=
  s.chosen_ckpt.isSome ∧ s.min < n ∧ n < s.max ∧ s.comp_reqs n = none
  deriving Decidable

/-- The first entry for `n` with the digest. -/
def entryFor (n : ℕ) (d : Digest) : Option ℕ :=
  (s.reqs n).findIdx? fun cur => cur.d == d

/-- `add_missing(A_Pre_prepare*)`. -/
def addPrePrepare (pp : PrePrepare) : NVSummary :=
  if s.Missing pp.seqno then
    match s.entryFor pp.seqno pp.digest with
    | none => s
    | some j =>
      if (s.reqs pp.seqno)[j]?.any (fun cur => cur.pi.pp.isNone) ∧ pp.checkDigest N then
        let t := PrePrepareInfo.add s.brt (pp.clone s.v)
        checkComp N { s.onReq pp.seqno j (fun cur => { cur with pi := t.1 }) with brt := t.2 }
          pp.seqno j
      else s
  else s

/-- `add_missing(rd, n, k)`. -/
def addBigRequest (rd : Digest) (n k : ℕ) : NVSummary :=
  if s.Missing n then
    (List.range (s.reqs n).length).foldl (fun s j =>
      if s.is_complete then s
      else checkComp N (s.onReq n j fun cur => { cur with pi := cur.pi.addDigest rd k }) n j) s
  else s

/-- The entry of `add_missing(A_Prepare*)` that the prepare counts for. -/
def countsPrepare (p : Prepare) : Option ℕ :=
  if p.extra ∧ s.Missing p.seqno then
    (s.entryFor p.seqno p.digest).filter fun j => (s.reqs p.seqno)[j]?.any fun cur =>
      decide (cur.n_pproofs ≤ N.f ∧ p.id ∉ cur.r_pproofs)
  else none

/-- `add_missing(A_Prepare*)`, reached by prepares sent as proofs while the
replica has no new view. -/
def addPrepare (p : Prepare) : NVSummary :=
  match countsPrepare N s p with
  | none => s
  | some j => checkComp N (s.onReq p.seqno j fun cur => cur.pproof p.id) p.seqno j

/-! ## Events -/

def handle : NvEvent → NVSummary
  | .newView nv auth =>
    if nv.verify N auth ∧ s.v < nv.view ∧ N.primary nv.view ≠ N.id then
      { s.clear N with v := nv.view, nv := some nv, named := fun k => (nv.viewChange k).isSome }
    else s
  | .start w =>
    if s.v < w ∧ N.primary w = N.id then { s.clear N with v := w } else s
  | .viewChange vc auth => s.addViewChange N vc (vc.verify N auth)
  | .own vc => if vc.id = N.id then s.addViewChange N vc true else s
  | .ack id vc auth => s.addAck N id vc auth
  | .prepare p => s.addPrepare N p
  | .prePrepare pp => s.addPrePrepare N pp
  | .bigRequest rd n k => s.addBigRequest N rd n k
  | .logComplete pp => { s with log := s.log.addComplete pp }
  | .logIncomplete n v d => { s with log := s.log.addIncomplete n v d }
  | .stable ls =>
    let s := { s with log := s.log.truncate (ls + 1), brt := s.brt.markStable ls }
    if 0 < s.v ∧ s.is_complete = false ∧ s.chosen_ckpt.isSome ∧ s.max ≤ (ls : ℤ) ∧
        N.primary s.v ≠ N.id then
      { s with is_complete := true }
    else s
  | .reset => s.clear N

def step (e : NvEvent) : NVSummary :=
  { s with heard := s.heard ++ [e] }.handle N e

end NVSummary

end AbstractBFT.Aardvark
