import AbstractBFT.Aardvark.PrePrepare
import Mathlib.Data.Finset.Card
import Mathlib.Data.Finset.Range
import Mathlib.Logic.Function.Basic
/-!
# Aardvark — view-change and new-view messages

A replica that leaves a view reports, for every sequence number of its
window, the last batch it prepared or sent a prepare for (`OReqInfo`, kept
across views). The new primary picks from `2f+1` such reports what is to be
propagated, and a backup repeats the check (`checkNewView`) on the
view-changes the new-view message names. Where the source would use a null
pointer or fail an assertion the check is `none`. A new-view names
view-changes by their MD5 digest; here it names them by their contents,
which is the same where MD5 does not collide on them (`NamesApart`,
`viewChange_eq_some_iff`).
-/

namespace AbstractBFT.Aardvark

open Function List

/-! ## The log of earlier views -/

/-- `OReq_info`: the view and digest of the last batch that prepared (then
`m` is its pre-prepare) or was sent for a sequence number, the view `lv` as
the source explains it, and the last `f+2` other digests. -/
structure OReqInfo where
  lv : View
  v : View
  d : Digest
  m : Option PrePrepare
  ods : List (Digest × View)

namespace OReqInfo

/-- `OReq_info()`. -/
def new (f : ℕ) : OReqInfo := ⟨-1, -1, 0, none, List.replicate (f + 2) (0, -1)⟩

/-- `clear`. -/
def clear (ri : OReqInfo) : OReqInfo :=
  ⟨-1, -1, 0, none, ri.ods.map fun o => (o.1, -1)⟩

/-- `add_complete`. -/
def addComplete (ri : OReqInfo) (pp : PrePrepare) : OReqInfo :=
  { ri.clear with v := pp.view, lv := pp.view, d := pp.digest, m := some pp }

/-- The index of the first entry with the smallest view. -/
def oldest (ods : List (Digest × View)) : ℕ :=
  (ods.findIdx? fun o => ods.all fun o' => decide (o.2 ≤ o'.2)).getD 0

/-- "Remember last f()+2 digests." The entry of the digest is refreshed, or
the one with the smallest view is overwritten. -/
def remember (ods : List (Digest × View)) (d : Digest) (lv : View) : List (Digest × View) :=
  match ods.findIdx? fun o => o.1 == d with
  | some i => ods.set i (d, lv)
  | none => ods.set (oldest ods) (d, lv)

/-- `add_incomplete`, in view `v`. -/
def addIncomplete (ri : OReqInfo) (v : View) (d : Digest) : OReqInfo :=
  if ri.d = d then if ri.m.isSome then { ri with lv := v } else { ri with v := v }
  else
    let lv := if ri.m.isSome then ri.lv else ri.v
    { lv := lv, v := v, d := d, m := none, ods := remember ri.ods ri.d lv }

theorem clear_clear (ri : OReqInfo) : ri.clear.clear = ri.clear := by
  simp [clear, comp_def]

end OReqInfo

/-! ## View-change messages -/

/-- `Req_info`, with its bit of `prepared`. -/
structure ReqInfo where
  lv : View
  v : View
  d : Digest
  prepared : Bool
  deriving DecidableEq

/-- What `add_request` writes for a sequence number it skips. -/
def ReqInfo.null : ReqInfo := ⟨-1, -1, 0, false⟩

/-- `A_View_change`; a digest that `is_zero` stands for a missing
checkpoint. -/
structure ViewChange where
  view : View
  ls : ℕ
  id : ℕ
  ckpts : List Digest
  reqs : List ReqInfo
  deriving DecidableEq

namespace ViewChange

variable (vc : ViewChange) (n : ℕ)

/-- `max_seqno`, which wraps at 64 bits. -/
def maxSeqno : ℤ := Int.bmod (vc.ls + vc.reqs.length : ℕ) (2 ^ 64)

/-- The index of sequence number `n` in `req_info`, an `int`. -/
def index : ℤ := Int.bmod ((n : ℤ) - vc.ls - 1) (2 ^ 32)

/-- The index of the checkpoint at `n`, an `int`. -/
def ckptIndex : ℤ :=
  Int.bmod (((n : ℤ) - vc.ls) / checkpointInterval) (2 ^ 32)

/-- `add_request`. -/
def addRequest (ri : ReqInfo) : ViewChange :=
  let index := n - vc.ls - 1
  { vc with
    reqs :=
      if index < vc.reqs.length then vc.reqs.set index ri
      else vc.reqs ++ List.replicate (index - vc.reqs.length) .null ++ [ri] }

/-- `ckpt` would read in front of `ckpts`: only the upper end of the index
is tested. -/
def OutOfBounds : Prop :=
  n % checkpointInterval = 0 ∧ vc.ls ≤ n ∧ vc.ckptIndex n < 0
  deriving Decidable

/-- `ckpt`, where it is in bounds. -/
def ckpt : Option Digest :=
  if n % checkpointInterval = 0 ∧ vc.ls ≤ n ∧ 0 ≤ vc.ckptIndex n then
    vc.ckpts[(vc.ckptIndex n).toNat]?.filter fun d => !digestIsZero d
  else none

/-- The entry of `req_info` for sequence number `n`. -/
def entry : Option ReqInfo :=
  if vc.index n < 0 then none else vc.reqs[(vc.index n).toNat]?

/-- `proofs`. -/
def proofs : Option ReqInfo :=
  (vc.entry n).filter fun ri => decide (0 ≤ ri.v)

/-- `req` asserts that `n` is above the last stable checkpoint, and `test`
that the index is not negative. -/
def Answers : Prop := vc.ls < n ∧ 0 ≤ vc.index n
  deriving Decidable

/-- `req`, where its assertions hold: the view and digest the message
reports prepared for `n`, and `-1` and the zero digest if there is none. -/
def req : View × Digest :=
  match vc.entry n with
  | some ri => if ri.prepared then (ri.v, ri.d) else (-1, 0)
  | none => (-1, 0)

/-- `verify`; `auth` says that the authenticator verifies at this replica. -/
def verify (N : Node) (vc : ViewChange) (auth : Bool) : Bool :=
  decide (vc.id < N.n ∧ vc.reqs.length ≤ maxOut ∧ 0 < vc.view) &&
    decide (vc.ckpts.length ≤ maxOut / checkpointInterval + 1) &&
    vc.ckpts.getLast?.all (fun d => !digestIsZero d) && decide (vc.ls % checkpointInterval = 0) &&
    vc.reqs.all (fun ri => decide (ri.lv < vc.view ∧ ri.v < vc.view)) && N.verifyAuth vc.id auth

/-- What is reported of a logged request. -/
def info (ri : OReqInfo) : ReqInfo := ⟨ri.lv, ri.v, ri.d, ri.m.isSome⟩

/-- Add the request logged for sequence number `n`. "Null requests are not
added to message." -/
def report (oplog : ℕ → OReqInfo) (vc : ViewChange) (n : ℕ) : ViewChange :=
  if 0 ≤ (oplog n).v then vc.addRequest n (info (oplog n)) else vc

/-- The view-change message for view `w`: every logged request of the
window is added. -/
def make (w : View) (ls id : ℕ) (ckpts : List Digest) (oplog : ℕ → OReqInfo) : ViewChange :=
  (List.range' (ls + 1) maxOut).foldl (report oplog) ⟨w, ls, id, ckpts, []⟩

variable {vc : ViewChange} {w : View} {ls id : ℕ} {ckpts : List Digest} {oplog : ℕ → OReqInfo}

theorem verify_sound {N : Node} {auth : Bool} (h : vc.verify N auth) :
    vc.id < N.n ∧ vc.id ≠ N.id ∧ auth ∧ ∀ ri ∈ vc.reqs, ri.v < vc.view := by
  simp only [verify, Bool.and_eq_true, decide_eq_true_eq, all_eq_true] at h
  have hauth := Node.verifyAuth_iff.1 h.2
  exact ⟨h.1.1.1.1.1.1, hauth.1, hauth.2, fun ri hri => (h.1.2 ri hri).2⟩

theorem mem_of_entry {n : ℕ} {ri : ReqInfo} (h : vc.entry n = some ri) : ri ∈ vc.reqs := by
  rw [entry] at h
  split at h
  · cases h
  · exact mem_of_getElem? h

/-- No reported view reaches the one the message asks for. -/
theorem req_lt_view (h : ∀ ri ∈ vc.reqs, ri.v < vc.view) (hpos : 0 ≤ vc.view) (n : ℕ) :
    (vc.req n).1 < vc.view := by
  rw [req]
  split
  · next ri hri =>
    split
    · exact h ri (mem_of_entry hri)
    · exact lt_of_lt_of_le (by decide) hpos
  · exact lt_of_lt_of_le (by decide) hpos

/-- What a correct replica's message says of the first `k` sequence numbers
of its window. -/
theorem foldl_report (w : View) (ls id : ℕ) (ckpts : List Digest) (oplog : ℕ → OReqInfo) (k : ℕ) :
    let vc := (List.range' (ls + 1) k).foldl (report oplog) (⟨w, ls, id, ckpts, []⟩ : ViewChange)
    vc.view = w ∧ vc.ls = ls ∧ vc.id = id ∧ vc.reqs.length ≤ k ∧
      ∀ j < k, 0 ≤ (oplog (ls + 1 + j)).v → vc.reqs[j]? = some (info (oplog (ls + 1 + j))) := by
  induction k with
  | zero => simp
  | succ k ih =>
    rw [List.range'_concat, Nat.one_mul, foldl_append, foldl_cons, foldl_nil]
    generalize (List.range' (ls + 1) k).foldl (report oplog)
      (⟨w, ls, id, ckpts, []⟩ : ViewChange) = vc at ih ⊢
    obtain ⟨hview, hls, hid, hlen, hreqs⟩ := ih
    dsimp only [report]
    split
    · next hv =>
      -- sequence numbers come in order, so the new entry goes behind the others
      have hindex : ls + 1 + k - vc.ls - 1 = k := by omega
      simp only [addRequest, hindex, Nat.not_lt.2 hlen, if_false]
      refine ⟨hview, hls, hid, by simp; omega, fun j hj hvj => ?_⟩
      rcases Nat.lt_succ_iff_lt_or_eq.1 hj with hlt | rfl
      · have hold := hreqs j hlt hvj
        have hjlen := (List.getElem?_eq_some_iff.1 hold).1
        rw [getElem?_append_left (by simp; omega), getElem?_append_left hjlen]
        exact hold
      · rw [getElem?_append_right (by simp; omega)]
        have hzero :
            j - (vc.reqs ++ List.replicate (j - vc.reqs.length) ReqInfo.null).length = 0 := by
          simp
          omega
        rw [hzero]
        rfl
    · next hv =>
      refine ⟨hview, hls, hid, by omega, fun j hj hvj => ?_⟩
      rcases Nat.lt_succ_iff_lt_or_eq.1 hj with hlt | rfl
      · exact hreqs j hlt hvj
      · exact absurd hvj hv

@[simp] theorem view_make (w : View) (ls id : ℕ) (ckpts : List Digest) (oplog : ℕ → OReqInfo) :
    (make w ls id ckpts oplog).view = w := (foldl_report w ls id ckpts oplog maxOut).1

@[simp] theorem ls_make (w : View) (ls id : ℕ) (ckpts : List Digest) (oplog : ℕ → OReqInfo) :
    (make w ls id ckpts oplog).ls = ls := (foldl_report w ls id ckpts oplog maxOut).2.1

@[simp] theorem id_make (w : View) (ls id : ℕ) (ckpts : List Digest) (oplog : ℕ → OReqInfo) :
    (make w ls id ckpts oplog).id = id := (foldl_report w ls id ckpts oplog maxOut).2.2.1

/-- A message reports no view that the log does not have. -/
theorem v_lt_of_mem_make (hw : 0 ≤ w) (hlog : ∀ n, (oplog n).v < w) :
    ∀ ri ∈ (make w ls id ckpts oplog).reqs, ri.v < w := by
  have hfold : ∀ (l : List ℕ) (vc : ViewChange), (∀ ri ∈ vc.reqs, ri.v < w) →
      ∀ ri ∈ (l.foldl (report oplog) vc).reqs, ri.v < w := by
    intro l
    induction l with
    | nil => exact fun _ h => h
    | cons n l ih =>
      intro vc h
      refine ih _ fun ri hri => ?_
      rw [report] at hri
      split at hri
      case isFalse => exact h ri hri
      case isTrue =>
        dsimp only [addRequest] at hri
        split at hri
        · rcases mem_or_eq_of_mem_set hri with hold | rfl
          · exact h ri hold
          · exact hlog n
        · rw [mem_append, mem_append, mem_singleton] at hri
          rcases hri with (hold | hnull) | rfl
          · exact h ri hold
          · rw [eq_of_mem_replicate hnull]
            exact lt_of_lt_of_le (by decide) hw
          · exact hlog n
  exact hfold _ _ nofun

theorem maxSeqno_eq (h : vc.ls + vc.reqs.length < 2 ^ 63) :
    vc.maxSeqno = vc.ls + vc.reqs.length := by
  unfold maxSeqno
  rw [Int.bmod_eq_of_le_mul_two]
  · exact Nat.cast_add ..
  · omega
  · omega

/-- Within the window of the message the index does not wrap. -/
theorem entry_eq {n : ℕ} (hlo : vc.ls < n) (hhi : n ≤ vc.ls + maxOut) :
    vc.entry n = vc.reqs[n - vc.ls - 1]? := by
  have hindex : vc.index n = (n - vc.ls - 1 : ℕ) := by
    rw [maxOut] at hhi
    rw [index, Int.bmod_def]
    omega
  rw [entry, if_neg (by omega), hindex, Int.toNat_natCast]

/-- **A logged prepared batch is reported**: its view and digest, within
the range the message covers. -/
theorem req_make {s : ℕ} (hlo : ls < s) (hhi : s ≤ ls + maxOut) (hv : 0 ≤ (oplog s).v)
    (hm : (oplog s).m.isSome) :
    (make w ls id ckpts oplog).req s = ((oplog s).v, (oplog s).d) ∧
      s ≤ (make w ls id ckpts oplog).ls + (make w ls id ckpts oplog).reqs.length := by
  obtain ⟨-, hls, -, -, hreqs⟩ := foldl_report w ls id ckpts oplog maxOut
  change (make w ls id ckpts oplog).ls = ls at hls
  have hs : ls + 1 + (s - ls - 1) = s := by omega
  have hget : (make w ls id ckpts oplog).reqs[s - ls - 1]? = some (info (oplog s)) := by
    have h := hreqs (s - ls - 1) (by omega)
    rw [hs] at h
    exact h hv
  have hentry : (make w ls id ckpts oplog).entry s = some (info (oplog s)) := by
    rw [entry_eq (by omega) (by omega), hls, hget]
  refine ⟨by rw [req, hentry]; simp [info, hm], ?_⟩
  have hlt := (List.getElem?_eq_some_iff.1 hget).1
  omega

end ViewChange

/-! ## New-view messages -/

/-- `A_New_view`: the view-changes it names, by replica, and for each
sequence number from `min` on the replica whose report is picked. -/
structure NewView where
  view : View
  min : ℕ
  max : ℕ
  vcs : List (Option ViewChange)
  picked : List ℕ
  deriving DecidableEq

namespace NewView

/-- `view_change(id, d)`. -/
def viewChange (nv : NewView) (id : ℕ) : Option ViewChange := nv.vcs[id]?.join

/-- `which_picked`; `none` where its assertion fails. -/
def whichPicked (nv : NewView) (n : ℕ) : Option ℕ :=
  if nv.min ≤ n ∧ n < nv.max then nv.picked[n - nv.min]? else none

/-- MD5 does not collide on these view-changes. -/
def NamesApart (digest : ViewChange → Digest) (V : Set ViewChange) : Prop := Set.InjOn digest V

/-- **Naming a view-change by its contents is naming it by its digest**, as
the message does, where MD5 does not collide. -/
theorem viewChange_eq_some_iff {digest : ViewChange → Digest} {V : Set ViewChange}
    (h : NamesApart digest V) {nv : NewView} {vc : ViewChange} (hvc : vc ∈ V)
    (hnv : ∀ vc', nv.viewChange vc.id = some vc' → vc' ∈ V) :
    nv.viewChange vc.id = some vc ↔ (nv.viewChange vc.id).map digest = some (digest vc) := by
  refine ⟨fun heq => by rw [heq]; rfl, fun heq => ?_⟩
  obtain ⟨vc', hvc', hd⟩ := Option.map_eq_some_iff.1 heq
  rw [hvc', h (hnv vc' hvc') hvc hd]

/-- `verify`. -/
def verify (N : Node) (nv : NewView) (auth : Bool) : Bool :=
  decide (0 < nv.view ∧ nv.min ≤ nv.max ∧ nv.max - nv.min ≤ maxOut + 1) &&
    (List.range (nv.max - nv.min)).all (fun k =>
      nv.picked[k]?.any fun vci => decide (vci < N.n) && (nv.viewChange vci).isSome) &&
    N.verifyAuth (N.primary nv.view) auth

theorem verify_sound {N : Node} {nv : NewView} {auth : Bool} (h : nv.verify N auth) :
    0 < nv.view ∧ N.primary nv.view ≠ N.id ∧ auth := by
  simp only [verify, Bool.and_eq_true, decide_eq_true_eq] at h
  exact ⟨h.1.1.1, Node.verifyAuth_iff.1 h.2⟩

/-- `vcs[which_picked(n)].vc->req(n)`, what a new view selects for `n`. -/
def pick (nv : NewView) (vcs : ℕ → Option ViewChange) (n : ℕ) : Option (View × Digest) :=
  ((nv.whichPicked n).bind vcs).map (·.req n)

/-- The digest `fetch_request` returns: the selected one, or that of the
empty batch for a null request. -/
def fetchDigest (md5 : Md5) (nv : NewView) (vcs : ℕ → Option ViewChange) (n : ℕ) : Digest :=
  match nv.pick vcs n with
  | some (pv, d) => if 0 ≤ pv ∧ d ≠ 0 then d else md5 []
  | none => md5 []

end NewView

/-! ## Checking a new view -/

section Check

variable (N : Node) (nv : NewView) (vcs : ℕ → Option ViewChange)

/-- The number of view-changes at hand that satisfy `p`. -/
def countVcs (p : ViewChange → Bool) : ℕ := (List.range N.n).countP fun j => (vcs j).any p

/-- `get_proofs`: does the view-change count as a proof of the summary
`cur` for `n`? -/
def getProofs (cur : View × Digest) (n : ℕ) (vc : ViewChange) : Bool :=
  match vc.proofs n with
  | none => decide (vc.ls < n ∧ cur.1 < 0)
  | some ri =>
    if ri.prepared then decide (cur.1 ≤ ri.lv ∧ ri.d = cur.2)
    else decide (cur.1 ≤ ri.v ∧ ri.d = cur.2 ∨ cur.1 ≤ ri.lv)

/-- The checkpoint the new view starts from: its replica reports it as its
last stable one, `f+1` view-changes have it and `2f+1` none above it. -/
def checkCkpt : Option Bool := do
  let cid ← nv.whichPicked nv.min
  let vc ← vcs cid
  if vc.ls ≠ nv.min then return false
  match vc.ckpt vc.ls with
  | none => return false
  | some d =>
    let others : ℕ → Option ViewChange := update vcs cid none
    if countVcs N others (fun o => decide (o.OutOfBounds vc.ls)) ≠ 0 then none
    let n_proofs := 1 + countVcs N others fun o => o.ckpt vc.ls == some d
    let n_le := 1 + countVcs N others fun o => decide (o.ls ≤ vc.ls)
    return decide (N.f + 1 ≤ n_proofs ∧ N.nf ≤ n_le)

/-- The upper end: "this value is correct if there exist 2f+1 view change
messages that do not propose any pre-prepared or prepared request with
sequence number greater than or equal to nv->max()". -/
def checkMax : Bool := decide (N.nf ≤ countVcs N vcs fun vc => decide (vc.maxSeqno < nv.max))

/-- The request picked for `n`. `req` is called for all view-changes, with
a test of the last stable checkpoint for the picked one only. -/
def checkRequest (n : ℕ) : Option Bool := do
  let vci ← nv.whichPicked n
  let vc ← vcs vci
  if n ≤ vc.ls then return false
  let cur := vc.req n
  if countVcs N vcs (fun o => decide (¬ o.Answers n)) ≠ 0 then none
  let n_proofs := countVcs N vcs (getProofs cur n)
  let n_le := countVcs N vcs fun o => decide ((o.req n).1 ≤ cur.1)
  return decide (N.f + 1 ≤ n_proofs ∧ N.nf ≤ n_le)

/-- The loop of `check_new_view` over the picked requests. -/
def checkRequests : List ℕ → Option Bool
  | [] => some true
  | n :: ns => do
    let ok ← checkRequest N nv vcs n
    if ok then checkRequests ns else return false

/-- `check_new_view`. -/
def checkNewView : Option Bool := do
  let ok ← checkCkpt N nv vcs
  if !ok || !checkMax N nv vcs then return false
  checkRequests N nv vcs (List.range' (nv.min + 1) (nv.max - (nv.min + 1)))

end Check

/-! ## What a check establishes -/

/-- The replicas whose view-changes were counted. -/
theorem exists_of_countVcs (N : Node) (vcs : ℕ → Option ViewChange) (p : ViewChange → Bool) :
    ∃ A : Finset ℕ, A ⊆ Finset.range N.n ∧ A.card = countVcs N vcs p ∧
      ∀ j ∈ A, ∃ vc, vcs j = some vc ∧ p vc := by
  refine ⟨((List.range N.n).filter fun j => (vcs j).any p).toFinset, ?_, ?_, ?_⟩
  · intro j hj
    rw [mem_toFinset, mem_filter, mem_range] at hj
    exact Finset.mem_range.2 hj.1
  · rw [toFinset_card_of_nodup (nodup_range.filter _), countVcs,
      countP_eq_length_filter]
  · intro j hj
    rw [mem_toFinset, mem_filter, Option.any_eq_true] at hj
    exact hj.2

section Accepted

variable {N : Node} {nv : NewView} {vcs : ℕ → Option ViewChange}

theorem checkRequest_of_checkRequests {ns : List ℕ} (h : checkRequests N nv vcs ns = some true)
    {n : ℕ} (hn : n ∈ ns) : checkRequest N nv vcs n = some true := by
  induction ns with
  | nil => cases hn
  | cons k ns ih =>
    obtain ⟨ok, hok, h⟩ := Option.bind_eq_some_iff.1 h
    cases ok with
    | false => cases h
    | true =>
      rcases mem_cons.1 hn with rfl | hn
      · exact hok
      · exact ih h hn

/-- An accepted new view passed the check of its upper end and of every
request it picks. -/
theorem of_checkNewView (h : checkNewView N nv vcs = some true) :
    checkMax N nv vcs ∧ ∀ n, nv.min < n → n < nv.max → checkRequest N nv vcs n = some true := by
  obtain ⟨ok, -, h⟩ := Option.bind_eq_some_iff.1 h
  split at h
  · cases h
  · next hok =>
    have hmax : checkMax N nv vcs := by
      rw [Bool.or_eq_true, not_or, Bool.not_eq_true', Bool.not_eq_true', Bool.not_eq_false] at hok
      simpa using hok.2
    refine ⟨hmax, fun n hlo hhi => checkRequest_of_checkRequests h ?_⟩
    rw [mem_range'_1]
    omega

/-- The view-change picked for a request that passed is at hand and
reports above its checkpoint. -/
theorem exists_pick_of_checkRequest {n : ℕ} (h : checkRequest N nv vcs n = some true) :
    ∃ vci vc, nv.whichPicked n = some vci ∧ vcs vci = some vc ∧ vc.ls < n ∧
      nv.pick vcs n = some (vc.req n) := by
  obtain ⟨vci, hvci, h⟩ := Option.bind_eq_some_iff.1 h
  obtain ⟨vc, hvc, h⟩ := Option.bind_eq_some_iff.1 h
  split at h
  · cases h
  · next hls =>
    refine ⟨vci, vc, hvci, hvc, by omega, ?_⟩
    rw [NewView.pick, hvci, Option.bind_some, hvc, Option.map_some]

end Accepted

/-! ## When the check has an answer -/

theorem countVcs_eq_zero_iff {N : Node} {vcs : ℕ → Option ViewChange} {p : ViewChange → Bool} :
    countVcs N vcs p = 0 ↔ ∀ j < N.n, ∀ vc, vcs j = some vc → p vc = false := by
  simp only [countVcs, countP_eq_zero, mem_range, Option.any_eq_true, not_exists, not_and,
    Bool.not_eq_true]

/-- What `verify` promises of `picked`. -/
theorem NewView.exists_picked {N : Node} {nv : NewView} {auth : Bool} (h : nv.verify N auth) {n : ℕ}
    (hlo : nv.min ≤ n) (hhi : n < nv.max) :
    ∃ vci vc, nv.whichPicked n = some vci ∧ nv.viewChange vci = some vc ∧ vci < N.n := by
  simp only [NewView.verify, Bool.and_eq_true, all_eq_true, mem_range,
    Option.any_eq_true, decide_eq_true_eq] at h
  obtain ⟨vci, hvci, hlt, hvc⟩ := h.1.2 (n - nv.min) (by omega)
  obtain ⟨vc, hvc⟩ := Option.isSome_iff_exists.1 hvc
  exact ⟨vci, vc, by rw [NewView.whichPicked, if_pos ⟨hlo, hhi⟩, hvci], hvc, hlt⟩

theorem NewView.range_of_verify {N : Node} {nv : NewView} {auth : Bool} (h : nv.verify N auth) :
    nv.max ≤ nv.min + (maxOut + 1) := by
  simp only [NewView.verify, Bool.and_eq_true, decide_eq_true_eq] at h
  omega

section Total

variable {N : Node} {nv : NewView} {vcs : ℕ → Option ViewChange} {n vci : ℕ} {vc : ViewChange}

/-- The sequence numbers are so small that no index wraps. -/
def NewView.Small (N : Node) (nv : NewView) : Prop :=
  nv.min + maxOut < 2 ^ 31 ∧ ∀ j < N.n, ∀ vc, nv.viewChange j = some vc → vc.ls < 2 ^ 31

/-- **The view-changes bear the range out**: the one picked for `min` is
stable there, with a checkpoint that `f+1` of them have; `2f+1` are stable
there or below; and `2f+1` end below `max`. -/
def NewView.BorneOut (N : Node) (nv : NewView) : Prop :=
  ∃ cid vc d, nv.whichPicked nv.min = some cid ∧ nv.viewChange cid = some vc ∧ vc.ls = nv.min ∧
    vc.ckpt nv.min = some d ∧
    N.f + 1 ≤ countVcs N nv.viewChange (fun o => o.ckpt nv.min == some d) ∧
    N.nf ≤ countVcs N nv.viewChange (fun o => decide (o.ls ≤ nv.min)) ∧
    N.nf ≤ countVcs N nv.viewChange (fun o => decide (o.maxSeqno < nv.max))

/-- The view-changes at hand agree that the new view starts at or above
their last stable checkpoints; or the one picked for the first request does
not, and the check stops there. -/
def StableBelow (N : Node) (nv : NewView) (vcs : ℕ → Option ViewChange) : Prop :=
  (∀ j < N.n, ∀ vc, vcs j = some vc → vc.ls ≤ nv.min) ∨
    ∃ vci vc, nv.whichPicked (nv.min + 1) = some vci ∧ vcs vci = some vc ∧ nv.min < vc.ls

/-- Counting the picked view-change apart from the others. -/
theorem countVcs_update {p : ViewChange → Bool} (hlt : vci < N.n) (hvc : vcs vci = some vc)
    (hp : p vc) : 1 + countVcs N (update vcs vci none) p = countVcs N vcs p := by
  have hcount : ∀ k, (List.range k).countP (fun j => (vcs j).any p) =
      (List.range k).countP (fun j => (update vcs vci none j).any p) + if vci < k then 1 else 0 := by
    intro k
    induction k with
    | zero => rfl
    | succ k ih =>
      rw [range_succ, countP_append, countP_append, ih]
      rcases eq_or_ne k vci with rfl | hne
      · simp [hvc, hp]
      · have hiff : vci < k + 1 ↔ vci < k := by omega
        simp only [countP_singleton, update_of_ne hne, hiff]
        omega
  rw [countVcs, countVcs, hcount, if_pos hlt, Nat.add_comm]

/-- The check of the checkpoint has an answer, and with that of the upper
end it says whether the range is borne out. -/
theorem exists_checkCkpt (hsmall : nv.Small N) (hlt : vci < N.n)
    (hpick : nv.whichPicked nv.min = some vci) (hvc : nv.viewChange vci = some vc) :
    ∃ b, checkCkpt N nv nv.viewChange = some b ∧
      (b = true ∧ checkMax N nv nv.viewChange ↔ nv.BorneOut N) := by
  have hbounds : countVcs N (update nv.viewChange vci none)
      (fun o => decide (o.OutOfBounds nv.min)) = 0 := by
    refine countVcs_eq_zero_iff.2 fun j hj o ho => decide_eq_false ?_
    rintro ⟨-, hle, hneg⟩
    have := hsmall.1
    rw [ViewChange.ckptIndex, checkpointInterval, Int.bmod_def] at hneg
    omega
  -- the picked view-change decides, and there is only one
  have hborne : nv.BorneOut N → vc.ls = nv.min ∧ ∃ d, vc.ckpt nv.min = some d ∧
      N.f + 1 ≤ countVcs N nv.viewChange (fun o => o.ckpt nv.min == some d) ∧
      N.nf ≤ countVcs N nv.viewChange (fun o => decide (o.ls ≤ nv.min)) ∧
      checkMax N nv nv.viewChange := by
    rintro ⟨cid, vc', d, hcid, hvc', hls, hd, hproofs, hle, hmax⟩
    obtain rfl : cid = vci := Option.mem_unique hcid hpick
    obtain rfl : vc' = vc := Option.mem_unique hvc' hvc
    exact ⟨hls, d, hd, hproofs, hle, decide_eq_true hmax⟩
  rw [checkCkpt, hpick, Option.bind_eq_bind, Option.bind_some, hvc, Option.bind_eq_bind,
    Option.bind_some]
  by_cases hls : vc.ls = nv.min
  case neg =>
    rw [if_pos hls]
    exact ⟨false, rfl, iff_of_false (fun h => absurd h.1 (by decide)) fun h => hls (hborne h).1⟩
  rw [if_neg (not_not.2 hls), hls]
  cases hd : vc.ckpt nv.min with
  | none =>
    refine ⟨false, rfl, iff_of_false (fun h => absurd h.1 (by decide)) fun h => ?_⟩
    obtain ⟨-, d, hd', -⟩ := hborne h
    rw [hd] at hd'
    cases hd'
  | some d =>
    dsimp only
    rw [if_neg (not_not.2 hbounds), countVcs_update hlt hvc (by simp [hd]),
      countVcs_update hlt hvc (by simp [hls])]
    refine ⟨_, rfl, ?_⟩
    rw [decide_eq_true_eq]
    constructor
    · rintro ⟨⟨hproofs, hle⟩, hmax⟩
      exact ⟨vci, vc, d, hpick, hvc, hls, hd, hproofs, hle, of_decide_eq_true hmax⟩
    · intro h
      obtain ⟨-, d', hd', hproofs, hle, hmax⟩ := hborne h
      obtain rfl : d' = d := Option.mem_unique hd' hd
      exact ⟨⟨hproofs, hle⟩, hmax⟩

/-- A picked view-change that is stable at `n` or above ends the check. -/
theorem checkRequest_of_le (hpick : nv.whichPicked n = some vci) (hvc : vcs vci = some vc)
    (hle : n ≤ vc.ls) : checkRequest N nv vcs n = some false := by
  rw [checkRequest, hpick, Option.bind_eq_bind, Option.bind_some, hvc, Option.bind_eq_bind,
    Option.bind_some, if_pos hle]
  rfl

/-- Otherwise every view-change at hand is asked for `n`, so that the
request has an answer if and only if they all have one. -/
theorem exists_checkRequest_iff (hpick : nv.whichPicked n = some vci) (hvc : vcs vci = some vc)
    (hlt : vc.ls < n) :
    (∃ b, checkRequest N nv vcs n = some b) ↔ ∀ j < N.n, ∀ o, vcs j = some o → o.Answers n := by
  rw [checkRequest, hpick, Option.bind_eq_bind, Option.bind_some, hvc, Option.bind_eq_bind,
    Option.bind_some, if_neg (not_le.2 hlt)]
  by_cases hzero : countVcs N vcs (fun o => decide (¬ o.Answers n)) = 0
  · rw [if_neg (not_not.2 hzero)]
    refine iff_of_true ⟨_, rfl⟩ fun j hj o ho => ?_
    simpa using countVcs_eq_zero_iff.1 hzero j hj o ho
  · rw [if_pos hzero]
    refine iff_of_false (by rintro ⟨b, hb⟩; cases hb) fun hall => hzero ?_
    exact countVcs_eq_zero_iff.2 fun j hj o ho => decide_eq_false (not_not.2 (hall j hj o ho))

theorem exists_checkRequests {ns : List ℕ} (h : ∀ n ∈ ns, ∃ b, checkRequest N nv vcs n = some b) :
    ∃ b, checkRequests N nv vcs ns = some b := by
  induction ns with
  | nil => exact ⟨true, rfl⟩
  | cons n ns ih =>
    obtain ⟨b, hb⟩ := h n mem_cons_self
    rw [checkRequests, hb, Option.bind_eq_bind, Option.bind_some]
    cases b with
    | false => exact ⟨false, rfl⟩
    | true => exact ih fun k hk => h k (mem_cons_of_mem n hk)

/-- Within the range of small sequence numbers only the assertion of `req`
can fail. -/
theorem NewView.Small.answers (h : nv.Small N) {j : ℕ} (hj : j < N.n)
    (hvc : nv.viewChange j = some vc) (hn : n ≤ nv.min + maxOut) (hls : vc.ls < n) :
    vc.Answers n := by
  refine ⟨hls, ?_⟩
  have hmin := h.1
  have hsmall := h.2 j hj vc hvc
  rw [ViewChange.index, Int.bmod_def]
  omega

end Total

/-- A view-change of replica `i` with the checkpoint at `ls` and nothing
else. -/
def idleReport (ls i : ℕ) : ViewChange := ⟨1, ls, i, [1], []⟩

/-- A new-view of primary 1 from checkpoint 0 that picks replica 0's reports
and names those of six of seven replicas, replica 5 being stable at `ls`. -/
def idleNewView (max ls : ℕ) : NewView :=
  ⟨1, 0, max, [some (idleReport 0 0), some (idleReport 0 1), some (idleReport 0 2),
    some (idleReport 0 3), some (idleReport 0 4), some (idleReport ls 5)], [0, 0]⟩

/-- `A_NV_info`: the new-view message for view `v` and the view-changes
matched with it. `chosen` is `chosen_ckpt >= 0`, and `accepted` that
`check_new_view` returned true. -/
structure NVInfo where
  v : View
  nv : Option NewView
  vcs : ℕ → Option ViewChange
  chosen : Bool
  max : ℤ
  accepted : Bool
  is_complete : Bool

namespace NVInfo

/-- `A_NV_info()`, and what `clear` leaves. -/
def empty : NVInfo := ⟨0, none, fun _ => none, false, -1, false, false⟩

/-- `add(A_New_view*)`: a message for a later view replaces everything. -/
def addNewView (n : NVInfo) (nv : NewView) : NVInfo × Bool :=
  if nv.view ≤ n.v then (n, false) else ({ empty with v := nv.view, nv := some nv }, true)

/-- Run `check_new_view` on what is collected. It stores the checkpoint
and the upper end as soon as their checks pass. -/
def check (N : Node) (nv : NewView) (n : NVInfo) : NVInfo :=
  if checkCkpt N nv n.vcs = some true then
    { n with
      chosen := true
      max := if checkMax N nv n.vcs then nv.max else n.max
      accepted := checkNewView N nv n.vcs = some true }
  else n

/-- `vc_cur == vc_target`. -/
def gathered (N : Node) (nv : NewView) (n : NVInfo) : Bool :=
  countVcs N n.vcs (fun _ => true) == countVcs N nv.viewChange (fun _ => true)

/-- `add(A_View_change*, verified)`. A backup takes the view-changes its
new-view names and checks it once it has all of them; a view-change that
does not verify would need `f` acknowledgements, which a backup never
counts. -/
def addViewChange (N : Node) (n : NVInfo) (m : ViewChange) (verified : Bool) : NVInfo × Bool :=
  if (n.vcs m.id).isSome || n.is_complete then (n, false)
  else
    let n' := { n with vcs := update n.vcs m.id (some m) }
    if N.primary n.v = N.id then if verified then (n', true) else (n, false)
    else
      match n.nv with
      | none => (n, false)
      | some nv =>
        if nv.viewChange m.id = some m ∧ (verified ∨ N.f = 0) then
          (if n'.gathered N nv then n'.check N nv else n', true)
        else (n, false)

/-- `mark_stale(id)`: what is not complete is dropped. The replica's own
view-change is returned, or kept if it is the primary of that view. -/
def markStale (N : Node) (n : NVInfo) : NVInfo × Option ViewChange :=
  if n.is_complete then (n, none)
  else if 0 < n.v ∧ N.primary n.v = N.id then
    ({ empty with v := n.v, vcs := update empty.vcs N.id (n.vcs N.id) }, none)
  else (empty, n.vcs N.id)

theorem frame_check (N : Node) (nv : NewView) (n : NVInfo) :
    (n.check N nv).v = n.v ∧ (n.check N nv).nv = n.nv ∧ (n.check N nv).vcs = n.vcs ∧
      (n.check N nv).is_complete = n.is_complete := by
  rw [check]
  split <;> exact ⟨rfl, rfl, rfl, rfl⟩

/-- A view-change changes neither the new view nor whether it is
complete. -/
theorem frame_addViewChange (N : Node) (n : NVInfo) (m : ViewChange) (verified : Bool) :
    (n.addViewChange N m verified).1.v = n.v ∧ (n.addViewChange N m verified).1.nv = n.nv ∧
      (n.addViewChange N m verified).1.is_complete = n.is_complete := by
  rw [addViewChange]
  split
  · exact ⟨rfl, rfl, rfl⟩
  split
  · split <;> exact ⟨rfl, rfl, rfl⟩
  split
  · exact ⟨rfl, rfl, rfl⟩
  split
  · dsimp only
    split
    · obtain ⟨hv, hnv, -, hcomp⟩ := frame_check N _
        { n with vcs := update n.vcs m.id (some m) }
      exact ⟨hv, hnv, hcomp⟩
    · exact ⟨rfl, rfl, rfl⟩
  · exact ⟨rfl, rfl, rfl⟩

end NVInfo

end AbstractBFT.Aardvark
