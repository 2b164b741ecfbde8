import AbstractBFT.Chain.Moves
import Mathlib.Logic.Relation
/-!
# Chain — what an abort lists

A request a replica executes reaches the request history by way of
`robust_messages_queue`, and a panic can overtake it there.
`LogState` is the part of a replica on that way and `LogStep` says
everything a move can do to it, provided no request is on its way when
the replica leaves state `NORMAL`; `step_sim` ties it to the replica.
From that, an abort lists every executed request, at the place its
sequence number and the last truncation give.
-/

namespace AbstractBFT.Chain

open Machine List

variable {S : Type} {N : RNode S}

/-! ## The history of a sequence of requests -/

/-- The history after the requests of `l` were appended. -/
def logOf (N : RNode S) (l : List CRequest) : CLog N :=
  l.foldl (fun log q => logRequest N log q q.rep.seq_num) (ReqHistoryLog.empty N.M CRequest)

/-- The history digest after the requests of `l`. -/
def historyDigest (N : RNode S) (l : List CRequest) : Digest := (logOf N l).rhDigest N.md5

/-- The entry of the last request of `l`. -/
def lastEntry (N : RNode S) (l : List CRequest) (q : CRequest) : RhEntry CRequest :=
  ⟨some { q with rep := { q.rep with od := historyDigest N l } }, q.rep.seq_num, historyDigest N l⟩

theorem logOf_concat (l : List CRequest) (q : CRequest) :
    logOf N (l ++ [q]) = logRequest N (logOf N l) q q.rep.seq_num := by
  unfold logOf
  rw [foldl_append]
  rfl

theorem rh_logOf_concat (l : List CRequest) (q : CRequest) :
    (logOf N (l ++ [q])).rh = (logOf N l).rh ++ [lastEntry N (l ++ [q]) q] := by
  unfold lastEntry historyDigest
  rw [logOf_concat]
  rfl

@[simp] theorem length_rh_logOf (l : List CRequest) : (logOf N l).rh.length = l.length := by
  induction l using List.reverseRecOn with
  | nil => rfl
  | append_singleton l q ih => rw [rh_logOf_concat, length_append, ih]; simp

variable {i logged truncated : ℕ} {q : CRequest}

/-- The history's entries: the requests in their order, each with the
history digest up to it. -/
theorem getElem?_rh_logOf {l : List CRequest} (h : l[i]? = some q) :
    (logOf N l).rh[i]? = some (lastEntry N (l.take (i + 1)) q) := by
  induction l using List.reverseRecOn with
  | nil => simp at h
  | append_singleton l q' ih =>
    rw [rh_logOf_concat]
    have hi : i < (l ++ [q']).length := (List.getElem?_eq_some_iff.1 h).1
    rw [length_append, length_singleton] at hi
    rcases Nat.lt_or_ge i l.length with hlt | hge
    · rw [getElem?_append_left hlt] at h
      rw [getElem?_append_left (by rw [length_rh_logOf]; exact hlt), ih h,
        take_append_of_le_length (by omega)]
    · obtain rfl : i = l.length := by omega
      obtain rfl : q' = q := by simpa using h
      rw [getElem?_append_right (by rw [length_rh_logOf]), length_rh_logOf,
        take_of_length_le (by simp)]
      simp

/-- The history of the first `logged` requests, truncated at
`truncated`. -/
def truncatedLog (N : RNode S) (executed : List CRequest) (logged truncated : ℕ) : CLog N :=
  { logOf N (executed.take logged) with
    rh := (logOf N (executed.take logged)).rh.drop truncated }

/-- Requests are numbered from `1` on. -/
def Numbered (l : List CRequest) : Prop := ∀ i q, l[i]? = some q → q.rep.seq_num = i + 1

variable {executed : List CRequest}

theorem getElem?_truncatedLog (h : executed[truncated + i]? = some q)
    (hi : truncated + i < logged) :
    (truncatedLog N executed logged truncated).rh[i]? =
      some (lastEntry N (executed.take (truncated + i + 1)) q) := by
  unfold truncatedLog
  rw [getElem?_drop, getElem?_rh_logOf (q := q), take_take, Nat.min_eq_left (by omega)]
  rw [getElem?_take_of_lt hi]
  exact h

@[simp] theorem length_truncatedLog (executed : List CRequest) (logged truncated : ℕ) :
    (truncatedLog N executed logged truncated).rh.length =
      min logged executed.length - truncated := by
  unfold truncatedLog
  rw [length_drop, length_rh_logOf, length_take]

/-- What is executed but not yet appended does not show in the
history. -/
theorem truncatedLog_append (h : logged ≤ executed.length) (l : List CRequest) (truncated : ℕ) :
    truncatedLog N (executed ++ l) logged truncated = truncatedLog N executed logged truncated := by
  unfold truncatedLog
  rw [take_append_of_le_length h]

theorem logRequest_truncatedLog (h : executed[logged]? = some q) (ht : truncated ≤ logged) :
    logRequest N (truncatedLog N executed logged truncated) q q.rep.seq_num =
      truncatedLog N executed (logged + 1) truncated := by
  have hlt : logged < executed.length := (List.getElem?_eq_some_iff.1 h).1
  have htake : executed.take (logged + 1) = executed.take logged ++ [q] := by
    rw [take_add_one, h, Option.toList_some]
  unfold truncatedLog
  rw [htake, logOf_concat]
  have hlen : truncated ≤ (logOf N (executed.take logged)).rh.length := by
    rw [length_rh_logOf, length_take]
    omega
  unfold logRequest ReqHistoryLog.addRequest
  simp only [drop_append_of_le_length hlen]

theorem truncateHistory_truncatedLog {s : ℕ} {log : CLog N}
    (hnum : Numbered executed) (hlog : logged ≤ executed.length)
    (h : (truncatedLog N executed logged truncated).truncateHistory s = some log) :
    log = truncatedLog N executed logged s ∧ truncated < s ∧ s ≤ logged := by
  unfold ReqHistoryLog.truncateHistory at h
  split at h
  · cases h
  · next pos hpos =>
    obtain ⟨hlt, hseq, -⟩ := findIdx?_eq_some_iff_getElem.1 hpos
    rw [length_truncatedLog] at hlt
    have hget : (truncatedLog N executed logged truncated).rh[pos]? = some _ :=
      getElem?_eq_getElem (by rw [length_truncatedLog]; exact hlt)
    have hq : executed[truncated + pos]? = some executed[truncated + pos] :=
      getElem?_eq_getElem (by omega)
    rw [getElem?_truncatedLog hq (by omega)] at hget
    have hs : s = truncated + pos + 1 := by
      rw [← Option.some.inj hget] at hseq
      have := hnum _ _ hq
      have hseq' : executed[truncated + pos].rep.seq_num = s := by simpa [lastEntry] using hseq
      omega
    refine ⟨?_, by omega, by omega⟩
    rw [← Option.some.inj h]
    unfold truncatedLog
    simp only [drop_drop, hs, Nat.add_assoc]

/-! ## The elements of an abort -/

/-- Where the history holds a request in every entry, the abort lists
them entry by entry. -/
theorem elems_ofHistory {log : CLog N} {replica : ℤ} {rid seq : ℕ}
    {buffer : ℕ → AbortHistoryElement} {d : Digest}
    (hall : ∀ e ∈ log.rh, e.req.isSome) (h : log.rh[i]? = some ⟨some q, seq, d⟩) :
    (CAbort.ofHistory N replica rid log buffer).elems i = q.element := by
  have hmap : log.rh.filterMap (fun e => e.req.map CRequest.element) =
      log.rh.map fun e => (e.req.map CRequest.element).getD q.element := by
    rw [← filterMap_eq_map]
    refine filterMap_congr fun e he => ?_
    obtain ⟨q', hq'⟩ := Option.isSome_iff_exists.1 (hall e he)
    simp [hq']
  unfold CAbort.ofHistory
  simp only [hmap]
  rw [getD_eq_getElem?_getD, getElem?_map, h]
  rfl

theorem isSome_req_of_mem_logOf {l : List CRequest} {e : RhEntry CRequest}
    (h : e ∈ (logOf N l).rh) : e.req.isSome := by
  obtain ⟨i, hi, rfl⟩ := getElem_of_mem h
  rw [length_rh_logOf] at hi
  have hget := getElem?_rh_logOf (N := N) (getElem?_eq_getElem hi)
  rw [getElem?_eq_getElem (by rw [length_rh_logOf]; exact hi)] at hget
  rw [Option.some.inj hget]
  rfl

/-! ## The way of a request into the history -/

/-- The requests in a queue of messages. -/
def queuedRequests (queue : List RMessage) : List CRequest :=
  queue.filterMap fun m =>
    match m with
    | .request q => some q
    | _ => none

/-- The request the robust thread is about to append. -/
def RobustThread.inHand : RobustThread → List CRequest
  | .logging q => [q]
  | _ => []

/-- The part of a replica that a request passes through on its way into
an abort. -/
structure LogState (N : RNode S) where
  cur_state : ReplicaState
  seqno : ℕ
  last_seqno : ℕ
  rh : CLog N
  last_chkp_seqno : ℕ
  inHand : List CRequest
  queued : List CRequest
  toAbort : List ℕ
  executed : List CRequest
  logged : ℕ
  truncated : ℕ
  aborted : List AbortRecord
  aborts : AbortCertificate
  ah_2 : AbortHistory
  missing_store : List (Option CRequest)
  missing_store_seq : List ℕ
  merges : List MergeRecord

/-- The requests that were fetched, with their sequence numbers. -/
def LogState.store (s : LogState N) : List (CRequest × ℕ) :=
  (s.missing_store.zip s.missing_store_seq).filterMap fun p => p.1.map fun req => (req, p.2)

/-- That part of a replica. -/
def CReplica.logState (r : CReplica N) : LogState N where
  cur_state := r.cur_state
  seqno := r.seqno
  last_seqno := r.last_seqno
  rh := r.rh
  last_chkp_seqno := r.last_chkp_seqno
  inHand := r.robustThread.inHand
  queued := queuedRequests r.robust_messages_queue
  toAbort := r.toAbort
  executed := r.executed
  logged := r.logged
  truncated := r.truncated
  aborted := r.aborted
  aborts := r.aborts
  ah_2 := r.ah_2
  missing_store := r.missing_store
  missing_store_seq := r.missing_store_seq
  merges := r.merges

/-- Everything a move can do to that part, if nothing is on its way when
the replica leaves state `NORMAL`, and the history fits an abort's
`short`. `P` is what is known of the message the move handles. -/
inductive LogStep (N : RNode S) (id : ℕ) (P : LogState N → RMessage → Prop) :
    LogState N → LogState N → Prop where
  /-- a request is executed, and its copy queued -/
  | execute (s : LogState N) (q : CRequest) (seqno : ℕ) (hs : s.cur_state = .normal)
      (hseq : seqno = (if id = 0 then s.seqno else s.last_seqno) + 1)
      (hq : q.rep.seq_num = seqno) :
      LogStep N id P s
        { s with
          seqno, last_seqno := seqno, queued := s.queued ++ [q], executed := s.executed ++ [q] }
  /-- the request thread executes what it took up before the panic -/
  | executeLate (s : LogState N) (q : CRequest) (seqno : ℕ) (hs : s.cur_state ≠ .normal) :
      LogStep N id P s { s with seqno, last_seqno := seqno, queued := s.queued ++ [q] }
  | take (s : LogState N) (q : CRequest) (queued : List CRequest) (hs : s.cur_state = .normal)
      (hh : s.inHand = []) (hq : s.queued = q :: queued) :
      LogStep N id P s { s with inHand := [q], queued }
  | discard (s : LogState N) (q : CRequest) (queued : List CRequest) (hs : s.cur_state ≠ .normal)
      (hq : s.queued = q :: queued) : LogStep N id P s { s with queued }
  | log (s : LogState N) (q : CRequest) (hh : s.inHand = [q]) :
      LogStep N id P s
        { s with
          rh := logRequest N s.rh q q.rep.seq_num, logged := s.logged + 1, inHand := [] }
  /-- the request reaches a checkpoint that is already stable -/
  | logTruncate (s : LogState N) (q : CRequest) (rh : CLog N)
      (hh : s.inHand = [q])
      (h : (logRequest N s.rh q q.rep.seq_num).truncateHistory s.last_chkp_seqno = some rh) :
      LogStep N id P s
        { s with rh, logged := s.logged + 1, inHand := [], truncated := s.last_chkp_seqno }
  | truncate (s : LogState N) (seq : ℕ) (rh : CLog N)
      (h : s.rh.truncateHistory seq = some rh) (hlt : s.last_chkp_seqno < seq) :
      LogStep N id P s { s with rh, truncated := seq, last_chkp_seqno := seq }
  /-- a checkpoint is stable that the history does not reach -/
  | checkpoint (s : LogState N) (seq : ℕ) (hlt : s.last_chkp_seqno < seq) :
      LogStep N id P s { s with last_chkp_seqno := seq }
  | leave (s : LogState N) (hs : s.cur_state = .normal) (hh : s.inHand = [])
      (hq : s.queued = []) : LogStep N id P s { s with cur_state := .panicking }
  | repanic (s : LogState N) (hs : s.cur_state = .miswaiting) :
      LogStep N id P s { s with cur_state := .panicking }
  | ask (s : LogState N) (rid : ℕ) (hs : s.cur_state ≠ .normal) :
      LogStep N id P s { s with toAbort := s.toAbort ++ [rid] }
  | abort (s : LogState N) (rid : ℕ) (toAbort : List ℕ) (buffer : ℕ → AbortHistoryElement)
      (a : Abort) (ha : a = CAbort.ofHistory N id rid s.rh buffer)
      (hrid : rid ∈ s.toAbort) (hlen : s.rh.rh.length < 2 ^ 15) :
      LogStep N id P s
        { s with
          toAbort
          aborts := (s.aborts.add a).getD s.aborts
          aborted := s.aborted ++ [⟨a, s.cur_state, s.truncated⟩] }
  /-- an abort of another replica joins the set -/
  | collect (s : LogState N) (m : Abort) (aborts : AbortCertificate)
      (hs : s.cur_state = .panicking) (hm : P s (.abort m)) (hver : CAbort.verify N m)
      (hadd : s.aborts.add m = some aborts) : LogStep N id P s { s with aborts }
  /-- an abort completes the set, and the histories are merged -/
  | merge (s : LogState N) (m : Abort) (aborts : AbortCertificate)
      (ah_2 missing : AbortHistory)
      (hs : s.cur_state = .panicking) (hm : P s (.abort m)) (hver : CAbort.verify N m)
      (hadd : s.aborts.add m = some aborts) (hfull : 3 * N.f + 1 ≤ aborts.count)
      (hproc : Smasher.process N.n N.f aborts.ac id = some (ah_2, missing)) :
      LogStep N id P s
        { s with
          cur_state := .miswaiting
          ah_2
          missing_store := missing.map fun _ => none
          missing_store_seq := missing.map fun _ => 0
          merges := s.merges ++ [⟨aborts.ac, ah_2⟩]
          aborts := AbortCertificate.empty }
  /-- a missing request is fetched -/
  | fetch (s : LogState N) (m : CGetAGrip) (i : ℕ) (hs : s.cur_state = .miswaiting)
      (hm : P s (.getAGrip m)) :
      LogStep N id P s
        { s with
          missing_store := s.missing_store.set i (some m.stored_request)
          missing_store_seq := s.missing_store_seq.set i m.seqno }
  /-- the history is replaced by the merged one -/
  | adopt (s : LogState N) (hs : s.cur_state = .miswaiting) :
      LogStep N id P s
        { s with
          cur_state := .stop
          rh := rebuild N s.rh s.store s.ah_2
          seqno := (rebuild N s.rh s.store s.ah_2).getTopSeqno + 1
          ah_2 := []
          missing_store := []
          missing_store_seq := [] }

abbrev LogSteps (N : RNode S) (id : ℕ) (P : LogState N → RMessage → Prop) :
    LogState N → LogState N → Prop :=
  Relation.ReflTransGen (LogStep N id P)

namespace CReplica

variable {id : ℕ} {r : CReplica N} {P : LogState N → RMessage → Prop}

/-- No executed request is on its way into the history. -/
def NothingQueued (r : CReplica N) : Prop :=
  r.robustThread.inHand.isEmpty ∧ (queuedRequests r.robust_messages_queue).isEmpty
  deriving Decidable

/-- **What the move must meet.** A panic handled in state `NORMAL` finds
no executed request on its way into the history; the monitor delivers no
request; an abort is built from fewer than `2^15` entries. -/
def Drained (id : ℕ) (r : CReplica N) (e : CEvent) : Prop :=
  match e with
  | .arrive (.request _) => False
  | .abort _ _ => r.rh.rh.length < 2 ^ 15
  | e => r.cur_state = .normal → r.handlesPanic id e → r.NothingQueued

instance (id : ℕ) (r : CReplica N) (e : CEvent) : Decidable (Drained id r e) := by
  rcases e with _ | _ | ⟨_ | _⟩ | _ | _ | _ | _ <;> dsimp only [Drained] <;> infer_instance

variable {r' : CReplica N} {panics : Bool} {m : RMessage} {req : CRequest} {unonce : Cell}
variable {e : CEvent}

theorem logSteps_of_eq (h : r'.logState = r.logState) : LogSteps N id P r.logState r'.logState := by
  rw [h]

theorem logSteps_handlePanic (cid : ℤ) (rid : ℕ) (hd : r.cur_state = .normal → r.NothingQueued) :
    LogSteps N id P r.logState (r.handlePanic id cid rid).logState := by
  unfold handlePanic
  cases hs : r.cur_state with
  | normal =>
    obtain ⟨hh, hq⟩ := hd hs
    rw [if_pos (c := ReplicaState.normal ≠ _ ∧ _) (by decide), if_neg (by simp)]
    exact .tail (.single (.leave _ hs (isEmpty_iff.1 hh) (isEmpty_iff.1 hq)))
      (.ask _ rid (by simp))
  | panicking =>
    rw [if_neg (c := ReplicaState.panicking ≠ _ ∧ _) (by decide), if_neg (by simp [hs])]
    exact .single (.ask r.logState rid (hs.trans_ne (by decide)))
  | miswaiting =>
    rw [if_pos (c := ReplicaState.miswaiting ≠ _ ∧ _) (by decide), if_neg (by simp)]
    exact .tail (.single (.repanic _ hs)) (.ask _ rid (by simp))
  | stop =>
    rw [if_neg (c := ReplicaState.stop ≠ _ ∧ _) (by decide)]
    dsimp only
    split
    · exact .refl
    · exact .single (.ask r.logState rid (hs.trans_ne (by decide)))

theorem logSteps_truncate {seq : ℕ} (hlt : r.last_chkp_seqno < seq) :
    LogSteps N id P r.logState
      { r.truncate seq with last_chkp_seqno := seq : CReplica N }.logState := by
  unfold truncate
  split
  · exact .single (.checkpoint _ seq hlt)
  · next rh hrh => exact .single (.truncate _ seq rh hrh hlt)

theorem logSteps_handleCheckpoint {c : CCheckpoint}
    (hd : r.cur_state = .normal → panics → r.completes id c → r.NothingQueued) :
    LogSteps N id P r.logState (r.handleCheckpoint id c panics).logState := by
  unfold handleCheckpoint
  split
  · split <;> exact .refl
  · next cset hcset =>
    by_cases hn : cset.n = 2 * N.f + 1
    swap
    · rw [if_neg hn]
      exact .refl
    rw [if_pos hn]
    have hlt : r.last_chkp_seqno < c.seqid := by
      unfold admitCheckpoint at hcset
      split at hcset
      · cases hcset
      split at hcset
      · cases hcset
      · omega
    have hcomp : r.completes id c := by
      unfold completes
      rw [hcset]
      simpa using hn
    -- the truncation, then the panic the monitor may ask for
    have htrunc : LogSteps N id P r.logState _ := logSteps_truncate hlt
    cases panics with
    | false => exact htrunc
    | true =>
      refine htrunc.trans (logSteps_handlePanic (r := { r.truncate c.seqid with
        current_nb_requests_while_checkpointing := 0
        checkpoint_in_progress := false
        last_chkp_seqno := c.seqid
        current_checkpoints := Function.update r.current_checkpoints c.seqid none }) id 0 ?_)
      intro hs
      have hsame : (r.truncate c.seqid).cur_state = r.cur_state ∧
          ((r.truncate c.seqid).NothingQueued ↔ r.NothingQueued) := by
        unfold truncate
        split
        · exact ⟨rfl, Iff.rfl⟩
        · exact ⟨rfl, Iff.rfl⟩
      exact hsame.2.2 (hd (hsame.1 ▸ hs) rfl hcomp)

theorem logSteps_handleAbort {m : Abort} (hm : P r.logState (.abort m)) :
    LogSteps N id P r.logState (r.handleAbort id m).logState := by
  have hmove := r.abortMove_handleAbort id m
  generalize r.handleAbort id m = r' at hmove ⊢
  cases hmove with
  | dropped => exact .refl
  | collect c hs hver hadd => exact .single (.collect r.logState m c hs hm hver hadd)
  | adopt c ah_2 hs hver hadd hfull hproc =>
    exact .tail (.single (.merge r.logState m c ah_2 [] hs hm hver hadd hfull hproc)) (.adopt _ rfl)
  | wait c ah_2 missing sent _ hs hver hadd hfull hproc =>
    exact .single (.merge r.logState m c ah_2 missing hs hm hver hadd hfull hproc)

theorem logSteps_handleGetAGrip {m : CGetAGrip} (hm : P r.logState (.getAGrip m)) :
    LogSteps N id P r.logState (r.handleGetAGrip m).logState := by
  have hmove := r.gripMove_handleGetAGrip m
  generalize r.handleGetAGrip m = r' at hmove ⊢
  cases hmove with
  | dropped => exact .refl
  | fetch i hs => exact .single (.fetch r.logState m i hs hm)
  | adopt i hs => exact .tail (.single (.fetch r.logState m i hs hm)) (.adopt _ hs)

theorem logSteps_handle (hd : r.cur_state = .normal → r.panicsOn id panics m → r.NothingQueued)
    (hm : P r.logState m) : LogSteps N id P r.logState (r.handle id m panics).logState := by
  cases m with
  | request q => exact .refl
  | checkpoint c =>
    exact logSteps_handleCheckpoint fun hs hp hc => hd hs (by simp [panicsOn, hp, hc])
  | panic cid rid => exact logSteps_handlePanic cid rid fun hs => hd hs rfl
  | abort m => exact logSteps_handleAbort hm
  | missing m => exact .refl
  | getAGrip m => exact logSteps_handleGetAGrip hm
  | other => exact .refl

@[simp] theorem queuedRequests_append (queue queue' : List RMessage) :
    queuedRequests (queue ++ queue') = queuedRequests queue ++ queuedRequests queue' :=
  filterMap_append ..

/-- `execute_request` with the sequence number the replica is at. -/
theorem logSteps_executeRequest {seqno : ℕ}
    (hseq : r.cur_state = .normal → seqno = (if id = 0 then r.seqno else r.last_seqno) + 1 ∧
      req.rep.seq_num = seqno) :
    LogSteps N id P r.logState (executeRequest { r with seqno } req).logState := by
  have hqueue : queuedRequests (r.robust_messages_queue ++ [.request req]) =
      queuedRequests r.robust_messages_queue ++ [req] := queuedRequests_append ..
  by_cases hs : r.cur_state = .normal
  · obtain ⟨hnext, hreq⟩ := hseq hs
    have hstep : LogStep N id P r.logState _ := .execute r.logState req seqno hs hnext hreq
    unfold executeRequest logState
    simp only [if_pos hs, hqueue]
    exact .single hstep
  · have hstep : LogStep N id P r.logState _ := .executeLate r.logState req seqno hs
    unfold executeRequest logState
    simp only [if_neg hs, hqueue]
    exact .single hstep

theorem logSteps_order {req' : CRequest} (h : r.order id req = some (r', req')) :
    LogSteps N id P r.logState r'.logState := by
  rcases order_cases h with ⟨-, seqno, hseq, -, -, -, -, rfl⟩ | ⟨-, rfl, -, -⟩
  · exact logSteps_executeRequest fun _ => hseq
  · exact .refl

@[simp] theorem logState_send (req : CRequest) (off : ℕ) (unonce : Cell) :
    (r.send id req off unonce).logState = r.logState := by
  unfold send
  split <;> rfl

@[simp] theorem logState_forwardStopped (req : CRequest) :
    (r.forwardStopped id req).logState = r.logState := by
  unfold forwardStopped
  split <;> rfl

theorem logSteps_processRequest :
    LogSteps N id P r.logState (r.processRequest id req unonce).logState := by
  rcases r.processRequest_cases id req unonce with heq | ⟨req₁, off, r', req', -, hord, heq⟩
  · rw [heq]
  · rw [heq, logState_send]
    exact logSteps_order hord

theorem logSteps_requestMove : LogSteps N id P r.logState (r.requestMove id unonce).logState := by
  unfold requestMove
  split
  · exact .refl
  · exact .refl
  · split
    · split <;> exact .refl
    · exact .refl
  · split
    · exact .refl
    · split
      · exact .refl
      · exact logSteps_of_eq (logState_forwardStopped _)
      · exact .refl
  · exact logSteps_processRequest

/-- `robust_handler` appends a request, and truncates the history if the
checkpoint it has reached is already stable. -/
theorem logSteps_logExecuted (hh : r.robustThread = .logging req) :
    LogSteps N id P r.logState (r.logExecuted id req).logState := by
  have hhand : r.logState.inHand = [req] := by
    show r.robustThread.inHand = [req]
    rw [hh]
    rfl
  have hlog : LogSteps N id P r.logState
      { r with
        rh := logRequest N r.rh req req.rep.seq_num
        logged := r.logged + 1
        robustThread := .idle : CReplica N }.logState :=
    .single (.log r.logState req hhand)
  unfold logExecuted
  dsimp only
  split
  · split
    · unfold truncate
      split
      · exact hlog
      · next rh hrh => exact .single (.logTruncate r.logState req rh hhand hrh)
    · exact hlog
  · exact hlog

/-- Taking a message other than a request off the robust queue. -/
theorem queuedRequests_pop {queue : List RMessage} (hqueue : r.robust_messages_queue = queue ∨
      r.robust_messages_queue = m :: queue ∧ ∀ q, m ≠ .request q) :
    queuedRequests r.robust_messages_queue = queuedRequests queue := by
  rcases hqueue with heq | ⟨heq, hreq⟩
  · rw [heq]
  · rw [heq]
    cases m with
    | request q => exact absurd rfl (hreq q)
    | _ => rfl

theorem Drained.nothingQueued (hok : Drained id r e) (hs : r.cur_state = .normal)
    (hpanic : r.handlesPanic id e = true) : r.NothingQueued := by
  cases e with
  | request => cases hpanic
  | arrive => cases hpanic
  | abort => cases hpanic
  | _ => exact hok hs hpanic

/-- **The way into the history, move by move.** -/
theorem step_sim (hok : Drained id r e) (hm : ∀ m ∈ r.taken e, P r.logState m) :
    LogSteps N id P r.logState (r.step id e).logState := by
  have hdeed := r.step_deed id e
  generalize r.step id e = r' at hdeed ⊢
  have hqueued : ∀ {q queue}, r.robust_messages_queue = .request q :: queue →
      r.logState.queued = q :: queuedRequests queue := by
    intro q queue hqueue
    show queuedRequests r.robust_messages_queue = _
    rw [hqueue]
    rfl
  cases hdeed with
  | still => exact .refl
  | forward req => exact logSteps_of_eq (logState_forwardStopped req)
  | takeUp => exact .refl
  | request => exact logSteps_requestMove
  | arrive m =>
    have hreqs : queuedRequests (r.robust_messages_queue ++ [m]) =
        queuedRequests r.robust_messages_queue := by
      rw [queuedRequests_append]
      cases m with
      | request q => exact hok.elim
      | _ => exact append_nil _
    unfold logState
    rw [hreqs]
  | log q panics hthread => exact logSteps_logExecuted hthread
  | own c panics hthread =>
    have hsame : r.logState = (r.sends c).logState := by
      unfold logState sends
      rw [hthread]
      rfl
    rw [hsame]
    refine logSteps_handleCheckpoint fun hs hp hcomp => ?_
    have hcomp' : r.completes id c = true := hcomp
    obtain ⟨-, hq⟩ := hok.nothingQueued hs
      (by rw [handlesPanic_of_checkpointing hthread, hp, hcomp']; rfl)
    exact ⟨rfl, hq⟩
  | discard q queue panics hqueue hs =>
    exact .single (.discard r.logState q _ hs (hqueued hqueue))
  | take q queue panics hidle hqueue hs =>
    have hhand : r.logState.inHand = [] := by
      show r.robustThread.inHand = []
      rw [hidle]
      rfl
    exact .single (.take r.logState q _ hs hhand (hqueued hqueue))
  | handle e m panics queue htaken hpanic hqueue =>
    have hreqs := queuedRequests_pop hqueue
    have hsame : r.logState = (r.popped queue).logState := by
      unfold logState
      rw [hreqs]
    have hmsg := hm m htaken
    rw [hsame] at hmsg ⊢
    refine logSteps_handle (fun hs hp => ?_) hmsg
    obtain ⟨hh, hq⟩ := hok.nothingQueued hs (hpanic.trans hp)
    exact ⟨hh, hreqs ▸ hq⟩
  | timeout e hpanic => exact logSteps_handlePanic id 0 fun hs => hok.nothingQueued hs hpanic
  | abort i buffer =>
    unfold broadcastAbort
    split
    · exact .refl
    · next rid hrid =>
      exact .single (.abort r.logState rid _ buffer _ rfl (mem_of_getElem? hrid) hok)

end CReplica

/-! ## What a run keeps -/

/-- The abort lists every executed request above the truncation, at the
place its number gives. -/
def Complete (N : RNode S) (executed : List CRequest) (a : AbortRecord) : Prop :=
  ∀ i q, executed[i]? = some q → a.truncated ≤ i →
    i - a.truncated < a.abort.rep.hist_size ∧
    a.abort.elems (i - a.truncated) =
      ⟨q.rep.cid, q.rep.rid, historyDigest N (executed.take (i + 1))⟩

/-- **The invariant of the log.** Until the history is replaced by the
merged one, it is the history of the requests appended so far, truncated
at the last checkpoint; the others are in hand or queued, and none is
once the replica has left state `NORMAL`. -/
structure LogInv (N : RNode S) (id : ℕ) (s : LogState N) : Prop where
  numbered : Numbered s.executed
  ordering : s.cur_state = .normal →
    s.last_seqno = s.executed.length ∧ (id = 0 → s.seqno = s.executed.length)
  pipeline : s.cur_state = .normal → s.executed.drop s.logged = s.inHand ++ s.queued
  drained : s.cur_state ≠ .normal → s.inHand = []
  all_logged : s.cur_state ≠ .normal → s.cur_state ≠ .stop → s.logged = s.executed.length
  logged_le : s.cur_state ≠ .stop → s.logged ≤ s.executed.length
  rh_eq : s.cur_state ≠ .stop → s.rh = truncatedLog N s.executed s.logged s.truncated
  truncated_le : s.cur_state ≠ .stop → s.truncated ≤ s.logged
  truncated_le_chkp : s.truncated ≤ s.last_chkp_seqno
  quiet : s.cur_state = .normal → s.toAbort = [] ∧ s.aborted = []
  complete : ∀ a ∈ s.aborted, a.state ≠ .stop → Complete N s.executed a

namespace LogInv

variable {id : ℕ} {s s' : LogState N} {P : LogState N → RMessage → Prop}

theorem init (service : S) : LogInv N id (CReplica.init N service).logState where
  numbered := by intro i q h; simp [CReplica.logState, CReplica.init] at h
  ordering := fun _ => ⟨rfl, fun _ => rfl⟩
  pipeline := fun _ => rfl
  drained := fun _ => rfl
  all_logged := fun _ _ => rfl
  logged_le := fun _ => le_rfl
  rh_eq := fun _ => rfl
  truncated_le := fun _ => le_rfl
  truncated_le_chkp := le_rfl
  quiet := fun _ => ⟨rfl, rfl⟩
  complete := by intro a h; simp [CReplica.logState, CReplica.init] at h

variable (h : LogInv N id s)

include h

theorem execute {q : CRequest} {seqno : ℕ} (hs : s.cur_state = .normal)
    (hseq : seqno = (if id = 0 then s.seqno else s.last_seqno) + 1) (hq : q.rep.seq_num = seqno) :
    LogInv N id
      { s with
        seqno, last_seqno := seqno, queued := s.queued ++ [q], executed := s.executed ++ [q] } := by
  have hns : s.cur_state ≠ .stop := by rw [hs]; decide
  have hlen : seqno = s.executed.length + 1 := by
    obtain ⟨hlast, hhead⟩ := h.ordering hs
    by_cases hid : id = 0
    · rw [hseq, if_pos hid, hhead hid]
    · rw [hseq, if_neg hid, hlast]
  have hle := h.logged_le hns
  refine { h with
    numbered := fun i q' hi => ?_
    ordering := fun _ => ?_
    pipeline := fun _ => ?_
    all_logged := fun hne => absurd hs hne
    logged_le := fun _ => ?_
    rh_eq := fun _ => (h.rh_eq hns).trans (truncatedLog_append hle [q] s.truncated).symm
    complete := fun a ha => ?_ }
  · rcases Nat.lt_or_ge i s.executed.length with hlt | hge
    · rw [getElem?_append_left hlt] at hi
      exact h.numbered i q' hi
    · have hi' : i < (s.executed ++ [q]).length := (List.getElem?_eq_some_iff.1 hi).1
      rw [length_append, length_singleton] at hi'
      obtain rfl : i = s.executed.length := by omega
      obtain rfl : q = q' := by simpa using hi
      rw [hq, hlen]
  · simp only [length_append, length_singleton, hlen, implies_true, and_self]
  · show (s.executed ++ [q]).drop s.logged = s.inHand ++ (s.queued ++ [q])
    rw [drop_append_of_le_length hle, h.pipeline hs, append_assoc]
  · show s.logged ≤ (s.executed ++ [q]).length
    rw [length_append]
    omega
  · rw [show s.aborted = [] from (h.quiet hs).2] at ha
    simp at ha

theorem log {q : CRequest} (hh : s.inHand = [q]) :
    LogInv N id
      { s with
        rh := logRequest N s.rh q q.rep.seq_num, logged := s.logged + 1, inHand := [] } := by
  have hs : s.cur_state = .normal := by
    by_contra hne
    rw [h.drained hne] at hh
    cases hh
  have hns : s.cur_state ≠ .stop := by rw [hs]; decide
  have hpipe := h.pipeline hs
  rw [hh] at hpipe
  have hq : s.executed[s.logged]? = some q := by
    rw [← head?_drop, hpipe]
    rfl
  have hlt : s.logged < s.executed.length := (List.getElem?_eq_some_iff.1 hq).1
  have htl := h.truncated_le hns
  refine { h with
    pipeline := fun _ => ?_
    drained := fun _ => rfl
    all_logged := fun hne => absurd hs hne
    logged_le := fun _ => hlt
    rh_eq := fun _ => ?_
    truncated_le := fun _ => htl.trans (Nat.le_succ _) }
  · show s.executed.drop (s.logged + 1) = [] ++ s.queued
    rw [← drop_drop, hpipe]
    rfl
  · show logRequest N s.rh q q.rep.seq_num = truncatedLog N s.executed (s.logged + 1) s.truncated
    rw [h.rh_eq hns]
    exact logRequest_truncatedLog hq htl

theorem truncate {seq : ℕ} {rh : CLog N} (ht : s.rh.truncateHistory seq = some rh) :
    LogInv N id { s with rh, truncated := seq, last_chkp_seqno := seq } := by
  have hnew : s.cur_state ≠ .stop →
      rh = truncatedLog N s.executed s.logged seq ∧ seq ≤ s.logged := by
    intro hns
    rw [h.rh_eq hns] at ht
    obtain ⟨heq, -, hle⟩ := truncateHistory_truncatedLog h.numbered (h.logged_le hns) ht
    exact ⟨heq, hle⟩
  exact { h with
    rh_eq := fun hns => (hnew hns).1
    truncated_le := fun hns => (hnew hns).2
    truncated_le_chkp := le_rfl }

theorem leave (hs : s.cur_state = .normal) (hh : s.inHand = []) (hq : s.queued = []) :
    LogInv N id { s with cur_state := .panicking } := by
  have hns : s.cur_state ≠ .stop := by rw [hs]; decide
  have hall : s.logged = s.executed.length := by
    have hpipe := h.pipeline hs
    rw [hh, hq, append_nil, drop_eq_nil_iff] at hpipe
    exact le_antisymm (h.logged_le hns) hpipe
  exact ⟨h.numbered, fun h' => absurd h' (by simp), fun h' => absurd h' (by simp), fun _ => hh,
    fun _ _ => hall, fun _ => h.logged_le hns, fun _ => h.rh_eq hns, fun _ => h.truncated_le hns,
    h.truncated_le_chkp, fun h' => absurd h' (by simp), h.complete⟩

/-- Outside state `NORMAL` the states before `STOP` share the
invariant. -/
theorem setState (hne : s.cur_state ≠ .normal) (hns : s.cur_state ≠ .stop)
    {cur_state : ReplicaState} (hne' : cur_state ≠ .normal) : LogInv N id { s with cur_state } :=
  ⟨h.numbered, fun h' => absurd h' hne', fun h' => absurd h' hne', fun _ => h.drained hne,
    fun _ _ => h.all_logged hne hns, fun _ => h.logged_le hns, fun _ => h.rh_eq hns,
    fun _ => h.truncated_le hns, h.truncated_le_chkp, fun h' => absurd h' hne', h.complete⟩

/-- The invariant does not read what the merge works on. -/
theorem merging {aborts : AbortCertificate} {ah_2 : AbortHistory}
    {missing_store : List (Option CRequest)} {missing_store_seq : List ℕ}
    {merges : List MergeRecord} :
    LogInv N id { s with aborts, ah_2, missing_store, missing_store_seq, merges } :=
  { h with }

/-- An abort built before the history is replaced is complete. -/
theorem complete_ofHistory (hs : s.cur_state ≠ .normal) (hns : s.cur_state ≠ .stop)
    (hlen : s.rh.rh.length < 2 ^ 15) (rid : ℕ) (buffer : ℕ → AbortHistoryElement) :
    Complete N s.executed
      ⟨CAbort.ofHistory N id rid s.rh buffer, s.cur_state, s.truncated⟩ := by
  intro i q hi hti
  have hrh := h.rh_eq hns
  have hlog := h.all_logged hs hns
  have hlt : i < s.executed.length := (List.getElem?_eq_some_iff.1 hi).1
  obtain ⟨j, rfl⟩ : ∃ j, i = s.truncated + j := ⟨i - s.truncated, by simp at hti; omega⟩
  simp only [Nat.add_sub_cancel_left]
  have hentry : s.rh.rh[j]? = some (lastEntry N (s.executed.take (s.truncated + j + 1)) q) := by
    rw [hrh]
    exact getElem?_truncatedLog hi (by omega)
  constructor
  · show j < s.rh.rh.length % 2 ^ 16
    rw [Nat.mod_eq_of_lt (by omega)]
    exact (List.getElem?_eq_some_iff.1 hentry).1
  · refine (elems_ofHistory (fun e he => ?_) hentry).trans rfl
    rw [hrh] at he
    exact isSome_req_of_mem_logOf (mem_of_mem_drop he)

theorem step (hstep : LogStep N id P s s') : LogInv N id s' := by
  cases hstep with
  | execute q seqno hs hseq hq => exact h.execute hs hseq hq
  | executeLate q seqno hs =>
    exact { h with ordering := fun h' => absurd h' hs, pipeline := fun h' => absurd h' hs }
  | take q queued hs hh hq =>
    refine { h with pipeline := fun _ => ?_, drained := fun h' => absurd hs h' }
    have hpipe := h.pipeline hs
    rw [hh, hq] at hpipe
    exact hpipe
  | discard q queued hs hq =>
    exact { h with pipeline := fun h' => absurd h' hs }
  | log q hh => exact h.log hh
  | logTruncate q rh hh ht => exact (h.log hh).truncate ht
  | truncate seq rh ht hlt => exact h.truncate ht
  | checkpoint seq hlt =>
    exact { h with truncated_le_chkp := h.truncated_le_chkp.trans hlt.le }
  | leave hs hh hq => exact h.leave hs hh hq
  | repanic hs =>
    exact h.setState (by rw [hs]; decide) (by rw [hs]; decide) (by decide)
  | ask rid hs =>
    exact { h with quiet := fun h' => absurd h' hs }
  | abort rid toAbort buffer a ha hrid hlen =>
    have hs : s.cur_state ≠ .normal := by
      intro hs
      rw [(h.quiet hs).1] at hrid
      cases hrid
    refine { h with quiet := fun h' => absurd h' hs, complete := fun rec hrec hns => ?_ }
    rcases mem_concat_iff.1 hrec with hrec | rfl
    · exact h.complete rec hrec hns
    · rw [ha] at hns ⊢
      exact h.complete_ofHistory hs hns hlen rid buffer
  | collect m aborts hs hm hver hadd => exact h.merging
  | merge m aborts ah_2 missing hs hm hver hadd hfull hproc =>
    exact (h.setState (by rw [hs]; decide) (by rw [hs]; decide) (by decide)).merging
  | fetch m i hs hm => exact h.merging
  | adopt hs =>
    have hne : s.cur_state ≠ .normal := by rw [hs]; decide
    exact ⟨h.numbered, fun h' => absurd h' (by simp), fun h' => absurd h' (by simp),
      fun _ => h.drained hne, fun _ h' => absurd rfl h', fun h' => absurd rfl h',
      fun h' => absurd rfl h', fun h' => absurd rfl h', h.truncated_le_chkp,
      fun h' => absurd h' (by simp), h.complete⟩

theorem steps (hsteps : LogSteps N id P s s') : LogInv N id s' := by
  induction hsteps with
  | refl => exact h
  | tail _ hstep ih => exact ih.step hstep

end LogInv

/-- **Abort history completeness.** Every abort the replica broadcast
before its history was replaced lists every request it executed in state
`NORMAL`, above the last truncation, at the position the request's
sequence number gives. -/
def CReplica.ListsExecuted (r : CReplica N) : Prop :=
  ∀ a ∈ r.aborted, a.state ≠ .stop → ∀ q ∈ r.executed, a.truncated < q.rep.seq_num →
    q.rep.seq_num - a.truncated - 1 < a.abort.rep.hist_size ∧
    (a.abort.elems (q.rep.seq_num - a.truncated - 1)).cid = q.rep.cid ∧
    (a.abort.elems (q.rep.seq_num - a.truncated - 1)).rid = q.rep.rid

theorem LogInv.listsExecuted {id : ℕ} {r : CReplica N} (h : LogInv N id r.logState) :
    r.ListsExecuted := by
  intro a ha hns q hq hlt
  obtain ⟨i, hi⟩ := getElem?_of_mem hq
  have hnum : q.rep.seq_num = i + 1 := h.numbered i q hi
  obtain ⟨hsize, helem⟩ := h.complete a ha hns i q hi (by omega)
  have hpos : q.rep.seq_num - a.truncated - 1 = i - a.truncated := by omega
  rw [hpos, helem]
  exact ⟨hsize, rfl, rfl⟩

theorem logInv_exec (id : ℕ) (service : S) (es : List CReplica.CEvent)
    (hok : Guarded (CReplica.step id) (CReplica.Drained id) (CReplica.init N service) es) :
    LogInv N id (exec (CReplica.step id) (CReplica.init N service) es).logState :=
  hok.invariant (I := fun r => LogInv N id r.logState)
    (fun _ _ h hd => h.steps (CReplica.step_sim (P := fun _ _ => True) hd fun _ _ => trivial))
    (LogInv.init service)

/-- **An abort lists what was executed** in every run in which a panic
finds no executed request on its way into the history. -/
theorem abort_lists_executed (N : RNode S) (id : ℕ) (service : S) (es : List CReplica.CEvent)
    (hok : Guarded (CReplica.step id) (CReplica.Drained id) (CReplica.init N service) es) :
    (exec (CReplica.step id) (CReplica.init N service) es).ListsExecuted :=
  (logInv_exec id service es hok).listsExecuted

section Sample

/-- A node of four replicas; everything is signed by anyone. -/
def sampleRNode : RNode Unit where
  toCNode := sampleNode 1
  M := ReqHistoryLog.sampleModulus
  exec_command := fun s _ _ => (s, [])
  gen_signature := fun _ _ => []
  verify_signature := fun _ _ _ => true
  next_instance_id := 1

/-- A node with a hash function that tells short strings apart. -/
def hashRNode : RNode Unit :=
  { sampleRNode with
    toCNode := { sampleNode 1 with
      md5 := fun bs => BitVec.ofNat 128 (bs.foldl (fun n b => 257 * n + b.toNat + 1) 0) } }

/-- Client `4`'s first request. -/
def sampleRequest : CRequest :=
  (CRequest.fresh sampleRNode.md5 4 1 [7] false fun _ => 0).authenticate sampleRNode.toCNode 4 (-1)
    0 none 0

/-- The head takes the request up and executes it. -/
def headExecutes : List CReplica.CEvent :=
  [.incoming (.request sampleRequest) false, .request 0, .request 0, .request 0]

/-- The request is in the history before the panic comes. -/
def panicAfterLogging : List CReplica.CEvent :=
  headExecutes ++ [.robust false, .robust false, .arrive (.panic 4 1), .robust false,
    .abort 0 fun _ => ⟨0, 0, 0⟩]

/-- The panic is queued before the request. -/
def panicOvertakes : List CReplica.CEvent :=
  .arrive (.panic 4 1) :: headExecutes ++ [.robust false, .abort 0 fun _ => ⟨0, 0, 0⟩]

/-- The abort after the request was logged lists it. -/
theorem abort_lists_executed_head :
    (exec (CReplica.step 0) (CReplica.init sampleRNode ()) panicAfterLogging).executed.length
        = 1 ∧
    (exec (CReplica.step 0) (CReplica.init sampleRNode ()) panicAfterLogging).aborted.length
        = 1 ∧
    (exec (CReplica.step 0) (CReplica.init sampleRNode ()) panicAfterLogging).ListsExecuted :=
  ⟨by decide, by decide, abort_lists_executed sampleRNode 0 () panicAfterLogging (by decide)⟩

/-- **A panic that overtakes a request loses it**: the head executed and
forwarded client `4`'s request, and its abort lists nothing. -/
theorem abort_misses_executed :
    ¬ (exec (CReplica.step 0) (CReplica.init sampleRNode ()) panicOvertakes).ListsExecuted := by
  intro h
  have hex : ∃ a q, a ∈ (exec (CReplica.step 0) (CReplica.init sampleRNode ())
        panicOvertakes).aborted ∧
      q ∈ (exec (CReplica.step 0) (CReplica.init sampleRNode ()) panicOvertakes).executed ∧
      a.state ≠ .stop ∧ a.truncated < q.rep.seq_num ∧ a.abort.rep.hist_size = 0 :=
    ⟨_, _, mem_singleton.2 rfl, mem_singleton.2 rfl, by decide, by decide, by decide⟩
  obtain ⟨a, q, ha, hq, hns, hlt, hsize⟩ := hex
  have hpos := (h a ha hns q hq hlt).1
  omega

end Sample

end AbstractBFT.Chain
