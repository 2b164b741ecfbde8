import AbstractBFT.Chain.Replica
/-!
# Chain — what a move can be

A move of a replica is taken apart once, for all results. `Deed` names the
handler a move runs, `AbortMove` and `GripMove` are what the two handlers
of the abort phase can do. The request thread leaves `steadyPart` alone;
every other move, the abort phase apart, is `Quiet`: it leaves alone what
the request thread works on and what a replica keeps of a merge. `Sorted`
is the moves sorted that way.
-/

namespace AbstractBFT.Chain

namespace CReplica

variable {S : Type} {N : RNode S} {r r' r'' : CReplica N} {id : ℕ} {req req' : CRequest}
variable {panic : Bool}

/-! ## The handlers -/

variable (r id)

/-- Taking in this checkpoint message makes its set complete. -/
def completes (c : CCheckpoint) : Bool :=
  match r.admitCheckpoint id c with
  | none => false
  | some cset => cset.n == 2 * N.f + 1

/-- Handling this message means handling a panic: it is one, or it
completes a checkpoint after which the monitor panics. -/
def panicsOn (panics : Bool) : RMessage → Bool
  | .panic _ _ => true
  | .checkpoint c => panics && r.completes id c
  | _ => false

/-- This move handles a panic. -/
def handlesPanic : CEvent → Bool
  | .incoming m panics =>
    match r.requestThread with
    | .idle => r.panicsOn id panics m
    | _ => false
  | .robust panics =>
    match r.robustThread, r.robust_messages_queue with
    | .checkpointing c, _ => panics && r.completes id c
    | .idle, m :: _ => r.panicsOn id panics m
    | _, _ => false
  | .noCheckpointTimeout => r.cur_state = .normal && !r.mutexHeld
  | .noRequestTimeout not_enough_requests => r.cur_state = .normal && not_enough_requests
  | _ => false

/-- The message this move handles. -/
def taken : CEvent → Option RMessage
  | .incoming m _ =>
    match r.requestThread with
    | .idle => some m
    | _ => none
  | .robust _ =>
    match r.robustThread, r.robust_messages_queue with
    | .idle, m :: _ => some m
    | _, _ => none
  | _ => none

/-- **What a move can be**, with the handler it runs. The request thread
takes a message only when it has none in hand, and the message a handler
gets was taken off one of the queues; a timer that fires handles a panic of
its own. -/
inductive Deed (id : ℕ) (r : CReplica N) : CEvent → CReplica N → Prop where
  | still (e : CEvent) : Deed id r e r
  | forward (req : CRequest) (panics : Bool) (hs : r.cur_state = .stop) :
      Deed id r (.incoming (.request req) panics) (r.forwardStopped id req)
  | takeUp (req : CRequest) (panics : Bool) (hidle : r.requestThread = .idle)
      (hs : r.cur_state = .normal) :
      Deed id r (.incoming (.request req) panics) { r with requestThread := .admitted req }
  | request (unonce : Cell) : Deed id r (.request unonce) (r.requestMove id unonce)
  | arrive (m : RMessage) :
      Deed id r (.arrive m) { r with robust_messages_queue := r.robust_messages_queue ++ [m] }
  | log (q : CRequest) (panics : Bool) (hthread : r.robustThread = .logging q) :
      Deed id r (.robust panics) (r.logExecuted id q)
  | own (c : CCheckpoint) (panics : Bool) (hthread : r.robustThread = .checkpointing c) :
      Deed id r (.robust panics) ((r.sends c).handleCheckpoint id c panics)
  | discard (q : CRequest) (queue : List RMessage) (panics : Bool)
      (hqueue : r.robust_messages_queue = .request q :: queue) (hs : r.cur_state ≠ .normal) :
      Deed id r (.robust panics) (r.popped queue)
  | take (q : CRequest) (queue : List RMessage) (panics : Bool) (hidle : r.robustThread = .idle)
      (hqueue : r.robust_messages_queue = .request q :: queue) (hs : r.cur_state = .normal) :
      Deed id r (.robust panics)
        { r with robust_messages_queue := queue, robustThread := .logging q }
  | handle (e : CEvent) (m : RMessage) (panics : Bool) (queue : List RMessage)
      (htaken : r.taken e = some m) (hpanic : r.handlesPanic id e = r.panicsOn id panics m)
      (hqueue : r.robust_messages_queue = queue ∨
        r.robust_messages_queue = m :: queue ∧ ∀ q, m ≠ .request q) :
      Deed id r e ((r.popped queue).handle id m panics)
  | timeout (e : CEvent) (hpanic : r.handlesPanic id e = true) :
      Deed id r e (r.handlePanic id id 0)
  | abort (i : ℕ) (buffer : ℕ → AbortHistoryElement) :
      Deed id r (.abort i buffer) (r.broadcastAbort id i buffer)

theorem deed_robustMove (panics : Bool) : Deed id r (.robust panics) (r.robustMove id panics) := by
  have hhandle : ∀ m queue, r.robustThread = .idle → r.robust_messages_queue = m :: queue →
      (∀ q, m ≠ .request q) → Deed id r (.robust panics)
        ((r.popped queue).handle id m panics) := by
    intro m queue hidle hqueue hreq
    refine .handle _ m panics queue ?_ ?_ (.inr ⟨hqueue, hreq⟩)
    · unfold taken
      rw [hidle, hqueue]
    · unfold handlesPanic
      rw [hidle, hqueue]
  unfold robustMove
  split
  · next q hthread => exact .log q panics hthread
  · next c hthread =>
    split
    · exact .still _
    · exact .own c panics hthread
  · next hidle =>
    split
    · exact .still _
    · next q queue hqueue =>
      split
      · next hs => exact .discard q queue panics hqueue hs
      · next hs => exact .take q queue panics hidle hqueue (not_not.1 hs)
    · next c queue hqueue =>
      split
      · exact .still _
      · exact hhandle _ queue hidle hqueue (by simp)
    · next m queue hreq _ hqueue =>
      exact hhandle m queue hidle hqueue fun q hq => hreq q (by rw [hq])

theorem step_deed (e : CEvent) : Deed id r e (r.step id e) := by
  cases e with
  | incoming m panics =>
    rw [step]
    unfold takeIncoming
    split
    · next hidle =>
      split
      · split
        · next hs => exact .forward _ panics hs
        · next hs => exact .takeUp _ panics hidle hs
        · exact .still _
      · refine .handle _ m panics r.robust_messages_queue ?_ ?_ (.inl rfl)
        · unfold taken
          rw [hidle]
        · unfold handlesPanic
          rw [hidle]
    · exact .still _
  | request unonce => exact .request unonce
  | arrive m => exact .arrive m
  | robust panics => exact deed_robustMove r id panics
  | noCheckpointTimeout =>
    rw [step]
    split
    · exact .still _
    · next hgo =>
      exact .timeout _ (by simpa [handlesPanic] using hgo)
  | noRequestTimeout not_enough_requests =>
    rw [step]
    split
    · next hgo => exact .timeout _ (by simpa [handlesPanic] using hgo)
    · exact .still _
  | abort i buffer => exact .abort i buffer

/-- The state a merge leaves: what was made of the certificate `c`. -/
def afterMerge (c : AbortCertificate) (ah_2 missing : AbortHistory) : CReplica N :=
  { r with
    ah_2
    missing
    missing_mask := missing.map fun _ => true
    missing_store := missing.map fun _ => none
    missing_store_seq := missing.map fun _ => 0
    num_missing := missing.length
    merges := r.merges ++ [⟨c.ac, ah_2⟩]
    aborts := AbortCertificate.empty }

/-- **What `handle(C_Abort)` can do.** -/
inductive AbortMove (id : ℕ) (r : CReplica N) (m : Abort) : CReplica N → Prop where
  | dropped : AbortMove id r m r
  | collect (c : AbortCertificate) (hs : r.cur_state = .panicking) (hver : CAbort.verify N m)
      (hadd : r.aborts.add m = some c) : AbortMove id r m { r with aborts := c }
  | adopt (c : AbortCertificate) (ah_2 : AbortHistory)
      (hs : r.cur_state = .panicking) (hver : CAbort.verify N m)
      (hadd : r.aborts.add m = some c) (hfull : 3 * N.f + 1 ≤ c.count)
      (hproc : Smasher.process N.n N.f c.ac id = some (ah_2, [])) :
      AbortMove id r m ((r.afterMerge c ah_2 []).adopt [])
  | wait (c : AbortCertificate) (ah_2 missing : AbortHistory)
      (sent : List (ℤ × RMessage)) (hsent : r.sent <+: sent)
      (hs : r.cur_state = .panicking) (hver : CAbort.verify N m)
      (hadd : r.aborts.add m = some c) (hfull : 3 * N.f + 1 ≤ c.count)
      (hproc : Smasher.process N.n N.f c.ac id = some (ah_2, missing)) :
      AbortMove id r m { r.afterMerge c ah_2 missing with sent, cur_state := .miswaiting }

theorem abortMove_handleAbort (m : Abort) : AbortMove id r m (r.handleAbort id m) := by
  unfold handleAbort
  by_cases hs : r.cur_state = .panicking
  swap
  · rw [if_pos hs]
    exact .dropped
  rw [if_neg (not_not.2 hs)]
  split
  · exact .dropped
  next hver =>
  have hver' : CAbort.verify N m := by simpa using hver
  split
  · exact .dropped
  next c hadd =>
  split
  swap
  · exact .collect c hs hver' hadd
  next hfull =>
  unfold merge
  split
  · exact .collect c hs hver' hadd
  next ah_2 missing hproc =>
  split
  · next hnil =>
    obtain rfl := List.length_eq_zero_iff.1 hnil
    exact .adopt c ah_2 hs hver' hadd hfull hproc
  · exact .wait c ah_2 missing _ (List.prefix_append _ _) hs hver' hadd hfull hproc

/-- The state once a get-a-grip was taken for the `i`-th missing request. -/
def afterGrip (m : CGetAGrip) (i : ℕ) : CReplica N :=
  { r with
    missing_mask := r.missing_mask.set i false
    missing_store := r.missing_store.set i (some m.stored_request)
    missing_store_seq := r.missing_store_seq.set i m.seqno
    num_missing := r.num_missing - 1 }

/-- The requests that were fetched, with their sequence numbers. -/
def fetched : List (CRequest × ℕ) :=
  (r.missing_store.zip r.missing_store_seq).filterMap fun p => p.1.map fun req => (req, p.2)

/-- **What `handle(C_Get_a_grip)` can do.** -/
inductive GripMove (r : CReplica N) (m : CGetAGrip) : CReplica N → Prop where
  | dropped : GripMove r m r
  | fetch (i : ℕ) (hs : r.cur_state = .miswaiting) (hi : r.findMissing m = some i) :
      GripMove r m (r.afterGrip m i)
  | adopt (i : ℕ) (hs : r.cur_state = .miswaiting) (hi : r.findMissing m = some i)
      (hzero : (r.afterGrip m i).num_missing = 0) :
      GripMove r m ((r.afterGrip m i).adopt (r.afterGrip m i).fetched)

theorem gripMove_handleGetAGrip (m : CGetAGrip) : GripMove r m (r.handleGetAGrip m) := by
  unfold handleGetAGrip
  by_cases hs : r.cur_state = .miswaiting
  swap
  · rw [if_pos hs]
    exact .dropped
  rw [if_neg (not_not.2 hs)]
  split
  · exact .dropped
  next i hi =>
  dsimp only
  split
  · next hzero => exact .adopt i hs hi hzero
  · exact .fetch i hs hi

/-! ## The request thread -/

variable {r id}

theorem handlesPanic_of_checkpointing {c : CCheckpoint} {panics : Bool}
    (hthread : r.robustThread = .checkpointing c) :
    r.handlesPanic id (.robust panics) = (panics && r.completes id c) := by
  unfold handlesPanic
  rw [hthread]

/-- What `order` can do with a request: execute it under the next
sequence number, or take it for a repetition. -/
theorem order_cases (h : r.order id req = some (r', req')) :
    (r.isSeen req = false ∧ ∃ seqno,
      (seqno = (if id = 0 then r.seqno else r.last_seqno) + 1 ∧ req'.rep.seq_num = seqno) ∧
      req'.rep.cid = req.rep.cid ∧ req'.rep.rid = req.rep.rid ∧
      (id = 0 → req' = req.setSeqno seqno) ∧ (id ≠ 0 → req' = req) ∧
      r' = executeRequest { r with seqno } req') ∨
    (r.isSeen req = true ∧ r' = r ∧ (id ≠ 0 → req' = req) ∧
      (id = 0 → r.isOld req = false ∧
        req' = req.setSeqno (r.replies req.rep.cid).sent_seqno)) := by
  unfold order at h
  split at h
  · next hid =>
    split at h
    · next hseen =>
      obtain ⟨rfl, rfl⟩ := Prod.mk.inj (Option.some.inj h)
      exact .inl ⟨by simpa using hseen, r.seqno + 1, ⟨by rw [if_pos hid], rfl⟩, rfl, rfl, fun _ => rfl,
        fun h' => absurd hid h', rfl⟩
    · next hseen =>
      split at h
      · next hold =>
        obtain ⟨rfl, rfl⟩ := Prod.mk.inj (Option.some.inj h)
        exact .inr ⟨by simpa using hseen, rfl, fun h' => absurd hid h',
          fun _ => ⟨by simpa using hold, rfl⟩⟩
      · cases h
  · next hid =>
    split at h
    · next hseen =>
      split at h
      · cases h
      · next hseq =>
        obtain ⟨rfl, rfl⟩ := Prod.mk.inj (Option.some.inj h)
        exact .inl ⟨by simpa using hseen, r.last_seqno + 1, ⟨by rw [if_neg hid], not_not.1 hseq⟩,
          rfl, rfl,
          fun h' => absurd h' hid, fun _ => rfl, rfl⟩
    · next hseen =>
      obtain ⟨rfl, rfl⟩ := Prod.mk.inj (Option.some.inj h)
      exact .inr ⟨by simpa using hseen, rfl, fun _ => rfl, fun h' => absurd h' hid⟩

variable (r id req) (unonce : Cell)

/-- What the request thread does with a request that it verifies: drop
it, or execute or repeat it and send it on. -/
theorem processRequest_cases :
    r.processRequest id req unonce = r ∨
    ∃ req₁ off r' req', req.verify N.toCNode id = some (req₁, off) ∧
      r.order id req₁ = some (r', req') ∧
      r.processRequest id req unonce = r'.send id req' off unonce := by
  unfold processRequest
  split
  · exact .inl rfl
  split
  · exact .inl rfl
  next req₁ off hver =>
  split
  · exact .inl rfl
  next r' req' hord => exact .inr ⟨req₁, off, r', req', hver, hord, rfl⟩

/-! ## What the request thread leaves alone -/

/-- What a replica keeps of a merge while it waits for missing requests. -/
def waitingPart :=
  (r.ah_2, r.missing, r.missing_mask, r.missing_store, r.missing_store_seq, r.num_missing)

/-- What the other threads work on. -/
def steadyPart :=
  (r.cur_state, r.waitingPart, r.merges, r.switched, r.rh, r.aborts, r.sent,
    r.current_checkpoints, r.last_chkp_seqno, r.robustThread)

theorem steadyPart_forwardStopped : (r.forwardStopped id req).steadyPart = r.steadyPart := by
  unfold forwardStopped
  split <;> rfl

theorem steadyPart_processRequest : (r.processRequest id req unonce).steadyPart = r.steadyPart := by
  have hsend : ∀ (r : CReplica N) req off,
      (r.send id req off unonce).steadyPart = r.steadyPart := by
    intro r req off
    unfold send
    split <;> rfl
  rcases r.processRequest_cases id req unonce with heq | ⟨req₁, off, r', req', -, hord, heq⟩
  · rw [heq]
  rw [heq, hsend]
  rcases order_cases hord with ⟨-, seqno, -, -, -, -, -, rfl⟩ | ⟨-, rfl, -, -⟩
  · rfl
  · rfl

theorem steadyPart_requestMove : (r.requestMove id unonce).steadyPart = r.steadyPart := by
  unfold requestMove
  split
  · rfl
  · rfl
  · split
    · split <;> rfl
    · rfl
  · split
    · rfl
    split
    · rfl
    · exact steadyPart_forwardStopped ..
    · rfl
  · exact steadyPart_processRequest ..

/-! ## What the other threads leave alone -/

/-- The part of a replica that the order is about. -/
def orderPart :=
  (r.executed, r.replies, r.seqno, r.last_seqno, r.forwarded, r.requestThread, r.pending_requests)

/-- What is left of a merge after most moves, and of the state: at most a
panic was handled, and the replica had not stopped. -/
structure PanicFrame (panic : Bool) (r r' : CReplica N) : Prop where
  part : r'.waitingPart = r.waitingPart
  merges : r'.merges = r.merges
  switched : r'.switched = r.switched
  state : r'.cur_state = r.cur_state ∨
    panic = true ∧ r.cur_state ≠ .stop ∧ r'.cur_state = .panicking

variable {r id}

theorem PanicFrame.of_steady (h : r'.steadyPart = r.steadyPart) : PanicFrame panic r r' := by
  simp only [steadyPart, Prod.mk.injEq] at h
  obtain ⟨hs, hpart, hmerges, hswitched, -⟩ := h
  exact ⟨hpart, hmerges, hswitched, .inl hs⟩

theorem PanicFrame.trans (h : PanicFrame panic r r') (h' : PanicFrame panic r' r'') :
    PanicFrame panic r r'' := by
  refine ⟨h'.part.trans h.part, h'.merges.trans h.merges, h'.switched.trans h.switched, ?_⟩
  rcases h'.state with hs' | ⟨hpanic, hstop, hs'⟩
  · rw [hs']
    exact h.state
  · rcases h.state with hs | ⟨-, hstop, -⟩
    · rw [hs] at hstop
      exact .inr ⟨hpanic, hstop, hs'⟩
    · exact .inr ⟨hpanic, hstop, hs'⟩

theorem PanicFrame.ne_stop (h : PanicFrame panic r r') (hne : r'.cur_state ≠ .stop) :
    r.cur_state ≠ .stop := by
  intro hs
  rcases h.state with heq | ⟨-, hnot, -⟩
  · exact hne (heq.trans hs)
  · exact hnot hs

/-- The same, and what the request thread works on. -/
structure Quiet (panic : Bool) (r r' : CReplica N) : Prop extends PanicFrame panic r r' where
  order : r'.orderPart = r.orderPart
  macs : r'.macs = r.macs
  service : r'.service = r.service

/-- Everything `Quiet` is about. -/
def quietPart (r : CReplica N) :=
  (r.cur_state, r.waitingPart, r.merges, r.switched, r.orderPart, r.macs, r.service)

namespace Quiet

theorem of_part (h : r'.quietPart = r.quietPart) : Quiet panic r r' := by
  simp only [quietPart, Prod.mk.injEq] at h
  obtain ⟨hs, hpart, hmerges, hswitched, horder, hmacs, hservice⟩ := h
  exact ⟨⟨hpart, hmerges, hswitched, .inl hs⟩, horder, hmacs, hservice⟩

theorem trans (h : Quiet panic r r') (h' : Quiet panic r' r'') : Quiet panic r r'' :=
  ⟨h.toPanicFrame.trans h'.toPanicFrame, h'.order.trans h.order, h'.macs.trans h.macs,
    h'.service.trans h.service⟩

variable (r id)

theorem handlePanic (cid : ℤ) (rid : ℕ) : Quiet true r (r.handlePanic id cid rid) := by
  unfold CReplica.handlePanic
  dsimp only
  split
  · next hs => split <;> exact ⟨⟨rfl, rfl, rfl, .inr ⟨rfl, hs.2, rfl⟩⟩, rfl, rfl, rfl⟩
  · split <;> exact .of_part rfl

theorem truncate (seq : ℕ) : Quiet panic r (r.truncate seq) := by
  unfold CReplica.truncate
  split <;> exact .of_part rfl

theorem handleCheckpoint (c : CCheckpoint) (panics : Bool) :
    Quiet (panics && r.completes id c) r (r.handleCheckpoint id c panics) := by
  unfold CReplica.handleCheckpoint completes
  cases hcset : r.admitCheckpoint id c with
  | none =>
    dsimp only
    split <;> exact .of_part rfl
  | some cset =>
    by_cases hn : cset.n = 2 * N.f + 1
    swap
    · simp only [if_neg hn]
      exact .of_part rfl
    simp only [if_pos hn, beq_iff_eq.2 hn, Bool.and_true]
    have hdone : ∀ {r₁ : CReplica N} {n last sets}, Quiet panics r₁ { r₁ with
        current_nb_requests_while_checkpointing := n
        checkpoint_in_progress := false
        last_chkp_seqno := last
        current_checkpoints := sets } := .of_part rfl
    cases panics with
    | false => exact (truncate r c.seqid).trans hdone
    | true => exact ((truncate r c.seqid).trans hdone).trans (handlePanic _ id id 0)

theorem logExecuted (req : CRequest) : Quiet panic r (r.logExecuted id req) := by
  have hlog : ∀ rh thread,
      Quiet panic r { r with rh, logged := r.logged + 1, robustThread := thread } :=
    fun _ _ => .of_part rfl
  unfold CReplica.logExecuted
  dsimp only
  split
  · split
    · exact (hlog _ .idle).trans (truncate _ _)
    · exact hlog ..
  · exact hlog ..

theorem broadcastAbort (i : ℕ) (buffer : ℕ → AbortHistoryElement) :
    Quiet panic r (r.broadcastAbort id i buffer) := by
  unfold CReplica.broadcastAbort
  split <;> exact .of_part rfl

end Quiet

/-- **Every move, sorted**: quiet, of the request thread, or of the abort
phase. -/
inductive Sorted (id : ℕ) (r : CReplica N) : CEvent → CReplica N → Prop where
  | quiet {e : CEvent} {r' : CReplica N} (h : Quiet (r.handlesPanic id e) r r') : Sorted id r e r'
  | forward (req : CRequest) (panics : Bool) (hs : r.cur_state = .stop) :
      Sorted id r (.incoming (.request req) panics) (r.forwardStopped id req)
  | takeUp (req : CRequest) (panics : Bool) (hidle : r.requestThread = .idle)
      (hs : r.cur_state = .normal) :
      Sorted id r (.incoming (.request req) panics) { r with requestThread := .admitted req }
  | request (unonce : Cell) : Sorted id r (.request unonce) (r.requestMove id unonce)
  | abort {e : CEvent} (queue : List RMessage) (m : Abort) (htaken : r.taken e = some (.abort m)) :
      Sorted id r e ((r.popped queue).handleAbort id m)
  | getAGrip {e : CEvent} (queue : List RMessage) (m : CGetAGrip)
      (htaken : r.taken e = some (.getAGrip m)) :
      Sorted id r e ((r.popped queue).handleGetAGrip m)

theorem step_sorted (r : CReplica N) (id : ℕ) (e : CEvent) : Sorted id r e (r.step id e) := by
  have hdeed := r.step_deed id e
  generalize r.step id e = r' at hdeed ⊢
  cases hdeed with
  | forward req panics hs => exact .forward req panics hs
  | takeUp req panics hidle hs => exact .takeUp req panics hidle hs
  | request unonce => exact .request unonce
  | log q => exact .quiet (.logExecuted r id q)
  | own c panics hthread =>
    have hsends : ∀ {panic}, Quiet panic r (r.sends c) := .of_part rfl
    refine .quiet ?_
    rw [handlesPanic_of_checkpointing hthread]
    exact hsends.trans (.handleCheckpoint (r.sends c) id c panics)
  | handle e m panics queue htaken hpanic =>
    have hpop : ∀ {panic}, Quiet panic r (r.popped queue) := .of_part rfl
    cases m with
    | checkpoint c =>
      refine .quiet ?_
      rw [hpanic]
      exact hpop.trans (.handleCheckpoint (r.popped queue) id c panics)
    | panic cid rid =>
      refine .quiet ?_
      rw [hpanic]
      exact hpop.trans (.handlePanic _ id cid rid)
    | abort m => exact .abort queue m htaken
    | getAGrip m => exact .getAGrip queue m htaken
    | _ => exact .quiet (.of_part rfl)
  | timeout e hpanic =>
    refine .quiet ?_
    rw [hpanic]
    exact .handlePanic r id id 0
  | abort i buffer => exact .quiet (.broadcastAbort r id i buffer)
  | _ => exact .quiet (.of_part rfl)

end CReplica

end AbstractBFT.Chain
