import AbstractBFT.Chain.Robust
/-!
# Chain — enabling a replica again

When the switcher comes back to Chain it calls `enable_replica(true)` on a
replica that has stopped. The history, the counters of requests and the
open checkpoints are made anew. The last stable checkpoint, the number of
requests let through during a checkpoint, the abort certificate, the robust
queue and what the threads have in hand are not: `LeavesNothing` says that
there is nothing in them, and then the replica starts fresh
(`enabled_starts_fresh`).
-/

namespace AbstractBFT.Chain

open Machine

namespace CReplica

variable {S : Type} {N : RNode S} {id : ℕ} {r r' r'' : CReplica N}

/-! ## The model -/

/-- `enable_replica`, which waits for `checkpointing_mutex`. -/
def enableReplica (r : CReplica N) (state : Bool) : CReplica N :=
  match r.cur_state, state with
  | .stop, true => if r.mutexHeld then r else r.enable
  | .normal, false | .stop, false =>
    { r with
      cur_state := .stop
      checkpoint_in_progress := r.mutexHeld && r.checkpoint_in_progress }
  | _, _ => r

/-- What happens to a replica over several activations. -/
inductive Activity where
  | move (e : CEvent)
  | enable (state : Bool)

/-- One of them, at replica `id`. -/
def act (id : ℕ) (r : CReplica N) : Activity → CReplica N
  | .move e => r.step id e
  | .enable state => r.enableReplica state

/-- A newly constructed replica with this service state and reply table. -/
def fresh (N : RNode S) (service : S) (replies : ℤ → RepEntry) : CReplica N :=
  { init N service with replies }

/-- What can be observed of an activation: the requests executed with their
sequence numbers, the history and where it was truncated, the requests put
off during a checkpoint, everything sent, and the service. -/
def observed (r : CReplica N) :=
  (r.executed, r.rh, r.truncated, r.pending_requests, r.forwarded, r.answered, r.sent, r.aborted,
    r.service)

/-- **The replica starts fresh**: whatever comes after it is enabled, it
shows what a new replica with its reply table and service would. -/
def StartsFresh (id : ℕ) (r : CReplica N) : Prop :=
  ∀ es : List Activity, (exec (act id) (r.enableReplica true) es).observed =
    (exec (act id) (fresh N r.service r.replies) es).observed

/-- **The old activation left nothing** in what `enable_replica` does not
touch. -/
structure LeavesNothing (r : CReplica N) : Prop where
  queue : r.robust_messages_queue = []
  robustThread : r.robustThread = .idle
  requestThread : r.requestThread = .idle
  toAbort : r.toAbort = []
  aborts : r.aborts = AbortCertificate.empty
  last_chkp_seqno : r.last_chkp_seqno = 0
  nb_requests : r.current_nb_requests_while_checkpointing = 0

/-! ## Nothing is left of a merge -/

/-- Before and after the abort phase there is nothing of a merge. -/
def Settled (r : CReplica N) : Prop :=
  r.cur_state = .normal ∨ r.cur_state = .stop → r.waitingPart = ([], [], [], [], [], 0)

namespace Settled

theorem init (service : S) : (CReplica.init N service).Settled := fun _ => rfl

theorem calm (h : r.Settled) (hcalm : Calm r r') : r'.Settled := by
  intro hs
  rw [hcalm.part]
  rcases hcalm.state with heq | hpanic
  · rw [heq] at hs
    exact h hs
  · rw [hpanic] at hs
    rcases hs with hs | hs <;> cases hs

/-- A replica that waits is not before or after the abort phase. -/
theorem of_miswaiting (hs : r.cur_state = .miswaiting) : r.Settled := by
  intro h
  rw [hs] at h
  rcases h with h | h <;> cases h

variable (h : r.Settled)
include h

/-- A merge leads out of the abort phase only by way of `adopt`, which
clears everything. -/
theorem handleAbort (m : Abort) : (r.handleAbort id m).Settled := by
  have hmove := r.abortMove_handleAbort id m
  generalize r.handleAbort id m = r' at hmove ⊢
  cases hmove with
  | dropped => exact h
  | collect => exact h
  | adopt => exact fun _ => rfl
  | wait => exact of_miswaiting rfl

theorem handleGetAGrip (m : CGetAGrip) : (r.handleGetAGrip m).Settled := by
  have hmove := r.gripMove_handleGetAGrip m
  generalize r.handleGetAGrip m = r' at hmove ⊢
  cases hmove with
  | dropped => exact h
  | fetch i hs => exact of_miswaiting hs
  | adopt => exact fun _ => rfl

theorem step (e : CEvent) : (r.step id e).Settled := by
  have hpop : ∀ queue, Settled (r.popped queue) := fun _ => h
  rcases r.step_phase id e with hframe | ⟨queue, m, -, heq⟩ | ⟨queue, m, -, heq⟩
  · exact h.calm hframe.calm
  · rw [heq]
    exact (hpop queue).handleAbort m
  · rw [heq]
    exact (hpop queue).handleGetAGrip m

theorem enableReplica (state : Bool) : (r.enableReplica state).Settled := by
  unfold CReplica.enableReplica
  split
  · rename_i hs
    split
    · exact h
    · exact fun _ => h (Or.inr hs)
  · rename_i hs
    exact fun _ => h (Or.inl hs)
  · rename_i hs
    exact fun _ => h (Or.inr hs)
  · exact h

theorem act (a : Activity) : (r.act id a).Settled := by
  cases a with
  | move e => exact h.step e
  | enable state => exact h.enableReplica state

end Settled

/-! ## Starting fresh -/

/-- **The enabled replica is a new one**, if nothing was left. -/
theorem enableReplica_eq_fresh (hstop : r.cur_state = .stop) (hsettled : r.Settled)
    (h : r.LeavesNothing) : r.enableReplica true = fresh N r.service r.replies := by
  have hmutex : r.mutexHeld = false := by
    unfold mutexHeld
    rw [h.requestThread]
  have hpart := hsettled (Or.inr hstop)
  simp only [waitingPart, Prod.mk.injEq] at hpart
  obtain ⟨hah, hmissing, hmask, hstore, hseq, hnum⟩ := hpart
  have henable : r.enableReplica true = r.enable := by
    unfold enableReplica
    rw [hstop]
    exact if_neg (by rw [hmutex]; decide)
  rw [henable]
  unfold enable fresh init
  rw [h.queue, h.robustThread, h.requestThread, h.toAbort, h.aborts, h.last_chkp_seqno,
    h.nb_requests, hah, hmissing, hmask, hstore, hseq, hnum]

/-- **A replica that is enabled again starts fresh**, after any run over any
number of activations that left nothing in the robust queue, in the hands of
its threads, in the abort certificate and in the two counters of
checkpoints. -/
theorem enabled_starts_fresh (N : RNode S) (id : ℕ) (service : S) (es : List Activity)
    (hstop : (exec (act id) (init N service) es).cur_state = .stop)
    (hleft : (exec (act id) (init N service) es).LeavesNothing) :
    (exec (act id) (init N service) es).StartsFresh id := by
  have hsettled : (exec (act id) (init N service) es).Settled :=
    exec_invariant (I := Settled) (fun _ a h => h.act a) (Settled.init service) es
  intro es'
  rw [enableReplica_eq_fresh hstop hsettled hleft]

/-- The head executes a request and it is appended to the history. -/
def headLogs : List Activity :=
  headExecutes.map .move ++ [.move (.robust false), .move (.robust false)]

/-- Then the switcher stops the replica. -/
def stopAfterLogging : List Activity := headLogs ++ [.enable false]

theorem enabled_starts_fresh_after_logging :
    let r := exec (act 0) (init sampleRNode ()) stopAfterLogging
    r.executed.length = 1 ∧ r.cur_state = .stop ∧ r.LeavesNothing ∧ r.StartsFresh 0 := by
  intro r
  have hstop : r.cur_state = .stop := by decide
  have hleft : r.LeavesNothing := ⟨rfl, rfl, rfl, rfl, rfl, rfl, rfl⟩
  exact ⟨by decide, hstop, hleft, enabled_starts_fresh sampleRNode 0 () stopAfterLogging hstop hleft⟩

/-- The switcher stops the replica before the request is appended. -/
def stopBeforeLogging : List Activity := headExecutes.map .move ++ [.enable false]

/-- Three replicas send a checkpoint for this sequence number. -/
def checkpointsFor (seq : ℕ) : List Activity :=
  [1, 2, 3].map fun i => .move (.incoming (.checkpoint ⟨i, seq, 0, []⟩) false)

/-- A checkpoint gets stable before the switcher stops the replica. -/
def stopAfterCheckpoint : List Activity := checkpointsFor 5 ++ [.enable false]

/-- **Old activations show.** A request that was executed before the stop
and not yet appended is appended to the new history; and the bound of an
old checkpoint keeps a new one from truncating the new history. -/
theorem enabled_not_fresh :
    ¬ (exec (act 0) (init sampleRNode ()) stopBeforeLogging).StartsFresh 0 ∧
      ¬ (exec (act 0) (init sampleRNode ()) stopAfterCheckpoint).StartsFresh 0 := by
  refine ⟨fun h => ?_, fun h => ?_⟩
  · have hview := h [.move (.robust false), .move (.robust false)]
    have hlen := congrArg (fun v => v.2.1.rh.length) hview
    exact absurd hlen (by decide)
  · have hview := h (headLogs ++ checkpointsFor 1)
    have hlen := congrArg (fun v => v.2.1.rh.length) hview
    exact absurd hlen (by decide)

end CReplica

end AbstractBFT.Chain
