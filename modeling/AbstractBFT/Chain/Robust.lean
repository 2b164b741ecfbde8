import AbstractBFT.Chain.Order
/-!
# Chain — what handles what

Most moves of a replica leave the switch and the checkpoints alone.
`step_robust` sorts the moves by the handler that does not:
`handle(C_Checkpoint)`, for a message or for the replica's own
checkpoint, `handle(C_Abort)` and `handle(C_Get_a_grip)`. `SwitchFrame`
is what the first of them keeps, `CheckpointFrame` what the others keep.
`step_phase` sorts them for the merge alone, with everything a replica keeps
of one.
-/

namespace AbstractBFT.Chain

namespace CReplica

open List

variable {S : Type} {N : RNode S} {r r' r'' : CReplica N} {id : ℕ} {panic : Bool}

/-- Nothing happens to the switch, and the replica does not begin to wait
for missing requests. -/
structure SwitchFrame (r r' : CReplica N) : Prop where
  ah_2 : r'.ah_2 = r.ah_2
  missing : r'.missing = r.missing
  missing_store : r'.missing_store = r.missing_store
  merges : r'.merges = r.merges
  switched : r'.switched = r.switched
  waits : r'.cur_state = .miswaiting → r.cur_state = .miswaiting

/-- Nothing happens to the checkpoints, but the replica may be about to
send one of its own. -/
structure CheckpointFrame (id : ℕ) (r r' : CReplica N) : Prop where
  current_checkpoints : r'.current_checkpoints = r.current_checkpoints
  last_chkp_seqno : r'.last_chkp_seqno = r.last_chkp_seqno
  sent : r.sent <+: r'.sent
  thread : ∀ c, r'.robustThread = .checkpointing c →
    r.robustThread = .checkpointing c ∨ c.id = id

/-- Neither is touched. -/
structure Aside (id : ℕ) (r r' : CReplica N) : Prop extends
  SwitchFrame r r', CheckpointFrame id r r'

theorem SwitchFrame.refl (r : CReplica N) : SwitchFrame r r :=
  ⟨rfl, rfl, rfl, rfl, rfl, fun h => h⟩

theorem CheckpointFrame.refl (r : CReplica N) : CheckpointFrame id r r :=
  ⟨rfl, rfl, prefix_rfl, fun _ h => .inl h⟩

/-- The part of a replica that the checkpoints are about. -/
def checkpointPart (r : CReplica N) := (r.current_checkpoints, r.last_chkp_seqno, r.robustThread)

theorem CheckpointFrame.of_part (h : r'.checkpointPart = r.checkpointPart)
    (hsent : r.sent <+: r'.sent) : CheckpointFrame id r r' := by
  simp only [checkpointPart, Prod.mk.injEq] at h
  obtain ⟨hsets, hlast, hthread⟩ := h
  exact ⟨hsets, hlast, hsent, fun c hc => .inl (hthread ▸ hc)⟩

theorem CheckpointFrame.of_steady (h : r'.steadyPart = r.steadyPart) : CheckpointFrame id r r' := by
  simp only [steadyPart, Prod.mk.injEq] at h
  obtain ⟨-, -, -, -, -, -, hsent, hsets, hlast, hthread⟩ := h
  exact ⟨hsets, hlast, hsent ▸ prefix_rfl, fun c hc => .inl (hthread ▸ hc)⟩

theorem PanicFrame.switchFrame (h : PanicFrame panic r r') : SwitchFrame r r' := by
  have hpart := h.part
  simp only [waitingPart, Prod.mk.injEq] at hpart
  obtain ⟨hah, hmissing, -, hstore, -⟩ := hpart
  refine ⟨hah, hmissing, hstore, h.merges, h.switched, fun hs => ?_⟩
  rcases h.state with heq | ⟨-, -, hpanic⟩
  · exact heq ▸ hs
  · rw [hpanic] at hs
    cases hs

theorem Aside.of_steady (h : r'.steadyPart = r.steadyPart) : Aside id r r' := by
  have hframe : PanicFrame false r r' := .of_steady h
  exact ⟨hframe.switchFrame, .of_steady h⟩

theorem Quiet.aside (h : Quiet panic r r') (hpart : r'.checkpointPart = r.checkpointPart)
    (hsent : r.sent <+: r'.sent) : Aside id r r' :=
  ⟨h.toPanicFrame.switchFrame, .of_part hpart hsent⟩

/-! ## The moves that touch neither -/

variable (r id)

theorem checkpointFrame_handlePanic (cid : ℤ) (rid : ℕ) :
    (r.handlePanic id cid rid).checkpointPart = r.checkpointPart ∧
      r.sent <+: (r.handlePanic id cid rid).sent := by
  unfold handlePanic
  dsimp only
  split
  · split <;> exact ⟨rfl, prefix_append _ _⟩
  · split <;> exact ⟨rfl, prefix_rfl⟩

theorem aside_handlePanic (cid : ℤ) (rid : ℕ) : Aside id r (r.handlePanic id cid rid) :=
  (Quiet.handlePanic r id cid rid).aside (checkpointFrame_handlePanic r id cid rid).1
    (checkpointFrame_handlePanic r id cid rid).2

theorem aside_logExecuted (req : CRequest) : Aside id r (r.logExecuted id req) := by
  have hquiet : Quiet false r (r.logExecuted id req) := .logExecuted r id req
  refine ⟨hquiet.toPanicFrame.switchFrame, ?_⟩
  have hthread : ∀ (rh : CLog N) (truncated : ℕ) (thread : RobustThread),
      (∀ c, thread = .checkpointing c → c.id = id) →
      CheckpointFrame id r { r with rh, truncated, logged := r.logged + 1, robustThread := thread } :=
    fun _ _ _ h => ⟨rfl, rfl, prefix_rfl, fun c hc => .inr (h c hc)⟩
  unfold logExecuted
  dsimp only
  split
  · split
    · unfold truncate
      split
      · exact hthread _ _ .idle nofun
      · exact hthread _ _ .idle nofun
    · refine hthread _ _ _ fun c hc => ?_
      rw [← RobustThread.checkpointing.inj hc]
  · exact hthread _ _ .idle nofun

theorem aside_broadcastAbort (i : ℕ) (buffer : ℕ → AbortHistoryElement) :
    Aside id r (r.broadcastAbort id i buffer) := by
  have hquiet : Quiet false r (r.broadcastAbort id i buffer) := .broadcastAbort r id i buffer
  refine ⟨hquiet.toPanicFrame.switchFrame, ?_⟩
  unfold broadcastAbort
  split
  · exact .refl r
  · exact .of_part rfl (prefix_append _ _)

/-! ## The handlers -/

theorem switchFrame_handleCheckpoint (c : CCheckpoint) (panics : Bool) :
    SwitchFrame r (r.handleCheckpoint id c panics) :=
  (Quiet.handleCheckpoint r id c panics).toPanicFrame.switchFrame

theorem checkpointFrame_handleAbort (m : Abort) : CheckpointFrame id r (r.handleAbort id m) := by
  have hmove := r.abortMove_handleAbort id m
  generalize r.handleAbort id m = r' at hmove ⊢
  cases hmove with
  | dropped => exact .refl r
  | collect => exact .of_part rfl prefix_rfl
  | adopt => exact .of_part rfl prefix_rfl
  | wait c ah_2 missing sent hsent => exact .of_part rfl hsent

theorem checkpointFrame_handleGetAGrip (m : CGetAGrip) :
    CheckpointFrame id r (r.handleGetAGrip m) := by
  have hmove := r.gripMove_handleGetAGrip m
  generalize r.handleGetAGrip m = r' at hmove ⊢
  cases hmove with
  | dropped => exact .refl r
  | fetch => exact .of_part rfl prefix_rfl
  | adopt => exact .of_part rfl prefix_rfl

/-- What a move comes down to for the switch and the checkpoints. The
message a handler gets was taken off one of the queues. -/
inductive RobustMove (id : ℕ) (r : CReplica N) (e : CEvent) (r' : CReplica N) : Prop where
  | aside (h : Aside id r r')
  | checkpoint (queue : List RMessage) (c : CCheckpoint) (panics : Bool)
      (htaken : r.taken e = some (.checkpoint c))
      (heq : r' =
        (r.popped queue).handleCheckpoint id c panics)
  | own (c : CCheckpoint) (panics : Bool) (hthread : r.robustThread = .checkpointing c)
      (hevent : e = .robust panics) (heq : r' = (r.sends c).handleCheckpoint id c panics)
  | abort (queue : List RMessage) (m : Abort) (htaken : r.taken e = some (.abort m))
      (heq : r' = (r.popped queue).handleAbort id m)
  | getAGrip (queue : List RMessage) (m : CGetAGrip) (htaken : r.taken e = some (.getAGrip m))
      (heq : r' = (r.popped queue).handleGetAGrip m)

/-- **Every move, sorted by its handler.** -/
theorem step_robust (e : CEvent) : RobustMove id r e (r.step id e) := by
  have hdeed := r.step_deed id e
  generalize r.step id e = r' at hdeed ⊢
  have hquiet : ∀ {r' : CReplica N}, r'.quietPart = r.quietPart →
      r'.checkpointPart = r.checkpointPart → r.sent <+: r'.sent → Aside id r r' := by
    intro r' h
    have hq : Quiet false r r' := .of_part h
    exact hq.aside
  cases hdeed with
  | forward req => exact .aside (.of_steady (steadyPart_forwardStopped r id req))
  | takeUp => exact .aside (.of_steady rfl)
  | request unonce => exact .aside (.of_steady (steadyPart_requestMove r id unonce))
  | log q => exact .aside (aside_logExecuted r id q)
  | own c panics hthread => exact .own c panics hthread rfl rfl
  | take q queue =>
    exact .aside ⟨⟨rfl, rfl, rfl, rfl, rfl, fun h => h⟩, rfl, rfl, prefix_rfl, nofun⟩
  | handle e m panics queue htaken =>
    cases m with
    | checkpoint c => exact .checkpoint queue c panics htaken rfl
    | panic cid rid =>
      have h := aside_handlePanic (r.popped queue) id cid rid
      exact .aside ⟨⟨h.1.1, h.1.2, h.1.3, h.1.4, h.1.5, h.1.6⟩, h.2.1, h.2.2, h.2.3, h.2.4⟩
    | abort m => exact .abort queue m htaken rfl
    | missing m => exact .aside (hquiet rfl rfl (prefix_append _ _))
    | getAGrip m => exact .getAGrip queue m htaken rfl
    | _ => exact .aside (hquiet rfl rfl prefix_rfl)
  | timeout => exact .aside (aside_handlePanic r id id 0)
  | abort i buffer => exact .aside (aside_broadcastAbort r id i buffer)
  | _ => exact .aside (hquiet rfl rfl prefix_rfl)

/-! ## The moves that leave a merge alone -/

/-- What most moves do: nothing to the merge, and to the state at most a
panic. -/
structure Calm (r r' : CReplica N) : Prop where
  part : r'.waitingPart = r.waitingPart
  merges : r'.merges = r.merges
  switched : r'.switched = r.switched
  state : r'.cur_state = r.cur_state ∨ r'.cur_state = .panicking

theorem Calm.refl : Calm r r := ⟨rfl, rfl, rfl, Or.inl rfl⟩

variable {r} in
theorem PanicFrame.calm (h : PanicFrame panic r r') : Calm r r' :=
  ⟨h.part, h.merges, h.switched, h.state.imp_right fun hs => hs.2.2⟩

/-- What a move comes down to for a merge. -/
inductive PhaseMove (id : ℕ) (r : CReplica N) (e : CEvent) (r' : CReplica N) : Prop where
  | calm (h : PanicFrame (r.handlesPanic id e) r r')
  | abort (queue : List RMessage) (m : Abort) (htaken : r.taken e = some (.abort m))
      (heq : r' = (r.popped queue).handleAbort id m)
  | getAGrip (queue : List RMessage) (m : CGetAGrip) (htaken : r.taken e = some (.getAGrip m))
      (heq : r' = (r.popped queue).handleGetAGrip m)

/-- **Every move, sorted by what it does to a merge.** -/
theorem step_phase (e : CEvent) : PhaseMove id r e (r.step id e) := by
  have hsorted := r.step_sorted id e
  generalize r.step id e = r' at hsorted ⊢
  cases hsorted with
  | quiet h => exact .calm h.toPanicFrame
  | forward req => exact .calm (.of_steady (steadyPart_forwardStopped r id req))
  | takeUp => exact .calm (.of_steady rfl)
  | request unonce => exact .calm (.of_steady (steadyPart_requestMove r id unonce))
  | abort queue m htaken => exact .abort queue m htaken rfl
  | getAGrip queue m htaken => exact .getAGrip queue m htaken rfl

end CReplica

end AbstractBFT.Chain
