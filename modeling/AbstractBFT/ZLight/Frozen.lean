import AbstractBFT.ZLight.Replica
/-!
# A stopped replica of ZLight

What a replica of ZLight does between leaving state `NORMAL` and
`enable_replica(true)`. Requests are answered with the notice to switch, or
put aside, and checkpoint messages can only shorten the history. But
`handle(zl_Order_request)` does not look at the state: an order request that
is next in order is executed (`frozen_iff` says that nothing else is).
-/

namespace AbstractBFT.ZLight

open Instance Machine List
open Chain (CCheckpoint)
open ZReplica (Takes Event)

variable {S : Type} {N : ZNode S} {r r' r'' : ZReplica N} {id : ℕ} {e : Event}

/-- The replica is frozen between two states: nothing is executed, no entry
joins the history, and what is sent are notices to switch and replies that
the table already had. -/
structure Frozen (r r' : ZReplica N) : Prop where
  still : r.core.Still r'.core
  state : r'.core.cur_state = r.core.cur_state
  history : r'.core.rh.rh <:+ r.core.rh.rh
  sent : ∃ l, r'.core.sent = r.core.sent ++ l ∧
    ∀ p ∈ l, p.2.rep.should_switch = true ∨ p.2.rep.rid = (r.core.replies p.1).rep.rid

namespace Frozen

theorem refl (r : ZReplica N) : Frozen r r :=
  ⟨.refl _, rfl, suffix_rfl, [], (append_nil _).symm, by simp⟩

theorem trans (h : Frozen r r') (h' : Frozen r' r'') : Frozen r r'' := by
  obtain ⟨l, hl, hold⟩ := h.sent
  obtain ⟨l', hl', hold'⟩ := h'.sent
  refine ⟨h.still.trans h'.still, h'.state.trans h.state, h'.history.trans h.history,
    l ++ l', ?_, ?_⟩
  · rw [hl', hl, append_assoc]
  · intro p hp
    rcases mem_append.1 hp with hp | hp
    · exact hold p hp
    · have := hold' p hp
      rwa [h.still.replies] at this

/-- Only `core` counts, and only four of its fields. -/
theorem of_core (hstill : r.core.Still r'.core) (hstate : r'.core.cur_state = r.core.cur_state)
    (hrh : r'.core.rh = r.core.rh) (hsent : r'.core.sent = r.core.sent) : Frozen r r' := by
  refine ⟨hstill, hstate, by rw [hrh], [], ?_, by simp⟩
  rw [hsent, append_nil]

theorem setSeqno (r : ZReplica N) (seqno : ℕ) : Frozen r (r.setSeqno seqno) :=
  of_core ⟨rfl, rfl, rfl⟩ rfl rfl rfl

theorem sendReply (r : ZReplica N) (id : ℕ) (cid : ℤ) :
    Frozen r { r with core := r.core.sendReply id cid } := by
  unfold IReplica.sendReply
  dsimp only
  split
  · exact of_core ⟨rfl, rfl, rfl⟩ rfl rfl rfl
  · refine ⟨⟨rfl, rfl, rfl⟩, rfl, suffix_rfl, _, rfl, fun p hp => ?_⟩
    obtain rfl := mem_singleton.1 hp
    exact Or.inr rfl

theorem notify (r : ZReplica N) (id : ℕ) (cid : ℤ) (rid : ℕ) :
    Frozen r { r with core := r.core.notify id cid rid } := by
  unfold IReplica.notify
  split
  · refine ⟨⟨rfl, rfl, rfl⟩, rfl, suffix_rfl, _, rfl, fun p hp => ?_⟩
    obtain rfl := mem_singleton.1 hp
    exact Or.inl rfl
  · exact of_core ⟨rfl, rfl, rfl⟩ rfl rfl rfl

theorem handleCheckpoint (r : ZReplica N) (id : ℕ) (c : CCheckpoint) :
    Frozen r { r with core := r.core.handleCheckpoint id c } := by
  have hf := r.core.handleCheckpoint_frame id c
  refine ⟨hf.still, hf.cur_state, hf.history, [], ?_, by simp⟩
  rw [append_nil]
  exact hf.sent

theorem handleRequest (h : r.core.cur_state ≠ .normal) (m : Request) :
    Frozen r (r.handleRequest id m) := by
  unfold ZReplica.handleRequest
  split
  · exact notify r id _ _
  · next hstate => exact absurd hstate h
  · exact of_core ⟨rfl, rfl, rfl⟩ rfl rfl rfl

theorem enableReplica (h : r.core.cur_state ≠ .normal) : Frozen r (r.enableReplica false) := by
  unfold ZReplica.enableReplica IReplica.enableReplica
  split
  · next hstop =>
    have hstop := hstop.resolve_left h
    exact of_core ⟨rfl, rfl, rfl⟩ hstop.symm rfl rfl
  · exact of_core ⟨rfl, rfl, rfl⟩ rfl rfl rfl

/-- An order request that is not taken. -/
theorem of_not_takes {o : OrderRequest} (h : ¬ Takes id r o) :
    Frozen r (r.handleOrderRequest id o) := by
  rcases ZReplica.handleOrderRequest_of_not_takes h with heq | heq | heq <;> rw [heq]
  · exact refl r
  · exact setSeqno r _
  · exact (setSeqno r _).trans (sendReply _ id _)

end Frozen

/-- An order request that is taken is executed. -/
theorem not_frozen_of_takes {o : OrderRequest} (h : Takes id r o) :
    ¬ Frozen r (r.handleOrderRequest id o) := by
  intro hfrozen
  obtain ⟨d, hstill, -⟩ := h.handleOrderRequest
  have hlen := congrArg List.length (hstill.executed.symm.trans hfrozen.still.executed)
  simp [IReplica.execute] at hlen

/-! ## One step -/

/-- An order request that a replica takes outside state `NORMAL`. -/
def Disturbs (id : ℕ) (r : ZReplica N) (e : Event) : Prop :=
  r.core.down = false ∧ r.core.cur_state ≠ .normal ∧ ∃ o, e = .order o ∧ Takes id r o

/-- **One step outside state `NORMAL`** freezes the replica unless it takes
an order request. -/
theorem frozen_step_iff (hstate : r.core.cur_state ≠ .normal) (he : e ≠ .enable true) :
    Frozen r (r.step id e) ↔ ¬ Disturbs id r e := by
  constructor
  · rintro hfrozen ⟨hup, -, o, rfl, htakes⟩
    rw [ZReplica.step, if_neg (by rw [hup]; decide)] at hfrozen
    exact not_frozen_of_takes htakes hfrozen
  · intro hnot
    unfold ZReplica.step
    split
    · exact .refl r
    · next hup =>
      cases e with
      | request m => exact .handleRequest hstate m
      | order o =>
        refine .of_not_takes fun htakes => hnot ⟨by simpa using hup, hstate, o, rfl, htakes⟩
      | checkpoint c => exact .handleCheckpoint r id c
      | enable state =>
        cases state with
        | false => exact .enableReplica hstate
        | true => exact absurd rfl he
      | other => exact .refl r

/-! ## Runs -/

/-- Over a stretch without `enable_replica(true)`, undisturbed, the replica
stays frozen. -/
theorem frozen_exec (hstate : r.core.cur_state ≠ .normal) {es : List Event}
    (he : Event.enable true ∉ es)
    (hg : Guarded (ZReplica.step id) (fun r e => ¬ Disturbs id r e) r es) :
    Frozen r (exec (ZReplica.step id) r es) := by
  induction es generalizing r with
  | nil => exact .refl r
  | cons e es ih =>
    rw [mem_cons, not_or] at he
    have hstep : Frozen r (r.step id e) := (frozen_step_iff hstate (Ne.symm he.1)).2 hg.1
    refine hstep.trans (ih ?_ he.2 hg.2)
    rw [hstep.state]
    exact hstate

/-- In every stretch of the run that starts outside state `NORMAL` and has
no `enable_replica(true)`, the replica is frozen. -/
def FrozenThroughout (id : ℕ) (r : ZReplica N) (es : List Event) : Prop :=
  ∀ l₁ l₂, l₁ ++ l₂ <+: es → (exec (ZReplica.step id) r l₁).core.cur_state ≠ .normal →
    Event.enable true ∉ l₂ →
    Frozen (exec (ZReplica.step id) r l₁) (exec (ZReplica.step id) r (l₁ ++ l₂))

/-- **A stopped replica is frozen exactly if it gets no order request that
it takes**: one that verifies, is next in order, and has a request that
verifies and is new. -/
theorem frozen_iff (N : ZNode S) (id : ℕ) (service : S) (last_seqno : ℕ) (es : List Event) :
    FrozenThroughout id (ZReplica.init N service last_seqno) es ↔
      Guarded (ZReplica.step id) (fun r e => ¬ Disturbs id r e)
        (ZReplica.init N service last_seqno) es := by
  constructor
  · intro h
    refine guarded_iff_forall_prefix.2 ?_
    rintro l e hl ⟨hup, hstate, o, rfl, htakes⟩
    have hfrozen := h l [.order o] hl hstate (by simp)
    rw [exec_append, exec_cons, exec_nil] at hfrozen
    exact (frozen_step_iff hstate (by simp)).1 hfrozen ⟨hup, hstate, o, rfl, htakes⟩
  · rintro hg l₁ l₂ ⟨l₃, rfl⟩ hstate he
    rw [exec_append]
    exact frozen_exec hstate he
      (guarded_append.1 (guarded_append.1 hg).1).2

section Sample

/-- Backup 1 is disabled; the primary's first order request arrives, and it
is executed, answered and put in the history. -/
theorem stopped_backup_executes :
    let r : ZReplica sampleNode := exec (ZReplica.step 1) (.init sampleNode 0 0)
      [.enable false]
    let r' := r.step 1 (.order (orderRequest sampleNode 1 (sampleRequest 4 1)))
    r.core.cur_state = .stop ∧ r.core.executed = [] ∧ r.core.rh.rh.length = 0 ∧
      r'.core.cur_state = .stop ∧ r'.core.executed.length = 1 ∧ r'.core.rh.rh.length = 1 ∧
      r'.core.sent = [(4, ⟨⟨0, 1, 0, 0, 1, 1, -1, false, 0⟩, [0]⟩)] := by
  decide +kernel

end Sample

end AbstractBFT.ZLight
