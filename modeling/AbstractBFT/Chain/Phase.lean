import AbstractBFT.Chain.Applied
import AbstractBFT.Chain.Enable
/-!
# Chain — the abort phase

A replica that panics collects aborts, merges them, waits for the requests
it misses and stops. `PhaseStep` is that automaton with what it counts, the
merges and how often the next instance was enabled; it only moves forward.
The code follows it but for one transition: a panic takes a replica that
waits for missing requests back to `PANICKING`, and it merges another set.
-/

namespace AbstractBFT.Chain

open Machine

/-! ## The automaton -/

/-- The order of the states. -/
def ReplicaState.rank : ReplicaState → ℕ
  | .normal => 0
  | .panicking => 1
  | .miswaiting => 2
  | .stop => 3

/-- Where a replica is, the merges it made and how often it enabled the next
instance, since it was enabled. -/
structure Phase where
  state : ReplicaState
  merged : ℕ
  switched : ℕ

/-- **The abort phase.** A merge that misses no request leads to `STOP`
directly; the switcher can also stop a replica that has not panicked. -/
inductive PhaseStep : Phase → Phase → Prop where
  | stay (p : Phase) : PhaseStep p p
  | panic (m k : ℕ) : PhaseStep ⟨.normal, m, k⟩ ⟨.panicking, m, k⟩
  | wait (m k : ℕ) : PhaseStep ⟨.panicking, m, k⟩ ⟨.miswaiting, m + 1, k⟩
  | adopt (m k : ℕ) : PhaseStep ⟨.panicking, m, k⟩ ⟨.stop, m + 1, k + 1⟩
  | fetched (m k : ℕ) : PhaseStep ⟨.miswaiting, m, k⟩ ⟨.stop, m, k + 1⟩
  | disable (m k : ℕ) : PhaseStep ⟨.normal, m, k⟩ ⟨.stop, m, k⟩

namespace Phase

variable {p p' : Phase}

/-- What is left to do in a state counts against what was done. -/
structure Budget (p : Phase) : Prop where
  merged : p.merged + (if p.state.rank < 2 then 1 else 0) ≤ 1
  switched : p.switched + (if p.state.rank < 3 then 1 else 0) ≤ 1

theorem Budget.fresh : Budget ⟨.normal, 0, 0⟩ := ⟨by decide, by decide⟩

theorem Budget.merged_le (h : p.Budget) : p.merged ≤ 1 := by
  have := h.merged
  omega

theorem Budget.switched_le (h : p.Budget) : p.switched ≤ 1 := by
  have := h.switched
  omega

/-- **A step forward.** -/
theorem rank_le_of_step (h : PhaseStep p p') : p.state.rank ≤ p'.state.rank := by
  cases h <;> simp [ReplicaState.rank]

/-- **A merge and the switch are paid for by the state they lead out of.** -/
theorem Budget.step (h : p.Budget) (hstep : PhaseStep p p') : p'.Budget := by
  obtain ⟨hmerged, hswitched⟩ := h
  cases hstep with
  | stay => exact ⟨hmerged, hswitched⟩
  | panic => exact ⟨hmerged, hswitched⟩
  | wait => exact ⟨hmerged, hswitched⟩
  | adopt => exact ⟨hmerged, hswitched⟩
  | fetched => exact ⟨hmerged, hswitched⟩
  | disable => exact ⟨Nat.le_of_succ_le hmerged, Nat.le_of_succ_le hswitched⟩

end Phase

/-! ## The replica follows it -/

namespace CReplica

variable {S : Type} {N : RNode S} {id : ℕ} {r r' : CReplica N}

def phase (r : CReplica N) : Phase := ⟨r.cur_state, r.merges.length, r.switched⟩

/-- **No panic comes late**: while the replica waits for missing requests it
handles none, neither a message nor one of its own monitor. -/
def PanicsInTime (id : ℕ) (r : CReplica N) : Activity → Prop
  | .move e => r.cur_state = .miswaiting → r.handlesPanic id e = false
  | .enable _ => True

instance (a : Activity) : Decidable (r.PanicsInTime id a) := by
  cases a <;> dsimp only [PanicsInTime] <;> infer_instance

theorem phaseStep_frame {panic : Bool} (h : PanicFrame panic r r')
    (hintime : r.cur_state = .miswaiting → panic = false) : PhaseStep r.phase r'.phase := by
  have hphase : r'.phase = ⟨r'.cur_state, r.merges.length, r.switched⟩ := by
    unfold phase
    rw [h.merges, h.switched]
  rw [hphase]
  unfold phase
  rcases h.state with hs | ⟨hpanic, hstop, hs⟩
  · rw [hs]
    exact .stay _
  rw [hs]
  cases hold : r.cur_state with
  | normal => exact .panic ..
  | panicking => exact .stay _
  | miswaiting => exact absurd hpanic (by rw [hintime hold]; decide)
  | stop => exact absurd hold hstop

theorem phaseStep_handleAbort (r : CReplica N) (id : ℕ) (m : Abort) :
    PhaseStep r.phase (r.handleAbort id m).phase := by
  have hmove := r.abortMove_handleAbort id m
  generalize r.handleAbort id m = r' at hmove ⊢
  cases hmove with
  | dropped => exact .stay _
  | collect => exact .stay _
  | adopt c ah_2 hs =>
    have h := PhaseStep.adopt r.merges.length r.switched
    simpa [phase, hs, afterMerge, CReplica.adopt] using h
  | wait c ah_2 missing sent _ hs =>
    have h := PhaseStep.wait r.merges.length r.switched
    simpa [phase, hs, afterMerge] using h

theorem phaseStep_handleGetAGrip (r : CReplica N) (m : CGetAGrip) :
    PhaseStep r.phase (r.handleGetAGrip m).phase := by
  have hmove := r.gripMove_handleGetAGrip m
  generalize r.handleGetAGrip m = r' at hmove ⊢
  cases hmove with
  | dropped => exact .stay _
  | fetch => exact .stay _
  | adopt i hs =>
    have h := PhaseStep.fetched r.merges.length r.switched
    simpa [phase, hs, afterGrip, CReplica.adopt] using h

/-- **A move is a step of the automaton**, unless it handles a panic while
the replica waits. -/
theorem phaseStep_step {e : CEvent} (h : r.PanicsInTime id (.move e)) :
    PhaseStep r.phase (r.step id e).phase := by
  rcases r.step_phase id e with hframe | ⟨queue, m, -, heq⟩ | ⟨queue, m, -, heq⟩
  · exact phaseStep_frame hframe h
  · rw [heq]
    exact phaseStep_handleAbort (r.popped queue) id m
  · rw [heq]
    exact phaseStep_handleGetAGrip (r.popped queue) m

theorem phaseStep_disable (r : CReplica N) : PhaseStep r.phase (r.enableReplica false).phase := by
  unfold enableReplica phase
  cases hs : r.cur_state with
  | normal => exact .disable ..
  | panicking =>
    rw [hs]
    exact .stay _
  | miswaiting =>
    rw [hs]
    exact .stay _
  | stop => exact .stay _

/-- The replica is enabled: it stays as it is, or it starts over. -/
theorem phase_enable (r : CReplica N) :
    (r.enableReplica true).phase = r.phase ∨ (r.enableReplica true).phase = ⟨.normal, 0, 0⟩ := by
  unfold enableReplica
  split
  · split
    · exact Or.inl rfl
    · exact Or.inr rfl
  · rename_i hfalse
    cases hfalse
  · rename_i hfalse
    cases hfalse
  · exact Or.inl rfl

/-- Everything but enabling the replica is a step of the automaton. -/
theorem phaseStep_act {a : Activity} (h : r.PanicsInTime id a) (ha : a ≠ .enable true) :
    PhaseStep r.phase (r.act id a).phase := by
  match a with
  | .move e => exact phaseStep_step h
  | .enable false => exact phaseStep_disable r
  | .enable true => exact absurd rfl ha

theorem budget_act {a : Activity} (hb : r.phase.Budget) (h : r.PanicsInTime id a) :
    (r.act id a).phase.Budget := by
  by_cases ha : a = .enable true
  · rw [ha]
    rcases r.phase_enable with heq | heq
    · exact heq ▸ hb
    · exact heq ▸ Phase.Budget.fresh
  · exact hb.step (phaseStep_act h ha)

theorem rank_le_exec {es : List Activity} (h : Guarded (act id) (PanicsInTime id) r es)
    (hes : ∀ a ∈ es, a ≠ .enable true) :
    r.cur_state.rank ≤ (exec (act id) r es).cur_state.rank := by
  induction es generalizing r with
  | nil => exact le_rfl
  | cons a es ih =>
    have hone : r.cur_state.rank ≤ (r.act id a).cur_state.rank :=
      Phase.rank_le_of_step (phaseStep_act h.1 (hes a List.mem_cons_self))
    exact hone.trans (ih h.2 fun b hb => hes b (List.mem_cons_of_mem _ hb))

/-- The abort phase moves forward along this run: between two calls that
enable the replica no state comes before an earlier one, and no activation
merges twice or enables the next instance twice. -/
structure Forward (N : RNode S) (id : ℕ) (service : S) (es : List Activity) : Prop where
  onward : ∀ before between, before ++ between <+: es → (∀ a ∈ between, a ≠ .enable true) →
    (exec (act id) (init N service) before).cur_state.rank ≤
      (exec (act id) (init N service) (before ++ between)).cur_state.rank
  merged : ∀ before, before <+: es → (exec (act id) (init N service) before).merges.length ≤ 1
  switched : ∀ before, before <+: es → (exec (act id) (init N service) before).switched ≤ 1

/-- **The abort phase moves forward only**, in every run over any number of
activations in which no panic is handled while the replica waits for
missing requests. -/
theorem abort_phase_forward (N : RNode S) (id : ℕ) (service : S) (es : List Activity)
    (h : Guarded (act id) (PanicsInTime id) (init N service) es) : Forward N id service es := by
  have hbudget : ∀ before, before <+: es →
      (exec (act id) (init N service) before).phase.Budget := by
    rintro before ⟨rest, rfl⟩
    exact (guarded_append.1 h).1.invariant (I := fun r => r.phase.Budget)
      (fun _ _ hb ha => budget_act hb ha) Phase.Budget.fresh
  refine ⟨fun before between hpre hno => ?_, fun before hpre => (hbudget before hpre).merged_le,
    fun before hpre => (hbudget before hpre).switched_le⟩
  obtain ⟨rest, rfl⟩ := hpre
  rw [exec_append]
  exact rank_le_exec (guarded_append.1 (guarded_append.1 h).1).2 hno

/-- Replica `3`, which has executed nothing, merges the aborts of the others
and waits for the request. -/
def lastWaits : List CEvent :=
  panics ++ abortsArrive [(0, [passedOn []]), (1, [passedOn []]), (2, [passedOn []])]

theorem abort_phase_forward_last :
    let es := lastFetches.map Activity.move ++ [.enable true]
    let states := (List.range 8).map fun k =>
      (exec (act 3) (init sampleRNode ()) (es.take k)).cur_state
    states =
      [.normal, .panicking, .panicking, .panicking, .panicking, .miswaiting, .stop, .normal] ∧
      Forward sampleRNode 3 () es :=
  ⟨by decide +kernel, abort_phase_forward sampleRNode 3 () _ (by decide +kernel)⟩

/-- The panic of the client comes once more, and then the aborts. -/
def panicsAgain : List CEvent := lastWaits ++ lastWaits

/-- **A panic leads back.** The replica waits, handles the panic again,
collects aborts anew and merges them too. -/
theorem abort_phase_back :
    (exec (act 3) (init sampleRNode ()) (lastWaits.map .move)).cur_state = .miswaiting ∧
    (exec (act 3) (init sampleRNode ()) ((panicsAgain.take 6).map .move)).cur_state = .panicking ∧
    (exec (act 3) (init sampleRNode ()) (panicsAgain.map .move)).merges.length = 2 ∧
    ¬ Forward sampleRNode 3 () (panicsAgain.map .move) := by
  have hmerges :
      (exec (act 3) (init sampleRNode ()) (panicsAgain.map .move)).merges.length = 2 := by
    decide +kernel
  refine ⟨by decide +kernel, by decide +kernel, hmerges, fun h => ?_⟩
  have hle := h.merged _ List.prefix_rfl
  omega

end CReplica

end AbstractBFT.Chain
