import AbstractBFT.Pbft.TableIntegrity
/-!
# PBFT — the history that aborts list

`broadcast_abort` lists the history `rh`, as in the other protocols, which
add each request to it when they execute it. PBFT creates the history, sorts
out the merged one with it and resets it, but neither `execute_prepared` nor
`execute_committed` adds anything. So every abort lists nothing, and is
complete exactly where nothing was executed.
-/

namespace AbstractBFT.Pbft

open Machine

variable {S X : Type} {N : SNode S X}

/-- The element of an abort for a request. -/
def RequestMsg.element (r : RequestMsg) : AbortHistoryElement := ⟨r.cid, r.rid, r.od⟩

/-- The abort lists the requests, in their order. -/
def Lists (x : Abort × List RequestMsg) : Prop :=
  (x.2.map RequestMsg.element).Sublist x.1.history

namespace Core

variable {c c' : Core N}

/-- The empty history is rebuilt as the empty history. -/
theorem rebuild_of_nil (h : c.rh.rh = []) (ah_2 : AbortHistory) :
    c.rebuild ah_2 = .empty N.M RequestMsg := by
  rw [rebuild, h]
  induction ah_2 with
  | nil => rfl
  | cons e ah_2 ih => exact ih

theorem history_makeAbort (h : c.rh.rh = []) (rid : ℕ) (buffer : ℕ → AbortHistoryElement) :
    (c.makeAbort rid buffer).history = [] := by
  rw [Abort.history, makeAbort, h]
  rfl

theorem rh_handleAbort (h : c.rh.rh = []) (m : Abort) : (c.handleAbort m).rh.rh = [] := by
  rw [handleAbort]
  split
  · exact h
  split
  · exact h
  split
  · exact h
  split
  · exact h
  · split
    · rw [(tame_switchAway (A := ∅) _).rh, rebuild_of_nil h]
      rfl
    · exact h

theorem aborted_handleAbort (c : Core N) (m : Abort) : (c.handleAbort m).aborted = c.aborted := by
  rw [handleAbort]
  split
  · rfl
  split
  · rfl
  split
  · rfl
  split
  · rfl
  · split
    · exact (tame_switchAway (A := ∅) _).aborted
    · rfl

end Core

namespace Server

variable [DecidableEq X]

/-- Nothing but an answered panic adds to the aborts, and it adds what it
broadcasts. -/
theorem aborted_step (s : Server N) (e : SEvent S) :
    (s.step e).core.aborted = s.core.aborted ∧ (∀ cid rid buffer, e = .panic cid rid buffer →
      s.answers cid = false) ∨
    ∃ cid rid buffer, e = .panic cid rid buffer ∧ s.answers cid = true ∧
      (s.step e).core.aborted =
        s.core.aborted ++ [(s.core.makeAbort rid buffer, s.core.recent)] := by
  rw [step]
  cases hhalt : s.core.halted with
  | true => exact .inl ⟨rfl, fun cid _ _ _ => by rw [answers, hhalt]; rfl⟩
  | false =>
    rw [if_neg Bool.false_ne_true]
    cases e with
    | request m =>
      exact .inl ⟨(tame_handleRequest (A := Set.univ) s fun _ => trivial).aborted,
        fun _ _ _ he => by cases he⟩
    | panic cid rid buffer =>
      obtain ⟨st, hst⟩ := s.core.exists_startPanic
      have hcore := core_handlePanic s cid rid buffer
      rw [hst] at hcore
      by_cases hans : N.isReplica cid ∨ s.core.cur_state ≠ .stop
      · rw [if_pos hans] at hcore
        have hadd := congrArg Core.aborted hcore
        refine .inr ⟨cid, rid, buffer, rfl, ?_, hadd⟩
        rw [answers, hhalt]
        simpa using hans
      · rw [if_neg hans] at hcore
        have hsame := congrArg Core.aborted hcore
        refine .inl ⟨hsame, fun cid' _ _ he => ?_⟩
        cases he
        rw [answers, hhalt]
        simpa using hans
    | abort m => exact .inl ⟨s.core.aborted_handleAbort m, fun _ _ _ he => by cases he⟩
    | setEnabled state =>
      refine .inl ⟨?_, fun _ _ _ he => by cases he⟩
      cases state with
      | true =>
        change s.core.enable.aborted = _
        rw [Core.enable]
        split <;> rfl
      | false => exact (Core.tame_disable (A := ∅) s.core).aborted
    | _ =>
      exact .inl ⟨(tame_handle (A := ∅) s (fun _ he => by cases he) rfl).aborted,
        fun _ _ _ he => by cases he⟩

/-- **The history stays empty.** -/
theorem rh_step (s : Server N) (e : SEvent S) (h : s.core.rh.rh = []) : (s.step e).core.rh.rh = [] := by
  rw [step]
  split
  · exact h
  cases e with
  | request m =>
    have htame := tame_handleRequest (A := Set.univ) s (m := m) fun _ => trivial
    rw [handle, htame.rh]
    exact h
  | panic cid rid buffer =>
    obtain ⟨st, hst⟩ := s.core.exists_startPanic
    change (s.handlePanic cid rid buffer).core.rh.rh = []
    rw [core_handlePanic, hst]
    split <;> exact h
  | abort m => exact Core.rh_handleAbort h m
  | setEnabled state =>
    cases state with
    | true =>
      change s.core.enable.rh.rh = []
      rw [Core.enable]
      split
      · rfl
      · exact h
    | false =>
      change s.core.disable.rh.rh = []
      rw [(Core.tame_disable (A := ∅) s.core).rh]
      exact h
  | _ =>
    rw [(tame_handle (A := ∅) s (fun _ he => by cases he) rfl).rh]
    exact h

/-- No panic is answered after client requests were committed above the
last stable checkpoint. -/
def NothingToList (s : Server N) (e : SEvent S) : Prop :=
  ∀ cid rid buffer, e = .panic cid rid buffer → s.answers cid = true → s.core.recent = []

theorem lists_step_iff {s : Server N} (e : SEvent S) (h : s.core.rh.rh = []) :
    (∀ x ∈ (s.step e).core.aborted, Lists x) ↔
      (∀ x ∈ s.core.aborted, Lists x) ∧ s.NothingToList e := by
  rcases aborted_step s e with ⟨hsame, hno⟩ | ⟨cid, rid, buffer, rfl, hans, hadd⟩
  · rw [hsame]
    refine ⟨fun hl => ⟨hl, fun cid rid buffer he hans => ?_⟩, And.left⟩
    rw [hno cid rid buffer he] at hans
    cases hans
  · have hnew : Lists (s.core.makeAbort rid buffer, s.core.recent) ↔ s.core.recent = [] := by
      rw [Lists, Core.history_makeAbort h, List.sublist_nil, List.map_eq_nil_iff]
    rw [hadd, List.forall_mem_append, List.forall_mem_singleton, hnew]
    refine and_congr_right fun _ => ⟨fun hrec _ _ _ _ _ => hrec, fun hno => ?_⟩
    exact hno cid rid buffer rfl hans

/-- **Aborts list what was executed where nothing was**: in every run, the
aborts the replica broadcasts list the client requests it committed in this
activation above the last stable checkpoint, in their order, if and only if
there are none at any of them. -/
theorem aborts_list_executed_iff (service : S) (next : X) (es : List (SEvent S)) :
    (∀ x ∈ (exec step (init N service next) es).core.aborted, Lists x) ↔
      Guarded step NothingToList (init N service next) es := by
  have hrun := exec_iff_guarded (Q := fun s : Server N => ∀ x ∈ s.core.aborted, Lists x)
    (I := fun s => s.core.rh.rh = []) rh_step (fun s e h => lists_step_iff e h)
    (s := init N service next) rfl es
  exact hrun.trans (and_iff_right (List.forall_mem_nil _))

/-- One request is executed and committed, then a client panics. -/
def panicRun : List (SEvent ℕ) :=
  [.request (sampleRequestMsg [1] [1] true), .prePrepare samplePrePrepare true, .prepares 1,
    .commits 1 true, .panic 5 1 fun _ => ⟨0, 0, 0⟩]

/-- **The executed request is not listed.** -/
theorem abort_lists_nothing :
    (exec step (init sampleSNode 0 false) panicRun).core.aborted.map
      (fun x => (x.2, x.1.history)) = [([sampleRequestMsg [1] [1] true], [])] := by
  decide +kernel

end Server

end AbstractBFT.Pbft
