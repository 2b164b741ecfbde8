import AbstractBFT.Ring.Replica
/-!
# The execution queue of Ring

Requests that cannot be executed yet wait in `execution_queue`, and
`process_execution_queue` should execute those whose turn has come
(`Processed`). The body of its loop was never written ("XXX: change..."):
with nothing to do it does nothing, otherwise it hangs or leaves the
requests where they are.
-/

namespace AbstractBFT.Ring

namespace RReplica

variable {S : Type} {N : RNode S} {r r' : RReplica N}

/-- **What processing the queue should do.** The call returns, and a batch
of queued requests was executed: those with the next numbers, as many as
there are, each once, in order and taken off the queue. -/
structure Processed (r r' : RReplica N) : Prop where
  up : r'.down = false
  batch : ∃ (batch : List (ℕ × MessageId)) (reqs : List RRequest),
    batch.map Prod.fst = List.range' (r.last_executed + 1) batch.length ∧
    (batch ++ r'.execution_queue).Perm r.execution_queue ∧
    (∀ e ∈ r.execution_queue, e.1 ≠ r.last_executed + batch.length + 1) ∧
    List.Forall₂ (fun e q => q.seqno = e.1 ∧ ∃ rms, r.requests e.2 = some rms ∧ rms.req = some q)
      batch reqs ∧
    r'.executed = r.executed ++ reqs ∧
    r'.last_executed = r.last_executed + batch.length

/-- Where nothing was executed there was nothing to do. -/
theorem Processed.none_next (h : Processed r r') (hexec : r'.executed = r.executed) :
    ∀ e ∈ r.execution_queue, e.1 ≠ r.last_executed + 1 := by
  obtain ⟨-, batch, reqs, -, -, hmax, hreqs, hexecuted, -⟩ := h
  rw [hexec] at hexecuted
  have hnone : reqs = [] := List.self_eq_append_right.1 hexecuted
  have hbatch : batch.length = 0 := by rw [hreqs.length_eq, hnone, List.length_nil]
  simpa [hbatch] using hmax

theorem executed_processExecutionQueue (r : RReplica N) :
    r.processExecutionQueue.executed = r.executed := by
  unfold processExecutionQueue
  split <;> rfl

/-- **Processing the queue does what it should exactly if there is nothing
to do**, whatever is queued. -/
theorem process_execution_queue_iff (r : RReplica N) (hup : r.down = false) :
    Processed r r.processExecutionQueue ↔
      ∀ e ∈ r.execution_queue, e.1 ≠ r.last_executed + 1 := by
  constructor
  · exact fun h => h.none_next r.executed_processExecutionQueue
  · intro hnext
    have hready : ¬ r.queueReady = true := by
      unfold queueReady
      split
      · exact nofun
      · rename_i e rest hq
        have hne := hnext e (by rw [hq]; exact List.mem_cons_self)
        simpa using hne
    have hstill : r.processExecutionQueue = r := by rw [processExecutionQueue, if_neg hready]
    rw [hstill]
    exact ⟨hup, [], [], rfl, List.Perm.refl _, hnext, .nil, (List.append_nil _).symm, rfl⟩

section Sample

/-- A replica that has executed two requests, with these in the queue. -/
def waiting (queued : List ℕ) : RReplica sampleNode :=
  queued.foldl (fun r seqno => r.push seqno (5, seqno))
    { init sampleNode 0 with last_executed := 2 }

theorem process_execution_queue_iff_gap :
    (waiting [6, 4, 6]).execution_queue.map Prod.fst = [4, 6, 6] ∧
      Processed (waiting [6, 4, 6]) (waiting [6, 4, 6]).processExecutionQueue := by
  refine ⟨by decide, (process_execution_queue_iff _ (by decide)).2 ?_⟩
  decide

/-- The next request is queued; so is it behind one that was executed. -/
theorem process_execution_queue_hangs :
    (waiting [4, 3]).processExecutionQueue.down = true ∧
    (waiting [3, 2]).processExecutionQueue = waiting [3, 2] ∧
    ¬ Processed (waiting [4, 3]) (waiting [4, 3]).processExecutionQueue ∧
    ¬ Processed (waiting [3, 2]) (waiting [3, 2]).processExecutionQueue := by
  refine ⟨by decide, rfl, fun h => ?_, fun h => ?_⟩
  · exact h.none_next rfl (3, (5, 3)) (by decide) rfl
  · exact h.none_next rfl (3, (5, 3)) (by decide) rfl

end Sample

end RReplica

end AbstractBFT.Ring
