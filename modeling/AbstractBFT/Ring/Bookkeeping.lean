import AbstractBFT.Ring.Replica
/-!
# Acknowledgements in Ring

The map `requests` of a replica, and what an acknowledgement does to it.
`create_state_for_request` does not set `my_rmid` ("pending_req.my_rmid =
rmid" is commented out), so that every entry names `(0, 0)` as its key.
`handle(R_ACK)` finds the entry of its request and then changes the one
under `my_rmid`: it makes and marks an entry `(0, 0)`, and the request's own
entry is never marked.
-/

namespace AbstractBFT.Ring

open RReplica Function Machine List

variable {S : Type} {N : RNode S} {r r' : RReplica N}

/-! ## What the map should be -/

/-- Each entry has its key as its id. -/
def Keyed (r : RReplica N) : Prop := ∀ k rms, r.requests k = some rms → rms.my_rmid = k

/-- The state is that of an acknowledged request. -/
def RState.isMarked : RState → Bool
  | .acked_not_exec | .acked | .stable => true
  | _ => false

/-- The acknowledgement is neither old nor for a request the replica does
not know. -/
def AcceptsAck (r : RReplica N) (a : RAck) : Prop :=
  N.isPrincipal a.cid = true ∧ (r.replies a.cid).rid ≤ a.rid ∧ (r.requests a.rmid).isSome = true

/-- What handling `a` should do: no other entry changes, and if it is
accepted the entry of its request has its number, is marked, and was
executed or queued. -/
structure AckRecorded (r r' : RReplica N) (a : RAck) : Prop where
  others : ∀ k, k ≠ a.rmid → r'.requests k = r.requests k
  entry : AcceptsAck r a → ∃ rms q, r'.requests a.rmid = some rms ∧ rms.req = some q ∧
    q.seqno = a.seqno ∧ rms.state.isMarked = true ∧
    (q.seqno ≤ r'.last_executed ∨ ∃ k, (q.seqno, k) ∈ r'.execution_queue)

/-- The acknowledgement that an event hands to a replica. -/
def World.acked (w : World N) : Event → Option (ℕ × RAck)
  | .client _ _ => none
  | .deliver i =>
    if i < N.n ∧ (w.replica i).down = false then
      match w.link (World.pred N i) with
      | .ack a :: _ => some (i, a)
      | _ => none
    else none

/-- The bookkeeping after an event: every map is keyed, and an
acknowledgement is recorded. -/
def Bookkeeping (w : World N) (e : Event) : Prop :=
  (∀ i, Keyed ((w.step e).replica i)) ∧
    ∀ i a, w.acked e = some (i, a) → AckRecorded (w.replica i) ((w.step e).replica i) a

/-! ## What the map is -/

/-- Every entry names `(0, 0)`, and only the entry `(0, 0)` can be marked. -/
def Unmarked (requests : MessageId → Option MessageState) : Prop :=
  ∀ k rms, requests k = some rms →
    rms.my_rmid = (0, 0) ∧ (k ≠ (0, 0) → rms.state.isMarked = false)

namespace Unmarked

variable {requests : MessageId → Option MessageState}

theorem update_zero (h : Unmarked requests) {rms : MessageState} (hrms : rms.my_rmid = (0, 0)) :
    Unmarked (update requests (0, 0) (some rms)) :=
  Entries.forall_write h ⟨hrms, fun hne => absurd rfl hne⟩

theorem update_new (h : Unmarked requests) (k : MessageId) {rms : MessageState}
    (hrms : rms.my_rmid = (0, 0)) (hstate : rms.state.isMarked = false) :
    Unmarked (update requests k (some rms)) :=
  Entries.forall_write h ⟨hrms, fun _ => hstate⟩

theorem rmsRemove (h : Unmarked requests) {k : MessageId} {old : MessageState}
    (hold : requests k = some old) : Unmarked (RReplica.rmsRemove requests old) := by
  have hid := (h k old hold).1
  unfold RReplica.rmsRemove
  rw [hid]
  split
  · exact fun k' rms hk' => h k' rms (Entries.of_erase hk')
  · exact h.update_zero rfl

theorem createStateForRequest (h : Unmarked r.requests) (req : RRequest) :
    Unmarked (r.createStateForRequest req).requests := by
  rw [createStateForRequest_requests]
  have hold : Unmarked ((r.requests req.rmid).elim r.requests (RReplica.rmsRemove r.requests)) := by
    cases hold : r.requests req.rmid with
    | none => exact h
    | some old =>
      exact h.rmsRemove hold
  refine hold.update_new req.rmid rfl ?_
  unfold pendingReq
  split <;> rfl

theorem handleRequest (h : Unmarked r.requests) (id : ℕ) (req : RRequest) :
    Unmarked (r.handleRequest id req).1.requests := by
  by_cases hacc : r.Accepts req
  · have hmap := (doExecute_requests (r.assignSequence id req).1 (r.assignSequence id req).2).trans
      (assignSequence_requests r id req)
    rw [handleRequest_of_accepts id hacc]
    generalize (r.assignSequence id req).1.doExecute (r.assignSequence id req).2 = x at hmap ⊢
    have hx : Unmarked x.requests := by
      rw [hmap]
      exact h
    split
    · exact hx
    · exact hx.createStateForRequest _
  · rw [(handleRequest_of_not_accepts id hacc).2.1]
    exact h

end Unmarked

/-! ## What an acknowledgement does -/

theorem upgrade_my_rmid (r : RReplica N) (arms : MessageState) (areq : RRequest) :
    (r.upgrade arms areq).2.my_rmid = arms.my_rmid := by
  unfold upgrade
  dsimp only
  generalize r.executeRequest areq = out
  obtain ⟨r', x⟩ := out
  split_ifs <;> cases x <;> rfl

/-- **The map after an acknowledgement.** It writes the entry under the id
of the request's entry, and settles the request's own entry if that is
acknowledged by then. -/
theorem handleAck_requests (r : RReplica N) (id : ℕ) (a : RAck) :
    (r.handleAck id a).1.requests = r.requests ∨
      ∃ rms arms, r.requests a.rmid = some rms ∧
        arms.my_rmid = ((r.requests rms.my_rmid).getD .default).my_rmid ∧
        ((r.handleAck id a).1.requests = update r.requests rms.my_rmid (some arms) ∨
          ∃ own, update r.requests rms.my_rmid (some arms) a.rmid = some own ∧
            own.state.isAcked = true ∧ (r.handleAck id a).1.requests =
              update (update r.requests rms.my_rmid (some arms)) own.my_rmid
                (some { own with state := .stable })) := by
  unfold handleAck
  split
  · exact Or.inl rfl
  split
  · exact Or.inl rfl
  split
  · exact Or.inl rfl
  next rms hrms =>
  split
  · exact Or.inl rfl
  next areq hareq =>
  have hmap := upgrade_requests r ((r.requests rms.my_rmid).getD .default) areq
  have hid := upgrade_my_rmid r ((r.requests rms.my_rmid).getD .default) areq
  dsimp only
  generalize r.upgrade ((r.requests rms.my_rmid).getD .default) areq = u at hmap hid ⊢
  refine Or.inr ⟨rms, u.2, hrms, hid, ?_⟩
  rw [← hmap]
  split_ifs
  · exact Or.inl rfl
  · -- the round ends here
    unfold transformAck
    split
    · exact Or.inl rfl
    · next own hown =>
      split
      · next hacked =>
        refine Or.inr ⟨own, hown, hacked, ?_⟩
        rw [settle, sendReplyToClient_requests]
      · exact Or.inl rfl
  · unfold forwardAck
    split
    · exact Or.inl rfl
    · next own hown =>
      split
      · next hacked => exact Or.inr ⟨own, hown, hacked, rfl⟩
      · exact Or.inl rfl

theorem Unmarked.default_my_rmid {requests : MessageId → Option MessageState}
    (h : Unmarked requests) (k : MessageId) : ((requests k).getD .default).my_rmid = (0, 0) := by
  cases hk : requests k with
  | none => rfl
  | some rms => exact (h k rms hk).1

theorem Unmarked.handleAck (h : Unmarked r.requests) (id : ℕ) (a : RAck) :
    Unmarked (r.handleAck id a).1.requests := by
  rcases handleAck_requests r id a with heq | ⟨rms, arms, hrms, harms, hwrite⟩
  · rw [heq]
    exact h
  rw [h.default_my_rmid] at harms
  rw [(h a.rmid rms hrms).1] at hwrite
  have hzero := h.update_zero harms
  rcases hwrite with heq | ⟨own, hown, -, heq⟩
  · rw [heq]
    exact hzero
  · rw [heq, (hzero a.rmid own hown).1]
    exact hzero.update_zero rfl

/-- **The own entry of a client's request stays as it is**, and unmarked. -/
theorem Unmarked.own_entry (h : Unmarked r.requests) (id : ℕ) {a : RAck} (ha : a.rmid ≠ (0, 0)) :
    (r.handleAck id a).1.requests a.rmid = r.requests a.rmid := by
  rcases handleAck_requests r id a with heq | ⟨rms, arms, hrms, -, hwrite⟩
  · rw [heq]
  rw [(h a.rmid rms hrms).1] at hwrite
  rcases hwrite with heq | ⟨own, hown, hacked, heq⟩
  · rw [heq, update_of_ne ha]
  · -- an entry that is not marked is not acknowledged
    rw [update_of_ne ha] at hown
    have hstate := (h a.rmid own hown).2 ha
    cases hs : own.state <;> simp_all [RState.isMarked, RState.isAcked]

/-! ## Runs -/

/-- All maps of the ring. -/
def World.AllUnmarked (w : World N) : Prop := ∀ i, Unmarked (w.replica i).requests

theorem World.AllUnmarked.handleAt {w : World N} (h : w.AllUnmarked) (i : ℕ) (m : RMessage) :
    (w.handleAt i m).AllUnmarked := by
  intro j
  by_cases hj : j = i
  · subst hj
    rw [w.handleAt_replica_self]
    cases m with
    | request req => exact (h j).handleRequest j req
    | ack a => exact (h j).handleAck j a
  · rw [w.handleAt_replica_of_ne m hj]
    exact h j

theorem World.AllUnmarked.step {w : World N} (h : w.AllUnmarked) (e : Event) :
    (w.step e).AllUnmarked := by
  rcases w.step_cases e with heq | ⟨i, m, -, heq⟩ | ⟨i, m, rest, -, -, heq⟩ <;> rw [heq]
  · exact h
  · exact h.handleAt i _
  · have htake : World.AllUnmarked
        { w with link := update w.link (World.pred N i) rest } := h
    exact htake.handleAt i m

theorem World.AllUnmarked.run (N : RNode S) (service : S) (es : List Event) :
    (World.run N service es).AllUnmarked :=
  exec_invariant (fun _ e h => h.step e) (fun _ => nofun) es

/-- The event is no request, or one that a client sends to a replica. -/
def FromClient (N : RNode S) : Event → Prop
  | .client i m => i < N.n ∧ (N.n : ℤ) ≤ m.cid ∧ m.cid < N.num_principals
  | .deliver _ => True

instance (e : Event) : Decidable (FromClient N e) := by
  cases e <;> dsimp only [FromClient] <;> infer_instance

/-- As long as nothing was sent, nothing arrives. -/
theorem World.step_deliver_init (N : RNode S) (service : S) (i : ℕ) :
    (World.init N service).step (.deliver i) = World.init N service := by
  unfold World.step
  dsimp only
  split <;> rfl

/-- With nothing queued an execution comes back. -/
theorem doExecute_down (hqueue : r.execution_queue = []) (hup : r.down = false) (q : RRequest) :
    (r.doExecute q).down = false := by
  have hready : ∀ r' : RReplica N, r'.execution_queue = [] → r'.down = false →
      r'.processExecutionQueue.down = false := by
    intro r' hqueue' hup'
    rw [processExecutionQueue, if_neg (by simp [queueReady, hqueue'])]
    exact hup'
  unfold doExecute executeRequest executeNow
  split_ifs
  · exact hup
  · exact hup
  · exact hup
  · exact hready r hqueue hup
  · exact hready _ (by simp [hqueue]) hup

/-- A request that is accepted while nothing is queued gets an entry. -/
theorem exists_entry_of_accepts (id : ℕ) {m : RRequest} (hacc : r.Accepts m)
    (hqueue : r.execution_queue = []) (hup : r.down = false) :
    ∃ rms, (r.handleRequest id m).1.requests m.rmid = some rms ∧ rms.my_rmid = (0, 0) := by
  have hassign : (r.assignSequence id m).1.execution_queue = [] ∧
      (r.assignSequence id m).1.down = false ∧ (r.assignSequence id m).2.rmid = m.rmid := by
    unfold assignSequence
    split_ifs <;> exact ⟨hqueue, hup, rfl⟩
  obtain ⟨hq, hd, hrmid⟩ := hassign
  have hdown := doExecute_down hq hd (r.assignSequence id m).2
  rw [handleRequest_of_accepts id hacc]
  generalize (r.assignSequence id m).1.doExecute (r.assignSequence id m).2 = x at hdown ⊢
  rw [if_neg (by rw [hdown]; decide)]
  refine ⟨x.pendingReq (r.assignSequence id m).2, ?_, rfl⟩
  rw [createStateForRequest_requests, hrmid, update_self]

theorem rmid_ne_zero {k : MessageId} (h : (N.n : ℤ) ≤ k.1) : k ≠ (0, 0) := by
  rintro rfl
  rw [RNode.n] at h
  omega

/-- The first request of the run leaves an entry that is not keyed. -/
theorem not_keyed_of_first_request (N : RNode S) (service : S) {i : ℕ} {m : RRequest}
    (h : FromClient N (.client i m)) :
    ¬ Keyed (((World.init N service).step (.client i m)).replica i) := by
  obtain ⟨hi, hn, hcid⟩ := h
  have hacc : (RReplica.init N service).Accepts m := by
    refine ⟨?_, Nat.zero_le _⟩
    unfold RNode.isPrincipal
    simp only [Bool.and_eq_true, decide_eq_true_eq]
    omega
  obtain ⟨rms, hrms, hid⟩ := exists_entry_of_accepts i hacc rfl rfl
  intro hkeyed
  have hentry : (((World.init N service).step (.client i m)).replica i).requests m.rmid =
      some rms := by
    unfold World.step
    dsimp only
    rw [if_pos ⟨hi, rfl⟩, World.handleAt_replica_self]
    exact hrms
  have hzero := hkeyed m.rmid rms hentry
  rw [hid] at hzero
  exact rmid_ne_zero (k := m.rmid) hn hzero.symm

/-- What an acknowledgement for a client's request does to the entry of the
request: nothing, and it is not marked. -/
def LeavesUnmarked (r : RReplica N) (id : ℕ) (a : RAck) : Prop :=
  (r.handleAck id a).1.requests a.rmid = r.requests a.rmid ∧
    ∀ rms, r.requests a.rmid = some rms → rms.my_rmid = (0, 0) ∧ rms.state.isMarked = false

/-- **The bookkeeping never works.** Over requests of clients it holds along
a run only if the run has none, and in every state reached an
acknowledgement leaves the entry of its request unmarked. -/
theorem bookkeeping_iff (N : RNode S) (service : S) (es : List Event)
    (hes : ∀ e ∈ es, FromClient N e) :
    (Guarded World.step Bookkeeping (World.init N service) es ↔
        ∀ i m, Event.client i m ∉ es) ∧
      ∀ i a, (N.n : ℤ) ≤ a.cid →
        LeavesUnmarked ((World.run N service es).replica i) i a := by
  refine ⟨?_, fun i a ha => ?_⟩
  · induction es with
    | nil => simp [Guarded]
    | cons e es ih =>
      have ih := ih fun e' he' => hes e' (mem_cons_of_mem _ he')
      cases e with
      | client i m =>
        have hfirst := not_keyed_of_first_request N service (hes _ mem_cons_self)
        refine iff_of_false (fun h => hfirst (h.1.1 i)) fun h => h i m mem_cons_self
      | deliver i =>
        rw [Guarded, World.step_deliver_init, ih]
        constructor
        · rintro ⟨-, h⟩ j m hm
          rcases mem_cons.1 hm with hm | hm
          · cases hm
          · exact h j m hm
        · intro h
          refine ⟨⟨?_, ?_⟩, fun j m hm => h j m (mem_cons_of_mem _ hm)⟩
          · rw [World.step_deliver_init]
            intro j key rms hrms
            cases hrms
          · intro j a hack
            unfold World.acked at hack
            dsimp only at hack
            split at hack <;> cases hack
  · have h := World.AllUnmarked.run N service es i
    have hne : a.rmid ≠ (0, 0) := rmid_ne_zero (N := N) ha
    exact ⟨h.own_entry i hne, fun rms hrms => ⟨(h a.rmid rms hrms).1, (h a.rmid rms hrms).2 hne⟩⟩

section Sample

/-- A request of client 5 enters at replica 2 and goes around to replica 1,
which sends the acknowledgement to replica 2. -/
def ackedRun : List Event :=
  [.client 2 (sampleRequest 5 1 2), .deliver 3, .deliver 0, .deliver 1]

theorem bookkeeping_iff_acked :
    let w := World.run sampleNode 0 ackedRun
    ¬ Guarded World.step Bookkeeping (World.init sampleNode 0) ackedRun ∧
      LeavesUnmarked (w.replica 2) 2 ⟨5, 2, 1, 1, 0⟩ := by
  intro w
  obtain ⟨hiff, hleaves⟩ := bookkeeping_iff sampleNode 0 ackedRun (by decide +kernel)
  exact ⟨fun h => hiff.1 h 2 (sampleRequest 5 1 2) mem_cons_self, hleaves 2 _ (by decide)⟩

/-- Replica 2 accepts the acknowledgement with number 1. Its entry of the
request stays pending and without a number, an entry `(0, 0)` is marked, and
nothing is executed. -/
theorem ack_marks_other_entry :
    let w := World.run sampleNode 0 ackedRun
    let w' := w.step (.deliver 2)
    w.acked (.deliver 2) = some (2, ⟨5, 2, 1, 1, 0⟩) ∧
      AcceptsAck (w.replica 2) ⟨5, 2, 1, 1, 0⟩ ∧
      (w'.replica 2).requests (5, 1) = some ⟨some (sampleRequest 5 1 2), .pending, 1, (0, 0)⟩ ∧
      (w.replica 2).requests (0, 0) = none ∧
      (w'.replica 2).requests (0, 0) = some ⟨none, .acked, 0, (0, 0)⟩ ∧
      (w'.replica 2).executed = [] ∧ (w'.replica 2).execution_queue = [] ∧
      (w'.replica 2).down = false := by
  unfold AcceptsAck
  decide +kernel

end Sample

end AbstractBFT.Ring
