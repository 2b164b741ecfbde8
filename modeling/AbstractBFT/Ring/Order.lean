import AbstractBFT.Lib.Follow
import AbstractBFT.Lib.Once
import AbstractBFT.Ring.Replica
/-!
# Execution order in Ring

Replica 0 gives the requests their numbers as it executes them. Wherever a
numbered request is, on a link or in the map of a replica, its number says
which execution of replica 0 it belongs to (`Numbered`), so that a replica
that executes the number after its last one goes on where replica 0 went
(`InOrder`). Acknowledgements play no part: nothing reads their numbers.

A request must not come numbered from its client. Replica 0 replaces the
number, but every other replica takes it as the sequencer's.
-/

namespace AbstractBFT.Ring

open RReplica Function List

variable {S : Type} {N : RNode S} {r r' : RReplica N} {L L' : List MessageId} {q : RRequest}

/-! ## Numbers and executions -/

/-- The requests executed, by client and request id. -/
def ids (r : RReplica N) : List MessageId := r.executed.map RRequest.rmid

/-- The request has no number, or that of its place in `L`. -/
def Numbered (L : List MessageId) (q : RRequest) : Prop :=
  q.seqno = 0 ∨ L[q.seqno - 1]? = some q.rmid

theorem Numbered.mono (hL : L <+: L') (h : Numbered L q) : Numbered L' q :=
  h.imp_right fun hq => Follow.getElem?_of_upto hL hq

/-- The numbers of the executions are `1, 2, …`. -/
def Consecutive (executed : List RRequest) : Prop :=
  executed.map RRequest.seqno = List.range' 1 executed.length

/-- The replica has executed the first requests of `L`, in their order. -/
structure InOrder (L : List MessageId) (r : RReplica N) : Prop where
  upto : ids r <+: L
  last : r.last_executed = r.executed.length
  numbers : Consecutive r.executed

theorem InOrder.mono (hL : L <+: L') (h : InOrder L r) : InOrder L' r :=
  ⟨h.upto.trans hL, h.last, h.numbers⟩

theorem InOrder.idle (h : InOrder L r) (hidle : Idle r r') : InOrder L r' := by
  refine ⟨?_, ?_, ?_⟩
  · rw [ids, hidle.executed]
    exact h.upto
  · rw [hidle.last_executed, hidle.executed]
    exact h.last
  · rw [hidle.executed]
    exact h.numbers

/-- **The next request of `L` is executed.** -/
theorem InOrder.executeNow (h : InOrder L r) (hq : Numbered L q)
    (hnext : q.seqno = r.last_executed + 1) : InOrder L (r.executeNow q) := by
  obtain ⟨-, hlast, hexec, -⟩ := executeNow_spec r q
  refine ⟨?_, ?_, ?_⟩
  · have hat := hq.resolve_left (by omega)
    rw [hnext, h.last, Nat.add_sub_cancel] at hat
    have hlen : (ids r).length = r.executed.length := length_map _
    rw [← hlen] at hat
    rw [ids, hexec, map_append]
    exact Follow.concat_upto h.upto hat
  · rw [hlast, hexec, hnext, h.last]
    simp
  · rw [hexec]
    exact Follow.numbers_concat h.numbers (by rw [hnext, h.last])

theorem InOrder.moves (h : InOrder L r) (hmoves : Moves (Numbered L) r r') : InOrder L r' := by
  cases hmoves with
  | idle hidle => exact h.idle hidle
  | exec q hq hnext hidle => exact (h.executeNow hq hnext).idle hidle

/-- A request that was executed stands in `L` where its number says. -/
theorem InOrder.getElem?_of_mem (h : InOrder L r) (hq : q ∈ r.executed) :
    q.seqno ≠ 0 ∧ L[q.seqno - 1]? = some q.rmid := by
  obtain ⟨k, hk⟩ := List.getElem?_of_mem hq
  have hseqno : q.seqno = k + 1 := Follow.num_of_getElem? h.numbers hk
  refine ⟨by omega, Follow.getElem?_of_upto h.upto ?_⟩
  rw [hseqno, Nat.add_sub_cancel, ids, getElem?_map, hk]
  rfl

/-! ## The sequencer -/

/-- What replica 0 keeps: its counter is the number of its executions, and
its reply table has the last of each client, with its number. -/
structure Sequencer (r : RReplica N) : Prop where
  tracks : Once.Tracks RRequest.cid RRequest.rid (fun cid => (r.replies cid).rid) r.executed
  table : ∀ cid, (r.replies cid).seqno = 0 ∨
    (ids r)[(r.replies cid).seqno - 1]? = some (cid, (r.replies cid).rid)
  count : r.seqno = r.last_executed
  order : InOrder (ids r) r

namespace Sequencer

theorem init (N : RNode S) (service : S) : Sequencer (RReplica.init N service) :=
  ⟨.nil _ _, fun _ => Or.inl rfl, rfl, prefix_rfl, rfl, rfl⟩

variable (h : Sequencer r)

include h

theorem idle (hidle : Idle r r') : Sequencer r' ∧ ids r' = ids r := by
  have hids : ids r' = ids r := by rw [ids, ids, hidle.executed]
  refine ⟨⟨?_, ?_, ?_, ?_⟩, hids⟩
  · rw [hidle.replies, hidle.executed]
    exact h.tracks
  · rw [hidle.replies, hids]
    exact h.table
  · rw [hidle.seqno, hidle.last_executed]
    exact h.count
  · rw [hids]
    exact h.order.idle hidle

/-- What has a number already was executed. -/
theorem idle_of_moves (hmoves : Moves (Numbered (ids r)) r r') : Idle r r' := by
  cases hmoves with
  | idle hidle => exact hidle
  | exec q hq hnext hidle =>
    have hat := hq.resolve_left (by omega)
    have hlt := (List.getElem?_eq_some_iff.1 hat).1
    have hlast := h.order.last
    rw [ids, length_map] at hlt
    omega

/-- **A new request gets the next number and is executed.** -/
theorem executeNow (hnew : (r.replies q.cid).rid < q.rid) (hseqno : q.seqno = r.seqno + 1) :
    Sequencer (r.countUp.executeNow q) ∧ ids (r.countUp.executeNow q) = ids r ++ [q.rmid] := by
  obtain ⟨hcount, hlast, hexec, hreplies⟩ := executeNow_spec r.countUp q
  generalize r.countUp.executeNow q = r' at *
  dsimp only [countUp] at hcount hlast hexec hreplies
  have hlen : r.executed.length = r.seqno := by rw [h.count, h.order.last]
  have hids : ids r' = ids r ++ [q.rmid] := by rw [ids, hexec, map_append, ids, map_singleton]
  have hidslen : (ids r).length = r.seqno := by rw [ids, length_map, hlen]
  refine ⟨⟨?_, fun cid => ?_, ?_, ?_, ?_, ?_⟩, hids⟩
  · have htable : (fun cid => (r'.replies cid).rid) =
        update (fun cid => (r.replies cid).rid) q.cid q.rid := by
      funext cid
      rw [hreplies, update_apply]
      split <;> rfl
    rw [htable, hexec]
    exact h.tracks.concat hnew
  · rw [hreplies, hids]
    by_cases hcid : cid = q.cid
    · subst hcid
      rw [if_pos rfl]
      refine Or.inr ?_
      rw [hseqno, Nat.add_sub_cancel, ← hidslen, getElem?_concat_length]
      rfl
    · rw [if_neg hcid]
      exact (h.table cid).imp_right fun hat => Follow.getElem?_of_upto (prefix_append _ _) hat
  · rw [hcount, hlast, hseqno]
  · exact prefix_rfl
  · rw [hlast, hexec, hseqno, length_append, hlen, length_singleton]
  · rw [hexec]
    exact Follow.numbers_concat h.order.numbers (by rw [hseqno, hlen])

/-- What comes of a message at the sequencer. -/
structure Handled (r : RReplica N) (out : RReplica N × List RMessage) : Prop where
  zero : Sequencer out.1
  grows : ids r <+: ids out.1
  stored : Stored (Numbered (ids out.1)) out.1.requests
  sent : ∀ q, .request q ∈ out.2 → Numbered (ids out.1) q

/-- What comes of a message that executes nothing new. -/
theorem handled_of_moves {out : RReplica N × List RMessage}
    (hmoves : Moves (Numbered (ids r)) r out.1) (hstored : Stored (Numbered (ids r)) out.1.requests)
    (hsent : ∀ q, .request q ∈ out.2 → Numbered (ids r) q) : Handled r out := by
  obtain ⟨hzero, hids⟩ := h.idle (h.idle_of_moves hmoves)
  refine ⟨hzero, ?_, ?_, ?_⟩ <;> rw [hids]
  · exact hstored
  · exact hsent

variable (hstored : Stored (Numbered (ids r)) r.requests)

include hstored

/-- **A new request** joins the order; what is stored and sent on is about
the longer one. -/
theorem handleRequest_new {req : RRequest} (hacc : r.Accepts req)
    (hnew : (r.replies req.cid).rid < req.rid) : Handled r (r.handleRequest 0 req) := by
  have hcount := h.count
  have hlen : (ids r).length = r.seqno := by rw [ids, length_map, ← h.order.last, hcount]
  generalize hq : ({ req with seqno := r.seqno + 1 } : RRequest) = q
  have hassign : r.assignSequence 0 req = (r.countUp, q) := by
    rw [assignSequence, if_pos rfl, if_neg (by omega), hq]
  have hseqno : q.seqno = r.seqno + 1 := by rw [← hq]
  obtain ⟨hzero, hids⟩ := h.executeNow (q := q) (by rw [← hq]; exact hnew) hseqno
  have hdo : r.countUp.doExecute q = r.countUp.executeNow q := by
    rw [doExecute, if_neg (by omega), executeRequest, if_neg (by simp [countUp, hcount, hseqno]),
      if_neg (by simp [countUp, hcount, hseqno])]
  have hnum : Numbered (ids r ++ [q.rmid]) q := by
    refine Or.inr ?_
    rw [hseqno, Nat.add_sub_cancel, ← hlen, getElem?_concat_length]
  have hpre : ids r <+: ids r ++ [q.rmid] := prefix_append _ _
  obtain ⟨-, hmap, hsent⟩ := hacc.handleRequest 0
    (hstored.mono fun q' => Numbered.mono hpre) (by rw [hassign]; exact hnum)
  have hidle : Idle (r.countUp.executeNow q) (r.handleRequest 0 req).1 := by
    rw [handleRequest_of_accepts 0 hacc, hassign, hdo]
    split
    · exact .refl _
    · exact idle_createStateForRequest _ _
  obtain ⟨hzero', hids'⟩ := hzero.idle hidle
  rw [hids] at hids'
  refine ⟨hzero', ?_, ?_, ?_⟩ <;> rw [hids']
  · exact hpre
  · exact hmap
  · exact hsent

/-- The last request of a client again: it gets the number it had. -/
theorem handleRequest_again {req : RRequest} (hacc : r.Accepts req)
    (hold : req.rid ≤ (r.replies req.cid).rid) : Handled r (r.handleRequest 0 req) := by
  have hrid : (r.replies req.cid).rid = req.rid := Nat.le_antisymm hacc.2 hold
  have hassign : r.assignSequence 0 req =
      (r, { req with seqno := (r.replies req.cid).seqno }) := by
    rw [assignSequence, if_pos rfl, if_pos hold]
  have hnum : Numbered (ids r) { req with seqno := (r.replies req.cid).seqno } := by
    have htable := h.table req.cid
    rw [hrid] at htable
    exact htable
  obtain ⟨hmoves, hmap, hsent⟩ := hacc.handleRequest 0 hstored (by rw [hassign]; exact hnum)
  rw [hassign] at hmoves
  exact h.handled_of_moves hmoves hmap hsent

theorem handleRequest (req : RRequest) : Handled r (r.handleRequest 0 req) := by
  by_cases hacc : r.Accepts req
  · rcases Nat.lt_or_ge (r.replies req.cid).rid req.rid with hnew | hold
    · exact h.handleRequest_new hstored hacc hnew
    · exact h.handleRequest_again hstored hacc hold
  · obtain ⟨hidle, hmap, hsent⟩ := handleRequest_of_not_accepts 0 hacc
    refine h.handled_of_moves (.idle hidle) ?_ ?_
    · rw [hmap]
      exact hstored
    · simp [hsent]

theorem handle (m : RMessage) : Handled r (r.handle 0 m) := by
  cases m with
  | request req => exact h.handleRequest hstored req
  | ack a =>
    obtain ⟨hmoves, hmap, hsent⟩ := handleAck_spec 0 a hstored
    exact h.handled_of_moves hmoves hmap fun q hq => absurd hq (hsent q)

end Sequencer

/-! ## The other replicas -/

/-- A message at another replica: a request must have the number that the
sequencer gave it, or none. -/
theorem InOrder.handle {i : ℕ} (hi : i ≠ 0) (h : InOrder L r)
    (hstored : Stored (Numbered L) r.requests) {m : RMessage}
    (hm : ∀ q, m = .request q → Numbered L q) :
    InOrder L (r.handle i m).1 ∧ Stored (Numbered L) (r.handle i m).1.requests ∧
      ∀ q, .request q ∈ (r.handle i m).2 → Numbered L q := by
  cases m with
  | request req =>
    have hassign : r.assignSequence i req = (r, req) := by rw [assignSequence, if_neg hi]
    by_cases hacc : r.Accepts req
    · obtain ⟨hmoves, hmap, hsent⟩ := hacc.handleRequest i hstored
        (by rw [hassign]; exact hm req rfl)
      rw [hassign] at hmoves
      exact ⟨h.moves hmoves, hmap, hsent⟩
    · obtain ⟨hidle, hmap, hsent⟩ := handleRequest_of_not_accepts i hacc
      refine ⟨h.idle hidle, ?_, ?_⟩
      · rw [RReplica.handle, hmap]
        exact hstored
      · simp [RReplica.handle, hsent]
  | ack a =>
    obtain ⟨hmoves, hmap, hsent⟩ := handleAck_spec i a hstored
    exact ⟨h.moves hmoves, hmap, fun q hq => absurd hq (hsent q)⟩

/-! ## The ring -/

/-- What every run keeps: replica 0 is in order, every replica has executed
a first part of what it has, and the numbers on requests are its. -/
structure Agreed (w : World N) : Prop where
  zero : Sequencer (w.replica 0)
  each : ∀ i, InOrder (ids (w.replica 0)) (w.replica i)
  stored : ∀ i, Stored (Numbered (ids (w.replica 0))) (w.replica i).requests
  links : ∀ i q, .request q ∈ w.link i → Numbered (ids (w.replica 0)) q

namespace Agreed

variable {w : World N}

theorem init (N : RNode S) (service : S) : Agreed (World.init N service) := by
  refine ⟨Sequencer.init N service, fun _ => (Sequencer.init N service).order, ?_, ?_⟩
  · intro i k rms q hk
    cases hk
  · intro i q hq
    cases hq

variable (h : Agreed w)

include h

/-- What is on the links may be taken off. -/
theorem take {link : ℕ → List RMessage} (hlink : ∀ i m, m ∈ link i → m ∈ w.link i) :
    Agreed { w with link := link } :=
  ⟨h.zero, h.each, h.stored, fun i q hq => h.links i q (hlink i _ hq)⟩

variable (i : ℕ) {m : RMessage} (hm : ∀ q, m = .request q → Numbered (ids (w.replica 0)) q)

include hm

/-- **What replica `i` makes of a message**, against the order of replica 0
after it. -/
theorem handled :
    Sequencer ((w.handleAt i m).replica 0) ∧
      ids (w.replica 0) <+: ids ((w.handleAt i m).replica 0) ∧
      InOrder (ids ((w.handleAt i m).replica 0)) ((w.replica i).handle i m).1 ∧
      Stored (Numbered (ids ((w.handleAt i m).replica 0))) ((w.replica i).handle i m).1.requests ∧
      ∀ q, .request q ∈ ((w.replica i).handle i m).2 →
        Numbered (ids ((w.handleAt i m).replica 0)) q := by
  by_cases hi : i = 0
  · subst hi
    have hout := h.zero.handle (h.stored 0) m
    exact ⟨hout.zero, hout.grows, hout.zero.order, hout.stored, hout.sent⟩
  · rw [w.handleAt_replica_of_ne m (Ne.symm hi)]
    exact ⟨h.zero, prefix_rfl, (h.each i).handle hi (h.stored i) hm⟩

theorem handleAt : Agreed (w.handleAt i m) := by
  obtain ⟨hzero, hgrows, horder, hstored, hsent⟩ := h.handled i hm
  generalize hL : ids ((w.handleAt i m).replica 0) = L at hgrows horder hstored hsent
  refine ⟨hzero, ?_, ?_, ?_⟩ <;> rw [hL] <;> intro j
  · by_cases hj : j = i
    · subst hj
      rw [w.handleAt_replica_self]
      exact horder
    · rw [w.handleAt_replica_of_ne m hj]
      exact (h.each j).mono hgrows
  · by_cases hj : j = i
    · subst hj
      rw [w.handleAt_replica_self]
      exact hstored
    · rw [w.handleAt_replica_of_ne m hj]
      exact (h.stored j).mono fun q => Numbered.mono hgrows
  · intro q hq
    by_cases hj : j = i
    · subst hj
      rw [w.handleAt_link_self] at hq
      rcases mem_append.1 hq with hq | hq
      · exact (h.links j q hq).mono hgrows
      · exact hsent q hq
    · rw [w.handleAt_link_of_ne m hj] at hq
      exact (h.links j q hq).mono hgrows

end Agreed

/-- A client's request comes without a number. -/
def Unsequenced : Event → Prop
  | .client _ m => m.seqno = 0
  | .deliver _ => True

instance : DecidablePred Unsequenced
  | .client _ m => inferInstanceAs (Decidable (m.seqno = 0))
  | .deliver _ => isTrue trivial

theorem Agreed.step {w : World N} (h : Agreed w) {e : Event} (he : Unsequenced e) :
    Agreed (w.step e) := by
  rcases w.step_cases e with heq | ⟨i, m, rfl, heq⟩ | ⟨i, m, rest, rfl, hlink, heq⟩ <;> rw [heq]
  · exact h
  · refine h.handleAt i fun q hq => ?_
    obtain rfl := RMessage.request.inj hq
    exact Or.inl he
  · have htake : Agreed { w with link := update w.link (World.pred N i) rest } := by
      refine h.take fun j m' hm' => ?_
      by_cases hj : j = World.pred N i
      · subst hj
        rw [update_self] at hm'
        rw [hlink]
        exact mem_cons_of_mem _ hm'
      · rwa [update_of_ne hj] at hm'
    refine htake.handleAt i fun q hq => h.links (World.pred N i) q ?_
    rw [hlink, hq]
    exact mem_cons_self

theorem Agreed.run (N : RNode S) (service : S) {es : List Event} (hes : ∀ e ∈ es, Unsequenced e) :
    Agreed (World.run N service es) :=
  (Machine.Guarded.of_forall_mem hes _).invariant (fun _ _ h he => h.step he)
    (Agreed.init N service)

/-! ## Agreement -/

/-- The replicas execute the numbers `1, 2, …` one after the other, the same
request under the same number, and none twice. -/
structure RingAgreement (w : World N) : Prop where
  same : ∀ i j, ∀ q ∈ (w.replica i).executed, ∀ q' ∈ (w.replica j).executed,
    q.seqno = q'.seqno → q.rmid = q'.rmid
  numbers : ∀ i, Consecutive (w.replica i).executed
  once : ∀ i, (ids (w.replica i)).Nodup

/-- **Execution order.** With requests that come without a number, over
every interleaving of what the clients send and the links deliver. -/
theorem executes_in_order (N : RNode S) (service : S) (es : List Event)
    (hes : ∀ e ∈ es, Unsequenced e) : RingAgreement (World.run N service es) := by
  have h := Agreed.run N service hes
  refine ⟨fun i j q hq q' hq' hseqno => ?_, fun i => (h.each i).numbers, fun i => ?_⟩
  · have hat := ((h.each i).getElem?_of_mem hq).2
    have hat' := ((h.each j).getElem?_of_mem hq').2
    rw [hseqno, hat'] at hat
    exact (Option.some.inj hat).symm
  · have hnodup : (ids ((World.run N service es).replica 0)).Nodup := h.zero.tracks.nodup
    exact hnodup.sublist (h.each i).upto.sublist

section Sample

/-- Two requests at the sequencer; the first of them goes around. -/
def roundRun : List Event :=
  [.client 0 (sampleRequest 4 1 0), .client 0 (sampleRequest 5 1 0), .deliver 1, .deliver 2,
    .deliver 3]

theorem executes_in_order_round :
    let w := World.run sampleNode 0 roundRun
    ids (w.replica 0) = [(4, 1), (5, 1)] ∧ ids (w.replica 3) = [(4, 1)] ∧ RingAgreement w := by
  intro w
  exact ⟨by decide +kernel, by decide +kernel,
    executes_in_order sampleNode 0 roundRun (by decide +kernel)⟩

/-- Client 5 numbers its request itself and sends it to replica 2, while
replica 0 gives number 1 to the request of client 4. -/
theorem client_numbers_request :
    let w := World.run sampleNode 0
      [.client 2 { sampleRequest 5 1 2 with seqno := 1 }, .client 0 (sampleRequest 4 1 0)]
    ((w.replica 0).executed.map fun q => (q.seqno, q.rmid)) = [(1, (4, 1))] ∧
      ((w.replica 2).executed.map fun q => (q.seqno, q.rmid)) = [(1, (5, 1))] ∧
      ¬ RingAgreement w := by
  intro w
  refine ⟨by decide +kernel, by decide +kernel, fun h => ?_⟩
  have hsame := h.same 0 2 { sampleRequest 4 1 0 with seqno := 1 } (by decide +kernel)
    { sampleRequest 5 1 2 with seqno := 1 } (by decide +kernel) rfl
  exact absurd hsame (by decide)

end Sample

end AbstractBFT.Ring
