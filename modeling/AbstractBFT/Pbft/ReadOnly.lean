import AbstractBFT.Pbft.TableIntegrity
/-!
# PBFT — read-only requests

A read-only request is executed when it arrives, or waits until a batch is
committed, a view starts or a state arrives. The replica without it would do
the same, but for one thing: `execute_read_only`, where the command succeeds,
stops this instance and starts the next one. In a run in which that changes
nothing the requests can be erased.

Two replicas are followed side by side, with the requests and without them,
up to the first switch: `Blind` functions keep them together.
-/

namespace AbstractBFT.Pbft

open Machine List Option

open Chain (ReplicaState)

variable {S X : Type} {N : SNode S X}

/-- The service does what `read_only` asks: the command leaves its state
alone. -/
def SNode.ReadsOnly (N : SNode S X) (m : RequestMsg) : Prop :=
  ∀ s k, (N.exec_command s m.command m.cid k true).1 = s

/-- The event is a read-only request. -/
def SEvent.readOnly : SEvent S → Bool
  | .request m => m.read_only
  | _ => false

namespace Core

/-- A switch that changes nothing. -/
theorem switchAway_eq_self_iff (c : Core N) :
    c.switchAway = c ↔ c.cur_state ≠ .normal ∧ N.enable_next true c.next = c.next := by
  rw [switchAway, disable]
  constructor
  · intro h
    refine ⟨fun hnormal => ?_, congrArg Core.next h⟩
    rw [if_pos (.inl hnormal)] at h
    have hstop : ReplicaState.stop = c.cur_state := congrArg Core.cur_state h
    rw [hnormal] at hstop
    cases hstop
  · rintro ⟨hstate, hnext⟩
    rw [hnext]
    split
    · next hstop =>
      rw [← hstop.resolve_left hstate]
    · rfl

end Core

namespace Server

/-- The replica with the read-only requests, and the one without them. -/
structure Same (s t : Server N) : Prop where
  core : s.core = t.core
  empty : t.ro_rqueue = []
  queue : ∀ m ∈ s.ro_rqueue, N.ReadsOnly m

/-- They are together until a read-only request disturbs the first. -/
def Follows (s t : Server N) : Prop := s.disturbed = true ∨ Same s t

/-- The function does not see the read-only requests. -/
structure Blind (F : Server N → Server N) : Prop where
  keep : ∀ s, s.disturbed = true → (F s).disturbed = true
  like : ∀ s t, Same s t → Follows (F s) (F t)

namespace Blind

variable {F G : Server N → Server N} {s t : Server N}

theorem follows (hF : Blind F) (h : Follows s t) : Follows (F s) (F t) :=
  h.elim (fun hd => .inl (hF.keep s hd)) (hF.like s t)

theorem id : Blind fun s : Server N => s where
  keep _ h := h
  like _ _ h := .inr h

theorem comp (hG : Blind G) (hF : Blind F) : Blind fun s => G (F s) where
  keep s h := hG.keep _ (hF.keep s h)
  like s t h := hG.follows (hF.like s t h)

/-- What changes the rest of the replica alone, from what it is. -/
theorem of_core (f : Core N → Core N) (hcore : ∀ s, (F s).core = f s.core)
    (hqueue : ∀ s, (F s).ro_rqueue = s.ro_rqueue) (hdist : ∀ s, (F s).disturbed = s.disturbed) :
    Blind F where
  keep s h := (hdist s).trans h
  like s t h := .inr
    { core := by rw [hcore, hcore, h.core]
      empty := (hqueue t).trans h.empty
      queue := by rw [hqueue]; exact h.queue }

theorem on (f : Core N → Core N) : Blind fun s => s.on f :=
  of_core f (fun _ => rfl) (fun _ => rfl) (fun _ => rfl)

theorem ite {p : Core N → Prop} [∀ c, Decidable (p c)] (hF : Blind F) (hG : Blind G) :
    Blind fun s => if p s.core then F s else G s where
  keep s h := by
    split
    · exact hF.keep s h
    · exact hG.keep s h
  like s t h := by
    rw [h.core]
    split
    · exact hF.like s t h
    · exact hG.like s t h

theorem option {α : Type} {g : Core N → Option α} {F : α → Server N → Server N}
    (hF : ∀ a, Blind (F a)) (hG : Blind G) :
    Blind fun s => ((g s.core).map fun a => F a s).getD (G s) where
  keep s h := by
    cases g s.core with
    | none => exact hG.keep s h
    | some a => exact (hF a).keep s h
  like s t h := by
    rw [h.core]
    cases g t.core with
    | none => exact hG.like s t h
    | some a => exact (hF a).like s t h

theorem foldl {α : Type} {F : Server N → α → Server N} (hF : ∀ a, Blind fun s => F s a)
    (l : List α) : Blind fun s => l.foldl F s := by
  induction l with
  | nil => exact id
  | cons a l ih => exact ih.comp (hF a)

end Blind

/-! ## Executions of read-only requests -/

variable [DecidableEq X]
variable {m : RequestMsg} {s t : Server N} {G : Server N → Server N} {e : SEvent S}

/-- **One execution, exactly**: the rest of the replica is as it was unless
the switch changes something. -/
theorem executeReadOnly_eq_self_iff {c c' : Core N} (hm : N.ReadsOnly m)
    (h : c.executeReadOnly m = some c') : c' = c ↔ disturbs c m = false := by
  rw [Core.executeReadOnly] at h
  split at h
  case isFalse => cases h
  case isTrue hready =>
  have hservice : ({ c with
      service := (N.exec_command c.service m.command m.cid c.last_executed true).1 } : Core N) = c := by
    rw [hm]
  dsimp only at h
  rw [hservice] at h
  obtain rfl := some.inj h
  rw [disturbs, decide_eq_true hready, Bool.true_and]
  split
  · next herr =>
    rw [herr]
    exact ⟨fun _ => rfl, fun _ => rfl⟩
  · next herr =>
    rw [c.switchAway_eq_self_iff, eq_false_of_ne_true herr, Bool.not_false, Bool.true_and,
      decide_eq_false_iff_not, not_or, not_not]

theorem keep_readOnly (s : Server N) (m : RequestMsg) (h : s.disturbed = true) :
    (s.readOnly m).disturbed = true := by
  change (s.disturbed || disturbs s.core m) = true
  rw [h, Bool.true_or]

/-- A read-only request that is executed, or not, is not seen without a
switch. -/
theorem follows_readOnly (h : Same s t) (hm : N.ReadsOnly m) : Follows (s.readOnly m) t := by
  cases hd : disturbs s.core m with
  | true =>
    left
    change (s.disturbed || disturbs s.core m) = true
    rw [hd, Bool.or_true]
  | false =>
    refine .inr ⟨?_, h.empty, h.queue⟩
    rw [← h.core]
    change (s.core.executeReadOnly m).getD s.core = s.core
    cases hexec : s.core.executeReadOnly m with
    | none => rfl
    | some c => exact (executeReadOnly_eq_self_iff hm hexec).2 hd

theorem blind_drain : Blind (N := N) drain := by
  have hkeep : ∀ (l : ReqQueue) (s : Server N), s.disturbed = true →
      (l.foldl readOnly s).disturbed = true := by
    intro l
    induction l with
    | nil => exact fun _ h => h
    | cons m l ih => exact fun s h => ih _ (keep_readOnly s m h)
  refine ⟨fun s h => hkeep s.ro_rqueue _ h, fun s t h => ?_⟩
  have hlike : ∀ (l : ReqQueue) (s : Server N), (∀ m ∈ l, N.ReadsOnly m) → Follows s t →
      Follows (l.foldl readOnly s) t := by
    intro l
    induction l with
    | nil => exact fun _ _ h => h
    | cons m l ih =>
      intro s hl hs
      refine ih _ (fun m' hm' => hl m' (mem_cons_of_mem m hm')) ?_
      exact hs.elim (fun hd => .inl (keep_readOnly s m hd))
        fun hsame => follows_readOnly hsame (hl m mem_cons_self)
  have ht : t.drain = t := by
    obtain ⟨core, ro, out, dist⟩ := t
    obtain rfl := h.empty
    rfl
  rw [ht]
  exact hlike s.ro_rqueue _ h.queue (.inr ⟨h.core, h.empty, fun m hm => by cases hm⟩)

/-! ## The other functions -/

theorem blind_executeLoop (k : ℕ) : Blind (N := N) (executeLoop k) := by
  induction k with
  | zero => exact .id
  | succ k ih =>
    -- the batch of the round depends on the rest of the replica alone
    let batch (c : Core N) : Option PrePrepare :=
      if c.inWindow then (c.committed (c.last_executed + 1)).filter fun pp => pp.view == c.v
      else none
    have hloop : executeLoop (N := N) (k + 1) = fun s =>
        ((batch s.core).map fun pp => executeLoop k ((s.on Core.commitNext).drain.on fun c =>
          c.commitBatch ((pp.requests c.brt).getD []))).getD s := by
      funext s
      rw [executeLoop, executeRound]
      dsimp only [batch]
      split
      · next hnone =>
        split at hnone
        · split at hnone
          · next heq => rw [if_pos ‹_›, heq]; rfl
          · cases hnone
        · rw [if_neg ‹_›]; rfl
      · next s' hsome =>
        split at hsome
        · split at hsome
          · cases hsome
          · next heq =>
            obtain rfl := some.inj hsome
            rw [if_pos ‹_›, heq]
            rfl
        · cases hsome
    rw [hloop]
    exact .option (fun pp => ih.comp ((Blind.on _).comp (blind_drain.comp (.on _)))) .id

theorem blind_executeCommitted : Blind (N := N) executeCommitted :=
  .ite (p := fun c => c.fetching = false ∧ c.hasNewView)
    ((Blind.ite (p := fun c => c.inWindow) (.on _) .id).comp (blind_executeLoop (maxOut + 1))) .id

theorem blind_tryCommit (n : ℕ) : Blind (N := N) fun s => s.tryCommit n := by
  have hsend : Blind (N := N) fun s => s.sendCommit n :=
    (Blind.ite (p := fun c => c.clog n = .few) .id (blind_executeCommitted.comp (.on _))).comp (.on _)
  exact .ite (p := fun c => (c.plog n).isComplete) hsend .id

theorem blind_fillWaiting (rd : Digest) (ws : List WaitingPp) :
    Blind (N := N) fun s => s.fillWaiting rd ws :=
  .foldl (fun w => .ite (p := fun c => c.hasNewView ∧ c.inLog w.n)
    ((blind_tryCommit w.n).comp (.on _)) .id) ws

omit [DecidableEq X] in
theorem blind_enqueue (m : RequestMsg) {f : Core N → Core N} (hG : Blind G) :
    Blind fun s => ((s.enqueue m).map (·.on f)).getD (G s) := by
  have heq : (fun s : Server N => ((s.enqueue m).map (·.on f)).getD (G s)) = fun s =>
      ((ReqQueue.append s.core.rqueue m).map fun q =>
        (s.on fun c => { c with rqueue := q }).on f).getD (G s) := by
    funext s
    rw [enqueue, Option.map_map]
    rfl
  rw [heq]
  exact .option (g := fun c => ReqQueue.append c.rqueue m) (fun q => (Blind.on f).comp (.on _)) hG

theorem blind_addRequest (m : RequestMsg) (verified : Bool) (hG : Blind G) :
    Blind fun s => (s.addRequest m verified).getD (G s) :=
  .option (g := fun c => c.brt.addRequest RequestMsg.rid m verified (unverifiedOk c))
    (fun t => (blind_fillWaiting m.od t.2).comp (.on _)) hG

theorem blind_handleOrdered (m : RequestMsg) : Blind (N := N) fun s => s.handleOrdered m := by
  have hqueue : Blind (N := N) fun s => (s.enqueue m).getD s := by
    have h := blind_enqueue (N := N) m (f := id) .id
    simpa only [on, id, Option.map_id'] using h
  have hprimary := (blind_enqueue (N := N) m (f := Core.sendPrePrepare) .id).comp
    (.on fun c => { c with out := Function.update c.out m.cid (m.rid, (c.v : ℤ)) })
  refine .ite (p := fun c => (c.replies m.cid).rid < m.rid) ?_ ?_
  · refine .ite (p := fun c => c.isPrimary) ?_ (blind_addRequest m true hqueue)
    refine .ite (p := fun c => (c.out m.cid).1 < m.rid ∨ (c.out m.cid).2 < c.v) ?_ .id
    convert hprimary using 2 with s
    dsimp only
    cases (s.on _).enqueue m <;> rfl
  · exact .ite (p := fun c => (c.replies m.cid).rid = m.rid ∧ c.isPrimary = false ∧
      (c.replies m.cid).tentative) hqueue .id

theorem blind_handleRequest (hm : m.read_only = false) :
    Blind (N := N) fun s => s.handleRequest m := by
  simp only [handleRequest, hm, Bool.false_eq_true, if_false]
  refine .ite (p := fun c => c.cur_state = .stop) .id ?_
  refine .ite (p := fun c => c.cur_state ≠ .normal) ?_ ?_
  · exact .of_core (fun c => c) (fun _ => rfl) (fun _ => rfl) (fun _ => rfl)
  refine .ite (p := fun c => c.hasNewView ∧ m.verify N.toNode) ?_ (blind_addRequest m false .id)
  split
  · exact blind_handleOrdered m
  · exact .id

theorem blind_handlePrePrepare (m : PrePrepare) (ok : Bool) :
    Blind (N := N) fun s => s.handlePrePrepare m ok := by
  refine .ite (p := fun c => c.inLog m.seqno ∧ m.view = c.v ∧ c.low_bound < m.seqno ∧ c.hasNewView)
    ?_ ?_
  · exact .ite (p := fun c => (c.plog m.seqno).pp.isNone ∧ ok)
      ((blind_tryCommit m.seqno).comp (.on _)) .id
  · exact .ite (p := fun c => c.hasNewView = false ∧ ok) (.on _) .id

theorem blind_newState (k : ℕ) (service : S) (replies : ℤ → RepEntry) (stable : Bool) :
    Blind (N := N) fun s => s.newState k service replies stable :=
  (Blind.on _).comp (blind_drain.comp (blind_executeCommitted.comp (.on _)))

theorem blind_handle (he : ∀ m, e = .request m → m.read_only = false) :
    Blind (N := N) fun s => s.handle e := by
  cases e with
  | request m => exact blind_handleRequest (he m rfl)
  | prePrepare m ok => exact blind_handlePrePrepare m ok
  | vouched n =>
    simp only [handle]
    exact .on _
  | prepares n => exact .ite (p := fun c => c.inLog n) ((blind_tryCommit n).comp (.on _)) .id
  | commits n enough =>
    refine .ite (p := fun c => c.inLog n = false) .id ?_
    split
    · exact blind_executeCommitted.comp (.on _)
    · exact .on _
  | checkpoint n =>
    simp only [handle]
    exact .on _
  | fetch =>
    simp only [handle]
    exact .on _
  | newState k service replies stable => exact blind_newState k service replies stable
  | viewChange maxv logged =>
    simp only [handle]
    exact .on _
  | newView min max ms pps =>
    exact (Blind.ite (p := fun c => c.has_nv_state) blind_drain .id).comp (.on _)
  | panic cid rid buffer =>
    refine .of_core (fun c => if N.isReplica cid ∨ c.cur_state ≠ .stop then
      c.startPanic.broadcastAbort rid buffer else c.startPanic)
      (fun s => core_handlePanic s cid rid buffer) (fun s => ?_) (fun s => ?_)
    · simp only [handle, handlePanic]
      split_ifs <;> rfl
    · simp only [handle, handlePanic]
      split_ifs <;> rfl
  | abort m =>
    simp only [handle]
    exact .on _
  | setEnabled state =>
    cases state with
    | true => exact .of_core Core.enable (fun _ => rfl) (fun _ => rfl) (fun _ => rfl)
    | false => exact .on _

/-! ## Runs -/

theorem blind_step (he : e.readOnly = false) : Blind (N := N) fun s => s.step e := by
  refine .ite (p := fun c => c.halted) .id (blind_handle fun m hm => ?_)
  subst hm
  exact he

/-- A read-only request of which the other replica knows nothing. -/
theorem follows_step_readOnly (h : Follows s t) (hro : m.read_only = true) (hm : N.ReadsOnly m) :
    Follows (s.step (.request m)) t := by
  rw [step]
  split
  · exact h
  change Follows (s.handleRequest m) t
  simp only [handleRequest, hro, if_true]
  split_ifs
  · exact h
  · exact h.imp id fun hs => ⟨hs.core, hs.empty, hs.queue⟩
  · split
    · exact h.elim (fun hd => .inl (keep_readOnly s m hd)) fun hs => follows_readOnly hs hm
    · refine h.imp id fun hs => ⟨hs.core, hs.empty, fun q hq => ?_⟩
      cases happend : s.ro_rqueue.append m with
      | none =>
        simp only [happend, getD_none] at hq
        exact hs.queue q hq
      | some l =>
        simp only [happend, getD_some] at hq
        rcases ReqQueue.mem_of_append happend hq with rfl | hq
        · exact hm
        · exact hs.queue q hq
  · exact h
  · exact h

theorem follows_exec (h : Follows s t) {es : List (SEvent S)}
    (hes : ∀ m, .request m ∈ es → m.read_only = true → N.ReadsOnly m) :
    Follows (exec step s es) (exec step t (es.filter fun e => !e.readOnly)) := by
  induction es generalizing s t with
  | nil => exact h
  | cons e es ih =>
    have hrest : ∀ m, .request m ∈ es → m.read_only = true → N.ReadsOnly m :=
      fun m hm => hes m (mem_cons_of_mem e hm)
    cases hro : e.readOnly with
    | false =>
      rw [filter_cons_of_pos (by rw [hro]; rfl)]
      exact ih ((blind_step hro).follows h) hrest
    | true =>
      rw [filter_cons_of_neg (by rw [hro]; exact Bool.false_ne_true)]
      refine ih ?_ hrest
      cases e with
      | request m => exact follows_step_readOnly h hro (hes m mem_cons_self hro)
      | _ => cases hro

/-- **Read-only requests leave no trace where the switch changes nothing.**
From every state, in every run in which no read-only request is executed
whose switch changes something, the rest of the replica is at the end what
it is without the read-only requests, those that waited at the start
included; and an execution changes it exactly where its switch changes
something. -/
theorem readOnly_erasable (s : Server N) (es : List (SEvent S))
    (hqueue : ∀ m ∈ s.ro_rqueue, N.ReadsOnly m)
    (hes : ∀ m, .request m ∈ es → m.read_only = true → N.ReadsOnly m) :
    ((exec step s es).disturbed = false →
      (exec step s es).core =
        (exec step { s with ro_rqueue := [] } (es.filter fun e => !e.readOnly)).core) ∧
    ∀ c m c', N.ReadsOnly m → Core.executeReadOnly (N := N) c m = some c' →
      (c' = c ↔ disturbs c m = false) := by
  refine ⟨fun hno => ?_, fun c m c' hm h => executeReadOnly_eq_self_iff hm h⟩
  have hstart : Follows s { s with ro_rqueue := [] } := .inr ⟨rfl, rfl, hqueue⟩
  rcases follows_exec hstart hes with hd | hsame
  · rw [hno] at hd
    cases hd
  · exact hsame.core

/-- A service with one command, which reads, and fails or not. -/
def readingSNode (fails : Bool) : SNode ℕ Bool :=
  { sampleSNode with exec_command := fun s _ _ _ _ => (s, [], fails) }

/-- Client 5's read-only request. -/
def readRequest : RequestMsg :=
  let r : RequestMsg := ⟨0, true, false, 5, 1, [1], true, true⟩
  { r with od := r.compDigest sampleSNode.md5 }

/-- A read that fails leaves no trace. -/
theorem readOnly_erasable_failing :
    (exec step (init (readingSNode true) 0 false) [.request readRequest]).disturbed = false ∧
    (exec step (init (readingSNode true) 0 false) [.request readRequest]).core =
      (init (readingSNode true) 0 false).core := by
  have hno : (exec step (init (readingSNode true) 0 false)
      [.request readRequest]).disturbed = false := by decide +kernel
  exact ⟨hno, (readOnly_erasable (init (readingSNode true) 0 false) [.request readRequest]
    (forall_mem_nil _) fun _ _ _ _ _ => rfl).1 hno⟩

/-- **A read that succeeds stops the instance**, and starts the next one. -/
theorem read_stops_instance :
    let s := exec step (init (readingSNode false) 0 false) [.request readRequest]
    s.core.cur_state = .stop ∧ s.core.next = true ∧
      (init (readingSNode false) 0 false).core.cur_state = .normal ∧
      (init (readingSNode false) 0 false).core.next = false := by
  decide +kernel

end Server

end AbstractBFT.Pbft
