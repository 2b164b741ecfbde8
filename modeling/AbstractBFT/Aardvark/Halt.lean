import AbstractBFT.Aardvark.Equivocation
import AbstractBFT.Aardvark.Server
/-!
# Aardvark — what a stopped replica still does

`cur_state` is read where a client request arrives and in the timers, and
nowhere else. A replica that stops goes on with what it has: batches in
its log are prepared, committed and executed as the messages for them
arrive, its queue is proposed, fetched state is installed, and the request
that reaches the threshold is itself taken.

So it stands still only if there is nothing left when it stops
(`Drained`), and nothing new is brought to it while it is stopped.
`still_of_stopped` is that this is enough.
-/

namespace AbstractBFT.Aardvark

open Machine

/-! ## Entries without a pre-prepare -/

namespace Replica

variable {N : Node} {r r' : Replica}

/-- Events of the ordering part that bring no batch. -/
def bringsNone : Event → Bool
  | .prePrepare _ _ | .request _ _ | .propose _ _ _ | .install _ _ | .make _ _ _ => false
  | _ => true

/-- Where there is no pre-prepare, such an event brings none, and nothing
is sent. -/
theorem Moved.quiet {n : ℕ} {e : Event} {τ : Slot} (h : Moved N r r' n e τ) (he : bringsNone e)
    (hpp : (r.log n).pc.pi.pp = none) : τ.pc.pi.pp = none ∧ τ.out = (r.log n).out := by
  cases h with
  | same _ => exact ⟨hpp, rfl⟩
  | truncated _ => exact ⟨rfl, rfl⟩
  | @prepare m _ _ _ _ _ =>
    refine ⟨(Slot.pp_prepare N r.v m (r.log n)).trans hpp, ?_⟩
    unfold Slot.prepare
    dsimp only
    split
    · rw [Slot.commitIfComplete_of_pp]
      exact hpp
    · rfl
  | commit _ _ _ => exact ⟨hpp, rfl⟩
  | stale _ =>
    refine ⟨?_, rfl⟩
    rw [Option.eq_none_iff_forall_not_mem]
    intro pp hmem
    rw [Slot.pp_markStale hmem] at hpp
    cases hpp
  | left _ _ => exact ⟨rfl, rfl⟩
  | prePrepare _ _ _ _ => cases he
  | released _ _ _ => cases he
  | proposed _ _ _ _ => cases he
  | installed _ _ _ _ _ _ _ _ _ _ => cases he
  | made _ _ _ _ _ _ _ => cases he

end Replica

/-! ## Drained replicas -/

namespace Server

variable {σ : Type} {X : Service σ} {N : Node} {s : Server σ}

/-- **Nothing is left to do**: nothing is tentative or queued, and the log
has no batch after the last one executed. -/
structure Drained (s : Server σ) : Prop where
  tentative : s.last_tentative_execute = s.ord.last_executed
  rqueue : s.rqueue.reqs = []
  ro_rqueue : s.ro_rqueue.reqs = []
  log : ∀ n, s.ord.last_executed < n → (s.ord.log n).pc.pi.pp = none

theorem drained_init (N : Node) (m : Memory σ) : (init N m).Drained where
  tentative := rfl
  rqueue := rfl
  ro_rqueue := rfl
  log := fun _ _ => rfl

theorem sendPrePrepare_of_nil (h : s.rqueue.reqs = []) : s.sendPrePrepare X N = s := by
  unfold sendPrePrepare
  rw [if_neg fun hcond => hcond.1 h]

namespace Drained

variable (h : s.Drained)
include h

theorem prepared : s.ord.prepared (s.ord.last_executed + 1) = none := by
  have hpp := h.log (s.ord.last_executed + 1) (Nat.lt_succ_self _)
  rw [Replica.prepared, if_neg (Slot.not_isComplete_of_pp hpp)]

theorem executePrepared : s.executePrepared X N = s := by
  unfold Server.executePrepared
  rw [h.prepared]
  split <;> rfl

theorem executeRound (stable : ℕ → List ℕ) : s.executeRound X N stable = none := by
  have hcommitted : s.ord.committed (s.ord.last_executed + 1) = none := by
    rw [Replica.committed, h.prepared, ite_self]
  unfold Server.executeRound
  rw [hcommitted]
  split <;> rfl

theorem executeCommitted (stable : ℕ → List ℕ) : s.executeCommitted X N stable = s := by
  have hloop : s.executeLoop X N stable (maxOut + 1) = s := by
    unfold Server.executeLoop
    rw [h.executeRound]
  unfold Server.executeCommitted
  rw [hloop]
  split
  · dsimp only
    split
    · exact sendPrePrepare_of_nil h.rqueue
    · rfl
  · rfl

theorem afterCommit (stable : ℕ → List ℕ) (n : ℕ) : s.afterCommit X N stable n = s := by
  unfold Server.afterCommit
  rw [h.executePrepared, ite_self]
  dsimp only
  split
  · exact h.executeCommitted stable
  · rfl

end Drained

/-- **From `s` to `s'` the replica stood still**: it executed nothing, its
memory is the same, and it sent no pre-prepare, and no prepare or commit
for a batch it had not executed. -/
structure Still (s s' : Server σ) : Prop where
  executed : s'.executed = s.executed
  answered : s'.answered = s.answered
  mem : s'.mem = s.mem
  proposed : s'.proposed = s.proposed
  out : ∀ n, s.ord.last_executed < n → (s'.ord.log n).out = (s.ord.log n).out

theorem Still.refl (s : Server σ) : Still s s := ⟨rfl, rfl, rfl, rfl, fun _ _ => rfl⟩

namespace Drained

variable (h : s.Drained)
include h

/-- A call into the ordering part that brings no batch. -/
theorem onOrd {e : Event} (hnone : Replica.bringsNone e)
    (hexec : Replica.keepsExecuted e) : (s.onOrd N e).Drained ∧ Still s (s.onOrd N e) := by
  have hle : (s.onOrd N e).ord.last_executed = s.ord.last_executed :=
    Replica.last_executed_step hexec
  have hquiet : ∀ n, s.ord.last_executed < n →
      ((s.onOrd N e).ord.log n).pc.pi.pp = none ∧
        ((s.onOrd N e).ord.log n).out = (s.ord.log n).out := fun n hn =>
    (Replica.moved_step N s.ord e n).quiet hnone (h.log n hn)
  refine ⟨⟨h.tentative.trans hle.symm, h.rqueue, h.ro_rqueue, fun n hn => ?_⟩,
    ⟨rfl, rfl, rfl, rfl, fun n hn => (hquiet n hn).2⟩⟩
  rw [hle] at hn
  exact (hquiet n hn).1

/-- Nothing comes into the log with a stable checkpoint. -/
theorem of_markStable {n : ℕ} (hn : ¬ n ≤ s.ord.last_stable) {have_state : Bool}
    {s' : Server σ} (hord : s'.ord = s.ord.markStable N n have_state)
    (hlte : s'.last_tentative_execute =
      if have_state then max n s.ord.last_executed else s.ord.last_executed)
    (hq : s'.rqueue.reqs = []) (hro : s'.ro_rqueue.reqs = []) : s'.Drained := by
  refine ⟨?_, hq, hro, fun k hk => ?_⟩
  · rw [hlte, hord, Replica.last_executed_markStable hn]
  · rw [hord] at hk ⊢
    rw [Replica.last_executed_markStable hn] at hk
    have hlow : s.ord.last_executed < k := by
      split at hk <;> omega
    have hmoved := Replica.moved_of_truncated
      (Replica.truncated_markStable N s.ord n have_state) k (.stable n have_state)
    exact (hmoved.quiet rfl (h.log k hlow)).1

theorem mark (hup : s.ord.halted = false) {n : ℕ} (hn : ¬ n ≤ s.ord.last_stable)
    (have_state : Bool) : (s.mark N n have_state).Drained ∧
      (s.mark N n have_state).ord = s.ord.markStable N n have_state ∧
      (s.mark N n have_state).executed = s.executed ∧
      (s.mark N n have_state).answered = s.answered ∧ (s.mark N n have_state).mem = s.mem ∧
      (s.mark N n have_state).proposed = s.proposed := by
  have hstep : s.ord.step N (.stable n have_state) = s.ord.markStable N n have_state := by
    rw [Replica.step, hup]
    rfl
  have hempty : s.newReplies.rqueue.reqs = [] := by
    show s.rqueue.reqs.filter _ = []
    rw [h.rqueue]
    rfl
  have htent := h.tentative
  unfold Server.mark
  -- whether the replica jumps to the checkpoint, and whether it has its state
  by_cases hjump : have_state ∧ s.ord.last_executed < n
  · rw [if_pos hjump, if_pos hjump.1]
    obtain ⟨hown, hlt⟩ := hjump
    refine ⟨h.of_markStable hn hstep ?_ hempty h.ro_rqueue, hstep, rfl, rfl, rfl, rfl⟩
    rw [if_pos hown]
    show n = max n s.ord.last_executed
    omega
  · rw [if_neg hjump]
    have hlte : s.last_tentative_execute =
        if have_state then max n s.ord.last_executed else s.ord.last_executed := by
      split
      · rename_i hown
        have : ¬ s.ord.last_executed < n := fun hlt => hjump ⟨hown, hlt⟩
        omega
      · exact htent
    split
    · exact ⟨h.of_markStable hn hstep hlte h.rqueue h.ro_rqueue, hstep, rfl, rfl, rfl, rfl⟩
    · exact ⟨h.of_markStable hn hstep hlte h.rqueue h.ro_rqueue, hstep, rfl, rfl, rfl, rfl⟩

theorem markStable (hup : s.ord.halted = false) (ns : List ℕ) :
    (s.markStable X N ns).Drained ∧ Still s (s.markStable X N ns) := by
  have hall : (s.markStable X N ns).Drained ∧ (s.markStable X N ns).executed = s.executed ∧
      (s.markStable X N ns).answered = s.answered ∧ (s.markStable X N ns).mem = s.mem ∧
      (s.markStable X N ns).proposed = s.proposed ∧
      ∀ k, ((s.markStable X N ns).ord.log k).out = (s.ord.log k).out := by
    induction ns generalizing s with
    | nil => exact ⟨h, rfl, rfl, rfl, rfl, fun _ => rfl⟩
    | cons n ns ih =>
      unfold Server.markStable
      split
      · exact ⟨h, rfl, rfl, rfl, rfl, fun _ => rfl⟩
      · rename_i hn
        obtain ⟨hd, hord, hexec, hans, hmem, hprop⟩ := h.mark (N := N) hup hn (s.mine.contains n)
        have hout : ∀ k, ((s.mark N n (s.mine.contains n)).ord.log k).out = (s.ord.log k).out := by
          intro k
          rw [hord]
          rcases (Replica.truncated_markStable N s.ord n (s.mine.contains n)).log k with
            heq | ⟨-, heq⟩ <;> rw [heq]
          rfl
        have hup' : (s.mark N n (s.mine.contains n)).ord.halted = false := by
          rw [hord, Replica.halted_markStable, hup]
        obtain ⟨hd', hexec', hans', hmem', hprop', hout'⟩ := ih hd hup'
        have hsend := sendPrePrepare_of_nil (X := X) (N := N) hd'.rqueue
        dsimp only
        rw [hsend, ite_self]
        exact ⟨hd', hexec'.trans hexec, hans'.trans hans, hmem'.trans hmem, hprop'.trans hprop,
          fun k => (hout' k).trans (hout k)⟩
  obtain ⟨hd, hexec, hans, hmem, hprop, hout⟩ := hall
  exact ⟨hd, ⟨hexec, hans, hmem, hprop, fun k _ => hout k⟩⟩

end Drained

/-! ## Runs -/

/-- The request `m` is more than answered again: it is executed, or
queued. -/
def Taken (N : Node) (s : Server σ) (m : Request) : Prop :=
  s.ord.hasNewView N ∧ (isReplica N m.cid = false ∨ m.signed ∧ m.read_only = false) ∧
    (m.read_only ∨ s.mem.rids m.cid < m.rid ∨
      s.mem.rids m.cid = m.rid ∧ N.primary s.ord.v ≠ N.id ∧ s.tentative m.cid)

theorem takeRequest_of_not_taken {m : Request} (h : ¬ s.Taken N m) : s.takeRequest X N m = s := by
  unfold takeRequest
  split
  · rename_i hopen
    have hno := fun hx => h ⟨hopen.1, hopen.2, hx⟩
    rw [if_neg fun hro => hno (Or.inl hro), if_neg fun hnew => hno (Or.inr (Or.inl hnew)),
      if_neg fun hagain => hno (Or.inr (Or.inr hagain))]
  · rfl

/-- **What a run must meet for a stop to be one**: the replica is drained
when it stops, the request that reaches the threshold is not taken, and a
stopped replica gets no pre-prepare, fetched state or new view. -/
def QuietOk (X : Service σ) (N : Node) (s : Server σ) : ServerEvent σ → Prop
  | .request m => s.cur_state = .normal → s.req_count_switch = X.nb_reqs_before_switching →
      s.Drained ∧ ¬ s.Taken N m
  | .enable false => s.cur_state = .normal → s.Drained
  | .prePrepare _ _ | .data _ | .fetched _ _ _ | .install _ _ | .make _ _ _ => s.cur_state = .normal
  | _ => True

/-- The invariant: stopped replicas are drained. -/
def StopInv (s : Server σ) : Prop := s.cur_state = .stop → s.Drained

/-- A stopped and drained replica stands still, whatever brings nothing
new. -/
theorem Drained.handle (h : s.Drained) (hup : s.ord.halted = false) (hstop : s.cur_state = .stop)
    {e : ServerEvent σ} (hok : s.QuietOk X N e) (hon : e ≠ .enable true) :
    (s.handle X N e).Drained ∧ Still s (s.handle X N e) := by
  have hnormal : s.cur_state ≠ .normal := by
    rw [hstop]
    nofun
  have hcalm : ¬ s.ord.last_executed < s.last_tentative_execute := by
    rw [h.tentative]
    exact Nat.lt_irrefl _
  cases e with
  | request m =>
    rw [Server.handle, handleRequest, hstop]
    exact ⟨h, .refl s⟩
  | prePrepare m stable => exact absurd hok hnormal
  | prepare m stable =>
    rw [Server.handle, handlePrepare]
    split
    · have hquiet := h.onOrd (N := N) (e := .prepare m) rfl rfl
      dsimp only
      split
      · rw [hquiet.1.afterCommit]
        exact hquiet
      · exact hquiet
    · exact ⟨h, .refl s⟩
  | commit m stable =>
    rw [Server.handle, handleCommit]
    split
    · have hquiet := h.onOrd (N := N) (e := .commit m) rfl rfl
      dsimp only
      split
      · rw [hquiet.1.executeCommitted]
        exact hquiet
      · exact hquiet
    · exact ⟨h, .refl s⟩
  | status => exact ⟨h, .refl s⟩
  | newKey => exact h.onOrd rfl rfl
  | stable ns => exact h.markStable hup ns
  | late =>
    rw [Server.handle, handleLate, if_neg hcalm, hup]
    show s.startFetch.Drained ∧ Still s s.startFetch
    unfold startFetch
    split
    · exact ⟨h, .refl s⟩
    · dsimp only
      split <;> exact ⟨⟨h.tentative, h.rqueue, h.ro_rqueue, h.log⟩,
        ⟨rfl, rfl, rfl, rfl, fun _ _ => rfl⟩⟩
  | data m => exact absurd hok hnormal
  | fetched c known stable => exact absurd hok hnormal
  | null =>
    rw [Server.handle, sendNull, if_neg fun hcond => hnormal hcond.1]
    exact ⟨h, .refl s⟩
  | leave w ckpts =>
    rw [Server.handle, sendViewChange, if_neg hcalm]
    split
    · exact ⟨h, .refl s⟩
    · exact h.onOrd rfl rfl
  | viewChange vc auth => exact h.onOrd rfl rfl
  | newView nv auth => exact h.onOrd rfl rfl
  | install ms pps => exact absurd hok hnormal
  | make nv ms pps => exact absurd hok hnormal
  | enable on =>
    cases on with
    | true => exact absurd rfl hon
    | false =>
      exact ⟨⟨h.tentative, h.rqueue, h.ro_rqueue, h.log⟩, ⟨rfl, rfl, rfl, rfl, fun _ _ => rfl⟩⟩

theorem switching_takeRequest (s : Server σ) (m : Request) :
    (s.takeRequest X N m).switching = s.switching := by
  unfold takeRequest
  split
  · split
    · split
      · exact (Flow.executeReadOnly s m).switching
      · rfl
    · split
      · split
        · dsimp only
          split
          · rfl
          · split
            · exact (Flow.sendPrePrepare _).switching
            · rfl
        · rfl
      · split <;> rfl
  · rfl

/-- **One event.** A replica that is stopped after it stood still, and is
drained. -/
theorem stopped_step (h : s.StopInv) {e : ServerEvent σ} (hok : s.QuietOk X N e)
    (hstop : (s.step X N e).cur_state = .stop) :
    (s.step X N e).Drained ∧ Still s (s.step X N e) := by
  unfold step at hstop ⊢
  split at hstop
  · rename_i hhalt
    rw [if_pos hhalt]
    exact ⟨h hstop, .refl s⟩
  rename_i hup
  rw [if_neg hup]
  have hup' : s.ord.halted = false := Bool.eq_false_iff.2 hup
  cases hcur : s.cur_state with
  | stop =>
    refine (h hcur).handle hup' hcur hok ?_
    rintro rfl
    cases hstop
  | normal =>
    have hnormal : s.cur_state ≠ .stop := by
      rw [hcur]
      nofun
    -- the replica stops here: it was disabled, or this is the request
    by_cases hreq : ∃ m, e = .request m
    · obtain ⟨m, rfl⟩ := hreq
      rw [handle, handleRequest, hcur] at hstop ⊢
      have hcount : s.req_count_switch = X.nb_reqs_before_switching := by
        by_contra hne
        have hsame := congrArg Prod.fst (switching_takeRequest (X := X) (N := N) (s.countRequest X) m)
        have hcount : (s.countRequest X).cur_state = s.cur_state := by rw [countRequest, if_neg hne]
        exact hnormal (hcount.symm.trans (hsame.symm.trans hstop))
      obtain ⟨hd, hnot⟩ := hok hcur hcount
      have htake : (s.countRequest X).takeRequest X N m = s.countRequest X := by
        refine takeRequest_of_not_taken fun htaken => hnot ?_
        rw [countRequest, if_pos hcount] at htaken
        exact htaken
      rw [htake, countRequest, if_pos hcount]
      exact ⟨⟨hd.tentative, hd.rqueue, hd.ro_rqueue, hd.log⟩, ⟨rfl, rfl, rfl, rfl, fun _ _ => rfl⟩⟩
    by_cases hon : ∃ on, e = .enable on
    · obtain ⟨on, rfl⟩ := hon
      cases on with
      | true => cases hstop
      | false =>
        have hd := hok hcur
        exact ⟨⟨hd.tentative, hd.rqueue, hd.ro_rqueue, hd.log⟩,
          ⟨rfl, rfl, rfl, rfl, fun _ _ => rfl⟩⟩
    · have hflow := Flow.handle (X := X) (N := N) s (fun m he => hreq ⟨m, he⟩)
        (fun on he => hon ⟨on, he⟩)
      exact absurd ((congrArg Prod.fst hflow.switching).symm.trans hstop) hnormal

/-- **A stopped replica stands still**: in every run whose events all meet
`QuietOk`, every event after which the replica is stopped, the one that
stops it included, leaves what it executed, its memory and what it sent
for batches not executed yet as they were. -/
theorem still_of_stopped (X : Service σ) (N : Node) (m : Memory σ) (es : List (ServerEvent σ))
    (hrun : Guarded (step X N) (QuietOk X N) (init N m) es) :
    Guarded (step X N) (fun s e => (s.step X N e).cur_state = .stop → Still s (s.step X N e))
      (init N m) es := by
  have hinv : StopInv (init N m) := fun _ => drained_init N m
  refine Guarded.weaken (I := StopInv) (fun s e h hok => ?_) hrun hinv
  exact ⟨fun hstop => (stopped_step h hok hstop).1, fun hstop => (stopped_step h hok hstop).2⟩

/-- A service that counts. -/
def counting : Service ℕ where
  exec_command n _ _ _ ro := if ro then n else n + 1
  capacity := List.length
  compute_non_det _ := []
  nb_reqs_before_switching := reqsBeforeSwitching

/-- Backup 1 executes the client's request, and stops. -/
def stopRun : List (ServerEvent ℕ) :=
  [.enable true, .prePrepare (toyBatch 1 0 1 7) fun _ => [],
    .prepare (toyPrepare 1 0 1 7 2) fun _ => [], .commit ⟨0, 1, 2, true⟩ fun _ => [],
    .commit ⟨0, 1, 3, true⟩ fun _ => [], .enable false, .request (toyRequest 1 7),
    .commit ⟨0, 1, 0, true⟩ fun _ => []]

theorem still_of_stopped_executed :
    let N := toyNode 1 1
    let m : Memory ℕ := ⟨0, fun _ => 0⟩
    (exec (step counting N) (init N m) stopRun).executed = [(toyRequest 1 7).key] ∧
      Guarded (step counting N)
        (fun s e => (s.step counting N e).cur_state = .stop → Still s (s.step counting N e))
        (init N m) stopRun := by
  refine ⟨by decide +kernel, still_of_stopped counting (toyNode 1 1) ⟨0, fun _ => 0⟩ stopRun
    ⟨trivial, rfl, trivial, trivial, trivial, fun _ => ⟨by decide +kernel,
      by decide +kernel, by decide +kernel, fun n hn => ?_⟩,
      fun h => absurd h (by decide +kernel), trivial, trivial⟩⟩
  match n with
  | 0 => exact absurd hn (by decide +kernel)
  | 1 => exact absurd hn (by decide +kernel)
  | n + 2 => rfl

/-- Backup 1 is stopped with a batch in its log. -/
def lateRun : List (ServerEvent ℕ) :=
  [.enable true, .prePrepare (toyBatch 1 0 1 7) fun _ => [], .enable false,
    .prepare (toyPrepare 1 0 1 7 2) fun _ => []]

/-- **A stopped replica executes**: the prepare that completes the
certificate makes it commit and execute the batch. -/
theorem stopped_executes :
    ¬ Guarded (step counting (toyNode 1 1))
      (fun s e => (s.step counting (toyNode 1 1) e).cur_state = .stop →
        Still s (s.step counting (toyNode 1 1) e))
      (init (toyNode 1 1) ⟨0, fun _ => 0⟩) lateRun := by
  intro h
  have hstill := h.2.2.2.1 (by decide +kernel)
  have hexec := hstill.executed
  revert hexec
  decide +kernel

end Server

end AbstractBFT.Aardvark
