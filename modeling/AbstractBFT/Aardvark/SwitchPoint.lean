import AbstractBFT.Aardvark.BatchDigest
import AbstractBFT.Aardvark.Agreement
import AbstractBFT.Aardvark.Halt
import AbstractBFT.Lib.Replay
import Mathlib.Data.List.ReduceOption
/-!
# Aardvark — where replicas switch

The switching counts requests as they arrive, one replica at a time;
execution follows the pre-prepares of the primary. While the replicas stay
in the first view and none of them has to fetch state, each one executes
the batches in the order of their numbers, so what two replicas executed
are beginnings of one sequence (`Course`). Every replica has counted equally
many requests when it reaches the threshold for the `k`-th time (`Tallied`),
so they stop at the same point if each has executed as many as it counted.
Nothing in the counting sees to that: a replica may count a request that is
not ordered yet, or one it gets again.
-/

namespace AbstractBFT.Aardvark

open Machine Replay List Option
open Function (update update_eq_self update_idem update_of_ne update_self)

/-! ## What the pre-prepares have a replica execute -/

/-- The request without what its authenticator is worth at a replica. -/
def Request.sansAuth (r : Request) : Request := { r with auth := false }

/-- The pre-prepare without what its receiver finds of its authenticators
and its length. -/
def PrePrepare.sansAuth (m : PrePrepare) : PrePrepare :=
  { m with rset := m.rset.map (·.map Request.sansAuth), sized := true, auth := true }

/-- The last request of each client, and the requests executed. -/
abbrev Played := (BitVec 32 → BitVec 64) × List Key

variable (rep : BitVec 32 → Bool)

/-- What executing a request makes of these; `rep` tells replicas from
clients. -/
def playRequest (t : Played) (r : Request) : Played :=
  if r.rid ≤ t.1 r.cid then t
  else if rep r.cid then
    if r.command_size ≠ 8 then t else (update t.1 r.cid r.rid, t.2)
  else (update t.1 r.cid r.rid, t.2 ++ [r.key])

/-- What executing a batch makes of them. -/
def playBatch (t : Played) (m : PrePrepare) : Played :=
  m.rset.reduceOption.foldl (playRequest rep) t

/-- What the batches numbered `1` to `n` make of them. -/
abbrev play (ps : List PrePrepare) (t : Played) (n : ℕ) : Played :=
  replay PrePrepare.seqno (playBatch rep) ps t n

theorem playRequest_grows (t : Played) (r : Request) : t.2 <+: (playRequest rep t r).2 := by
  unfold playRequest
  split
  · exact prefix_rfl
  · split
    · split <;> exact prefix_rfl
    · exact prefix_append _ _

theorem playBatch_grows (t : Played) (m : PrePrepare) : t.2 <+: (playBatch rep t m).2 := by
  unfold playBatch
  induction m.rset.reduceOption generalizing t with
  | nil => exact prefix_rfl
  | cons r rs ih => exact (playRequest_grows rep t r).trans (ih _)

/-- The authenticators play no part. -/
theorem playBatch_sansAuth (t : Played) (m : PrePrepare) :
    playBatch rep t m.sansAuth = playBatch rep t m := by
  unfold playBatch
  show (m.rset.map (Option.map Request.sansAuth)).reduceOption.foldl _ t = _
  rw [reduceOption_map, foldl_map]
  rfl

namespace PrePrepare

variable {m p : PrePrepare}

variable (h : m.sansAuth = p.sansAuth)
include h

theorem seqno_of_sansAuth : m.seqno = p.seqno := by
  have := congrArg PrePrepare.seqno h
  exact this

theorem playBatch_of_sansAuth (rep : BitVec 32 → Bool) (t : Played) :
    playBatch rep t m = playBatch rep t p := by
  rw [← playBatch_sansAuth, h, playBatch_sansAuth]

/-- The requests of a batch without big ones. -/
theorem requests_of_plain (hbig : p.big_reqs = [])
    {lookup : Digest → Option Request} {reqs : List Request} (hreqs : m.requests lookup = some reqs) :
    m.rset.reduceOption = reqs := by
  have hnone : m.big_reqs = [] := by
    have := congrArg PrePrepare.big_reqs h
    exact Eq.trans this hbig
  rw [requests, hnone] at hreqs
  obtain ⟨small, hsmall, hmap⟩ := bind_eq_some_iff.1 hreqs
  obtain ⟨big, hnil, rfl⟩ := map_eq_some_iff.1 hmap
  obtain rfl : [] = big := some.inj hnil
  rw [append_nil]
  exact reduceOption_of_mapM hsmall

end PrePrepare

/-! ## Calls into the ordering part -/

namespace Replica

variable {N : Node} {r : Replica}

/-- Events that only bring messages. -/
def passive : Event → Bool
  | .prePrepare _ _ | .prepare _ | .commit _ | .newKey | .viewChange _ _ | .newView _ _ => true
  | _ => false

variable {e : Event} {n : ℕ} {pp : PrePrepare}

theorem keepsExecuted_of_passive (h : passive e) : keepsExecuted e := by
  cases e <;> first | rfl | cases h

theorem hasNewView_zero (hv : r.v = 0) : r.hasNewView N := by
  rw [hasNewView, hv]
  rfl

/-- In the first view the primary never goes back with its numbers. -/
theorem seqno_le_step (h : AssignInv N r) (hv : r.v = 0) (hp : N.primary r.v = N.id)
    (hleave : ∀ w rc ckpts, e ≠ .leave w rc ckpts) : r.seqno ≤ (r.step N e).seqno := by
  have hstep := stepped_step N r e
  generalize r.step N e = r' at hstep ⊢
  cases hstep with
  | checkpoint ht =>
    refine ht.seqno ?_
    rw [h.slot hp]
    exact hp
  | propose _ _ _ => exact Nat.le_succ _
  | leave _ => exact absurd rfl (hleave _ _ _)
  | @viewChange vc auth =>
    obtain ⟨_, _, _, heq⟩ := v_handleViewChange N r vc auth
    rw [heq]
  | @newView nv auth =>
    obtain ⟨_, _, heq⟩ := v_handleNewView N r nv auth
    rw [heq]
  | install _ hpos _ _ _ _ _ => exact absurd hv hpos.ne'
  | make _ hpos _ _ _ _ => exact absurd hv hpos.ne'
  | _ => exact le_rfl

theorem step_install_of_zero (hv : r.v = 0) (ms : ℕ) (pps : ℕ → PrePrepare) :
    r.step N (.install ms pps) = r := by
  rw [step]
  split
  · rfl
  rw [handle, installNewView]
  split
  · rw [if_neg fun hcond => absurd hv hcond.2.1.ne']
  · rfl

theorem step_make_of_zero (hv : r.v = 0) (nv : NewView) (ms : ℕ) (pps : ℕ → PrePrepare) :
    r.step N (.make nv ms pps) = r := by
  rw [step]
  split
  · rfl
  rw [handle, makeNewView, if_neg fun hcond => absurd hv hcond.2.1.ne']

/-- A stable checkpoint that is not ahead, or without its state. -/
theorem last_executed_stable {have_state : Bool} (hn : have_state → n ≤ r.last_executed) :
    (r.step N (.stable n have_state)).last_executed = r.last_executed := by
  rw [step]
  split
  · rfl
  rw [handle]
  by_cases hold : n ≤ r.last_stable
  · rw [markStable, if_pos hold]
  · rw [last_executed_markStable hold]
    split
    · rename_i hown
      exact Nat.max_eq_right (hn hown)
    · rfl

theorem AssignInv.halt (h : AssignInv N r) : AssignInv N { r with halted := true } :=
  h.of_frame rfl rfl (fun _ _ _ => id) (fun _ => le_rfl) fun _ => ⟨rfl, id⟩

/-- The pre-prepare of a certificate is in the log. -/
theorem pp_of_prepared (h : r.prepared n = some pp) : (r.log n).pc.pi.pp = some pp := by
  rw [prepared] at h
  split at h
  · exact h
  · cases h

theorem prepared_of_committed (h : r.committed n = some pp) : r.prepared n = some pp := by
  rw [committed] at h
  split at h
  · exact h
  · cases h

end Replica

/-! ## Following the primary -/

namespace Server

variable {σ : Type} {X : Service σ} {N : Node} {t₀ : Played} {ps ps' : List PrePrepare}
  {s s' : Server σ}

/-- What executing changes of the server. -/
def played (s : Server σ) : Played := (s.mem.rids, s.executed)

/-- At most execution and the queues tell the two apart. -/
structure Alike (s s' : Server σ) : Prop where
  ord : s'.ord = s.ord
  last_tentative_execute : s'.last_tentative_execute = s.last_tentative_execute
  mine : s'.mine = s.mine
  fetching : s'.fetching = s.fetching
  proposed : s'.proposed = s.proposed
  switches : s'.switches = s.switches

theorem Alike.trans {s'' : Server σ} (h : Alike s s') (h' : Alike s' s'') : Alike s s'' where
  ord := h'.ord.trans h.ord
  last_tentative_execute := h'.last_tentative_execute.trans h.last_tentative_execute
  mine := h'.mine.trans h.mine
  fetching := h'.fetching.trans h.fetching
  proposed := h'.proposed.trans h.proposed
  switches := h'.switches.trans h.switches

/-- **Behind the primary.** `ps` are pre-prepares of the first view's
primary. The replica is in that view, has in its log pre-prepares of `ps`
only, and executed what those up to `last_tentative_execute` say; and so it
had each time it reached the threshold. -/
structure Follows (N : Node) (t₀ : Played) (ps : List PrePrepare) (s : Server σ) : Prop where
  assign : Replica.AssignInv N s.ord
  v : s.ord.v = 0
  calm : s.fetching = false
  executed_le : s.ord.last_executed ≤ s.last_tentative_execute
  tentative_le : s.last_tentative_execute ≤ s.ord.last_executed + 1
  mine : ∀ n ∈ s.mine, n ≤ s.ord.last_executed
  log : ∀ n pp, (s.ord.log n).pc.pi.pp = some pp → ∃ p ∈ ps, p.seqno = n ∧ pp.sansAuth = p.sansAuth
  covers : Covers PrePrepare.seqno ps s.last_tentative_execute
  played : s.played = play (isReplica N) ps t₀ s.last_tentative_execute
  switched : ∀ L ∈ s.switches, ∃ n ≤ s.last_tentative_execute, L = (play (isReplica N) ps t₀ n).2

/-- **On the primary's course.** The replica follows `ps`, which has
increasing numbers and no big requests; at the primary it is what was sent
so far. -/
structure Course (N : Node) (t₀ : Played) (ps : List PrePrepare) (s : Server σ) : Prop extends
    Follows N t₀ ps s where
  increasing : ps.Pairwise fun p p' => p.seqno < p'.seqno
  plain : ∀ p ∈ ps, p.big_reqs = []
  own : N.primary 0 = N.id → s.proposed = ps ∧ ∀ p ∈ ps, p.seqno ≤ s.ord.seqno

theorem course_init (N : Node) (m : Memory σ) : Course N (m.rids, []) [] (init N m) where
  assign := Replica.assignInv_init N
  v := rfl
  calm := rfl
  executed_le := le_rfl
  tentative_le := Nat.le_succ _
  mine := nofun
  log := nofun
  covers _ hpos hk := absurd hk (Nat.not_le.2 hpos)
  played := rfl
  switched := nofun
  increasing := List.Pairwise.nil
  plain := nofun
  own _ := ⟨rfl, nofun⟩

namespace Follows

variable (h : Follows N t₀ ps s)
include h

theorem of_alike (ha : Alike s s') (hplayed : s'.played = s.played) : Follows N t₀ ps s' where
  assign := by rw [ha.ord]; exact h.assign
  v := by rw [ha.ord]; exact h.v
  calm := by rw [ha.fetching]; exact h.calm
  executed_le := by rw [ha.ord, ha.last_tentative_execute]; exact h.executed_le
  tentative_le := by rw [ha.ord, ha.last_tentative_execute]; exact h.tentative_le
  mine := by rw [ha.ord, ha.mine]; exact h.mine
  log := by rw [ha.ord]; exact h.log
  covers := by rw [ha.last_tentative_execute]; exact h.covers
  played := by rw [hplayed, ha.last_tentative_execute]; exact h.played
  switched := by rw [ha.switches, ha.last_tentative_execute]; exact h.switched

theorem setProposed (pps : List PrePrepare) : Follows N t₀ ps { s with proposed := pps } :=
  { h with }

theorem extend (hps : ps <+: ps') : Follows N t₀ ps' s where
  __ := h
  log n pp hpp := by
    obtain ⟨p, hp, hn, heq⟩ := h.log n pp hpp
    exact ⟨p, hps.subset hp, hn, heq⟩
  covers := h.covers.mono hps
  played := h.played.trans (replay_extend hps h.covers).symm
  switched L hL := by
    obtain ⟨n, hn, rfl⟩ := h.switched L hL
    have hcov : Covers PrePrepare.seqno ps n := fun j hpos hj => h.covers j hpos (hj.trans hn)
    exact ⟨n, hn, congrArg Prod.snd (replay_extend hps hcov).symm⟩

/-- The ordering part moves, within the first view. -/
theorem setOrd {r : Replica} (hassign : Replica.AssignInv N r) (hv : r.v = s.ord.v)
    (hle : r.last_executed = s.ord.last_executed) (hlog : ∀ n pp, (r.log n).pc.pi.pp = some pp →
      (s.ord.log n).pc.pi.pp = some pp ∨ ∃ p ∈ ps, p.seqno = n ∧ pp.sansAuth = p.sansAuth) :
    Follows N t₀ ps { s with ord := r } where
  __ := h
  assign := hassign
  v := hv.trans h.v
  executed_le := hle.trans_le h.executed_le
  tentative_le := by
    show s.last_tentative_execute ≤ r.last_executed + 1
    rw [hle]
    exact h.tentative_le
  mine n hn := (h.mine n hn).trans hle.ge
  log n pp hpp := (hlog n pp hpp).elim (h.log n pp) id

end Follows

namespace Course

variable (h : Course N t₀ ps s)
include h

theorem of_alike (ha : Alike s s') (hplayed : s'.played = s.played) : Course N t₀ ps s' where
  __ := h
  toFollows := h.toFollows.of_alike ha hplayed
  own := by rw [ha.proposed, ha.ord]; exact h.own

theorem setOrd {r : Replica} (hassign : Replica.AssignInv N r) (hv : r.v = s.ord.v)
    (hle : r.last_executed = s.ord.last_executed)
    (hseq : N.primary 0 = N.id → s.ord.seqno ≤ r.seqno)
    (hlog : ∀ n pp, (r.log n).pc.pi.pp = some pp →
      (s.ord.log n).pc.pi.pp = some pp ∨ ∃ p ∈ ps, p.seqno = n ∧ pp.sansAuth = p.sansAuth) :
    Course N t₀ ps { s with ord := r } where
  __ := h
  toFollows := h.toFollows.setOrd hassign hv hle hlog
  own hp := ⟨(h.own hp).1, fun p hmem => ((h.own hp).2 p hmem).trans (hseq hp)⟩

theorem primary_eq (hp : N.primary 0 = N.id) : N.primary s.ord.v = N.id := by
  rw [h.v]
  exact hp

theorem onOrd {e : Event} (he : Replica.passive e)
    (hpp : ∀ q m, e = .prePrepare q m → m.view = 0 → m.auth → N.primary 0 ≠ N.id →
      ∃ p ∈ ps, m.sansAuth = p.sansAuth) : Course N t₀ ps (s.onOrd N e) := by
  have hleave : ∀ w rc ckpts, e ≠ .leave w rc ckpts := by
    rintro w rc ckpts rfl
    cases he
  refine h.setOrd (h.assign.step e) (Replica.v_of_not_leave hleave)
    (Replica.last_executed_step (Replica.keepsExecuted_of_passive he))
    (fun hp => Replica.seqno_le_step h.assign h.v (h.primary_eq hp) hleave) fun n pp hmem => ?_
  rcases (Replica.moved_step N s.ord e n).pp_cases hmem with hold |
    ⟨q, rfl, hn, hview, hid, hauth⟩ | ⟨_, _, _, rfl, -⟩ | hpos
  · exact Or.inl hold
  · rw [h.v] at hview
    rw [hview] at hid
    obtain ⟨p, hp, heq⟩ := hpp q pp rfl hview hauth hid
    exact Or.inr ⟨p, hp, (PrePrepare.seqno_of_sansAuth heq).symm.trans hn, heq⟩
  · cases he
  · exact absurd h.v hpos.ne'

theorem halt : Course N t₀ ps s.halt :=
  h.setOrd h.assign.halt rfl rfl (fun _ => le_rfl) fun _ _ => Or.inl

/-- A stable checkpoint of a number not ahead of this replica, or one it
has no state for. -/
theorem stable {n : ℕ} {have_state : Bool} (hn : have_state → n ≤ s.ord.last_executed) :
    Course N t₀ ps (s.onOrd N (.stable n have_state)) := by
  refine h.setOrd (h.assign.step _) (Replica.v_of_not_leave nofun) (Replica.last_executed_stable hn)
    (fun hp => Replica.seqno_le_step h.assign h.v (h.primary_eq hp) nofun) fun k pp hmem => ?_
  rcases (Replica.moved_step N s.ord (.stable n have_state) k).pp_cases hmem with hold |
    ⟨_, he, -⟩ | ⟨_, _, _, he, -⟩ | hpos
  · exact Or.inl hold
  · cases he
  · cases he
  · exact absurd h.v hpos.ne'

/-- The primary sends a pre-prepare. -/
theorem propose (hsend : s.ord.MaySend N) (small : List Request) :
    ∃ p, Course N t₀ (ps ++ [p]) (s.propose X N small) := by
  obtain ⟨hup, hnv, hprim, hwin, hin⟩ := hsend
  have hp : N.primary 0 = N.id := by
    rw [← h.v]
    exact hprim
  obtain ⟨hown, hseq⟩ := h.own hp
  obtain ⟨nd, hnd⟩ : ∃ nd, nd = if small = [] then [] else X.compute_non_det (s.ord.seqno + 1) := ⟨_, rfl⟩
  obtain ⟨r, hr⟩ : ∃ r, r = s.ord.step N (.propose small [] nd) := ⟨_, rfl⟩
  have hrseq : r.seqno = s.ord.seqno + 1 := by
    rw [hr, Replica.step, hup]
    show (s.ord.sendPrePrepare N small [] nd).seqno = _
    rw [Replica.sendPrePrepare, if_pos ⟨hnv, hprim, hwin, hin⟩]
  obtain ⟨p, hpeq⟩ : ∃ p, p = Replica.batch N s.ord.v (s.ord.seqno + 1) small [] nd := ⟨_, rfl⟩
  have hpseq : p.seqno = s.ord.seqno + 1 := by
    rw [hpeq]
    rfl
  have hmem : p ∈ ps ++ [p] := mem_append_right _ (mem_singleton_self p)
  have hleave : ∀ w rc ckpts, Event.propose small [] nd ≠ .leave w rc ckpts := by
    intro w rc ckpts he
    cases he
  have hfollows : Follows N t₀ (ps ++ [p]) { s with ord := r } := by
    refine (h.toFollows.extend (prefix_append ps [p])).setOrd (hr ▸ h.assign.step _)
      (hr ▸ Replica.v_of_not_leave hleave) (hr ▸ Replica.last_executed_step rfl) fun n pp hpp => ?_
    rw [hr] at hpp
    rcases (Replica.moved_step N s.ord (.propose small [] nd) n).pp_cases hpp with hold |
      ⟨_, he, -⟩ | ⟨_, _, _, he, hn, hbatch⟩ | hpos
    · exact Or.inl hold
    · cases he
    · cases he
      obtain rfl : pp = p := by rw [hbatch, hpeq, hn]
      exact Or.inr ⟨pp, hmem, hpseq.trans hn.symm, rfl⟩
    · exact absurd h.v hpos.ne'
  refine ⟨p, ?_⟩
  unfold Server.propose
  dsimp only
  rw [← hnd, ← hpeq]
  show Course N t₀ (ps ++ [p]) { s with
    ord := s.ord.step N (.propose small [] nd), proposed := s.proposed ++ [p] }
  rw [← hr]
  refine ⟨hfollows.setProposed _, ?_, fun q hq => ?_, fun _ => ⟨?_, fun q hq => ?_⟩⟩
  · refine pairwise_append.2 ⟨h.increasing, pairwise_singleton _ _, fun q hq q' hq' => ?_⟩
    obtain rfl := mem_singleton.1 hq'
    have := hseq q hq
    omega
  · rcases mem_concat_iff.1 hq with hold | rfl
    · exact h.plain q hold
    · rw [hpeq]
      rfl
  · rw [hown]
  · show q.seqno ≤ r.seqno
    rw [hrseq]
    rcases mem_concat_iff.1 hq with hold | rfl
    · exact (hseq q hold).trans (Nat.le_succ _)
    · rw [hpseq]

end Course

/-- **From `s` to `s'` the replica stays on course**; `ps` grows by what
it proposed, if it is the primary. -/
def Kept (N : Node) (t₀ : Played) (s s' : Server σ) : Prop :=
  ∀ ps, Course N t₀ ps s →
    ∃ ps', ps <+: ps' ∧ (N.primary 0 ≠ N.id → ps' = ps) ∧ Course N t₀ ps' s'

namespace Kept

variable {s'' : Server σ}

theorem of_course (h : ∀ ps, Course N t₀ ps s → Course N t₀ ps s') : Kept N t₀ s s' :=
  fun ps hc => ⟨ps, prefix_rfl, fun _ => rfl, h ps hc⟩

theorem refl (s : Server σ) : Kept N t₀ s s := of_course fun _ => id

theorem trans (h : Kept N t₀ s s') (h' : Kept N t₀ s' s'') : Kept N t₀ s s'' := by
  intro ps hc
  obtain ⟨ps', hps, hsame, hc'⟩ := h ps hc
  obtain ⟨ps'', hps', hsame', hc''⟩ := h' ps' hc'
  exact ⟨ps'', hps.trans hps', fun hp => (hsame' hp).trans (hsame hp), hc''⟩

theorem ite {c : Prop} [Decidable c] (h : Kept N t₀ s s') (h' : Kept N t₀ s s'') :
    Kept N t₀ s (if c then s' else s'') := by
  split
  · exact h
  · exact h'

theorem of_alike (ha : Alike s s') (hplayed : s'.played = s.played) : Kept N t₀ s s' :=
  of_course fun _ hc => hc.of_alike ha hplayed

theorem setQueue (s : Server σ) (q : RQueue) : Kept N t₀ s { s with rqueue := q } :=
  of_alike ⟨rfl, rfl, rfl, rfl, rfl, rfl⟩ rfl

theorem propose (hsend : s.ord.MaySend N) (small : List Request) :
    Kept N t₀ s (s.propose X N small) := by
  intro ps hc
  obtain ⟨p, hc'⟩ := hc.propose (X := X) hsend small
  refine ⟨ps ++ [p], prefix_append _ _, fun hp => absurd ?_ hp, hc'⟩
  rw [← hc.v]
  exact hsend.2.2.1

theorem sendPrePrepare (s : Server σ) : Kept N t₀ s (s.sendPrePrepare X N) := by
  unfold Server.sendPrePrepare
  split
  · rename_i hcond
    exact (propose hcond.2 _).trans (setQueue _ _)
  · exact refl s

end Kept

/-! ### Execution -/

theorem executeRequest_spec (nd : List UInt8) (s : Server σ) (r : Request) :
    Alike s (s.executeRequest X N nd r) ∧
      (s.executeRequest X N nd r).played = playRequest (isReplica N) s.played r := by
  unfold executeRequest playRequest
  show _ ∧ _ = if r.rid ≤ s.mem.rids r.cid then _ else _
  split
  · exact ⟨⟨rfl, rfl, rfl, rfl, rfl, rfl⟩, rfl⟩
  dsimp only
  split
  · split <;> exact ⟨⟨rfl, rfl, rfl, rfl, rfl, rfl⟩, rfl⟩
  · exact ⟨⟨rfl, rfl, rfl, rfl, rfl, rfl⟩, rfl⟩

theorem executeRequests_spec (nd : List UInt8) (reqs : List Request) (s : Server σ) :
    Alike s (reqs.foldl (executeRequest X N nd) s) ∧
      (reqs.foldl (executeRequest X N nd) s).played =
        reqs.foldl (playRequest (isReplica N)) s.played := by
  induction reqs generalizing s with
  | nil => exact ⟨⟨rfl, rfl, rfl, rfl, rfl, rfl⟩, rfl⟩
  | cons r reqs ih =>
    obtain ⟨halike, hplayed⟩ := executeRequest_spec (X := X) (N := N) nd s r
    obtain ⟨halike', hplayed'⟩ := ih (s.executeRequest X N nd r)
    rw [hplayed] at hplayed'
    exact ⟨halike.trans halike', hplayed'⟩

theorem executeReadOnly_spec (s : Server σ) (r : Request) :
    Alike s (s.executeReadOnly X r) ∧ (s.executeReadOnly X r).played = s.played := by
  unfold executeReadOnly
  split <;> exact ⟨⟨rfl, rfl, rfl, rfl, rfl, rfl⟩, rfl⟩

/-- Read-only requests leave the client table and the record alone. -/
theorem flushReadOnly_spec (s : Server σ) :
    Alike s (s.flushReadOnly X) ∧ (s.flushReadOnly X).played = s.played := by
  have hfold : ∀ (reqs : List Request) (s : Server σ), Alike s (reqs.foldl (executeReadOnly X) s) ∧
      (reqs.foldl (executeReadOnly X) s).played = s.played := by
    intro reqs
    induction reqs with
    | nil => exact fun s => ⟨⟨rfl, rfl, rfl, rfl, rfl, rfl⟩, rfl⟩
    | cons r reqs ih =>
      intro s
      obtain ⟨halike, hplayed⟩ := executeReadOnly_spec (X := X) s r
      obtain ⟨halike', hplayed'⟩ := ih (s.executeReadOnly X r)
      exact ⟨halike.trans halike', hplayed'.trans hplayed⟩
  have hstart : Alike s { s with ro_rqueue := { s.ro_rqueue with reqs := [] } } :=
    ⟨rfl, rfl, rfl, rfl, rfl, rfl⟩
  obtain ⟨halike, hplayed⟩ := hfold s.ro_rqueue.reqs
    { s with ro_rqueue := { s.ro_rqueue with reqs := [] } }
  exact ⟨hstart.trans halike, hplayed⟩

theorem executeBatch_spec (s : Server σ) (pp : PrePrepare) (reqs : List Request) :
    Alike { s with last_tentative_execute := s.ord.last_executed + 1 } (s.executeBatch X N pp reqs) ∧
      (s.executeBatch X N pp reqs).played = reqs.foldl (playRequest (isReplica N)) s.played := by
  have hspec := executeRequests_spec (X := X) (N := N) pp.non_det reqs
    { s with last_tentative_execute := s.ord.last_executed + 1 }
  unfold executeBatch
  dsimp only
  split
  · exact ⟨hspec.1.trans ⟨rfl, rfl, rfl, rfl, rfl, rfl⟩, hspec.2⟩
  · exact hspec

namespace Course

theorem executeBatch (h : Course N t₀ ps s) (hlte : s.last_tentative_execute = s.ord.last_executed)
    {pp : PrePrepare} (hpp : (s.ord.log (s.ord.last_executed + 1)).pc.pi.pp = some pp)
    {lookup : Digest → Option Request} {reqs : List Request} (hreqs : pp.requests lookup = some reqs) :
    Course N t₀ ps (s.executeBatch X N pp reqs) := by
  obtain ⟨p, hp, hseq, heq⟩ := h.log _ pp hpp
  obtain ⟨halike, hplayed⟩ := executeBatch_spec (X := X) (N := N) s pp reqs
  have hcov : Covers PrePrepare.seqno ps (s.ord.last_executed + 1) := by
    refine Covers.succ ?_ hp hseq
    rw [← hlte]
    exact h.covers
  have hnext : (s.executeBatch X N pp reqs).played =
      play (isReplica N) ps t₀ (s.ord.last_executed + 1) := by
    have hbatch : reqs = pp.rset.reduceOption :=
      (PrePrepare.requests_of_plain heq (h.plain p hp) hreqs).symm
    calc (s.executeBatch X N pp reqs).played
        = playBatch (isReplica N) s.played pp := by rw [hplayed, hbatch, playBatch]
      _ = playBatch (isReplica N) (play (isReplica N) ps t₀ s.ord.last_executed) p := by
          rw [PrePrepare.playBatch_of_sansAuth heq, h.played, hlte]
      _ = play (isReplica N) ps t₀ (s.ord.last_executed + 1) :=
          (replay_succ h.increasing hp hseq).symm
  have hexec : Course N t₀ ps { s with
      last_tentative_execute := s.ord.last_executed + 1
      mem := (s.executeBatch X N pp reqs).mem
      executed := (s.executeBatch X N pp reqs).executed } :=
    { h with
      executed_le := Nat.le_succ _
      tentative_le := le_rfl
      covers := hcov
      played := hnext
      switched := fun L hmem => by
        obtain ⟨n, hn, hL⟩ := h.switched L hmem
        exact ⟨n, hn.trans (hlte.trans_le (Nat.le_succ _)), hL⟩ }
  exact hexec.of_alike { halike with } rfl

theorem executePrepared (h : Course N t₀ ps s) : Course N t₀ ps (s.executePrepared X N) := by
  unfold Server.executePrepared
  split
  · rename_i hcond
    have hlte : s.last_tentative_execute = s.ord.last_executed := by
      have := h.executed_le
      omega
    split
    · exact h
    · rename_i pp hprep
      split
      · split
        · exact h.halt
        · rename_i reqs hreqs
          exact h.executeBatch hlte (Replica.pp_of_prepared hprep) hreqs
      · exact h
  · exact h

end Course

/-- What `execute_prepared` does to the ordering part. -/
theorem ord_executePrepared (s : Server σ) : (s.executePrepared X N).ord = s.ord ∨
    (s.executePrepared X N).ord.halted = true := by
  unfold executePrepared
  split
  · split
    · exact Or.inl rfl
    · split
      · split
        · exact Or.inr rfl
        · exact Or.inl (executeBatch_spec s _ _).1.ord
      · exact Or.inl rfl
  · exact Or.inl rfl

/-- A committed batch has been executed by then. -/
theorem tentative_executePrepared (h : Course N t₀ ps s)
    (hwin : s.ord.last_executed < s.ord.last_stable + maxOut) {pp : PrePrepare}
    (hpp : s.ord.prepared (s.ord.last_executed + 1) = some pp) (hview : pp.view = s.ord.v)
    (hup : (s.executePrepared X N).ord.halted = false) :
    (s.executePrepared X N).last_tentative_execute = s.ord.last_executed + 1 := by
  have htent := h.tentative_le
  by_cases hlt : s.last_tentative_execute < s.ord.last_executed + 1
  · have hcond : s.last_tentative_execute < s.ord.last_executed + 1 ∧
        s.ord.last_executed < s.ord.last_stable + maxOut ∧ s.fetching = false ∧
          s.ord.hasNewView N := ⟨hlt, hwin, h.calm, Replica.hasNewView_zero h.v⟩
    unfold executePrepared at hup ⊢
    rw [if_pos hcond, hpp] at hup ⊢
    dsimp only at hup ⊢
    rw [if_pos hview] at hup ⊢
    split at hup
    · cases hup
    · exact (executeBatch_spec s pp _).1.last_tentative_execute
  · have hsame : s.executePrepared X N = s := by
      rw [executePrepared, if_neg fun hcond => hlt hcond.1]
    rw [hsame]
    omega

/-! ### Checkpoints and committed batches -/

namespace Course

variable (h : Course N t₀ ps s)
include h

/-- `last_executed` moves on to a batch that has been executed. -/
theorem execute (hlte : s.last_tentative_execute = s.ord.last_executed + 1) :
    Course N t₀ ps (s.onOrd N .execute) := by
  obtain ⟨r, hr⟩ : ∃ r, r = s.ord.step N .execute := ⟨_, rfl⟩
  have hframe : r.v = s.ord.v ∧ r.seqno = s.ord.seqno ∧ r.log = s.ord.log ∧
      (r.last_executed = s.ord.last_executed ∨ r.last_executed = s.ord.last_executed + 1) := by
    rw [hr, Replica.step]
    split
    · exact ⟨rfl, rfl, rfl, Or.inl rfl⟩
    · rw [Replica.handle, Replica.executeCommitted]
      split
      · exact ⟨rfl, rfl, rfl, Or.inr rfl⟩
      · exact ⟨rfl, rfl, rfl, Or.inl rfl⟩
  obtain ⟨hv, hseq, hlog, hle⟩ := hframe
  have hassign : Replica.AssignInv N r := hr ▸ h.assign.step .execute
  show Course N t₀ ps { s with ord := s.ord.step N .execute }
  rw [← hr]
  exact
    { h with
      assign := hassign
      v := hv.trans h.v
      executed_le := show r.last_executed ≤ s.last_tentative_execute by omega
      tentative_le := show s.last_tentative_execute ≤ r.last_executed + 1 by omega
      mine := fun n hn => (h.mine n hn).trans (show s.ord.last_executed ≤ r.last_executed by omega)
      log := fun n pp hpp => h.log n pp (hlog ▸ hpp)
      own := fun hp => ⟨(h.own hp).1, fun p hmem => ((h.own hp).2 p hmem).trans hseq.ge⟩ }

theorem addMine {n : ℕ} (hn : n ≤ s.ord.last_executed) :
    Course N t₀ ps { s with mine := s.mine ++ [n] } where
  __ := h
  mine k hk := by
    rcases mem_concat_iff.1 hk with hold | rfl
    · exact h.mine k hold
    · exact hn

theorem mark (n : ℕ) : Course N t₀ ps (s.mark N n (s.mine.contains n)) := by
  have hn : s.mine.contains n → n ≤ s.ord.last_executed := fun hmem =>
    h.mine n (contains_iff_mem.1 hmem)
  have hjump : ¬ (s.mine.contains n ∧ s.ord.last_executed < n) := fun hcond =>
    absurd (hn hcond.1) (Nat.not_le.2 hcond.2)
  have hstable := h.stable hn
  have hmarked : Course N t₀ ps
      ((s.onOrd N (.stable n (s.mine.contains n))).discardCheckpoint n) :=
    hstable.of_alike ⟨rfl, rfl, rfl, rfl, rfl, rfl⟩ rfl
  unfold Server.mark
  dsimp only
  rw [if_neg hjump]
  split
  · rename_i hown
    have hle : (s.onOrd N (.stable n (s.mine.contains n))).ord.last_executed = s.ord.last_executed :=
      Replica.last_executed_stable hn
    exact hmarked.addMine ((hn hown).trans hle.ge)
  · exact hmarked

end Course

namespace Kept

theorem markStable (ns : List ℕ) (s : Server σ) : Kept N t₀ s (s.markStable X N ns) := by
  induction ns generalizing s with
  | nil => exact refl s
  | cons n ns ih =>
    have hmark : Kept N t₀ s (s.mark N n (s.mine.contains n)) := of_course fun _ hc => hc.mark n
    have hrest := hmark.trans (ih _)
    exact ite (refl s) (ite (hrest.trans (sendPrePrepare _)) hrest)

theorem commitBatch (stable : ℕ → List ℕ)
    (hlte : s.last_tentative_execute = s.ord.last_executed + 1)
    (hnext : (s.ord.step N .execute).last_executed = s.ord.last_executed + 1) (reqs : List Request) :
    Kept N t₀ s (s.commitBatch X N stable reqs) := by
  obtain ⟨s₁, hs₁⟩ : ∃ s₁, s₁ = (s.onOrd N .execute).flushReadOnly X := ⟨_, rfl⟩
  obtain ⟨halike, hplayed⟩ := flushReadOnly_spec (X := X) (s.onOrd N .execute)
  rw [← hs₁] at halike hplayed
  have hkept : Kept N t₀ s s₁ := of_course fun _ hc => (hc.execute hlte).of_alike halike hplayed
  have hle : s.ord.last_executed + 1 ≤ s₁.ord.last_executed := by
    rw [halike.ord]
    exact hnext.ge
  unfold Server.commitBatch
  rw [← hs₁]
  dsimp only
  split
  · refine hkept.trans (Kept.trans (of_course fun ps hc => ?_) (markStable _ _))
    exact (hc.addMine hle).of_alike ⟨rfl, rfl, rfl, rfl, rfl, rfl⟩ rfl
  · exact hkept.trans (.of_alike ⟨rfl, rfl, rfl, rfl, rfl, rfl⟩ rfl)

theorem executeRound {stable : ℕ → List ℕ} (h : s.executeRound X N stable = some s') :
    Kept N t₀ s s' := by
  have hexec : Kept N t₀ s (s.executePrepared X N) := of_course fun _ hc => hc.executePrepared
  unfold Server.executeRound at h
  split at h
  · rename_i hcond
    split at h
    · cases h
    · rename_i pp hcomm
      split at h
      · rename_i hview
        dsimp only at h
        split at h
        · obtain rfl := some.inj h
          exact hexec
        · rename_i hup
          rw [Bool.not_eq_true] at hup
          split at h
          · obtain rfl := some.inj h
            exact hexec.trans (of_course fun _ hc => hc.halt)
          · obtain rfl := some.inj h
            intro ps hc
            -- the batch is executed by now, and the ordering part as before
            have hprep := Replica.prepared_of_committed hcomm
            have hlte := tentative_executePrepared hc hcond.2.1 hprep hview hup
            have hord : (s.executePrepared X N).ord = s.ord :=
              (ord_executePrepared s).resolve_right fun hhalt => by rw [hup] at hhalt; cases hhalt
            have hnext : (s.ord.step N .execute).last_executed = s.ord.last_executed + 1 := by
              rw [Replica.step, hcond.1]
              show (s.ord.executeCommitted N).last_executed = _
              have hgo : s.ord.hasNewView N ∧ s.ord.last_stable ≤ s.ord.last_executed ∧
                  s.ord.last_executed < s.ord.last_stable + maxOut ∧
                  (s.ord.committed (s.ord.last_executed + 1)).any fun pp => pp.view == s.ord.v := by
                refine ⟨Replica.hasNewView_zero hc.v, hcond.2.2, hcond.2.1, ?_⟩
                rw [hcomm]
                exact beq_iff_eq.2 hview
              rw [Replica.executeCommitted, if_pos hgo]
            refine (hexec.trans (commitBatch stable ?_ ?_ _)) ps hc
            · rw [hlte, hord]
            · rw [hord]
              exact hnext
      · cases h
  · cases h

theorem executeLoop (stable : ℕ → List ℕ) (k : ℕ) (s : Server σ) :
    Kept N t₀ s (s.executeLoop X N stable k) := by
  induction k generalizing s with
  | zero => exact refl s
  | succ k ih =>
    unfold Server.executeLoop
    split
    · exact refl s
    · rename_i s' hround
      exact (executeRound hround).trans (ih s')

theorem executeCommitted (stable : ℕ → List ℕ) (s : Server σ) :
    Kept N t₀ s (s.executeCommitted X N stable) := by
  have hloop : Kept N t₀ s (s.executeLoop X N stable (maxOut + 1)) := executeLoop stable _ s
  exact ite (ite (hloop.trans (sendPrePrepare _)) hloop) (refl s)

theorem afterCommit (stable : ℕ → List ℕ) (s : Server σ) (n : ℕ) :
    Kept N t₀ s (s.afterCommit X N stable n) := by
  have hkept : Kept N t₀ s
      (if n = s.ord.last_executed + 1 then s.executePrepared X N else s) :=
    ite (of_course fun _ hc => hc.executePrepared) (refl s)
  exact ite (hkept.trans (executeCommitted stable _)) hkept

/-! ### Requests -/

theorem takeRequest (s : Server σ) (m : Request) : Kept N t₀ s (s.takeRequest X N m) := by
  have hread : Kept N t₀ s (s.executeReadOnly X m) :=
    of_alike (executeReadOnly_spec s m).1 (executeReadOnly_spec s m).2
  unfold Server.takeRequest
  refine ite (ite (ite hread (of_alike ⟨rfl, rfl, rfl, rfl, rfl, rfl⟩ rfl)) (ite (ite ?_
    (setQueue s _)) (ite (setQueue s _) (refl s)))) (refl s)
  exact ite (setQueue s _) (ite ((setQueue s _).trans (sendPrePrepare _)) (setQueue s _))

/-- The threshold is reached with what is executed so far. -/
theorem countRequest (s : Server σ) : Kept N t₀ s (s.countRequest X) := by
  unfold Server.countRequest
  dsimp only
  split
  · refine of_course fun ps hc => { hc with switched := fun L hL => ?_ }
    rcases mem_concat_iff.1 hL with hold | rfl
    · exact hc.switched L hold
    · exact ⟨s.last_tentative_execute, le_rfl, congrArg Prod.snd hc.played⟩
  · exact of_alike ⟨rfl, rfl, rfl, rfl, rfl, rfl⟩ rfl

end Kept

/-- **What a run must meet**: a replica that reaches the threshold has executed
as many requests as it counted, and is not disabled while it counts; none
leaves the first view or falls so far behind that it fetches state. -/
def Settles (X : Service σ) (s : Server σ) : ServerEvent σ → Prop
  | .request _ => s.cur_state = .normal → s.req_count_switch = X.nb_reqs_before_switching →
      s.executed.length = s.counted
  | .enable on => on = false → s.cur_state = .stop
  | .leave _ _ | .late => False
  | _ => True

instance (X : Service σ) (s : Server σ) (e : ServerEvent σ) : Decidable (s.Settles X e) := by
  cases e <;> dsimp only [Settles] <;> infer_instance

/-! ### The count -/

/-- The requests counted when the threshold is reached for the `k`-th time,
from 0 on. -/
def tally (X : Service σ) (k : ℕ) : ℕ :=
  k * (X.nb_reqs_before_switching + 1) + X.nb_reqs_before_switching

/-- **What was counted**: one more than the threshold in each activation that
is over, and `req_count_switch` in this one; and as much was executed when
the threshold was reached. -/
def Tallied (X : Service σ) : ReplicaState × ℕ × ℕ × List (List Key) → Prop
  | (state, count, counted, switches) =>
    (∀ k L, switches[k]? = some L → L.length = tally X k) ∧
      counted = switches.length * (X.nb_reqs_before_switching + 1) +
        if state = .normal then count else 0

theorem tallied_countRequest {m : Request} (hok : Settles X s (.request m))
    (hcur : s.cur_state = .normal) (h : Tallied X s.switching) :
    Tallied X (s.countRequest X).switching := by
  obtain ⟨hlen, hcounted⟩ := h
  rw [if_pos hcur] at hcounted
  rw [countRequest, switching]
  dsimp only
  split
  · next hreached =>
    refine ⟨fun k L hk => ?_, ?_⟩
    · rcases lt_trichotomy k s.switches.length with hlt | rfl | hgt
      · exact hlen k L (getElem?_append_left hlt ▸ hk)
      · obtain rfl : s.executed = L := by simpa using hk
        rw [hok hcur hreached, hcounted, hreached, tally]
      · rw [getElem?_eq_none (by simpa [Nat.succ_le_iff] using hgt)] at hk
        cases hk
    · show s.counted + 1 = (s.switches ++ [s.executed]).length * _ + 0
      rw [hcounted, length_append, length_singleton, Nat.succ_mul, hreached]
      rfl
  · exact ⟨hlen, by rw [if_pos hcur, hcounted]; rfl⟩

theorem tallied_step {e : ServerEvent σ} (h : Tallied X s.switching) (hok : Settles X s e) :
    Tallied X (s.step X N e).switching := by
  unfold Server.step
  split
  · exact h
  by_cases hreq : ∃ m, e = .request m
  · obtain ⟨m, rfl⟩ := hreq
    rw [handle, handleRequest]
    split
    · exact h
    · next hcur =>
      rw [switching_takeRequest]
      exact tallied_countRequest hok hcur h
  by_cases hon : ∃ on, e = .enable on
  · obtain ⟨on, rfl⟩ := hon
    cases hcur : s.cur_state with
    | normal =>
      cases on with
      | true =>
        rw [switching, hcur] at h
        rw [handle, enableReplica, if_pos rfl, if_pos hcur]
        exact h
      | false => exact absurd (hcur.symm.trans (hok rfl)) (by decide)
    | stop =>
      have hstop : s.cur_state ≠ .normal := fun hn => by cases hcur.symm.trans hn
      obtain ⟨hlen, hcounted⟩ := h
      rw [if_neg hstop] at hcounted
      cases on with
      | true =>
        rw [handle, enableReplica, if_pos rfl, if_neg hstop]
        exact ⟨hlen, hcounted⟩
      | false => exact ⟨hlen, hcounted⟩
  · have hflow := Flow.handle (X := X) (N := N) s (fun m he => hreq ⟨m, he⟩)
      fun on he => hon ⟨on, he⟩
    rw [hflow.switching]
    exact h

/-! ### One event -/

/-- A new view that the ordering part does not take is not processed. -/
theorem processNewView_of_same {e : Event} (he : s.ord.step N e = s.ord) (ms : ℕ) :
    s.processNewView X N e ms = s := by
  have hnot : ¬ ((s.ord.nvInfo N).is_complete = false ∧ (s.ord.nvInfo N).is_complete ∧
      s.ord.halted = false) := by
    rintro ⟨hno, hyes, -⟩
    rw [hno] at hyes
    cases hyes
  unfold processNewView
  dsimp only
  rw [he, if_neg hnot]

theorem Course.step (h : Course N t₀ ps s) {e : ServerEvent σ} (hok : Settles X s e)
    (hpp : ∀ m stable, e = .prePrepare m stable → m.view = 0 → m.auth → N.primary 0 ≠ N.id →
      ∃ p ∈ ps, m.sansAuth = p.sansAuth) :
    ∃ ps', ps <+: ps' ∧ (N.primary 0 ≠ N.id → ps' = ps) ∧ Course N t₀ ps' (s.step X N e) := by
  have hstay : ∀ {s' : Server σ}, Course N t₀ ps s' → ∃ ps', ps <+: ps' ∧
      (N.primary 0 ≠ N.id → ps' = ps) ∧ Course N t₀ ps' s' := fun hc =>
    ⟨ps, prefix_rfl, fun _ => rfl, hc⟩
  unfold Server.step
  split
  · exact hstay h
  cases e with
  | request m =>
    rw [handle, handleRequest]
    split
    · exact hstay h
    · exact ((Kept.countRequest s).trans (Kept.takeRequest _ m)) ps h
  | prePrepare m stable =>
    rw [handle, handlePrePrepare]
    split
    · have hord := h.onOrd (e := .prePrepare s.rqueue.firstClient m) rfl fun q m' he => by
        cases he
        exact hpp m stable rfl
      exact Kept.ite (Kept.afterCommit stable _ _) (.refl _) ps hord
    · exact hstay h
  | prepare m stable =>
    rw [handle, handlePrepare]
    split
    · have hord := h.onOrd (e := .prepare m) rfl fun q m' he => by cases he
      exact Kept.ite (Kept.afterCommit stable _ _) (.refl _) ps hord
    · exact hstay h
  | commit m stable =>
    rw [handle, handleCommit]
    split
    · have hord := h.onOrd (e := .commit m) rfl fun q m' he => by cases he
      exact Kept.ite (Kept.executeCommitted stable _) (.refl _) ps hord
    · exact hstay h
  | status => exact hstay h
  | newKey => exact hstay (h.onOrd rfl fun q m he => by cases he)
  | stable ns => exact Kept.markStable ns s ps h
  | late => exact absurd hok id
  | data m =>
    rw [handle, h.calm]
    exact hstay h
  | fetched c known stable =>
    rw [handle, handleFetched, h.calm]
    exact hstay h
  | null =>
    rw [handle, sendNull]
    split
    · rename_i hcond
      exact Kept.propose hcond.2.2.2 [] ps h
    · exact hstay h
  | leave w ckpts => exact absurd hok id
  | viewChange vc auth => exact hstay (h.onOrd rfl fun q m he => by cases he)
  | newView nv auth => exact hstay (h.onOrd rfl fun q m he => by cases he)
  | install ms pps =>
    rw [handle, processNewView_of_same (Replica.step_install_of_zero h.v ms pps)]
    exact hstay h
  | make nv ms pps =>
    rw [handle, processNewView_of_same (Replica.step_make_of_zero h.v nv ms pps)]
    exact hstay h
  | enable on =>
    refine hstay (h.of_alike ?_ ?_) <;> cases on
    · exact ⟨rfl, rfl, rfl, rfl, rfl, rfl⟩
    · exact ⟨rfl, rfl, rfl, rfl, rfl, rfl⟩
    · rfl
    · rfl

end Server

/-! ## Requests that arrive again -/

namespace Server

variable {σ : Type} {X : Service σ} {N : Node} {s : Server σ} {m : Request}

/-- The request `m` waits in the queue of this backup. -/
def Waiting (N : Node) (m : Request) (s : Server σ) : Prop :=
  s.ord.halted = false ∧ N.primary s.ord.v ≠ N.id ∧ m.read_only = false ∧
    s.rqueue.firstClient m.cid = some m
  deriving Decidable

/-- The server after `k` requests were counted. -/
def addCount (s : Server σ) (k : ℕ) : Server σ :=
  { s with req_count_switch := s.req_count_switch + k, counted := s.counted + k }

variable (h : s.Waiting N m)
include h

theorem takeRequest_of_waiting : s.takeRequest X N m = s := by
  obtain ⟨-, hp, hro, hq⟩ := h
  have happend : (s.rqueue.append m).1 = s.rqueue := by
    rw [RQueue.append, hq]
    dsimp only
    rw [if_neg (BitVec.lt_irrefl _)]
  unfold takeRequest
  rw [happend, if_neg hp, hro]
  split
  · split
    · contradiction
    · split
      · rfl
      · split <;> rfl
  · rfl

variable (hcur : s.cur_state = .normal)
include hcur

/-- Then it is only counted. -/
theorem step_of_waiting : s.step X N (.request m) = s.countRequest X := by
  have hcount : (s.countRequest X).Waiting N m := by
    unfold countRequest
    dsimp only
    split <;> exact h
  rw [step, h.1, handle, handleRequest, hcur]
  exact takeRequest_of_waiting hcount

/-- **A request that keeps arriving** takes the count up to the
threshold. -/
theorem exec_of_waiting {k : ℕ} (hk : s.req_count_switch + k ≤ X.nb_reqs_before_switching) :
    exec (step X N) s (List.replicate k (.request m)) = s.addCount k := by
  induction k with
  | zero => rfl
  | succ k ih =>
    have hne : (s.addCount k).req_count_switch ≠ X.nb_reqs_before_switching :=
      show s.req_count_switch + k ≠ _ by omega
    have hlast : (s.addCount k).step X N (.request m) = (s.addCount k).countRequest X :=
      step_of_waiting h hcur
    rw [replicate_succ', exec_append, ih (by omega), exec_cons, exec_nil, hlast, countRequest,
      if_neg hne]
    rfl

/-- And then stops the replica, with what it executed. -/
theorem switches_of_waiting {k : ℕ} (hk : s.req_count_switch + k = X.nb_reqs_before_switching) :
    (exec (step X N) s (List.replicate (k + 1) (.request m))).switches =
      s.switches ++ [s.executed] := by
  have hlast : (s.addCount k).step X N (.request m) = (s.addCount k).countRequest X :=
    step_of_waiting h hcur
  have hreached : (s.addCount k).req_count_switch = X.nb_reqs_before_switching := hk
  rw [replicate_succ', exec_append, exec_of_waiting h hcur hk.le, exec_cons, exec_nil, hlast,
    countRequest, if_pos hreached]
  rfl

end Server

/-! ## The replicas together -/

namespace Cluster

variable {σ : Type} {C : Cluster} {X : Service σ} {m : Memory σ} {S : ℕ → Server σ}

/-- All replicas at the start, with the same memory. -/
def servers (C : Cluster) (m : Memory σ) : ℕ → Server σ := fun i => .init (C.node i) m

/-- One event at one replica. -/
def serve (C : Cluster) (X : Service σ) (S : ℕ → Server σ) (x : ℕ × ServerEvent σ) : ℕ → Server σ :=
  update S x.1 ((S x.1).step X (C.node x.1) x.2)

/-- What authenticates at replica `i` as sent by another replica was sent
by it. Whatever clients send may arrive anywhere. -/
def Truthful (C : Cluster) (S : ℕ → Server σ) (i : ℕ) : ServerEvent σ → Prop
  | .prePrepare m _ => m.auth → C.primary m.view ≠ i →
      ∃ p ∈ (S (C.primary m.view)).proposed, m.sansAuth = p.sansAuth
  | .prepare m _ => m.auth → m.id < C.n → m.id ≠ i →
      .prepare m.view m.digest ∈ ((S m.id).ord.log m.seqno).out
  | .commit m _ => m.auth → m.id < C.n → m.id ≠ i →
      .commit m.view ∈ ((S m.id).ord.log m.seqno).out
  | .viewChange vc auth => auth → vc.id < C.n → vc.id ≠ i → vc ∈ (S vc.id).ord.sentVcs
  | .newView nv auth => auth → C.primary nv.view ≠ i → nv ∈ (S (C.primary nv.view)).ord.sentNvs
  | _ => True

instance (C : Cluster) (S : ℕ → Server σ) (i : ℕ) (e : ServerEvent σ) :
    Decidable (C.Truthful S i e) := by
  cases e <;> dsimp only [Truthful] <;> infer_instance

/-- An event of a run without faulty replicas. -/
def Faultless (C : Cluster) (S : ℕ → Server σ) (x : ℕ × ServerEvent σ) : Prop :=
  x.1 < C.n ∧ C.Truthful S x.1 x.2
  deriving Decidable

theorem primary_zero (C : Cluster) : C.primary 0 = 0 := by
  rw [primary, Int.zero_emod]
  rfl

/-- Every replica is on the course of the first primary. -/
def OnCourse (C : Cluster) (t₀ : Played) (S : ℕ → Server σ) : Prop :=
  ∀ i, (S i).Course (C.node i) t₀ (S 0).proposed

theorem onCourse_init (C : Cluster) (m : Memory σ) : C.OnCourse (m.rids, []) (C.servers m) :=
  fun i => Server.course_init (C.node i) m

theorem onCourse_step {t₀ : Played} (h : C.OnCourse t₀ S) {x : ℕ × ServerEvent σ}
    (hsent : C.Faultless S x) (hok : (S x.1).Settles X x.2) : C.OnCourse t₀ (C.serve X S x) := by
  obtain ⟨i, e⟩ := x
  have hpp : ∀ m stable, e = .prePrepare m stable → m.view = 0 → m.auth →
      (C.node i).primary 0 ≠ (C.node i).id → ∃ p ∈ (S 0).proposed, m.sansAuth = p.sansAuth := by
    rintro m stable rfl hview hauth hid
    have hcopy := hsent.2 hauth
    rw [hview] at hcopy
    obtain ⟨p, hp, heq⟩ := hcopy hid
    rw [primary_zero] at hp
    exact ⟨p, hp, heq⟩
  obtain ⟨ps, hps, hsame, hc⟩ := (h i).step hok hpp
  have hzero : (C.serve X S (i, e) 0).proposed = ps := by
    by_cases hi : i = 0
    · subst hi
      rw [serve, update_self]
      exact (hc.own C.primary_zero).1
    · rw [serve, update_of_ne (Ne.symm hi)]
      exact (hsame fun hp => hi (hp.symm.trans C.primary_zero)).symm
  intro j
  rw [hzero]
  by_cases hj : j = i
  · subst hj
    rw [serve, update_self]
    exact hc
  · rw [serve, update_of_ne hj]
    refine ⟨(h j).toFollows.extend hps, hc.increasing, hc.plain, fun hp => ?_⟩
    -- the primary did nothing, so nothing was added
    have hi : (C.node i).primary 0 ≠ (C.node i).id := fun hi => hj (hp.symm.trans hi)
    rw [hsame hi]
    exact (h j).own hp

/-- **Replicas switch at the same point**: in every run without faulty
replicas whose events all meet `Settles`, whatever requests arrive where
and in which order, two replicas that reach the threshold for the `k`-th
time have executed the same sequence of requests. -/
theorem same_switch_point (C : Cluster) (X : Service σ) (m : Memory σ) (es : List (ℕ × ServerEvent σ))
    (hrun : Guarded (C.serve X) (fun S x => C.Faultless S x ∧ (S x.1).Settles X x.2) (C.servers m) es)
    (i j k : ℕ) (L L' : List Key) (hi : (exec (C.serve X) (C.servers m) es i).switches[k]? = some L)
    (hj : (exec (C.serve X) (C.servers m) es j).switches[k]? = some L') : L = L' := by
  have hinv : C.OnCourse (m.rids, []) (exec (C.serve X) (C.servers m) es) ∧
      ∀ i, Server.Tallied X (exec (C.serve X) (C.servers m) es i).switching := by
    refine Guarded.invariant
      (I := fun S => C.OnCourse (m.rids, []) S ∧ ∀ i, Server.Tallied X (S i).switching)
      (fun S x h hok => ?_) ⟨onCourse_init C m, fun i => ⟨nofun, (Nat.zero_mul _).symm⟩⟩ hrun
    refine ⟨onCourse_step h.1 hok.1 hok.2, fun i => ?_⟩
    by_cases hx : i = x.1
    · subst hx
      rw [serve, update_self]
      exact Server.tallied_step (h.2 x.1) hok.2
    · rw [serve, update_of_ne hx]
      exact h.2 i
  obtain ⟨hcourse, htallied⟩ := hinv
  obtain ⟨n, -, hL⟩ := (hcourse i).switched L (mem_of_getElem? hi)
  obtain ⟨n', -, hL'⟩ := (hcourse j).switched L' (mem_of_getElem? hj)
  have hsame : L.length = L'.length :=
    ((htallied i).1 k L hi).trans ((htallied j).1 k L' hj).symm
  -- both are beginnings of what the primary's pre-prepares say
  rcases le_total n n' with hle | hle
  · have hbegin : L <+: L' := by
      rw [hL, hL']
      exact replay_grows (playBatch_grows _) hle
    exact hbegin.eq_of_length hsame
  · have hbegin : L' <+: L := by
      rw [hL, hL']
      exact replay_grows (playBatch_grows _) hle
    exact (hbegin.eq_of_length hsame.symm).symm

/-- Events at one replica leave the others alone. -/
theorem exec_at (C : Cluster) (X : Service σ) (S : ℕ → Server σ) (i : ℕ) (es : List (ServerEvent σ)) :
    exec (C.serve X) S (es.map (Prod.mk i)) =
      update S i (exec (Server.step X (C.node i)) (S i) es) := by
  induction es generalizing S with
  | nil => exact (update_eq_self i S).symm
  | cons e es ih =>
    rw [map_cons, exec_cons, exec_cons, ih, serve, update_self, update_idem]

/-- The request `r` arrives at replica `i` as often as the threshold
says. -/
def again (r : Request) (i : ℕ) : List (ℕ × ServerEvent σ) :=
  (List.replicate reqsBeforeSwitching (.request r)).map (Prod.mk i)

/-- Replica `i` has counted one request, `r`, which waits in its queue. -/
def Ready (C : Cluster) (r : Request) (S : ℕ → Server σ) (i : ℕ) : Prop :=
  i < C.n ∧ (S i).Waiting (C.node i) r ∧ (S i).cur_state = .normal ∧ (S i).req_count_switch = 1 ∧
    (S i).switches = []
  deriving Decidable

variable {r : Request} {i j : ℕ}

theorem again_of_ne (C : Cluster) (X : Service σ) (S : ℕ → Server σ) (r : Request) (hij : j ≠ i) :
    exec (C.serve X) S (again r i) j = S j := by
  rw [again, exec_at, update_of_ne hij]

/-- The replica stops, with what it executed before. -/
theorem switches_again (hX : X.nb_reqs_before_switching = reqsBeforeSwitching)
    (h : C.Ready r S i) : (exec (C.serve X) S (again r i) i).switches[0]? = some (S i).executed := by
  obtain ⟨-, hwait, hcur, hcount, hnone⟩ := h
  obtain ⟨k, hk⟩ : ∃ k, reqsBeforeSwitching = k + 1 := ⟨199999, rfl⟩
  have hreach : (S i).req_count_switch + k = X.nb_reqs_before_switching := by omega
  rw [again, exec_at, update_self, hk, Server.switches_of_waiting hwait hcur hreach, hnone]
  rfl

/-- This can happen in a run without faulty replicas. -/
theorem faultless_again (hi : i < C.n) : Guarded (C.serve X) C.Faultless S (again r i) := by
  have hall : ∀ x ∈ again (σ := σ) r i, x = (i, .request r) := by
    intro x hx
    obtain ⟨e, he, rfl⟩ := mem_map.1 hx
    rw [eq_of_mem_replicate he]
  refine (Guarded.of_forall_mem hall S).mono fun S x hx => ?_
  rw [hx]
  exact ⟨hi, trivial⟩

theorem Ready.again_of_ne (h : C.Ready r S j) (hij : j ≠ i) :
    C.Ready r (exec (C.serve X) S (again r i)) j := by
  unfold Ready
  rw [Cluster.again_of_ne C X S r hij]
  exact h

/-- Two replicas stop one after the other. -/
theorem switches_pair (hX : X.nb_reqs_before_switching = reqsBeforeSwitching) (hij : j ≠ i)
    (hi : C.Ready r S i) (hj : C.Ready r S j) :
    (exec (C.serve X) S (again r i ++ again r j) i).switches[0]? = some (S i).executed ∧
      (exec (C.serve X) S (again r i ++ again r j) j).switches[0]? = some (S j).executed := by
  have hlast := switches_again hX (hj.again_of_ne (X := X) hij)
  rw [again_of_ne C X S r hij] at hlast
  rw [exec_append]
  refine ⟨?_, hlast⟩
  rw [again_of_ne C X _ r hij.symm]
  exact switches_again hX hi

/-- The client's request reaches replicas 1, 2 and the primary, and replica
2 prepares and executes its batch. -/
def orderRun : List (ℕ × ServerEvent ℕ) :=
  [(0, .enable true), (1, .enable true), (2, .enable true), (3, .enable true),
    (1, .request (toyRequest 1 7)), (2, .request (toyRequest 1 7)), (0, .request (toyRequest 1 7)),
    (2, .prePrepare (toyBatch 1 0 1 7) fun _ => []), (3, .prePrepare (toyBatch 1 0 1 7) fun _ => []),
    (2, .prepare (toyPrepare 1 0 1 7 3) fun _ => [])]

/-- Replica 1 does so too. -/
def orderedRun : List (ℕ × ServerEvent ℕ) :=
  orderRun ++ [(1, .prePrepare (toyBatch 1 0 1 7) fun _ => []),
    (1, .prepare (toyPrepare 1 0 1 7 3) fun _ => [])]

/-- The sample servers. -/
def toyServers : ℕ → Server ℕ := (toyCluster 1 ∅).servers ⟨0, fun _ => 0⟩

/-- The service that counts, in a build that switches with the second
request. -/
def secondSwitches : Service ℕ := { Server.counting with nb_reqs_before_switching := 1 }

/-- And each of the two gets another request. -/
def switchRun : List (ℕ × ServerEvent ℕ) :=
  orderedRun ++ [(1, .request (toyRequest 1 7)), (2, .request (toyRequest 1 7))]

theorem same_switch_point_one :
    let S := exec ((toyCluster 1 ∅).serve secondSwitches) toyServers switchRun
    (S 1).switches[0]? = some [(toyRequest 1 7).key] ∧
      (S 1).switches[0]? = (S 2).switches[0]? := by
  intro S
  have hone : (S 1).switches[0]? = some [(toyRequest 1 7).key] := by decide +kernel
  have htwo : (S 2).switches[0]? = some [(toyRequest 1 7).key] := by decide +kernel
  have hsame := same_switch_point (toyCluster 1 ∅) secondSwitches ⟨0, fun _ => 0⟩ switchRun
    (by decide +kernel) 1 2 0 _ _ hone htwo
  exact ⟨hone, hone.trans ((congrArg some hsame).trans htwo.symm)⟩

/-- **Replicas switch at different points**: the same request arrives again
at replica 1 before it is ordered there and at replica 2 after it executed
it. The first stops with nothing executed, the second with the request. -/
theorem switch_points_differ :
    let serve := (toyCluster 1 ∅).serve Server.counting
    let es := orderRun ++ (again (toyRequest 1 7) 1 ++ again (toyRequest 1 7) 2)
    Guarded serve (toyCluster 1 ∅).Faultless toyServers es ∧
      ∃ L L', (exec serve toyServers es 1).switches[0]? = some L ∧
        (exec serve toyServers es 2).switches[0]? = some L' ∧ L ≠ L' := by
  intro serve es
  obtain ⟨S, hS⟩ : ∃ S, S = exec serve toyServers orderRun := ⟨_, rfl⟩
  obtain ⟨hone, htwo, hexec⟩ : (toyCluster 1 ∅).Ready (toyRequest 1 7) S 1 ∧
      (toyCluster 1 ∅).Ready (toyRequest 1 7) S 2 ∧
      (S 1).executed = [] ∧ (S 2).executed = [(toyRequest 1 7).key] := by
    rw [hS]
    decide +kernel
  have hstart : Guarded serve (toyCluster 1 ∅).Faultless toyServers orderRun := by decide +kernel
  have hpair := switches_pair (X := Server.counting) rfl (by decide : 2 ≠ 1) hone htwo
  rw [hS, ← exec_append, ← hS, hexec.1, hexec.2] at hpair
  exact ⟨guarded_append.2 ⟨hstart, guarded_append.2 ⟨faultless_again hone.1, faultless_again htwo.1⟩⟩, [],
    [(toyRequest 1 7).key], hpair.1, hpair.2, nofun⟩

end Cluster

end AbstractBFT.Aardvark
