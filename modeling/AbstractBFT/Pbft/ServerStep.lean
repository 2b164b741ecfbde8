import AbstractBFT.Pbft.Server
import Mathlib.Data.Set.Basic
/-!
# PBFT — what the handlers leave alone

One relation for nearly all of the replica's code: `Tame`. Requests get into
the table and the queue by `handle(PBFT_R_Request)` only, and what the table
gets besides is what was queued; the history and the broadcast aborts belong
to panics, aborts and the switch.
-/

namespace AbstractBFT.Pbft

open List

open Chain (ReplicaState AbortCertificate)

namespace Core

variable {S X : Type} {N : SNode S X} {A : Set RequestMsg} {c c' c'' : Core N}

/-- The table has `r` for `rd`, or gets it from the queue or from `A`. -/
def Holds (A : Set RequestMsg) (c : Core N) (rd : Digest) (r : RequestMsg) : Prop :=
  c.brt.lookup rd = some r ∨ rd = r.od ∧ (r ∈ c.rqueue ∨ r ∈ A)

/-- What most of the code does: the history and the aborts stay, the queue
and the table get no requests but those in `A`, and batches are executed with
what the table has. The table may take what was queued, under its digest
field. -/
structure Tame (A : Set RequestMsg) (c c' : Core N) : Prop where
  rh : c'.rh = c.rh
  aborted : c'.aborted = c.aborted
  queue : ∀ r ∈ c'.rqueue, r ∈ c.rqueue ∨ r ∈ A
  table : ∀ rd r, c'.brt.lookup rd = some r → c.Holds A rd r
  ran : ∀ x ∈ c'.ran, x ∈ c.ran ∨
    ∃ big, x.2 = x.1.rset ++ big ∧ List.Forall₂ (c.Holds A) x.1.big_reqs big

namespace Tame

theorem of_eq (h : (c'.rh, c'.aborted, c'.rqueue, c'.brt.lookup, c'.ran) =
    (c.rh, c.aborted, c.rqueue, c.brt.lookup, c.ran)) : Tame A c c' := by
  obtain ⟨hrh, habort, hqueue, htable, hran⟩ : c'.rh = c.rh ∧ c'.aborted = c.aborted ∧
      c'.rqueue = c.rqueue ∧ c'.brt.lookup = c.brt.lookup ∧ c'.ran = c.ran := by
    simpa only [Prod.mk.injEq] using h
  refine ⟨hrh, habort, fun r hr => .inl (hqueue ▸ hr), fun rd r hr => .inl ?_,
    fun x hx => .inl (hran ▸ hx)⟩
  rw [← htable]
  exact hr

@[refl] theorem refl (c : Core N) : Tame A c c := of_eq rfl

theorem holds (h : Tame A c c') {rd : Digest} {r : RequestMsg} (hr : c'.Holds A rd r) :
    c.Holds A rd r := by
  rcases hr with hr | ⟨hod, hr⟩
  · exact h.table rd r hr
  · exact .inr ⟨hod, hr.elim (h.queue r) .inr⟩

theorem trans (h : Tame A c c') (h' : Tame A c' c'') : Tame A c c'' where
  rh := h'.rh.trans h.rh
  aborted := h'.aborted.trans h.aborted
  queue r hr := (h'.queue r hr).elim (h.queue r) .inr
  table rd r hr := h.holds (h'.table rd r hr)
  ran x hx := by
    rcases h'.ran x hx with hx | ⟨big, heq, hbig⟩
    · exact h.ran x hx
    · exact .inr ⟨big, heq, hbig.imp fun _ _ => h.holds⟩

theorem of_same (h : Tame A c' c'') (heq : (c'.rh, c'.aborted, c'.rqueue, c'.brt.lookup, c'.ran) =
    (c.rh, c.aborted, c.rqueue, c.brt.lookup, c.ran)) : Tame A c c'' :=
  (of_eq heq).trans h

theorem ite {p : Prop} [Decidable p] (h : Tame A c c') (h' : Tame A c c'') :
    Tame A c (if p then c' else c'') := by
  split
  · exact h
  · exact h'

theorem foldl {α : Type} {f : Core N → α → Core N} (h : ∀ c a, Tame A c (f c a)) (l : List α)
    (c : Core N) : Tame A c (l.foldl f c) := by
  induction l generalizing c with
  | nil => exact refl c
  | cons a l ih => exact (h c a).trans (ih (f c a))

end Tame

variable (c)

theorem tame_disable : Tame A c c.disable := by
  rw [disable]
  exact .ite (.of_eq rfl) (.of_eq rfl)

theorem tame_switchAway : Tame A c c.switchAway :=
  (tame_disable c).trans (.of_eq rfl)

theorem lookup_foldl_addPrePrepare (l : List (Digest × ℕ)) (n v : ℕ) (s : BigReqTable × ℤ) :
    (l.foldl (fun (s : BigReqTable × ℤ) rd =>
      let t := s.1.addPrePrepare rd.1 rd.2 n v
      (t.1, if t.2 then s.2 - 1 else s.2)) s).1.lookup = s.1.lookup := by
  induction l generalizing s with
  | nil => rfl
  | cons rd l ih => rw [foldl_cons, ih, BigReqTable.lookup_addPrePrepare]

theorem tame_addPrePrepare (p : PrePrepare) : Tame A c (c.addPrePrepare p) := by
  refine .of_eq ?_
  rw [addPrePrepare, lookup_foldl_addPrePrepare]

variable {rs : List RequestMsg} {r : RequestMsg}

theorem lookup_foldl_addOwn {n v : ℕ} {t : BigReqTable} {rd : Digest}
    (h : (rs.foldl (fun t r => t.addOwn r n v) t).lookup rd = some r) :
    t.lookup rd = some r ∨ rd = r.od ∧ r ∈ rs := by
  induction rs generalizing t with
  | nil => exact .inl h
  | cons q rs ih =>
    rcases ih h with h | ⟨hod, hr⟩
    · rcases BigReqTable.lookup_addOwn h with h | ⟨hod, rfl⟩
      · exact .inl h
      · exact .inr ⟨hod, mem_cons_self⟩
    · exact .inr ⟨hod, mem_cons_of_mem q hr⟩

theorem tame_sendPrePrepare : Tame A c c.sendPrePrepare := by
  rw [sendPrePrepare]
  split
  · refine ⟨rfl, rfl, fun r hr => .inl (mem_of_mem_drop hr), fun rd r hr => ?_,
      fun _ hx => .inl hx⟩
    rcases lookup_foldl_addOwn hr with hr | ⟨hod, hr⟩
    · exact .inl hr
    · exact .inr ⟨hod, .inl (mem_of_mem_take hr)⟩
  · exact .refl c

theorem tame_packQueue : Tame A c c.packQueue :=
  .ite (tame_sendPrePrepare c) (.refl c)

theorem tame_newReplies : Tame A c c.newReplies where
  rh := rfl
  aborted := rfl
  queue _ hr := .inl (mem_filter.1 hr).1
  table _ _ hr := .inl hr
  ran _ hx := .inl hx

theorem tame_markStable (n : ℕ) (b : Bool) : Tame A c (c.markStable n b) := by
  rw [markStable]
  split
  · exact .refl c
  · have hmoved : Tame A c { c with last_stable := n, low_bound := max n c.low_bound } :=
      .of_eq rfl
    refine hmoved.trans ?_
    generalize ({ c with last_stable := n, low_bound := max n c.low_bound } : Core N) = c
    dsimp only
    have hstate : Tame A c (if b = true ∧ c.last_executed < n then
        { c.newReplies with last_executed := n, last_tentative_execute := n } else c) :=
      .ite ((tame_newReplies c).trans (.of_eq rfl)) (.refl c)
    refine hstate.trans ?_
    generalize (if b = true ∧ c.last_executed < n then
      { c.newReplies with last_executed := n, last_tentative_execute := n } else c : Core N) = c
    refine .trans ?_ (tame_packQueue _)
    have hsub : ∀ rd r, (c.brt.markStable n).lookup rd = some r → c.brt.lookup rd = some r :=
      fun rd r hr => BigReqTable.lookup_of_filter hr
    split <;> exact ⟨rfl, rfl, fun _ hr => .inl hr, fun rd r hr => .inl (hsub rd r hr),
      fun _ hx => .inl hx⟩

theorem tame_execRequest (r : RequestMsg) : Tame A c (c.execRequest r) := by
  rw [execRequest]
  exact .ite (.refl c) (.ite (.ite (.of_eq rfl) (.of_eq rfl)) (.of_eq rfl))

theorem tame_executePrepared : Tame A c c.executePrepared := by
  rw [executePrepared]
  split
  case isFalse => exact .refl c
  case isTrue =>
  split
  · exact .refl c
  · next pp _ =>
    split
    · exact .of_eq rfl
    · next rs hrs =>
      have hran : Tame A c { c with
          last_tentative_execute := c.last_executed + 1, ran := c.ran ++ [(pp, rs)]
          tentative := [] } := by
        refine ⟨rfl, rfl, fun _ hr => .inl hr, fun _ _ hr => .inl hr, fun x hx => ?_⟩
        rcases mem_concat_iff.1 hx with hx | rfl
        · exact .inl hx
        · obtain ⟨big, heq, hbig⟩ := PrePrepare.exists_of_requests hrs
          exact .inr ⟨big, heq, hbig.imp fun _ _ => .inl⟩
      have hrun := hran.trans (Tame.foldl tame_execRequest rs _)
      exact .ite (hrun.trans (.of_eq rfl)) hrun

theorem tame_commitNext : Tame A c c.commitNext :=
  (tame_executePrepared c).trans (.of_eq rfl)

theorem mem_of_foldl_removeUpTo {q : ReqQueue}
    (h : r ∈ rs.foldl (fun q r => ReqQueue.removeUpTo q r.cid r.rid) q) : r ∈ q := by
  induction rs generalizing q with
  | nil => exact h
  | cons o rs ih => exact ReqQueue.mem_of_removeUpTo (ih h)

theorem tame_commitBatch (rs : List RequestMsg) : Tame A c (c.commitBatch rs) := by
  rw [commitBatch]
  have hbatch : Tame A c
      { c with
        replies := fun cid =>
          if rs.any fun r => r.cid == cid then { c.replies cid with tentative := false }
          else c.replies cid
        rqueue := rs.foldl (fun q r => ReqQueue.removeUpTo q r.cid r.rid) c.rqueue } :=
    ⟨rfl, rfl, fun _ hr => .inl (mem_of_foldl_removeUpTo hr), fun _ _ hr => .inl hr,
      fun _ hx => .inl hx⟩
  exact hbatch.trans (.ite (.ite ((tame_markStable _ _ _).of_same rfl) (.of_eq rfl)) (.refl _))

theorem tame_executeReadOnly {m : RequestMsg} (h : c.executeReadOnly m = some c') : Tame A c c' := by
  rw [executeReadOnly] at h
  split at h
  case isFalse => cases h
  case isTrue =>
  obtain rfl := Option.some.inj h
  split
  · exact .of_eq rfl
  · exact (tame_switchAway _).of_same rfl

theorem tame_undo : Tame A c c.undo := by
  rw [undo]
  split
  · rw [rollback]
    split
    · exact .of_eq rfl
    · split <;> exact .of_eq rfl
  · exact .refl c

theorem tame_startFetch : Tame A c c.startFetch := .ite (.refl c) (.of_eq rfl)

theorem tame_takeState (k : ℕ) (service : S) (replies : ℤ → RepEntry) (stable : Bool) :
    Tame A c (c.takeState k service replies stable) := by
  have hadvance : ∀ c : Core N, Tame A c (c.advance k) := by
    intro c
    rw [advance]
    split
    · have hmoved : Tame A c
          { c.newReplies with last_executed := k, last_tentative_execute := k } :=
        (tame_newReplies c).trans (.of_eq rfl)
      refine hmoved.trans ?_
      generalize ({ c.newReplies with last_executed := k, last_tentative_execute := k } :
        Core N) = d
      have hstable : Tame A d (if d.last_stable + maxOut < k then
          d.markStable (k - maxOut) (d.mine (k - maxOut)) else d) :=
        .ite (tame_markStable d _ _) (.refl d)
      exact hstable.trans (.of_eq rfl)
    · exact .refl c
  have hfetch : Tame A c (c.endFetch k service replies) := .of_eq rfl
  refine (hfetch.trans (hadvance _)).trans ?_
  rw [takeState]
  generalize (c.endFetch k service replies).advance k = c
  exact .trans (.ite (tame_markStable _ _ _) (.refl c)) (.of_eq rfl)

theorem tame_sendViewChange (maxv : ℕ) (logged : List (Digest × ℕ × ℕ)) :
    Tame A c (c.sendViewChange maxv logged) := by
  have hlookup : ∀ (l : List (Digest × ℕ × ℕ)) (v : ℕ) (t : BigReqTable),
      (l.foldl (fun t p => (t.addPrePrepare p.1 p.2.1 p.2.2 v).1) t).lookup = t.lookup := by
    intro l v
    induction l with
    | nil => exact fun _ => rfl
    | cons p l ih =>
      intro t
      rw [foldl_cons, ih, BigReqTable.lookup_addPrePrepare]
  have hundo : Tame A c ({ c with v := max (c.v + 1) maxv, nv_complete := false } : Core N).undo :=
    (tame_undo _).of_same rfl
  refine hundo.trans ⟨rfl, rfl, fun _ hr => .inl hr, fun rd r hr => .inl ?_, fun _ hx => .inl hx⟩
  have hview := BigReqTable.lookup_of_filter hr
  rw [hlookup] at hview
  exact hview

theorem tame_processNewView (min max ms : ℕ) (pps : List PrePrepare) :
    Tame A c (c.processNewView min max ms pps) := by
  rw [processNewView]
  have hview : Tame A c
      { c with nv_complete := true, seqno := max - 1, low_bound := Nat.max min c.last_stable } :=
    .of_eq rfl
  refine hview.trans ?_
  refine (tame_markStable _ ms (ms ≤ c.last_executed)).trans ?_
  have hadd : ∀ (c : Core N) p,
      Tame A c (if c.isPrimary then c.addComplete p else c.addPrePrepare p) :=
    fun c p => .ite (.of_eq rfl) (tame_addPrePrepare c p)
  refine (Tame.foldl hadd pps _).trans ?_
  refine (tame_packQueue _).trans ?_
  split
  · exact (tame_startFetch _).trans (.of_eq rfl)
  · exact .of_eq rfl

theorem stop_startPanic : c.startPanic.cur_state = .stop ↔ c.cur_state = .stop := by
  rw [startPanic]
  split
  · next h => exact ⟨fun hpanic => (by cases hpanic), fun hstop => absurd hstop h.2⟩
  · exact Iff.rfl

/-- A panic starts with a change of the state and nothing else. -/
theorem exists_startPanic : ∃ st, c.startPanic = { c with cur_state := st } := by
  rw [startPanic]
  split
  · exact ⟨_, rfl⟩
  · exact ⟨c.cur_state, rfl⟩

end Core

/-- Panics, aborts and the switch. -/
def SEvent.switching {S : Type} : SEvent S → Bool
  | .panic .. | .abort _ | .setEnabled _ => true
  | _ => false

namespace Server

variable {S X : Type} {N : SNode S X} {A : Set RequestMsg}

open Pbft.Core (Tame)

variable {s' : Server N} {m : RequestMsg}

theorem tame_ite {p : Prop} [Decidable p] {c : Core N} {s : Server N} (h : Tame A c s.core)
    (h' : Tame A c s'.core) : Tame A c (if p then s else s').core := by
  split
  · exact h
  · exact h'

theorem tame_foldl {α : Type} {f : Server N → α → Server N}
    (h : ∀ s a, Tame A s.core (f s a).core) (l : List α) (s : Server N) :
    Tame A s.core (l.foldl f s).core := by
  induction l generalizing s with
  | nil => exact .refl _
  | cons a l ih => exact (h s a).trans (ih (f s a))

theorem tame_enqueue {s : Server N} (h : s.enqueue m = some s') (hm : m ∈ A) :
    Tame A s.core s'.core := by
  rw [enqueue, Option.map_eq_some_iff] at h
  obtain ⟨q, hq, rfl⟩ := h
  refine ⟨rfl, rfl, fun r hr => ?_, fun _ _ hr => .inl hr, fun _ hx => .inl hx⟩
  rcases ReqQueue.mem_of_append hq hr with rfl | hr
  · exact .inr hm
  · exact .inl hr

variable [DecidableEq X] (s : Server N)

theorem tame_readOnly (m : RequestMsg) : Tame A s.core (s.readOnly m).core := by
  change Tame A s.core ((s.core.executeReadOnly m).getD s.core)
  cases h : s.core.executeReadOnly m with
  | none => exact .refl _
  | some c => exact Core.tame_executeReadOnly _ h

theorem tame_drain : Tame A s.core s.drain.core :=
  tame_foldl tame_readOnly s.ro_rqueue { s with ro_rqueue := [] }

theorem tame_executeRound {s : Server N} (h : s.executeRound = some s') :
    Tame A s.core s'.core := by
  rw [executeRound] at h
  split at h
  case isFalse => cases h
  case isTrue =>
  split at h
  · cases h
  · obtain rfl := Option.some.inj h
    have hnext : Tame A s.core (s.on Core.commitNext).core := Core.tame_commitNext s.core
    exact (hnext.trans (tame_drain _)).trans (Core.tame_commitBatch _ _)

theorem tame_executeLoop (k : ℕ) (s : Server N) : Tame A s.core (s.executeLoop k).core := by
  induction k generalizing s with
  | zero => exact .refl _
  | succ k ih =>
    rw [executeLoop]
    split
    · exact .refl _
    · next s' h => exact (tame_executeRound h).trans (ih s')

theorem tame_executeCommitted : Tame A s.core s.executeCommitted.core := by
  rw [executeCommitted]
  have hloop := tame_executeLoop (A := A) (maxOut + 1) s
  exact tame_ite (tame_ite (hloop.trans (Core.tame_packQueue _)) hloop) (.refl _)

theorem tame_sendCommit (n : ℕ) : Tame A s.core (s.sendCommit n).core := by
  rw [sendCommit]
  have hexec : Tame A s.core
      (s.on fun c => if n = c.last_executed + 1 then c.executePrepared else c).core :=
    .ite (Core.tame_executePrepared _) (.refl _)
  refine hexec.trans ?_
  generalize (s.on fun c => if n = c.last_executed + 1 then c.executePrepared else c) = s'
  exact tame_ite (.refl _) ((tame_executeCommitted _).of_same rfl)

theorem tame_tryCommit (n : ℕ) : Tame A s.core (s.tryCommit n).core :=
  tame_ite (tame_sendCommit s n) (.refl _)

theorem tame_fillWaiting (rd : Digest) (ws : List WaitingPp) :
    Tame A s.core (s.fillWaiting rd ws).core := by
  refine tame_foldl (fun s w => ?_) ws s
  exact tame_ite ((tame_tryCommit _ _).of_same rfl) (.refl _)

theorem tame_handlePrePrepare (m : PrePrepare) (ok : Bool) :
    Tame A s.core (s.handlePrePrepare m ok).core := by
  rw [handlePrePrepare]
  split
  · split
    · have hadd : Tame A s.core (s.on fun c => c.addPrePrepare m).core :=
        Core.tame_addPrePrepare s.core m
      exact hadd.trans (tame_tryCommit _ _)
    · exact .refl _
  · split
    · exact ⟨rfl, rfl, fun _ hr => .inl hr, (Core.tame_addPrePrepare s.core _).table,
        fun _ hx => .inl hx⟩
    · exact .refl _

theorem tame_newState (k : ℕ) (service : S) (replies : ℤ → RepEntry) (stable : Bool) :
    Tame A s.core (s.newState k service replies stable).core := by
  have htake : Tame A s.core (s.on fun c => c.takeState k service replies stable).core :=
    Core.tame_takeState s.core k service replies stable
  exact ((htake.trans (tame_executeCommitted _)).trans (tame_drain _)).trans (Core.tame_packQueue _)

/-! ## Requests -/

theorem tame_addRequest {s : Server N} {verified : Bool} (h : s.addRequest m verified = some s')
    (hm : m ∈ A) : Tame A s.core s'.core := by
  rw [addRequest, Option.map_eq_some_iff] at h
  obtain ⟨t, ht, rfl⟩ := h
  have hadd : Tame A s.core (s.on fun c => { c with brt := t.1 }).core := by
    refine ⟨rfl, rfl, fun _ hr => .inl hr, fun rd r hr => ?_, fun _ hx => .inl hx⟩
    rcases BigReqTable.lookup_addRequest ht hr with hr | ⟨hod, rfl⟩
    · exact .inl hr
    · exact .inr ⟨hod, .inr hm⟩
  exact hadd.trans (tame_fillWaiting _ _ _)

theorem tame_handleOrdered (hm : m ∈ A) : Tame A s.core (s.handleOrdered m).core := by
  have henqueue : ∀ s : Server N, Tame A s.core ((s.enqueue m).getD s).core := by
    intro s
    cases h : s.enqueue m with
    | none => exact .refl _
    | some s' => exact tame_enqueue h hm
  rw [handleOrdered]
  dsimp only
  split
  · split
    · split
      · split
        · next s' hs' =>
          exact ((tame_enqueue hs' hm).trans (Core.tame_sendPrePrepare _)).of_same rfl
        · exact .of_eq rfl
      · exact .refl _
    · cases h : s.addRequest m true with
      | none => exact henqueue s
      | some s' => exact tame_addRequest h hm
  · split
    · exact henqueue s
    · exact .refl _

/-- The request gets past the checks of `handle(PBFT_R_Request)` on the way
to the queue and the table. -/
def takes (s : Server N) (m : RequestMsg) : Bool :=
  decide (s.core.cur_state = .normal) && !m.read_only &&
    (if s.core.hasNewView ∧ m.verify N.toNode then true
    else (s.core.brt.addRequest RequestMsg.rid m false (unverifiedOk s.core)).isSome)

/-- A request adds itself, if it is taken, and nothing else. -/
theorem tame_handleRequest (hm : s.takes m → m ∈ A) : Tame A s.core (s.handleRequest m).core := by
  rw [handleRequest]
  split
  · exact .refl _
  split
  · exact .refl _
  next hnormal =>
  simp only [takes, not_not.1 hnormal, decide_true, Bool.true_and] at hm
  split
  · next hverify =>
    rw [if_pos hverify, Bool.and_true] at hm
    split
    · cases hro : m.read_only with
      | true =>
        rw [if_pos rfl]
        split
        · exact tame_readOnly s m
        · exact .refl _
      | false =>
        exact tame_handleOrdered s (hm (by rw [hro]; rfl))
    · exact .refl _
  · next hverify =>
    rw [if_neg hverify] at hm
    split
    · exact .refl _
    · next hro =>
      cases h : s.addRequest m false with
      | none => exact .refl _
      | some s' =>
        refine tame_addRequest h (hm ?_)
        rw [addRequest, Option.map_eq_some_iff] at h
        obtain ⟨t, ht, -⟩ := h
        rw [ht, eq_false_of_ne_true hro]
        rfl

/-! ## The other events -/

/-- What is left: no request comes in, and nobody panics or switches. -/
theorem tame_handle {e : SEvent S} (hreq : ∀ m, e ≠ .request m) (hswitch : e.switching = false) :
    Tame A s.core (s.handle e).core := by
  cases e with
  | request m => exact absurd rfl (hreq m)
  | prePrepare m ok => exact tame_handlePrePrepare s m ok
  | vouched n => exact .ite (.of_eq rfl) (.refl _)
  | prepares n => exact tame_ite ((tame_tryCommit _ n).of_same rfl) (.refl _)
  | commits n enough =>
    rw [handle]
    exact tame_ite (.refl _) (tame_ite ((tame_executeCommitted _).of_same rfl)
      (.ite (.of_eq rfl) (.refl _)))
  | checkpoint n =>
    exact .ite (.ite ((Core.tame_markStable _ n true).of_same rfl) (.of_eq rfl)) (.refl _)
  | fetch => exact (Core.tame_undo s.core).trans (Core.tame_startFetch _)
  | newState k service replies stable => exact tame_newState s k service replies stable
  | viewChange maxv logged => exact Core.tame_sendViewChange s.core maxv logged
  | newView min max ms pps =>
    have hview : Tame A s.core (s.on fun c => c.processNewView min max ms pps).core :=
      Core.tame_processNewView s.core min max ms pps
    exact tame_ite (hview.trans (tame_drain _)) hview
  | panic cid rid buffer => cases hswitch
  | abort m => cases hswitch
  | setEnabled state => cases hswitch

/-! ## Panics and the switch -/

/-- A panic is answered with an abort: those of replicas always, those of
clients unless the instance is stopped. -/
def answers (s : Server N) (cid : ℤ) : Bool :=
  !s.core.halted && (N.isReplica cid || s.core.cur_state != .stop)

omit [DecidableEq X] in
/-- A panic changes the state, and an answered one adds an abort. -/
theorem core_handlePanic (cid : ℤ) (rid : ℕ) (buffer : ℕ → AbortHistoryElement) :
    (s.handlePanic cid rid buffer).core =
      if N.isReplica cid ∨ s.core.cur_state ≠ .stop then s.core.startPanic.broadcastAbort rid buffer
      else s.core.startPanic := by
  rw [handlePanic]
  by_cases hcid : N.isReplica cid
  · rw [if_pos hcid, if_pos (.inl hcid)]
    rfl
  · rw [if_neg hcid]
    by_cases hstop : s.core.cur_state = .stop
    · rw [if_neg (not_or.2 ⟨hcid, not_not.2 hstop⟩)]
      exact congrArg Server.core (if_pos (s.core.stop_startPanic.2 hstop))
    · rw [if_pos (Or.inr hstop)]
      exact congrArg Server.core (if_neg (mt s.core.stop_startPanic.1 hstop))

end Server

end AbstractBFT.Pbft
