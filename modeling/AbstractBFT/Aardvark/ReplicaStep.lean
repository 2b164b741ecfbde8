import AbstractBFT.Aardvark.Replica
import AbstractBFT.Lib.Entries
/-!
# Aardvark — what a step can do

`Moved` says once, for every event, what becomes of the entries of one
sequence number: nothing, one of the operations on a `Slot` with the tests
its handler made before, or `clear`. The view moves only when the replica
leaves it, and the last stable checkpoint only grows. Every invariant of
the ordering protocol is proved by cases on these facts and never unfolds a
handler again.
-/

namespace AbstractBFT.Aardvark

namespace Replica

open Function List

variable {N : Node} {r : Replica}

/-! ## The parts a handler does not touch -/

@[simp] theorem log_onSlot_self (r : Replica) (n : ℕ) (σ : Slot) : (r.onSlot n σ).log n = σ :=
  update_self ..

variable {s : ℕ} {e : Event} {r' r0 r1 : Replica} {n : NVInfo} {v : View}

theorem log_onSlot_of_ne {n : ℕ} (h : s ≠ n) (σ : Slot) : (r.onSlot n σ).log s = r.log s :=
  update_of_ne h ..

/-- **Checkpoint steps.** From `r` to `r'` only the checkpoint moved: the
view and what was sent stay, entries up to the new checkpoint may be
cleared, and a backup's new view may become complete. -/
structure Truncated (N : Node) (r r' : Replica) : Prop where
  v : r'.v = r.v
  last_stable : r.last_stable ≤ r'.last_stable
  sentVcs : r'.sentVcs = r.sentVcs
  sentNvs : r'.sentNvs = r.sentNvs
  last_vcs : r'.last_vcs = r.last_vcs
  log : ∀ s, r'.log s = r.log s ∨ s ≤ r'.last_stable ∧ r'.log s = (r.log s).clear
  oplog : ∀ s, r'.oplog s = r.oplog s ∨ r'.oplog s = (r.oplog s).clear
  last_nvs : ∀ p, r'.last_nvs p = r.last_nvs p ∨
    p = N.primary r.v ∧ 0 < (r.last_nvs p).v ∧ N.primary (r.last_nvs p).v ≠ N.id ∧
      r'.last_nvs p = { r.last_nvs p with is_complete := true }
  seqno : N.primary (r.nvInfo N).v = N.id → r.seqno ≤ r'.seqno

namespace Truncated

theorem refl (N : Node) (r : Replica) : Truncated N r r where
  v := rfl
  last_stable := le_rfl
  sentVcs := rfl
  sentNvs := rfl
  last_vcs := rfl
  log _ := .inl rfl
  oplog _ := .inl rfl
  last_nvs _ := .inl rfl
  seqno _ := le_rfl

theorem view_nvs {r' : Replica} (h : Truncated N r r') (p : ℕ) :
    (r'.last_nvs p).v = (r.last_nvs p).v := by
  rcases h.last_nvs p with heq | ⟨-, -, -, heq⟩ <;> rw [heq]

theorem trans {r' r'' : Replica} (h : Truncated N r r') (h' : Truncated N r' r'') :
    Truncated N r r'' where
  v := h'.v.trans h.v
  last_stable := h.last_stable.trans h'.last_stable
  sentVcs := h'.sentVcs.trans h.sentVcs
  sentNvs := h'.sentNvs.trans h.sentNvs
  last_vcs := h'.last_vcs.trans h.last_vcs
  log s := by
    have hls := h'.last_stable
    rcases h.log s with heq | ⟨hs, heq⟩ <;> rcases h'.log s with heq' | ⟨hs', heq'⟩
    · exact .inl (heq'.trans heq)
    · exact .inr ⟨hs', heq'.trans (congrArg Slot.clear heq)⟩
    · exact .inr ⟨hs.trans hls, heq'.trans heq⟩
    · refine .inr ⟨hs', heq'.trans ?_⟩
      rw [heq, Slot.clear_clear]
  oplog s := by
    rcases h.oplog s with heq | heq <;> rcases h'.oplog s with heq' | heq'
    · exact .inl (heq'.trans heq)
    · exact .inr (heq'.trans (congrArg OReqInfo.clear heq))
    · exact .inr (heq'.trans heq)
    · refine .inr (heq'.trans ?_)
      rw [heq, OReqInfo.clear_clear]
  last_nvs p := by
    rcases h'.last_nvs p with heq' | ⟨hp, hpos, hne, heq'⟩
    · rw [heq']
      exact h.last_nvs p
    · refine .inr ⟨hp.trans (by rw [h.v]), ?_, ?_, ?_⟩
      · rw [← h.view_nvs p]
        exact hpos
      · rw [← h.view_nvs p]
        exact hne
      · rcases h.last_nvs p with heq | ⟨-, -, -, heq⟩ <;> rw [heq', heq]
  seqno hp := by
    have hv : (r'.nvInfo N).v = (r.nvInfo N).v := by
      rw [nvInfo, h.v, h.view_nvs]
      rfl
    exact (h.seqno hp).trans (h'.seqno (by rw [hv]; exact hp))

end Truncated

section

variable (N r)

theorem truncated_trimNewView : Truncated N r (r.trimNewView N) := by
  dsimp only [trimNewView]
  split
  case isFalse => exact .refl N r
  case isTrue h =>
    obtain ⟨hpos, -, -, -, hne⟩ := h
    refine { Truncated.refl N r with last_nvs := fun p => ?_, seqno := fun hp => absurd hp hne }
    by_cases hp : p = N.primary r.v
    · subst hp
      exact .inr ⟨rfl, hpos, hne, update_self ..⟩
    · exact .inl (update_of_ne hp ..)

theorem truncated_markStable (n : ℕ) (b : Bool) : Truncated N r (r.markStable N n b) := by
  rw [markStable]
  split
  · exact .refl N r
  · next h =>
    refine .trans ?_ (truncated_trimNewView N _)
    refine ⟨rfl, Nat.le_of_not_le h, rfl, rfl, rfl, fun s => ?_, fun s => ?_, fun p => .inl rfl,
      fun _ => le_max_right ..⟩
    · dsimp only
      split
      · next hs => exact .inr ⟨hs, rfl⟩
      · exact .inl rfl
    · dsimp only
      split
      · exact .inr rfl
      · exact .inl rfl

theorem last_stable_trimNewView : (r.trimNewView N).last_stable = r.last_stable := by
  dsimp only [trimNewView]
  split <;> rfl

theorem last_stable_markStable (n : ℕ) (b : Bool) :
    (r.markStable N n b).last_stable = max n r.last_stable := by
  rw [markStable]
  split
  · next h => exact (max_eq_right h).symm
  · next h =>
    rw [last_stable_trimNewView]
    exact (max_eq_left (Nat.le_of_not_le h)).symm

theorem truncated_newState (c : ℕ) : Truncated N r (r.newState N c) := by
  have hlast : ∀ r0 : Replica, Truncated N r0
      (let r1 := if r0.last_executed < c then
          let r1 := { r0 with last_executed := c }
          if r1.last_stable + maxOut < c then r1.markStable N (c - maxOut) false else r1
        else r0
      { r1 with seqno := max c r1.seqno }) := by
    intro r0
    have hseq : ∀ r1 : Replica, Truncated N r1 { r1 with seqno := max c r1.seqno } := fun r1 =>
      { Truncated.refl N r1 with seqno := fun _ => le_max_right .. }
    refine .trans ?_ (hseq _)
    split
    · have hexec : Truncated N r0 { r0 with last_executed := c } := { Truncated.refl N r0 with }
      dsimp only
      split
      · exact hexec.trans (truncated_markStable N _ _ _)
      · exact hexec
    · exact .refl N r0
  refine .trans ?_ (hlast _)
  split
  · exact { Truncated.refl N r with }
  · exact .refl N r

/-- The pre-prepares among `wps` for sequence number `s`, by the index of
the request they wait for. -/
def waitingFor (wps : List WaitingPp) (s : ℕ) : List ℕ := (wps.filter (·.n == s)).map (·.i)

/-- Releasing a big request touches only the logs, and there each entry as
often as it waits. -/
theorem foldl_release (N : Node) (rd : Digest) (wps : List WaitingPp) (r : Replica) :
    ∃ log', wps.foldl (release N rd) r = { r with log := log' } ∧ ∀ s,
      log' s =
        if r.hasNewView N ∧ r.InLog s then
          (waitingFor wps s).foldl (fun σ i => σ.bigRequest N r.v s rd i) (r.log s)
        else r.log s := by
  induction wps generalizing r with
  | nil => exact ⟨r.log, rfl, fun s => (ite_self _).symm⟩
  | cons wp wps ih =>
    obtain ⟨log', heq, hlog⟩ := ih (release N rd r wp)
    rw [foldl_cons, heq]
    by_cases hguard : r.hasNewView N ∧ r.InLog wp.n
    · have hrel : release N rd r wp =
          r.onSlot wp.n ((r.log wp.n).bigRequest N r.v wp.n rd wp.i) := by
        rw [release, if_pos hguard]
      refine ⟨log', by rw [hrel]; rfl, fun s => (hlog s).trans ?_⟩
      rw [hrel]
      by_cases hs : s = wp.n
      · subst hs
        have hguard' : (r.onSlot wp.n ((r.log wp.n).bigRequest N r.v wp.n rd wp.i)).hasNewView N ∧
            (r.onSlot wp.n ((r.log wp.n).bigRequest N r.v wp.n rd wp.i)).InLog wp.n := hguard
        rw [if_pos hguard, if_pos hguard', log_onSlot_self]
        simp only [waitingFor, filter_cons, beq_self_eq_true, if_true, map_cons,
          foldl_cons]
        rfl
      · have hne : (wp.n == s) = false := beq_false_of_ne (Ne.symm hs)
        rw [log_onSlot_of_ne hs]
        simp only [waitingFor, filter_cons, hne]
        rfl
    · have hrel : release N rd r wp = r := by rw [release, if_neg hguard]
      refine ⟨log', by rw [hrel], fun s => (hlog s).trans ?_⟩
      rw [hrel]
      by_cases hs : wp.n = s
      · subst hs
        rw [if_neg hguard, if_neg hguard]
      · simp only [waitingFor, filter_cons, beq_false_of_ne hs]
        rfl

/-- The pre-prepare a new view has for `i`. -/
def adopted (v : View) (d : ℕ → Digest) (pps : ℕ → PrePrepare) (i : ℕ) : PrePrepare :=
  { pps i with view := v, seqno := i, digest := d i }

/-- Adopting the requests of a new view touches only the logs and the table
of big requests, each entry once. -/
theorem foldl_adopt (N : Node) (d : ℕ → Digest) (pps : ℕ → PrePrepare) (is : List ℕ)
    (hnodup : is.Nodup) (r : Replica) :
    ∃ log' brt', is.foldl (adopt N d pps) r = { r with log := log', brt := brt' } ∧
      (∀ s ∉ is, log' s = r.log s) ∧
      ∀ s ∈ is, ∃ brt, log' s = ((r.log s).adopt N r.v brt (adopted r.v d pps s)).1 := by
  induction is generalizing r with
  | nil => exact ⟨r.log, r.brt, rfl, fun _ _ => rfl, by simp⟩
  | cons i is ih =>
    rw [nodup_cons] at hnodup
    obtain ⟨log', brt', heq, hout, hin⟩ := ih hnodup.2 (adopt N d pps r i)
    have hother : ∀ s, s ≠ i → (adopt N d pps r i).log s = r.log s := fun s hs =>
      log_onSlot_of_ne hs _
    refine ⟨log', brt', heq, fun s hs => ?_, fun s hs => ?_⟩
    · rw [mem_cons, not_or] at hs
      exact (hout s hs.2).trans (hother s hs.1)
    · rcases mem_cons.1 hs with rfl | hmem
      · exact ⟨r.brt, (hout s hnodup.1).trans (log_onSlot_self ..)⟩
      · obtain ⟨brt, hbrt⟩ := hin s hmem
        have hne : s ≠ i := by
          rintro rfl
          exact hnodup.1 hmem
        rw [hother s hne] at hbrt
        exact ⟨brt, hbrt⟩

/-- **What `process_new_view` makes of `r`**: a checkpoint step to `r1`,
and then the entries of the new view's requests, all behind the checkpoint,
are adopted. -/
structure Processed (N : Node) (r : Replica) (min max : ℕ) (d : ℕ → Digest) (pps : ℕ → PrePrepare)
    (r1 r' : Replica) : Prop where
  trunc : Truncated N { r with seqno := max - 1, low_bound := Max.max min r.last_stable } r1
  eq : ∃ log' brt' nvst halt,
    r' = { r1 with log := log', brt := brt', has_nv_state := nvst, halted := halt }
  log : ∀ s, r'.log s = r1.log s ∨ min < s ∧ s < max ∧ r1.last_stable < s ∧
    ∃ brt, r'.log s = ((r1.log s).adopt N r.v brt (adopted r.v d pps s)).1

theorem exists_processed {min max ms : ℕ} (hms : ms ≤ min) (d : ℕ → Digest) (pps : ℕ → PrePrepare) :
    ∃ r1, Processed N r min max d pps r1 (r.processNewView N min max ms d pps) := by
  dsimp only [processNewView]
  have htrunc := truncated_markStable N
    { r with seqno := max - 1, low_bound := Max.max min r.last_stable } ms (ms ≤ r.last_executed)
  have hls := last_stable_markStable N
    { r with seqno := max - 1, low_bound := Max.max min r.last_stable } ms (ms ≤ r.last_executed)
  dsimp only at hls
  generalize markStable N { r with seqno := max - 1, low_bound := Max.max min r.last_stable } ms
    (ms ≤ r.last_executed) = r1 at htrunc hls ⊢
  refine ⟨r1, ?_⟩
  split
  case isFalse => exact ⟨htrunc, ⟨_, _, _, _, rfl⟩, fun s => .inl rfl⟩
  case isTrue hspace =>
    have hfold := foldl_adopt N d pps (List.range' (Max.max min r.last_stable + 1)
      (max - (Max.max min r.last_stable + 1))) nodup_range' r1
    obtain ⟨log', brt', heq, hout, hin⟩ := hfold
    rw [heq]
    refine ⟨htrunc, ⟨_, _, _, _, rfl⟩, fun s => ?_⟩
    by_cases hs : s ∈ List.range' (Max.max min r.last_stable + 1)
        (max - (Max.max min r.last_stable + 1))
    · obtain ⟨brt, hbrt⟩ := hin s hs
      rw [mem_range'_1] at hs
      refine .inr ⟨by omega, by omega, by omega, brt, hbrt.trans ?_⟩
      rw [htrunc.v]
    · exact .inl (hout s hs)

theorem frame_viewChange (w : View) (ckpts : List Digest) :
    (r.viewChange N w ckpts).v = w ∧ (r.viewChange N w ckpts).last_stable = r.last_stable ∧
      (r.viewChange N w ckpts).log = r.log ∧ (r.viewChange N w ckpts).sentNvs = r.sentNvs ∧
      (r.viewChange N w ckpts).sentVcs =
        r.sentVcs ++ [ViewChange.make w r.last_stable N.id ckpts r.oplog] := by
  dsimp only [viewChange]
  split <;> simp

theorem truncated_executeCommitted : Truncated N r (r.executeCommitted N) := by
  rw [executeCommitted]
  split
  · exact { Truncated.refl N r with }
  · exact .refl N r

/-- `add_request` stores the request and releases the pre-prepares that
wait for it; nothing else changes. -/
theorem addRequest_cases (req : Request) (verified : Bool) :
    ∃ log' brt', r.addRequest N req verified = { r with log := log', brt := brt' } ∧
      ∀ s, log' s = r.log s ∨ r.hasNewView N ∧ r.InLog s ∧
        ∃ bre : BREntry Request.od req.od, r.brt.breqs req.od = some bre ∧
          log' s = (waitingFor bre.waiting.reverse s).foldl
            (fun σ i => σ.bigRequest N r.v s req.od i) (r.log s) := by
  rw [addRequest]
  split
  · next brt' ws ht =>
    obtain ⟨log', heq, hlog⟩ := foldl_release N req.od ws { r with brt := brt' }
    rw [heq]
    refine ⟨log', brt', rfl, fun s => ?_⟩
    rw [hlog s]
    split
    · next hguard =>
      rcases BigReqTable.waiting_of_addRequest ht with rfl | ⟨bre, hbre, rfl⟩
      · exact .inl rfl
      · exact .inr ⟨hguard.1, hguard.2, bre, hbre, rfl⟩
    · exact .inl rfl
  · exact ⟨r.log, r.brt, rfl, fun s => .inl rfl⟩

/-! ## One step -/

/-- **What an event can do.** The cases give the state after the event,
with the tests the handler made before; parts of the state that no result
depends on are left open. -/
inductive Stepped (N : Node) (r : Replica) : Event → Replica → Prop
  | checkpoint {e : Event} {r' : Replica} (h : Truncated N r r') : Stepped N r e r'
  | prePrepare {q : ReqQueue} {m : PrePrepare} {brt' : BigReqTable}
      (hwv : r.InWv m.view m.seqno) (hnv : r.hasNewView N) :
      Stepped N r (.prePrepare q m)
        { r.onSlot m.seqno ((r.log m.seqno).prePrepare N q r.v r.brt m).1 with brt := brt' }
  | prepare {m : Prepare} (hwv : r.InWv m.view m.seqno) (hid : N.primary r.v ≠ m.id)
      (hnv : r.hasNewView N) :
      Stepped N r (.prepare m) (r.onSlot m.seqno ((r.log m.seqno).prepare N r.v m))
  | commit {m : Commit} (hwv : r.InWv m.view m.seqno) :
      Stepped N r (.commit m) (r.onSlot m.seqno ((r.log m.seqno).commit N m))
  | request {req : Request} {verified : Bool} {log' : ℕ → Slot} {brt' : BigReqTable}
      (hlog : ∀ s, log' s = r.log s ∨ r.hasNewView N ∧ r.InLog s ∧
        ∃ bre : BREntry Request.od req.od, r.brt.breqs req.od = some bre ∧
          log' s = (waitingFor bre.waiting.reverse s).foldl
            (fun σ i => σ.bigRequest N r.v s req.od i) (r.log s)) :
      Stepped N r (.request req verified) { r with log := log', brt := brt' }
  | newKey : Stepped N r .newKey (r.sendNewKey N)
  | propose {small big : List Request} {nd : List UInt8} {brt' : BigReqTable}
      (hlive : r.InLog (r.seqno + 1)) (hp : N.primary r.v = N.id) (hnv : r.hasNewView N) :
      Stepped N r (.propose small big nd)
        { r.onSlot (r.seqno + 1) ((r.log (r.seqno + 1)).propose r.v
            (batch N r.v (r.seqno + 1) small big nd)) with
          seqno := r.seqno + 1, brt := brt' }
  | leave {w : View} {rc : Option ℕ} {ckpts : List Digest} (hw : r.v < w) :
      Stepped N r (.leave w rc ckpts)
        ((r.closeView rc).viewChange N w ckpts)
  | viewChange {vc : ViewChange} {auth : Bool} :
      Stepped N r (.viewChange vc auth) (r.handleViewChange N vc auth)
  | newView {nv : NewView} {auth : Bool} :
      Stepped N r (.newView nv auth) (r.handleNewView N nv auth)
  | install {ms : ℕ} {pps : ℕ → PrePrepare} {nv : NewView} {r1 r' : Replica}
      (hp : N.primary r.v ≠ N.id) (hv : 0 < r.v) (hview : (r.nvInfo N).v = r.v)
      (hnv : (r.nvInfo N).nv = some nv) (hacc : (r.nvInfo N).accepted)
      (hcomp : (r.nvInfo N).is_complete = false)
      (h : Processed N
        { r with
          last_nvs := update r.last_nvs (N.primary r.v) { r.nvInfo N with is_complete := true } }
        nv.min nv.max (nv.fetchDigest N.md5 (r.nvInfo N).vcs) pps r1 r') :
      Stepped N r (.install ms pps) r'
  | make {nv : NewView} {ms : ℕ} {pps : ℕ → PrePrepare} {r1 r' : Replica}
      (hp : N.primary r.v = N.id) (hv : 0 < r.v) (hview : (r.nvInfo N).v = r.v)
      (hnv : nv.view = r.v) (hcomp : (r.nvInfo N).is_complete = false)
      (h : Processed N
        { r with
          last_nvs := update r.last_nvs (N.primary r.v)
            { r.nvInfo N with nv := some nv, is_complete := true }
          sentNvs := r.sentNvs ++ [nv] }
        nv.min nv.max (nv.fetchDigest N.md5 nv.viewChange) pps r1 r') :
      Stepped N r (.make nv ms pps) r'

theorem stepped_install (ms : ℕ) (pps : ℕ → PrePrepare) :
    Stepped N r (.install ms pps) (r.installNewView N ms pps) := by
  dsimp only [installNewView]
  split
  · next nv hnv =>
    split
    · next hcond =>
      obtain ⟨hp, hv, hview, hacc, hcomp, hms⟩ := hcond
      obtain ⟨r1, h⟩ := exists_processed N _ hms _ pps
      exact .install hp hv hview hnv hacc hcomp h
    · exact .checkpoint (.refl N r)
  · exact .checkpoint (.refl N r)

theorem stepped_make (nv : NewView) (ms : ℕ) (pps : ℕ → PrePrepare) :
    Stepped N r (.make nv ms pps) (r.makeNewView N nv ms pps) := by
  dsimp only [makeNewView]
  split
  · next hcond =>
    obtain ⟨hp, hv, hview, hcomp, hnv, hms⟩ := hcond
    obtain ⟨r1, h⟩ := exists_processed N _ hms _ pps
    exact .make hp hv hview hnv hcomp h
  · exact .checkpoint (.refl N r)

theorem v_handleViewChange (vc : ViewChange) (auth : Bool) :
    ∃ nvs' vcs' views', r.handleViewChange N vc auth =
      { r with last_nvs := nvs', last_vcs := vcs', last_views := views' } := by
  dsimp only [handleViewChange]
  split
  · exact ⟨_, _, _, rfl⟩
  · split
    · exact ⟨_, _, _, rfl⟩
    · split <;> exact ⟨_, _, _, rfl⟩

theorem v_handleNewView (nv : NewView) (auth : Bool) :
    ∃ nvs' vcs', r.handleNewView N nv auth = { r with last_nvs := nvs', last_vcs := vcs' } := by
  dsimp only [handleNewView]
  split <;> exact ⟨_, _, rfl⟩

/-- What an event `e` leaves as it was, unless it makes the replica leave
its view. -/
structure Stayed (r r' : Replica) (e : Event) : Prop where
  v : r'.v = r.v
  last_stable : r.last_stable ≤ r'.last_stable
  sentVcs : r'.sentVcs = r.sentVcs
  sentNvs : r'.sentNvs = r.sentNvs ∨
    ∃ nv ms pps, e = .make nv ms pps ∧ r'.sentNvs = r.sentNvs ++ [nv]
  oplog : ∀ s, r'.oplog s = r.oplog s ∨ r'.oplog s = (r.oplog s).clear

theorem Stayed.refl (r : Replica) (e : Event) : Stayed r r e :=
  ⟨rfl, le_rfl, rfl, .inl rfl, fun _ => .inl rfl⟩

variable (e : Event)

theorem stepped_step : Stepped N r e (r.step N e) := by
  rw [step]
  split
  · exact .checkpoint (.refl N r)
  cases e with
  | prePrepare q m =>
    dsimp only [handle, handlePrePrepare]
    split
    · next h => exact .prePrepare h.1 h.2.2
    · exact .checkpoint (.refl N r)
  | prepare m =>
    dsimp only [handle, handlePrepare]
    split
    · next h => exact .prepare h.1 h.2.2.1 h.2.2.2
    · exact .checkpoint (.refl N r)
  | commit m =>
    dsimp only [handle, handleCommit]
    split
    · next h => exact .commit h.1
    · exact .checkpoint (.refl N r)
  | request req verified =>
    obtain ⟨log', brt', heq, hlog⟩ := addRequest_cases N r req verified
    rw [handle, heq]
    exact .request hlog
  | newKey => exact .newKey
  | stable n b => exact .checkpoint (truncated_markStable N r n b)
  | newState c => exact .checkpoint (truncated_newState N r c)
  | execute => exact .checkpoint (truncated_executeCommitted N r)
  | propose small big nd =>
    dsimp only [handle, sendPrePrepare]
    split
    · next h => exact .propose h.2.2.2 h.2.1 h.1
    · exact .checkpoint (.refl N r)
  | leave w rc ckpts =>
    dsimp only [handle, sendViewChange]
    split
    · exact .checkpoint (.refl N r)
    · next hw => exact .leave (lt_of_not_ge hw)
  | viewChange vc auth => exact .viewChange
  | newView nv auth => exact .newView
  | install ms pps => exact stepped_install N r ms pps
  | make nv ms pps => exact stepped_make N r nv ms pps

theorem stayed_step : Stayed r (r.step N e) e ∨
    ∃ w rc ckpts, e = .leave w rc ckpts ∧ r.v < w ∧
      r.step N e = (r.closeView rc).viewChange N w ckpts := by
  have h := stepped_step N r e
  generalize r.step N e = r' at h ⊢
  cases h with
  | checkpoint h => exact .inl ⟨h.v, h.last_stable, h.sentVcs, .inl h.sentNvs, h.oplog⟩
  | leave hw => exact .inr ⟨_, _, _, rfl, hw, rfl⟩
  | @viewChange vc auth =>
    obtain ⟨_, _, _, heq⟩ := v_handleViewChange N r vc auth
    rw [heq]
    exact .inl { Stayed.refl r _ with }
  | @newView nv auth =>
    obtain ⟨_, _, heq⟩ := v_handleNewView N r nv auth
    rw [heq]
    exact .inl { Stayed.refl r _ with }
  | install _ _ _ _ _ _ h =>
    obtain ⟨h, ⟨_, _, _, _, rfl⟩, -⟩ := h
    exact .inl ⟨h.v, h.last_stable, h.sentVcs, .inl h.sentNvs, h.oplog⟩
  | make _ _ _ _ _ h =>
    obtain ⟨h, ⟨_, _, _, _, rfl⟩, -⟩ := h
    exact .inl ⟨h.v, h.last_stable, h.sentVcs, .inr ⟨_, _, _, rfl, h.sentNvs⟩, h.oplog⟩
  | _ => exact .inl { Stayed.refl r _ with }

theorem v_step : (r.step N e).v = r.v ∨
    ∃ w rc ckpts, e = .leave w rc ckpts ∧ r.v < w ∧ (r.step N e).v = w := by
  rcases stayed_step N r e with h | ⟨w, rc, ckpts, he, hw, heq⟩
  · exact .inl h.v
  · exact .inr ⟨w, rc, ckpts, he, hw, heq ▸ (frame_viewChange ..).1⟩

theorem le_v_step : r.v ≤ (r.step N e).v := by
  rcases v_step N r e with hv | ⟨w, _, _, -, hlt, hw⟩
  · exact hv.ge
  · rw [hw]
    exact hlt.le

theorem last_stable_le_step : r.last_stable ≤ (r.step N e).last_stable := by
  rcases stayed_step N r e with h | ⟨w, rc, ckpts, -, -, heq⟩
  · exact h.last_stable
  · rw [heq, (frame_viewChange ..).2.1]
    exact le_rfl

end

theorem v_of_not_leave (h : ∀ w rc ckpts, e ≠ .leave w rc ckpts) : (r.step N e).v = r.v :=
  (v_step N r e).resolve_right fun ⟨w, rc, ckpts, he, _⟩ => h w rc ckpts he

section

variable {min max : ℕ} {d : ℕ → Digest} {pps : ℕ → PrePrepare} (h : Processed N r0 min max d pps r1 r')

include h

theorem Processed.view : r'.v = r0.v := by
  obtain ⟨htrunc, ⟨_, _, _, _, rfl⟩, -⟩ := h
  exact htrunc.v

/-- A new view that is complete stays as it is. -/
theorem Processed.nvInfo_eq (hcomp : (r0.nvInfo N).is_complete = true) :
    r'.nvInfo N = r0.nvInfo N := by
  obtain ⟨htrunc, ⟨_, _, _, _, rfl⟩, -⟩ := h
  have hv : r1.v = r0.v := htrunc.v
  change r1.last_nvs (N.primary r1.v) = _
  rw [hv]
  rcases htrunc.last_nvs (N.primary r0.v) with heq | ⟨-, -, -, heq⟩
  · exact heq
  · rw [heq, ← hcomp]
    rfl

end

/-! ## The entries of one sequence number -/

/-- **What an event from `r` to `r'` can do to the entries for `s`.**
`same` and `truncated` are open to every event; each other case names its
event and the tests the handler made. -/
inductive Moved (N : Node) (r r' : Replica) (s : ℕ) : Event → Slot → Prop
  | same {e : Event} (hv : r'.v = r.v) : Moved N r r' s e (r.log s)
  | truncated {e : Event} (hs : s ≤ r'.last_stable) : Moved N r r' s e (r.log s).clear
  | prePrepare {q : ReqQueue} {m : PrePrepare} (hin : r.InLog s) (hv : m.view = r.v)
      (hs : m.seqno = s) (hnv : r.hasNewView N) :
      Moved N r r' s (.prePrepare q m) ((r.log s).prePrepare N q r.v r.brt m).1
  | prepare {m : Prepare} (hin : r.InLog s) (hv : m.view = r.v) (hs : m.seqno = s)
      (hid : N.primary r.v ≠ m.id) (hnv : r.hasNewView N) :
      Moved N r r' s (.prepare m) ((r.log s).prepare N r.v m)
  | commit {m : Commit} (hin : r.InLog s) (hv : m.view = r.v) (hs : m.seqno = s) :
      Moved N r r' s (.commit m) ((r.log s).commit N m)
  | released {req : Request} {verified : Bool} {bre : BREntry Request.od req.od} (hin : r.InLog s)
      (hbre : r.brt.breqs req.od = some bre) (hnv : r.hasNewView N) :
      Moved N r r' s (.request req verified)
        ((waitingFor bre.waiting.reverse s).foldl (fun σ i => σ.bigRequest N r.v s req.od i) (r.log s))
  | stale (hs : r.Refreshed s) :
      Moved N r r' s .newKey ((r.log s).markStale (decide (N.primary r.v = N.id)))
  | proposed {small big : List Request} {nd : List UInt8} (hlive : r.last_stable < s)
      (hp : N.primary r.v = N.id) (hnv : r.hasNewView N) (hs : s = r.seqno + 1) :
      Moved N r r' s (.propose small big nd)
        ((r.log s).propose r.v (batch N r.v s small big nd))
  | installed {ms : ℕ} {pps : ℕ → PrePrepare} {nv : NewView} {brt : BigReqTable}
      (hlive : r'.last_stable < s) (hp : N.primary r.v ≠ N.id) (hv : 0 < r.v)
      (hview : (r.nvInfo N).v = r.v) (hnv : (r.nvInfo N).nv = some nv)
      (hacc : (r.nvInfo N).accepted) (hcomp : (r.nvInfo N).is_complete = false)
      (hdone : (r'.nvInfo N).is_complete) (hmin : nv.min < s) (hmax : s < nv.max) :
      Moved N r r' s (.install ms pps)
        ((r.log s).adopt N r.v brt
          (adopted r.v (nv.fetchDigest N.md5 (r.nvInfo N).vcs) pps s)).1
  | made {nv : NewView} {ms : ℕ} {pps : ℕ → PrePrepare} {brt : BigReqTable}
      (hlive : r'.last_stable < s) (hp : N.primary r.v = N.id) (hv : 0 < r.v) (hview : nv.view = r.v)
      (hcomp : (r.nvInfo N).is_complete = false) (hmin : nv.min < s) (hmax : s < nv.max) :
      Moved N r r' s (.make nv ms pps)
        ((r.log s).adopt N r.v brt (adopted r.v (nv.fetchDigest N.md5 nv.viewChange) pps s)).1
  | left {w : View} {rc : Option ℕ} {ckpts : List Digest} (hw : r.v < w) (hv : r'.v = w) :
      Moved N r r' s (.leave w rc ckpts) (r.log s).clear

theorem moved_of_truncated (h : Truncated N r r') (s : ℕ) (e : Event) :
    Moved N r r' s e (r'.log s) := by
  rcases h.log s with heq | ⟨hs, heq⟩ <;> rw [heq]
  · exact .same h.v
  · exact .truncated hs

theorem moved_onSlot {n : ℕ} {σ : Slot} (hv : r'.v = r.v) (h : Moved N r r' n e σ) (s : ℕ) :
    Moved N r r' s e ((r.onSlot n σ).log s) :=
  (forall_update_iff r.log fun s σ => Moved N r r' s e σ).2 ⟨h, fun _ _ => .same hv⟩ s

/-- Adopting requests after a checkpoint step, in terms of the entries
before it. -/
theorem Processed.moved {min max : ℕ} {d : ℕ → Digest} {pps : ℕ → PrePrepare}
    (h : Processed N r0 min max d pps r1 r') (hlog : r0.log = r.log) (hv : r0.v = r.v)
    (hnew : ∀ brt, r'.last_stable < s → min < s → s < max →
      Moved N r r' s e ((r.log s).adopt N r.v brt (adopted r.v d pps s)).1) :
    Moved N r r' s e (r'.log s) := by
  obtain ⟨htrunc, ⟨_, _, _, _, rfl⟩, hadopt⟩ := h
  have hold := htrunc.log s
  dsimp only at hold
  rw [hlog] at hold
  rcases hadopt s with heq | ⟨hmin, hmax, hlive, brt, heq⟩
  · rw [heq]
    rcases hold with heq | ⟨hs, heq⟩ <;> rw [heq]
    · exact .same (htrunc.v.trans hv)
    · exact .truncated hs
  · rw [heq, hv, hold.resolve_right fun hs => absurd hs.1 (not_le.2 hlive)]
    exact hnew brt hlive hmin hmax

theorem moved_step (N : Node) (r : Replica) (e : Event) (s : ℕ) :
    Moved N r (r.step N e) s e ((r.step N e).log s) := by
  have h := stepped_step N r e
  generalize r.step N e = r' at h ⊢
  cases h with
  | checkpoint h => exact moved_of_truncated h s e
  | prePrepare hwv hnv =>
    exact moved_onSlot (by rfl) (.prePrepare hwv.1 hwv.2 rfl hnv) s
  | prepare hwv hid hnv =>
    exact moved_onSlot (by rfl) (.prepare hwv.1 hwv.2 rfl hid hnv) s
  | commit hwv =>
    exact moved_onSlot (by rfl) (.commit hwv.1 hwv.2 rfl) s
  | request hlog =>
    rcases hlog s with heq | ⟨hnv, hin, bre, hbre, heq⟩ <;> dsimp only <;> rw [heq]
    · exact .same rfl
    · exact .released hin hbre hnv
  | newKey =>
    dsimp only [sendNewKey, markStaleVi]
    split
    · next hs => exact .stale hs
    · exact .same rfl
  | propose hlive hp hnv =>
    exact moved_onSlot (by rfl) (.proposed hlive.1 hp hnv rfl) s
  | leave hw =>
    rw [(frame_viewChange ..).2.2.1]
    exact .left hw (frame_viewChange ..).1
  | @viewChange vc auth =>
    obtain ⟨_, _, _, heq⟩ := v_handleViewChange N r vc auth
    rw [heq]
    exact .same rfl
  | @newView nv auth =>
    obtain ⟨_, _, heq⟩ := v_handleNewView N r nv auth
    rw [heq]
    exact .same rfl
  | install hp hv hview hnv hacc hcomp h =>
    refine h.moved (r := r) rfl rfl fun brt hlive =>
      .installed hlive hp hv hview hnv hacc hcomp ?_
    rw [h.nvInfo_eq] <;> simp [nvInfo]
  | make hp hv hview hnv hcomp h =>
    exact h.moved (r := r) rfl rfl fun brt hlive => .made hlive hp hv hnv hcomp

/-! ## The new views collected -/

/-- What `vi.add(A_New_view*)` makes of a new-view: it is stored, and the
waiting view-changes for its view are added. -/
inductive Matched (N : Node) (r : Replica) (nv : NewView) : NVInfo → Prop
  | start : Matched N r nv { NVInfo.empty with v := nv.view, nv := some nv }
  | add {n : NVInfo} {i : ℕ} {vc : ViewChange} (h : Matched N r nv n)
      (hvc : r.last_vcs i = some vc) (hv : vc.view = nv.view) :
      Matched N r nv (n.addViewChange N vc true).1

theorem matched_foldl (N : Node) (r : Replica) (nv : NewView) (is : List ℕ) (n : NVInfo)
    (vcs : ℕ → Option ViewChange) (hn : Matched N r nv n)
    (hvcs : ∀ i vc, vcs i = some vc → r.last_vcs i = some vc) :
    Matched N r nv (is.foldl (matchVc N nv.view) (n, vcs)).1 ∧
      ∀ i vc, (is.foldl (matchVc N nv.view) (n, vcs)).2 i = some vc → r.last_vcs i = some vc := by
  induction is generalizing n vcs with
  | nil => exact ⟨hn, hvcs⟩
  | cons i is ih =>
    have hone : Matched N r nv (matchVc N nv.view (n, vcs) i).1 ∧
        ∀ j vc, (matchVc N nv.view (n, vcs) i).2 j = some vc → r.last_vcs j = some vc := by
      dsimp only [matchVc]
      split
      · next vc hvc =>
        split
        · next hview =>
          refine ⟨.add hn (hvcs i vc hvc) hview, fun j vc' hj => ?_⟩
          dsimp only at hj
          split at hj
          · exact hvcs j vc' (Entries.of_erase hj)
          · exact hvcs j vc' hj
        · exact ⟨hn, hvcs⟩
      · exact ⟨hn, hvcs⟩
    exact ih _ _ hone.1 hone.2

/-- **What an event from `r` to `r'` can do to `last_nvs[p]`.** -/
inductive NvMoved (N : Node) (r r' : Replica) (p : ℕ) : Event → NVInfo → Prop
  | same {e : Event} (hv : r'.v = r.v) : NvMoved N r r' p e (r.last_nvs p)
  | completed {e : Event} (hv : r'.v = r.v) (hp : p = N.primary r.v) (hpos : 0 < (r.last_nvs p).v)
      (hbackup : N.primary (r.last_nvs p).v ≠ N.id) :
      NvMoved N r r' p e { r.last_nvs p with is_complete := true }
  | made {nv : NewView} {ms : ℕ} {pps : ℕ → PrePrepare} (hp : p = N.primary r.v)
      (hown : N.primary r.v = N.id) (hpos : 0 < r.v) (hview : (r.last_nvs p).v = r.v)
      (hnv : nv.view = r.v) :
      NvMoved N r r' p (.make nv ms pps) { r.last_nvs p with nv := some nv, is_complete := true }
  | stale : NvMoved N r r' p .newKey ((r.last_nvs p).markStale N).1
  | cleared {w : View} {rc : Option ℕ} {ckpts : List Digest} (hv : r'.v = w) (hw : r.v < w) :
      NvMoved N r r' p (.leave w rc ckpts) .empty
  | kept {w : View} {rc : Option ℕ} {ckpts : List Digest} (hv : r'.v = w) (hw : r.v < w)
      (hle : w ≤ (r.last_nvs p).v) (hbackup : p = N.id → N.primary w ≠ N.id) :
      NvMoved N r r' p (.leave w rc ckpts) (r.last_nvs p)
  | opened {w : View} {rc : Option ℕ} {ckpts : List Digest} {vcs : ℕ → Option ViewChange}
      (hv : r'.v = w) (hw : r.v < w) (hp : p = N.id) (hown : N.primary w = N.id)
      (hvcs : ∀ i vc, vcs i = some vc → vc.view = w ∧
        (r.last_vcs i = some vc ∨ i = N.id ∧ vc.id = N.id ∧ vc ∈ r'.sentVcs)) :
      NvMoved N r r' p (.leave w rc ckpts) { NVInfo.empty with v := w, vcs := vcs }
  | viewChange {vc : ViewChange} {auth : Bool} (hp : p = N.primary vc.view)
      (hview : (r.last_nvs p).v = vc.view) (hle : r.v ≤ vc.view) :
      NvMoved N r r' p (.viewChange vc auth) ((r.last_nvs p).addViewChange N vc (vc.verify N auth)).1
  | newView {nv : NewView} {auth : Bool} {n : NVInfo} (hp : p = N.primary nv.view)
      (hver : nv.verify N auth) (hle : r.v ≤ nv.view) (hlt : (r.last_nvs p).v < nv.view)
      (hn : Matched N r nv n) : NvMoved N r r' p (.newView nv auth) n

theorem nvMoved_of_truncated (h : Truncated N r r') (p : ℕ) (e : Event) :
    NvMoved N r r' p e (r'.last_nvs p) := by
  rcases h.last_nvs p with heq | ⟨hp, hpos, hne, heq⟩ <;> rw [heq]
  · exact .same h.v
  · exact .completed h.v hp hpos hne

theorem nvMoved_update {q : ℕ} (hv : r'.v = r.v) (h : NvMoved N r r' q e n) (p : ℕ) :
    NvMoved N r r' p e (update r.last_nvs q n p) :=
  (forall_update_iff r.last_nvs fun p n => NvMoved N r r' p e n).2 ⟨h, fun _ _ => .same hv⟩ p

/-- A new view that is complete, after the checkpoint step that follows. -/
theorem Processed.nvMoved {min max : ℕ} {d : ℕ → Digest} {pps : ℕ → PrePrepare}
    (hproc : Processed N r0 min max d pps r1 r')
    (hr0 : r0.last_nvs = update r.last_nvs (N.primary r0.v) n) (hn : n.is_complete = true)
    (hv : r0.v = r.v) (h : NvMoved N r r' (N.primary r0.v) e n) (p : ℕ) :
    NvMoved N r r' p e (r'.last_nvs p) := by
  obtain ⟨htrunc, ⟨_, _, _, _, rfl⟩, -⟩ := hproc
  rcases htrunc.last_nvs p with heq | ⟨rfl, -, -, heq⟩ <;> dsimp only at heq ⊢ <;> rw [heq, hr0]
  · exact nvMoved_update (by exact htrunc.v.trans hv) h p
  · rw [update_self, ← hn]
    exact h

theorem nvMoved_leave {w : View} (hv : r'.v = w) (hw : r.v < w) (rc : Option ℕ)
    (ckpts : List Digest) (hsent : ViewChange.make w r.last_stable N.id ckpts
      (fun i => logged r.v (r.oplog i) (r.log i).pc) ∈ r'.sentVcs) (p : ℕ) :
    NvMoved N r r' p (.leave w rc ckpts) (((r.closeView rc).viewChange N w ckpts).last_nvs p) := by
  have hold : ∀ p, (p = N.id → N.primary w ≠ N.id) → NvMoved N r r' p (.leave w rc ckpts)
      (if (r.last_nvs p).v < w then NVInfo.empty else r.last_nvs p) := by
    intro p hp
    split
    · exact .cleared hv hw
    · next hlt => exact .kept hv hw (le_of_not_gt hlt) hp
  dsimp only [viewChange]
  split
  · next hown =>
    refine (forall_update_iff _ fun p n => NvMoved N r r' p (.leave w rc ckpts) n).2
      ⟨.opened hv hw rfl hown fun i vc hvc => ?_, fun p hp => hold p fun h => absurd h hp⟩ p
    obtain ⟨hvc, hview⟩ := Option.filter_eq_some_iff.1 hvc
    refine ⟨by simpa using hview, ?_⟩
    rcases Entries.of_write hvc with ⟨rfl, rfl⟩ | ⟨-, hvc⟩
    · exact .inr ⟨rfl, ViewChange.id_make .., hsent⟩
    · exact .inl (Option.filter_eq_some_iff.1 hvc).1
  · next hown => exact hold p fun _ => hown

theorem nvMoved_step (N : Node) (r : Replica) (e : Event) (p : ℕ) :
    NvMoved N r (r.step N e) p e ((r.step N e).last_nvs p) := by
  have h := stepped_step N r e
  generalize r.step N e = r' at h ⊢
  cases h with
  | checkpoint h => exact nvMoved_of_truncated h p e
  | newKey => exact .stale
  | leave hw =>
    refine nvMoved_leave (frame_viewChange ..).1 hw _ _ ?_ p
    rw [(frame_viewChange ..).2.2.2.2]
    exact mem_append_right _ (mem_singleton_self _)
  | @viewChange vc auth =>
    dsimp only [handleViewChange]
    split
    · exact .same rfl
    · next hle =>
      split
      · next hview => exact nvMoved_update (by rfl) (.viewChange rfl hview (le_of_not_gt hle)) p
      · split <;> exact .same rfl
  | @newView nv auth =>
    dsimp only [handleNewView]
    split
    · next hcond =>
      obtain ⟨hle, hver, hlt⟩ := hcond
      refine nvMoved_update (by rfl) (.newView rfl hver hle hlt
        (matched_foldl N r nv _ _ _ ?_ fun _ _ h => h).1) p
      rw [NVInfo.addNewView, if_neg (not_le.2 hlt)]
      exact .start
    · exact .same rfl
  | install hp hv hview hnv hacc hcomp h =>
    have hslot : (r.last_nvs (N.primary r.v)).v = r.v := hview
    refine h.nvMoved rfl rfl rfl ?_ p
    exact .completed h.view rfl (hslot.symm ▸ hv) (hslot.symm ▸ hp)
  | make hp hv hview hnv hcomp h =>
    exact h.nvMoved rfl rfl rfl (.made rfl hp hv hview hnv) p
  | _ => exact .same rfl

/-! ### Views of the new views collected -/

theorem matched_frame {nv : NewView} (h : Matched N r nv n) :
    n.v = nv.view ∧ n.nv = some nv ∧ n.is_complete = false := by
  induction h with
  | start => exact ⟨rfl, rfl, rfl⟩
  | @add n i vc h hvc hv ih =>
    obtain ⟨hframe, hnv, hcomp⟩ := NVInfo.frame_addViewChange N n vc true
    exact ⟨hframe.trans ih.1, hnv.trans ih.2.1, hcomp.trans ih.2.2⟩

/-- A new view collected in view `v` is for this view or a later one, and
only such a new view is complete. -/
def NvCurrent (v : View) (n : NVInfo) : Prop :=
  n.v = 0 ∧ n.is_complete = false ∨ 0 < n.v ∧ v ≤ n.v

theorem NvCurrent.le_of_complete (h : NvCurrent v n) (hcomp : n.is_complete) : v ≤ n.v := by
  rcases h with ⟨-, hnot⟩ | ⟨-, hle⟩
  · rw [hcomp] at hnot
    cases hnot
  · exact hle

theorem NvCurrent.markStale (h : NvCurrent v n) (N : Node) : NvCurrent v (n.markStale N).1 := by
  rw [NVInfo.markStale]
  split
  · exact h
  · split
    · next hown => exact .inr ⟨hown.1, (h.resolve_left fun h0 => hown.1.ne' h0.1).2⟩
    · exact .inl ⟨rfl, rfl⟩

/-- **The new views collected stay current** from event to event. -/
theorem nvCurrent_step (hv : 0 ≤ r.v) (h : ∀ p, NvCurrent r.v (r.last_nvs p)) (e : Event) (p : ℕ) :
    NvCurrent (r.step N e).v ((r.step N e).last_nvs p) := by
  have hmove := nvMoved_step N r e p
  rcases v_step N r e with hsame | ⟨w, rc, ckpts, rfl, hlt, hw⟩
  · rw [hsame]
    generalize (r.step N e).last_nvs p = n at hmove ⊢
    cases hmove with
    | same _ => exact h p
    | completed _ _ hpos _ => exact .inr ⟨hpos, ((h p).resolve_left fun h0 => hpos.ne' h0.1).2⟩
    | made _ _ hpos hview _ => exact .inr ⟨hview.symm ▸ hpos, hview.ge⟩
    | stale => exact (h p).markStale N
    | cleared _ _ => exact .inl ⟨rfl, rfl⟩
    | kept _ _ _ _ => exact h p
    | opened _ hw _ _ _ => exact .inr ⟨lt_of_le_of_lt hv hw, hw.le⟩
    | viewChange hp hview hle =>
      obtain ⟨hv', -, hcomp⟩ := NVInfo.frame_addViewChange N (r.last_nvs p) _ _
      rw [NvCurrent, hv', hcomp]
      exact h p
    | newView _ hver hle _ hn =>
      obtain ⟨hnv, -, -⟩ := matched_frame hn
      rw [NvCurrent, hnv]
      exact .inr ⟨(NewView.verify_sound hver).1, hle⟩
  · rw [hw]
    have hpos : 0 < w := lt_of_le_of_lt hv hlt
    generalize (r.step N (.leave w rc ckpts)).last_nvs p = n at hmove ⊢
    cases hmove with
    | same hv' => exact absurd (hw.symm.trans hv') hlt.ne'
    | completed hv' _ _ _ => exact absurd (hw.symm.trans hv') hlt.ne'
    | cleared _ _ => exact .inl ⟨rfl, rfl⟩
    | kept _ _ hle _ => exact .inr ⟨lt_of_lt_of_le hpos hle, hle⟩
    | opened _ _ _ _ _ => exact .inr ⟨hpos, le_rfl⟩

end Replica

/-! ## What is sent -/

namespace Slot

variable {N : Node} {v : View} {n : ℕ} {σ σ' σ'' : Slot}

/-- Prepares and commits of view `v` were sent, and nothing else. -/
def Grows (v : View) (σ σ' : Slot) : Prop :=
  ∃ l, σ'.out = σ.out ++ l ∧ ∀ o ∈ l, (∃ d, o = .prepare v d) ∨ o = .commit v

namespace Grows

theorem of_eq (h : σ'.out = σ.out) : Grows v σ σ' := ⟨[], by simpa using h, by simp⟩

theorem trans (h : Grows v σ σ') (h' : Grows v σ' σ'') : Grows v σ σ'' := by
  obtain ⟨l, hl, hall⟩ := h
  obtain ⟨l', hl', hall'⟩ := h'
  refine ⟨l ++ l', by rw [hl', hl, List.append_assoc], fun o ho => ?_⟩
  rcases List.mem_append.1 ho with ho | ho
  · exact hall o ho
  · exact hall' o ho

theorem subset (h : Grows v σ σ') : σ.out ⊆ σ'.out := by
  obtain ⟨l, hl, -⟩ := h
  rw [hl]
  exact List.subset_append_left _ _

theorem mem (h : Grows v σ σ') {o : Own} (ho : o ∈ σ'.out) :
    o ∈ σ.out ∨ (∃ d, o = .prepare v d) ∨ o = .commit v := by
  obtain ⟨l, hl, hall⟩ := h
  rw [hl, List.mem_append] at ho
  exact ho.imp_right (hall o)

theorem sendPrepare : Grows v σ (σ.sendPrepare N v n) := by
  rw [Slot.sendPrepare]
  split
  · split
    · next pp _ => exact ⟨[.prepare v pp.digest], rfl, by simp⟩
    · exact .of_eq rfl
  · exact .of_eq rfl

theorem commitIfComplete : Grows v σ (σ.commitIfComplete N v n) := by
  rw [Slot.commitIfComplete]
  split
  · exact ⟨[.commit v], rfl, by simp⟩
  · exact .of_eq rfl

theorem prePrepare {q : ReqQueue} {brt : BigReqTable} {m : PrePrepare} :
    Grows v σ (σ.prePrepare N q v brt m).1 := by
  dsimp only [Slot.prePrepare]
  split
  · have hadd : Grows v σ { σ with pc := (σ.pc.add N q brt m).1.1 } := .of_eq rfl
    exact (hadd.trans sendPrepare).trans commitIfComplete
  · exact .of_eq rfl

theorem prepare {m : Prepare} : Grows v σ (σ.prepare N v m) := by
  have hadd : Grows v σ { σ with pc := (σ.pc.addPrepare N m).1 } := .of_eq rfl
  dsimp only [Slot.prepare]
  split
  · exact hadd.trans commitIfComplete
  · exact hadd

theorem bigRequest {rd : Digest} {i : ℕ} : Grows v σ (σ.bigRequest N v n rd i) := by
  have hdig : Grows v σ { σ with pc := σ.pc.addDigest rd i } := .of_eq rfl
  exact (hdig.trans sendPrepare).trans commitIfComplete

theorem released {rd : Digest} (is : List ℕ) :
    Grows v σ (is.foldl (fun σ i => σ.bigRequest N v n rd i) σ) := by
  induction is generalizing σ with
  | nil => exact .of_eq rfl
  | cons i is ih => exact bigRequest.trans ih

end Grows

end Slot

namespace Replica

variable {N : Node} {r : Replica}
variable {r' : Replica} {s : ℕ} {σ' : Slot}

/-- **What an event sends for a sequence number**: prepares and commits of
the current view, or one pre-prepare if this replica is its primary and
proposes a batch or opens the view. -/
theorem Moved.sent {e : Event} (h : Moved N r r' s e σ') :
    Slot.Grows r.v (r.log s) σ' ∨
      ∃ d, σ'.out = (r.log s).out ++ [.prePrepare r.v d] ∧ N.primary r.v = N.id ∧
        ((r.hasNewView N ∧ s = r.seqno + 1 ∧ ∃ small big nd, e = .propose small big nd) ∨
          ∃ nv ms pps, e = .make nv ms pps ∧ nv.min < s ∧ s < nv.max ∧
            d = nv.fetchDigest N.md5 nv.viewChange s) := by
  cases h with
  | same _ => exact .inl (.of_eq rfl)
  | truncated _ => exact .inl (.of_eq rfl)
  | prePrepare _ _ _ _ => exact .inl .prePrepare
  | prepare _ _ _ _ _ => exact .inl .prepare
  | commit _ _ _ => exact .inl (.of_eq rfl)
  | released _ _ _ => exact .inl (.released _)
  | stale _ => exact .inl (.of_eq rfl)
  | proposed _ hp hnv hs => exact .inr ⟨_, rfl, hp, .inl ⟨hnv, hs, _, _, _, rfl⟩⟩
  | @installed ms pps nv brt _ hp _ _ _ _ _ _ _ _ =>
    refine .inl ?_
    rw [Slot.adopt, if_neg hp]
    exact ⟨[.prepare r.v _], rfl, by simp⟩
  | @made nv ms pps brt _ hp _ _ _ hmin hmax =>
    refine .inr ⟨nv.fetchDigest N.md5 nv.viewChange s, ?_, hp, .inr ⟨nv, ms, pps, rfl, hmin, hmax, rfl⟩⟩
    rw [Slot.adopt, if_pos hp]
    rfl
  | left _ _ => exact .inl (.of_eq rfl)

/-- Only proposing a batch and opening a view send pre-prepares. -/
theorem Moved.prePrepare_mem {e : Event} (h : Moved N r r' s e σ') {w : View} {d : Digest}
    (hd : .prePrepare w d ∈ σ'.out) : .prePrepare w d ∈ (r.log s).out ∨
      w = r.v ∧ ((∃ small big nd, e = .propose small big nd) ∨
        ∃ nv ms pps, e = .make nv ms pps ∧ nv.min < s ∧ s < nv.max ∧
          d = nv.fetchDigest N.md5 nv.viewChange s) := by
  rcases h.sent with hgrow | ⟨d', hout, -, hnew⟩
  · rcases hgrow.mem hd with hold | ⟨_, hne⟩ | hne
    · exact .inl hold
    · cases hne
    · cases hne
  · rw [hout, List.mem_append, List.mem_singleton, Own.prePrepare.injEq] at hd
    rcases hd with hold | ⟨rfl, rfl⟩
    · exact .inl hold
    · exact .inr ⟨rfl, hnew.imp_left fun hprop => hprop.2.2⟩

variable (N r) (e : Event)

theorem out_subset_step (s : ℕ) : (r.log s).out ⊆ ((r.step N e).log s).out := by
  rcases (moved_step N r e s).sent with h | ⟨d, h, -⟩
  · exact h.subset
  · rw [h]
    exact List.subset_append_left _ _

/-- New-views are sent only when the primary opens its view. -/
theorem sentNvs_step : (r.step N e).sentNvs = r.sentNvs ∨
    ∃ nv ms pps, e = .make nv ms pps ∧ (r.step N e).sentNvs = r.sentNvs ++ [nv] := by
  rcases stayed_step N r e with h | ⟨w, rc, ckpts, -, -, heq⟩
  · exact h.sentNvs
  · exact .inl (heq ▸ (frame_viewChange ..).2.2.2.1)

theorem sentNvs_subset_step : r.sentNvs ⊆ (r.step N e).sentNvs := by
  rcases sentNvs_step N r e with heq | ⟨_, _, _, -, heq⟩ <;> rw [heq]
  · exact List.Subset.refl _
  · exact List.subset_append_left _ _

/-- View-changes are sent only when the replica leaves its view. -/
theorem sentVcs_step : (r.step N e).sentVcs = r.sentVcs ∨
    ∃ w rc ckpts, e = .leave w rc ckpts ∧ r.v < w ∧ (r.step N e).v = w ∧ (r.step N e).sentVcs =
      r.sentVcs ++ [ViewChange.make w r.last_stable N.id ckpts
        fun i => logged r.v (r.oplog i) (r.log i).pc] := by
  rcases stayed_step N r e with h | ⟨w, rc, ckpts, he, hw, heq⟩
  · exact .inl h.sentVcs
  · obtain ⟨hv, -, -, -, hsent⟩ := frame_viewChange N _ w ckpts
    exact .inr ⟨w, rc, ckpts, he, hw, heq ▸ hv, heq ▸ hsent⟩

/-- The log of earlier views is written when the replica leaves its view,
and cleared by checkpoints. -/
theorem oplog_step (s : ℕ) :
    (r.step N e).oplog s = r.oplog s ∨ (r.step N e).oplog s = (r.oplog s).clear ∨
      (∃ w rc ckpts, e = .leave w rc ckpts) ∧
        (r.step N e).oplog s = logged r.v (r.oplog s) (r.log s).pc := by
  rcases stayed_step N r e with h | ⟨w, rc, ckpts, he, -, heq⟩
  · exact (h.oplog s).imp_right .inl
  · refine .inr (.inr ⟨⟨w, rc, ckpts, he⟩, ?_⟩)
    rw [heq]
    dsimp only [viewChange]
    split <;> rfl

theorem sentVcs_subset_step : r.sentVcs ⊆ (r.step N e).sentVcs := by
  rcases sentVcs_step N r e with heq | ⟨_, _, _, -, -, -, heq⟩ <;> rw [heq]
  · exact List.Subset.refl _
  · exact List.subset_append_left _ _

end Replica

end AbstractBFT.Aardvark
