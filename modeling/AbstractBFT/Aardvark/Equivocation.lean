import AbstractBFT.Aardvark.ReplicaStep
import AbstractBFT.Lib.Run
/-!
# Aardvark — a backup's prepares for one sequence number

A backup prepares a batch before it logs the prepare, and the log may
refuse it: if the certificate already has a correct value with another
digest, the prepare is out and `mine()` stays empty. As long as the
pre-prepare stays in the certificate nothing bad follows, since the next
prepare would be for the same batch. But a key refresh drops the
pre-prepares of incomplete certificates, and the backup then accepts and
prepares another one. `Slot.Traced` is what holds in between: every prepare
sent in the current view is logged, or was refused and its pre-prepare is
still there.
-/

namespace AbstractBFT.Aardvark

open Machine

namespace Slot

variable {N : Node} {v : View} {n : ℕ} {σ : Slot} {d : Digest}

/-- The prepare for `d` is in the certificate. -/
def Logged (σ : Slot) (d : Digest) : Prop := ∃ p, σ.pc.pc.mym = some p ∧ p.digest = d

/-- The certificate refused the prepare for `d`: it has a correct value
with another digest. The pre-prepare is still there. -/
def Refused (σ : Slot) (d : Digest) : Prop :=
  σ.pc.pc.mym = none ∧ ∃ pp, σ.pc.pi.pp = some pp ∧ pp.digest = d ∧
    ∃ val, σ.pc.pc.cval = some val ∧ val.m.digest ≠ d

/-- The certificate shows what became of a prepare for `d`. -/
def Traced (σ : Slot) (d : Digest) : Prop := σ.Logged d ∨ σ.Refused d

/-- Nothing was received or sent for this entry in view `v`. -/
structure Unused (v : View) (σ : Slot) : Prop where
  mym : σ.pc.pc.mym = none
  vals : σ.pc.pc.vals = []
  pp : σ.pc.pi.pp = none
  out : ∀ d, .prepare v d ∉ σ.out

/-! ## The operations keep track of the prepares sent -/

theorem traced_of_prepare (m : Prepare) (h : σ.Traced d) :
    ({ σ with pc := (σ.pc.addPrepare N m).1 } : Slot).Traced d := by
  rcases h with ⟨p, hp, hd⟩ | ⟨hnone, pp, hpp, hd, val, hval, hne⟩
  · exact .inl ⟨p, Certificate.mym_add.trans hp, hd⟩
  · refine .inr ⟨Certificate.mym_add.trans hnone, pp, hpp, hd, ?_⟩
    -- the correct value only counts up, so its digest stays
    rcases Certificate.cval_add N.n (m.verify N) m hval with h | ⟨h, hag⟩
    · exact ⟨val, h, hne⟩
    · refine ⟨val.bump m, h, ?_⟩
      rcases val.bump_m m with hb | hb <;> rw [hb]
      · rw [← Prepare.agrees_iff.1 hag]
        exact hne
      · exact hne

/-- A certificate that accepts a pre-prepare had none, so it refused no
prepare. -/
theorem traced_of_accept {q : ReqQueue} {brt : BigReqTable} {m : PrePrepare}
    (hadd : (σ.pc.add N q brt m).2) (h : σ.Traced d) :
    ({ σ with pc := (σ.pc.add N q brt m).1.1 } : Slot).Traced d := by
  rcases h with ⟨p, hp, hd⟩ | ⟨-, pp, hpp, -⟩
  · refine .inl ⟨p, ?_, hd⟩
    rw [PreparedCert.add_of_true hadd]
    exact hp
  · rw [(PreparedCert.add_true hadd).1] at hpp
    cases hpp

theorem traced_of_addDigest (rd : Digest) (i : ℕ) (h : σ.Traced d) :
    ({ σ with pc := σ.pc.addDigest rd i } : Slot).Traced d := by
  rcases h with hlog | ⟨hnone, pp, hpp, hd, hval⟩
  · exact .inl hlog
  · exact .inr ⟨hnone, pp, (PrePrepareInfo.pp_addDigest ..).trans hpp, hd, hval⟩

/-- A logged prepare survives a key refresh. -/
theorem logged_markStale {b : Bool} (h : σ.Logged d) : (σ.markStale b).Logged d := by
  obtain ⟨p, hp, hd⟩ := h
  refine ⟨p, ?_, hd⟩
  dsimp only [markStale, PreparedCert.markStale]
  split
  · exact hp
  · exact (Certificate.mym_markStale _).trans hp

/-- What `send_prepare` does: nothing, or it sends a prepare for the
pre-prepare at hand, which has none of its own yet. -/
theorem sendPrepare_cases (N : Node) (v : View) (n : ℕ) (σ : Slot) : σ.sendPrepare N v n = σ ∨
    ∃ pp, σ.pc.pc.mym = none ∧ σ.pc.pi.pp = some pp ∧ σ.sendPrepare N v n =
      { σ with
        pc := if N.primary v = N.id then σ.pc
          else σ.pc.addMine ⟨v, n, pp.digest, N.id, false, true⟩
        out := σ.out ++ [.prepare v pp.digest] } := by
  rw [sendPrepare]
  split
  · next hguard =>
    rw [Bool.and_eq_true, Option.isNone_iff_eq_none] at hguard
    split
    · next pp hpp => exact .inr ⟨pp, hguard.1, hpp, rfl⟩
    · exact .inl rfl
  · exact .inl rfl

/-- The prepare that was sent is logged or refused. -/
theorem traced_of_addMine {pp : PrePrepare} (hpp : σ.pc.pi.pp = some pp)
    (hnone : σ.pc.pc.mym = none) (out : List Own) :
    ({ σ with pc := σ.pc.addMine ⟨v, n, pp.digest, N.id, false, true⟩, out := out } : Slot).Traced
      pp.digest := by
  rcases Certificate.addMine_cases σ.pc.pc ⟨v, n, pp.digest, N.id, false, true⟩ with
    h | ⟨h, val, hval, hag⟩
  · exact .inl ⟨_, h, rfl⟩
  · refine .inr ⟨?_, pp, hpp, rfl, val, ?_, fun heq => hag (Prepare.agrees_iff.2 heq)⟩
    · exact (congrArg Certificate.mym h).trans hnone
    · exact (congrArg Certificate.cval h).trans hval

/-- **What holds of the prepares sent for one sequence number**, in view
`v`. While the entry is live (behind the last stable checkpoint), a backup
keeps track of what it sent in this view. -/
structure PrepInv (N : Node) (v : View) (live : Prop) (σ : Slot) : Prop where
  one : ∀ w d d', N.primary w ≠ N.id → .prepare w d ∈ σ.out → .prepare w d' ∈ σ.out → d = d'
  past : ∀ w d, .prepare w d ∈ σ.out → w ≤ v
  traced : live → N.primary v ≠ N.id → ∀ d, .prepare v d ∈ σ.out → σ.Traced d

namespace PrepInv

variable {live live' : Prop} {σ' : Slot}

theorem new (f : ℕ) : PrepInv N v live (.new f) where
  one _ _ _ _ h := absurd h List.not_mem_nil
  past _ _ h := absurd h List.not_mem_nil
  traced _ _ _ h := absurd h List.not_mem_nil

variable (h : PrepInv N v live σ)
include h

theorem weaken (hl : live' → live) : PrepInv N v live' σ :=
  ⟨h.one, h.past, fun hlive => h.traced (hl hlive)⟩

/-- An operation that sends no prepare only has to keep track. -/
theorem of_traced (hout : ∀ w d, .prepare w d ∈ σ'.out → .prepare w d ∈ σ.out)
    (hkeep : live → N.primary v ≠ N.id → ∀ d, σ.Traced d → σ'.Traced d) : PrepInv N v live σ' where
  one w d d' hw hd hd' := h.one w d d' hw (hout w d hd) (hout w d' hd')
  past w d hd := h.past w d (hout w d hd)
  traced hlive hp d hd := hkeep hlive hp d (h.traced hlive hp d (hout v d hd))

/-- In a new view nothing was sent yet. -/
theorem leave {w : View} (hw : v < w) : PrepInv N w live' σ.clear where
  one := h.one
  past u d hd := (h.past u d hd).trans hw.le
  traced _ _ d hd := absurd (h.past w d hd) (not_le.2 hw)

/-- A backup whose prepare for `d` is the first of this view, or repeats
the one it sent before. -/
theorem send (hout : σ'.out = σ.out ++ [.prepare v d])
    (hsame : N.primary v ≠ N.id → ∀ d', .prepare v d' ∈ σ.out → d' = d)
    (htr : N.primary v ≠ N.id → σ'.Traced d) : PrepInv N v live σ' := by
  have hmem : ∀ w d', .prepare w d' ∈ σ'.out → .prepare w d' ∈ σ.out ∨ w = v ∧ d' = d := by
    intro w d' hd'
    rw [hout, List.mem_append, List.mem_singleton, Own.prepare.injEq] at hd'
    exact hd'
  have hall : N.primary v ≠ N.id → ∀ d', .prepare v d' ∈ σ'.out → d' = d := by
    intro hp d' hd'
    rcases hmem v d' hd' with hold | ⟨-, rfl⟩
    · exact hsame hp d' hold
    · rfl
  refine ⟨fun w d₁ d₂ hw h₁ h₂ => ?_, fun w d' hd' => ?_, fun hlive hp d' hd' => ?_⟩
  · by_cases hwv : w = v
    · subst hwv
      exact (hall hw d₁ h₁).trans (hall hw d₂ h₂).symm
    · have hold : ∀ d', .prepare w d' ∈ σ'.out → .prepare w d' ∈ σ.out := fun d' hd' =>
        (hmem w d' hd').resolve_right fun hnew => hwv hnew.1
      exact h.one w d₁ d₂ hw (hold d₁ h₁) (hold d₂ h₂)
  · rcases hmem w d' hd' with hold | ⟨rfl, -⟩
    · exact h.past w d' hold
    · exact le_rfl
  · rw [hall hp d' hd']
    exact htr hp

/-- **`send_prepare`.** Without a logged prepare, what was sent before in
this view was refused, and its pre-prepare is the one at hand. -/
theorem sendPrepare (hlive : live) : PrepInv N v live (σ.sendPrepare N v n) := by
  rcases sendPrepare_cases N v n σ with heq | ⟨pp, hnone, hpp, heq⟩ <;> rw [heq]
  · exact h
  refine h.send rfl (fun hp d' hd' => ?_) (fun hp => ?_)
  · rcases h.traced hlive hp d' hd' with ⟨p, hlog, -⟩ | ⟨-, pp', hpp', hd, -⟩
    · rw [hnone] at hlog
      cases hlog
    · rw [hpp] at hpp'
      cases hpp'
      exact hd.symm
  · rw [if_neg hp]
    exact traced_of_addMine hpp hnone _

theorem sendCommit : PrepInv N v live (σ.sendCommit N v n) :=
  h.of_traced (fun w d hd => by simpa [Slot.sendCommit] using hd) fun _ _ _ htr => htr

theorem commitIfComplete : PrepInv N v live (σ.commitIfComplete N v n) := by
  rw [Slot.commitIfComplete]
  split
  · exact h.sendCommit
  · exact h

variable {brt : BigReqTable} {rd : Digest} {pp : PrePrepare}

theorem prePrepare {q : ReqQueue} {m : PrePrepare} (hlive : live) :
    PrepInv N v live (σ.prePrepare N q v brt m).1 := by
  dsimp only [Slot.prePrepare]
  split
  · next hadd =>
    have hacc : PrepInv N v live { σ with pc := (σ.pc.add N q brt m).1.1 } :=
      h.of_traced (fun _ _ hd => hd) fun _ _ _ => traced_of_accept hadd
    exact (hacc.sendPrepare hlive).commitIfComplete
  · exact h

theorem prepare {m : Prepare} : PrepInv N v live (σ.prepare N v m) := by
  have hadd : PrepInv N v live { σ with pc := (σ.pc.addPrepare N m).1 } :=
    h.of_traced (fun _ _ hd => hd) fun _ _ _ => traced_of_prepare m
  dsimp only [Slot.prepare]
  split
  · exact hadd.commitIfComplete
  · exact hadd

theorem commit {m : Commit} : PrepInv N v live (σ.commit N m) :=
  h.of_traced (fun _ _ hd => hd) fun _ _ _ htr => htr

theorem bigRequest {i : ℕ} (hlive : live) : PrepInv N v live (σ.bigRequest N v n rd i) := by
  have hdig : PrepInv N v live { σ with pc := σ.pc.addDigest rd i } :=
    h.of_traced (fun _ _ hd => hd) fun _ _ _ => traced_of_addDigest rd i
  exact (hdig.sendPrepare hlive).commitIfComplete

theorem released (hlive : live) (is : List ℕ) :
    PrepInv N v live (is.foldl (fun σ i => σ.bigRequest N v n rd i) σ) := by
  induction is generalizing σ with
  | nil => exact h
  | cons i is ih => exact ih (h.bigRequest hlive)

/-- A key refresh, if this certificate refused no prepare. -/
theorem markStale {b : Bool} (hkept : live → N.primary v ≠ N.id → ∀ d, ¬ σ.Refused d) :
    PrepInv N v live (σ.markStale b) :=
  h.of_traced (fun _ _ hd => hd) fun hlive hp d htr =>
    .inl (logged_markStale (htr.resolve_right (hkept hlive hp d)))

theorem propose (hp : N.primary v = N.id) : PrepInv N v live (σ.propose v pp) :=
  h.of_traced (fun w d hd => by simpa [Slot.propose] using hd) fun _ hne => absurd hp hne

/-- A backup adopts a request of a new view into an entry not used yet. -/
theorem adopt (hun : N.primary v ≠ N.id → σ.Unused v) :
    PrepInv N v live (σ.adopt N v brt pp).1 := by
  rw [Slot.adopt]
  split
  · next hp => exact h.propose hp
  · next hp =>
    refine h.send rfl (fun _ d' hd' => absurd hd' ((hun hp).out d')) fun _ => .inl ?_
    rcases Certificate.addMine_cases σ.pc.pc ⟨v, pp.seqno, pp.digest, N.id, false, true⟩ with
      hmym | ⟨-, val, hval, -⟩
    · exact ⟨_, hmym, rfl⟩
    · -- an unused certificate has no correct value to refuse anything
      obtain ⟨i, -, hvi⟩ := Certificate.exists_c_of_cval hval
      rw [(hun hp).vals] at hvi
      cases hvi

end PrepInv

/-- An unused entry stays unused when the keys are refreshed. -/
theorem Unused.markStale {b : Bool} (h : σ.Unused v) : (σ.markStale b).Unused v := by
  refine ⟨?_, ?_, ?_, h.out⟩
  · dsimp only [Slot.markStale, PreparedCert.markStale]
    split
    · exact h.mym
    · exact (Certificate.mym_markStale _).trans h.mym
  · dsimp only [Slot.markStale, PreparedCert.markStale]
    split
    · exact h.vals
    · rw [Certificate.markStale]
      split
      · exact h.vals
      · rw [h.mym]
  · dsimp only [Slot.markStale, PreparedCert.markStale]
    split
    · exact h.pp
    · split
      · exact h.pp
      · rfl

/-- A certificate the own prepare is missing from, although the pre-prepare
at hand differs from the correct value. -/
def unlogged (σ : Slot) : Bool :=
  σ.pc.myPrepare.isNone && σ.pc.pc.cvalue.isSome && σ.pc.prePrepare.isSome && !σ.pc.ppMatches

theorem unlogged_of_refused (h : σ.Refused d) : σ.unlogged := by
  obtain ⟨hnone, pp, hpp, rfl, val, hval, hne⟩ := h
  simp [unlogged, PreparedCert.myPrepare, PreparedCert.prePrepare, PreparedCert.ppMatches,
    Certificate.cvalue, hnone, hpp, hval, Ne.symm hne]

end Slot

namespace Replica

variable {N : Node} {r : Replica}

/-- All prepares sent for a sequence number in a view this replica is a
backup of carry one digest. -/
def OnePrepare (N : Node) (r : Replica) : Prop :=
  ∀ s w d d', N.primary w ≠ N.id → .prepare w d ∈ (r.log s).out → .prepare w d' ∈ (r.log s).out →
    d = d'

/-- The steps that keep the prepares sent in the current view in mind. A
key refresh meets no certificate whose own prepare is missing while the
pre-prepare differs from the correct value, and no new-view for a later
view of the same primary replaces the complete one of this view. -/
def PrepareKept (N : Node) (r : Replica) : Event → Prop
  | .newKey => N.primary r.v ≠ N.id →
      ∀ s ≤ r.last_stable + maxOut, r.Refreshed s → (r.log s).unlogged = false
  | .newView nv auth => 0 < r.v → (r.nvInfo N).is_complete → nv.verify N auth →
      N.primary nv.view = N.primary r.v → nv.view ≤ r.v
  | _ => True

instance (N : Node) (r : Replica) (e : Event) : Decidable (PrepareKept N r e) := by
  cases e <;> dsimp only [PrepareKept] <;> infer_instance

/-- **The invariant of one replica.** Until a backup has its new view, its
entries are unused. -/
structure PrepareInv (N : Node) (r : Replica) : Prop where
  v_nonneg : 0 ≤ r.v
  current : ∀ p, NvCurrent r.v (r.last_nvs p)
  slots : ∀ s, (r.log s).PrepInv N r.v (r.last_stable < s)
  unused : 0 < r.v → N.primary r.v ≠ N.id → (r.nvInfo N).is_complete = false →
    ∀ s, r.last_stable < s → (r.log s).Unused r.v

theorem prepareInv_init (N : Node) : PrepareInv N (init N) where
  v_nonneg := le_rfl
  current _ := .inl ⟨rfl, rfl⟩
  slots _ := .new N.f
  unused h := absurd h (lt_irrefl _)

variable {e : Event}

/-- A complete new view stays complete while the replica stays in its
view. -/
theorem complete_of_step (h : PrepareInv N r) (hok : PrepareKept N r e) (hv : (r.step N e).v = r.v)
    (hpos : 0 < r.v) (hcomp : (r.nvInfo N).is_complete) : ((r.step N e).nvInfo N).is_complete := by
  have hmove := nvMoved_step N r e (N.primary r.v)
  rw [nvInfo, hv]
  change (r.last_nvs (N.primary r.v)).is_complete = true at hcomp
  generalize (r.step N e).last_nvs (N.primary r.v) = n at hmove ⊢
  cases hmove with
  | same _ => exact hcomp
  | completed _ _ _ _ => rfl
  | made _ _ _ _ _ => rfl
  | stale =>
    rw [NVInfo.markStale, if_pos hcomp]
    exact hcomp
  | cleared hw hlt => exact absurd (hw.symm.trans hv) hlt.ne'
  | kept _ _ _ _ => exact hcomp
  | opened hw hlt _ _ _ => exact absurd (hw.symm.trans hv) hlt.ne'
  | viewChange _ _ _ => exact (NVInfo.frame_addViewChange N _ _ _).2.2.trans hcomp
  | @newView nv auth n hp hver hle hlt hn =>
    -- the stored new view is of this view or later, so the new one is later
    have hcur := (h.current (N.primary r.v)).le_of_complete hcomp
    exact absurd (hok hpos hcomp hver hp.symm) (not_le.2 (lt_of_le_of_lt hcur hlt))

/-- What a replica that has its new view can do, one that has not cannot. -/
theorem complete_of_hasNewView (hpos : 0 < r.v) (h : r.hasNewView N) :
    (r.nvInfo N).is_complete := by
  rw [hasNewView, Bool.or_eq_true, beq_iff_eq, Bool.and_eq_true] at h
  exact (h.resolve_left hpos.ne').2

theorem prepInv_step (h : PrepareInv N r) (hok : PrepareKept N r e) (s : ℕ) :
    ((r.step N e).log s).PrepInv N (r.step N e).v ((r.step N e).last_stable < s) := by
  have hls := last_stable_le_step N r e
  have hmove := moved_step N r e s
  have hslot := h.slots s
  have hle := le_v_step N r e
  have hstay := v_of_not_leave (N := N) (r := r) (e := e)
  generalize r.step N e = r' at hls hmove hle hstay ⊢
  generalize r'.log s = σ' at hmove ⊢
  have hl : r'.last_stable < s → r.last_stable < s := fun hlive => lt_of_le_of_lt hls hlive
  cases hmove with
  | same hv =>
    rw [hv]
    exact hslot.weaken hl
  | truncated hs =>
    exact ⟨hslot.one, fun w d hd => (hslot.past w d hd).trans hle,
      fun hlive => absurd hlive (not_lt.2 hs)⟩
  | left hlt hw =>
    rw [hw]
    exact hslot.leave hlt
  | prePrepare hin _ _ _ =>
    rw [hstay nofun]
    exact (hslot.prePrepare hin.1).weaken hl
  | prepare _ _ _ _ _ =>
    rw [hstay nofun]
    exact hslot.prepare.weaken hl
  | commit _ _ _ =>
    rw [hstay nofun]
    exact hslot.commit.weaken hl
  | released hin _ _ =>
    rw [hstay nofun]
    exact (hslot.released hin.1 _).weaken hl
  | stale hs =>
    rw [hstay nofun]
    refine (hslot.markStale fun _ hp d href => ?_).weaken hl
    have hkept := hok hp s hs.2 hs
    rw [Slot.unlogged_of_refused href] at hkept
    cases hkept
  | proposed _ hp _ _ =>
    rw [hstay nofun]
    exact (hslot.propose hp).weaken hl
  | installed hlive hp hpos _ _ _ hcomp _ _ _ =>
    rw [hstay nofun]
    exact (hslot.adopt fun _ => h.unused hpos hp hcomp s (hl hlive)).weaken hl
  | made _ hp _ _ _ _ _ =>
    rw [hstay nofun]
    exact (hslot.adopt fun hne => absurd hp hne).weaken hl

/-- An entry of a backup that still waits for its new view, after a step. -/
theorem unused_step (h : PrepareInv N r) (hok : PrepareKept N r e) {s : ℕ}
    (hpos : 0 < (r.step N e).v) (hp : N.primary (r.step N e).v ≠ N.id)
    (hcomp : ((r.step N e).nvInfo N).is_complete = false) (hlive : (r.step N e).last_stable < s) :
    ((r.step N e).log s).Unused (r.step N e).v := by
  have hls := last_stable_le_step N r e
  have hmove := moved_step N r e s
  have hpast := (h.slots s).past
  have hstay := v_of_not_leave (N := N) (r := r) (e := e)
  have hstep := complete_of_step h hok
  generalize r.step N e = r' at hls hmove hpos hp hcomp hlive hstay hstep ⊢
  -- in the same view, the new view was not there before either
  have hbefore : r'.v = r.v → r.hasNewView N = false ∧ (r.log s).Unused r.v := by
    intro hv
    rw [hv] at hpos hp
    have hnot : (r.nvInfo N).is_complete = false := by
      by_contra hc
      rw [Bool.not_eq_false] at hc
      rw [hstep hv hpos hc] at hcomp
      cases hcomp
    refine ⟨?_, h.unused hpos hp hnot s (lt_of_le_of_lt hls hlive)⟩
    by_contra hc
    rw [Bool.not_eq_false] at hc
    rw [complete_of_hasNewView hpos hc] at hnot
    cases hnot
  generalize hσ : r'.log s = σ' at hmove ⊢
  cases hmove with
  | same hv =>
    rw [hv]
    exact (hbefore hv).2
  | truncated hs => exact absurd hlive (not_lt.2 hs)
  | left hlt hw =>
    rw [hw]
    exact ⟨rfl, rfl, rfl, fun d hd => absurd (hpast _ d hd) (not_le.2 hlt)⟩
  | prePrepare _ _ _ hnv =>
    have hv := hstay nofun
    rw [(hbefore hv).1] at hnv
    cases hnv
  | prepare _ _ _ _ hnv =>
    have hv := hstay nofun
    rw [(hbefore hv).1] at hnv
    cases hnv
  | commit _ _ _ =>
    have hv := hstay nofun
    have hun := (hbefore hv).2
    rw [hv]
    exact ⟨hun.mym, hun.vals, hun.pp, hun.out⟩
  | released _ _ hnv =>
    have hv := hstay nofun
    rw [(hbefore hv).1] at hnv
    cases hnv
  | stale _ =>
    have hv := hstay nofun
    rw [hv]
    exact (hbefore hv).2.markStale
  | proposed _ hown _ _ =>
    rw [hstay nofun] at hp
    exact absurd hown hp
  | installed _ _ _ _ _ _ _ hdone _ _ =>
    rw [hcomp] at hdone
    cases hdone
  | made _ hown _ _ _ _ _ =>
    rw [hstay nofun] at hp
    exact absurd hown hp

theorem PrepareInv.step (h : PrepareInv N r) (hok : PrepareKept N r e) :
    PrepareInv N (r.step N e) where
  v_nonneg := by
    rcases v_step N r e with hv | ⟨w, _, _, -, hlt, hw⟩
    · rw [hv]
      exact h.v_nonneg
    · rw [hw]
      exact h.v_nonneg.trans hlt.le
  current := nvCurrent_step h.v_nonneg h.current e
  slots := prepInv_step h hok
  unused hpos hp hcomp _ hlive := unused_step h hok hpos hp hcomp hlive

/-- **A backup prepares one batch for a sequence number in a view**, in
every run in which no key refresh drops the pre-prepare of a prepare the
log refused and no new view is given up for a later one of the same
primary. -/
theorem prepares_agree (N : Node) (es : List Event)
    (h : Guarded (Replica.step N) (PrepareKept N) (init N) es) :
    OnePrepare N (exec (Replica.step N) (init N) es) := by
  have hinv := h.invariant (I := PrepareInv N) (fun _ _ hr hok => hr.step hok) (prepareInv_init N)
  intro s w d d' hw hd hd'
  exact (hinv.slots s).one w d d' hw hd hd'

end Replica

/-! ## Runs of a backup -/

/-- The batch of the client's request. -/
def toyBatch (f : ℕ) (v : View) (s : ℕ) (command : UInt8) : PrePrepare :=
  Replica.batch (toyNode f 0) v s [toyRequest f command] [] []

/-- A prepare for that batch. -/
def toyPrepare (f : ℕ) (v : View) (s : ℕ) (command : UInt8) (i : ℕ) : Prepare :=
  ⟨v, s, (toyBatch f v s command).digest, i, false, true⟩

namespace Replica

/-- Backup 1 prepares a batch; after a key refresh it takes the same one
again. -/
def refreshedRun : List Event :=
  [.prepare (toyPrepare 1 0 1 7 2), .prePrepare (fun _ => none) (toyBatch 1 0 1 7), .newKey,
    .prePrepare (fun _ => none) (toyBatch 1 0 1 7)]

theorem prepares_agree_refreshed :
    Guarded (Replica.step (toyNode 1 1)) (PrepareKept (toyNode 1 1)) (init (toyNode 1 1))
        refreshedRun ∧
      OnePrepare (toyNode 1 1)
        (exec (Replica.step (toyNode 1 1)) (init (toyNode 1 1)) refreshedRun) :=
  have hok : Guarded (Replica.step (toyNode 1 1)) (PrepareKept (toyNode 1 1))
      (init (toyNode 1 1)) refreshedRun := by decide +kernel
  ⟨hok, prepares_agree (toyNode 1 1) refreshedRun hok⟩

/-- Backup 1 has prepares of 2 and 3 for one batch when the primary's
pre-prepare for another arrives: it prepares that, the log refuses it, a
key refresh drops the pre-prepare, and it prepares the first batch too. -/
def refusedRun : List Event :=
  [.prepare (toyPrepare 1 0 1 8 2), .prepare (toyPrepare 1 0 1 8 3),
    .prePrepare (fun _ => none) (toyBatch 1 0 1 7), .newKey,
    .prePrepare (fun _ => none) (toyBatch 1 0 1 8)]

theorem prepares_two_batches :
    ¬ OnePrepare (toyNode 1 1)
      (exec (Replica.step (toyNode 1 1)) (init (toyNode 1 1)) refusedRun) := by
  intro h
  have hseven : .prepare 0 (toyBatch 1 0 1 7).digest ∈
      ((exec (Replica.step (toyNode 1 1)) (init (toyNode 1 1)) refusedRun).log 1).out := by
    decide +kernel
  have height : .prepare 0 (toyBatch 1 0 1 8).digest ∈
      ((exec (Replica.step (toyNode 1 1)) (init (toyNode 1 1)) refusedRun).log 1).out := by
    decide +kernel
  have heq := h 1 0 _ _ (by decide +kernel) hseven height
  exact absurd heq (by decide +kernel)

end Replica

end AbstractBFT.Aardvark
