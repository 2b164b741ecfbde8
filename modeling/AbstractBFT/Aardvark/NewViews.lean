import AbstractBFT.Aardvark.Prepared
/-!
# Aardvark — the new views a replica has collected

A backup stores a new-view message it can authenticate and matches it with
the view-changes it names; `check_new_view` runs when it has all of them.
`Accepted` is what later results take from that check, in a form that stays
true while more view-changes come in. `NvInv` says that what is stored was
sent, and `last_vcs_step` where the waiting view-changes come from.
-/

namespace AbstractBFT.Aardvark

open Function Option

/-! ## Accepted new views -/

/-- What a new view that passed its check has: all view-changes it names,
and on them an upper end and a report for each sequence number below it. -/
structure Accepted (N : Node) (nv : NewView) (vcs : ℕ → Option ViewChange) : Prop where
  full : countVcs N nv.viewChange (fun _ => true) ≤ countVcs N vcs fun _ => true
  max : checkMax N nv vcs
  pick : ∀ s, nv.min < s → s < nv.max → ∃ vci vc, nv.whichPicked s = some vci ∧ vcs vci = some vc ∧
    nv.pick vcs s = some (vc.req s)

section Accepted

variable {N : Node} {nv : NewView} {vcs vcs' : ℕ → Option ViewChange}

theorem accepted_of_checkNewView
    (hfull : countVcs N nv.viewChange (fun _ => true) ≤ countVcs N vcs fun _ => true)
    (h : checkNewView N nv vcs = some true) : Accepted N nv vcs where
  full := hfull
  max := (of_checkNewView h).1
  pick s hmin hmax := by
    obtain ⟨vci, vc, hvci, hvc, -, hpick⟩ :=
      exists_pick_of_checkRequest ((of_checkNewView h).2 s hmin hmax)
    exact ⟨vci, vc, hvci, hvc, hpick⟩

theorem countVcs_mono (hsub : ∀ j vc, vcs j = some vc → vcs' j = some vc) (p : ViewChange → Bool) :
    countVcs N vcs p ≤ countVcs N vcs' p := by
  refine List.countP_mono_left fun j _ hj => ?_
  rw [any_eq_true] at hj ⊢
  obtain ⟨vc, hvc, hp⟩ := hj
  exact ⟨vc, hsub j vc hvc, hp⟩

theorem pick_of_subset (hsub : ∀ j vc, vcs j = some vc → vcs' j = some vc) {vci s : ℕ}
    {vc : ViewChange} (hvci : nv.whichPicked s = some vci) (hvc : vcs vci = some vc) :
    nv.pick vcs' s = some (vc.req s) := by
  rw [NewView.pick, hvci, bind_some, hsub vci vc hvc, map_some]

/-- More view-changes do not take an acceptance back. -/
theorem Accepted.mono (h : Accepted N nv vcs)
    (hsub : ∀ j vc, vcs j = some vc → vcs' j = some vc) : Accepted N nv vcs' where
  full := h.full.trans (countVcs_mono hsub _)
  max := by
    have hmax := h.max
    rw [checkMax, decide_eq_true_eq] at hmax ⊢
    exact hmax.trans (countVcs_mono hsub _)
  pick s hlo hhi := by
    obtain ⟨vci, vc, hvci, hvc, -⟩ := h.pick s hlo hhi
    exact ⟨vci, vc, hvci, hsub vci vc hvc, pick_of_subset hsub hvci hvc⟩

end Accepted

/-! ## What is stored was sent -/

/-- **A collected new view.** Its view-changes are genuine (`V`); in a
backup's slot the new-view was sent, names all of them, and was checked if
it is marked as accepted. -/
structure NvInv (N : Node) (K : Known N.md5) (V : ViewChange → Prop) (n : NVInfo) : Prop where
  genuine : ∀ j vc, n.vcs j = some vc → vc.id = j ∧ vc.view = n.v ∧ V vc
  stored : ∀ nv, n.nv = some nv → N.primary n.v ≠ N.id → n.v = nv.view ∧ K.newView nv
  named : ∀ nv, n.nv = some nv → N.primary n.v ≠ N.id →
    ∀ j vc, n.vcs j = some vc → nv.viewChange j = some vc
  accepted : ∀ nv, n.nv = some nv → N.primary n.v ≠ N.id → n.accepted → Accepted N nv n.vcs

namespace NvInv

variable {N : Node} {K K' : Known N.md5} {V V' : ViewChange → Prop} {n : NVInfo}

theorem empty : NvInv N K V .empty where
  genuine _ _ h := by cases h
  stored _ h := by cases h
  named _ h := by cases h
  accepted _ h := by cases h

theorem mono (h : NvInv N K V n) (hK : K.Le K') (hV : ∀ vc, V vc → V' vc) : NvInv N K' V' n where
  genuine j vc hvc := (h.genuine j vc hvc).imp_right (And.imp_right (hV vc))
  stored nv hnv hp := (h.stored nv hnv hp).imp_right (hK.newView nv)
  named := h.named
  accepted := h.accepted

variable {n' : NVInfo} {m : ViewChange} {nv : NewView} {r : Replica}

theorem of_eq (h : NvInv N K V n) (hv : n'.v = n.v) (hnv : n'.nv = n.nv) (hvcs : n'.vcs = n.vcs)
    (hacc : n'.accepted = n.accepted) : NvInv N K V n' where
  genuine := by rw [hvcs, hv]; exact h.genuine
  stored := by rw [hnv, hv]; exact h.stored
  named := by rw [hnv, hv, hvcs]; exact h.named
  accepted := by rw [hnv, hv, hvcs, hacc]; exact h.accepted

theorem of_own (hp : N.primary n'.v = N.id)
    (hgen : ∀ j vc, n'.vcs j = some vc → vc.id = j ∧ vc.view = n'.v ∧ V vc) : NvInv N K V n' where
  genuine := hgen
  stored _ _ hne := absurd hp hne
  named _ _ hne := absurd hp hne
  accepted _ _ hne := absurd hp hne

theorem markStale (h : NvInv N K V n) : NvInv N K V (n.markStale N).1 := by
  rw [NVInfo.markStale]
  split
  · exact h
  · split
    · next hown =>
      refine of_own hown.2 fun j vc hvc => ?_
      by_cases hj : j = N.id
      · subst hj
        exact h.genuine N.id vc (by simpa using hvc)
      · simp [update_of_ne hj, NVInfo.empty] at hvc
    · exact empty

/-- The view-change goes into an empty place. -/
theorem genuine_update (h : NvInv N K V n) (hview : m.view = n.v) (hm : V m) (j : ℕ)
    (vc : ViewChange) (hvc : update n.vcs m.id (some m) j = some vc) :
    vc.id = j ∧ vc.view = n.v ∧ V vc :=
  Entries.forall_write h.genuine ⟨rfl, hview, hm⟩ j vc hvc

theorem check (h : NvInv N K V n) (hnv : n.nv = some nv) (hfull : n.gathered N nv) :
    NvInv N K V (n.check N nv) := by
  rw [NVInfo.check]
  split
  · refine ⟨h.genuine, h.stored, h.named, fun nv' hnv' hp hacc => ?_⟩
    cases hnv.symm.trans hnv'
    exact accepted_of_checkNewView (beq_iff_eq.1 hfull).ge (by simpa using hacc)
  · exact h

/-- **A view-change is added**, verified or (without faults to mask)
unverified. -/
theorem addViewChange {verified : Bool} (h : NvInv N K V n) (hview : m.view = n.v)
    (hm : verified ∨ N.f = 0 → V m) : NvInv N K V (n.addViewChange N m verified).1 := by
  rw [NVInfo.addViewChange]
  split
  · exact h
  next hfree =>
  have hnone : n.vcs m.id = none := by
    rw [Bool.or_eq_true, not_or] at hfree
    simpa using hfree.1
  have hsub : ∀ j vc, n.vcs j = some vc → update n.vcs m.id (some m) j = some vc := by
    intro j vc hvc
    have hj : j ≠ m.id := by
      rintro rfl
      rw [hnone] at hvc
      cases hvc
    rw [update_of_ne hj]
    exact hvc
  split
  · next hp =>
    split
    · next hver => exact of_own hp (h.genuine_update hview (hm (.inl hver)))
    · exact h
  split
  · exact h
  next nv hnv =>
  split
  case isFalse => exact h
  case isTrue hcond =>
    have hadd : NvInv N K V { n with vcs := update n.vcs m.id (some m) } := by
      refine ⟨h.genuine_update hview (hm hcond.2), h.stored, fun nv' hnv' hp j vc hvc => ?_,
        fun nv' hnv' hp hacc => (h.accepted nv' hnv' hp hacc).mono hsub⟩
      cases hnv.symm.trans hnv'
      rcases Entries.of_write hvc with ⟨rfl, rfl⟩ | ⟨-, hvc⟩
      · exact hcond.1
      · exact h.named nv hnv hp j vc hvc
    dsimp only
    split
    · next hfull => exact hadd.check hnv hfull
    · exact hadd

/-- What a stored new-view and the waiting view-changes make. -/
theorem matched (hnv : K.newView nv) (hwait : ∀ i vc, r.last_vcs i = some vc → V vc)
    (h : Replica.Matched N r nv n) : NvInv N K V n := by
  induction h with
  | start =>
    refine ⟨fun _ _ hvc => (by cases hvc), fun nv' hnv' _ => ?_,
      fun _ _ _ _ _ hvc => (by cases hvc), fun _ _ _ hacc => (by cases hacc)⟩
    cases hnv'
    exact ⟨rfl, hnv⟩
  | add hmatch hvc hv ih =>
    have hview := (Replica.matched_frame hmatch).1
    exact ih.addViewChange (hv.trans hview.symm) fun _ => hwait _ _ hvc

theorem step (hf : 0 < N.f) {p : ℕ} {e : Event} (h : NvInv N K V (r.last_nvs p))
    (hheard : Heard N K e) (hvc : ∀ vc auth, e = .viewChange vc auth → vc.verify N auth → V vc)
    (hwait : ∀ i vc, r.last_vcs i = some vc → vc.id = i ∧ V vc)
    (hown : ∀ vc ∈ (r.step N e).sentVcs, vc.id = N.id → V vc) :
    NvInv N K V ((r.step N e).last_nvs p) := by
  have hmove := Replica.nvMoved_step N r e p
  generalize r.step N e = r' at hmove hown ⊢
  generalize r'.last_nvs p = n at hmove ⊢
  cases hmove with
  | same _ => exact h
  | completed _ _ _ _ => exact h.of_eq rfl rfl rfl rfl
  | made _ hprim _ hview _ =>
    refine of_own ?_ h.genuine
    rw [hview]
    exact hprim
  | stale => exact h.markStale
  | cleared _ _ => exact empty
  | kept _ _ _ _ => exact h
  | opened _ _ _ hprim hvcs =>
    refine of_own hprim fun j vc hj => ?_
    obtain ⟨hview, hlast | ⟨rfl, hid, hsent⟩⟩ := hvcs j vc hj
    · exact ⟨(hwait j vc hlast).1, hview, (hwait j vc hlast).2⟩
    · exact ⟨hid, hview, hown vc hsent hid⟩
  | viewChange _ hview _ =>
    refine h.addViewChange hview.symm fun hver => hvc _ _ rfl (hver.resolve_right hf.ne')
  | newView _ hver _ _ hn =>
    obtain ⟨-, hne, hauth⟩ := NewView.verify_sound hver
    exact matched (hheard hauth hne) (fun i vc hi => (hwait i vc hi).2) hn

end NvInv

/-! ## The waiting view-changes -/

namespace Replica

variable {N : Node} {r : Replica}
variable {i : ℕ} {vc : ViewChange}

/-- Leaving for another view adds the replica's own view-change only, and
it sends that one. -/
theorem last_vcs_viewChange {w : View} {ckpts : List Digest}
    (h : (r.viewChange N w ckpts).last_vcs i = some vc) : r.last_vcs i = some vc ∨
      i = N.id ∧ vc.id = N.id ∧ vc ∈ (r.viewChange N w ckpts).sentVcs := by
  have hupdate : update (fun i => (r.last_vcs i).filter fun vc => !decide (vc.view < w))
      N.id (some (ViewChange.make w r.last_stable N.id ckpts r.oplog)) i = some vc := by
    dsimp only [viewChange] at h
    split at h
    · exact (filter_eq_some_iff.1 h).1
    · exact h
  rcases Entries.of_write hupdate with ⟨rfl, rfl⟩ | ⟨-, hold⟩
  · refine .inr ⟨rfl, ViewChange.id_make .., ?_⟩
    rw [(frame_viewChange ..).2.2.2.2]
    exact List.mem_append_right _ (List.mem_singleton_self _)
  · exact .inl (filter_eq_some_iff.1 hold).1

/-- A key refresh takes the replica's own view-change back from the new
view it waits for, and forgets those of the others. -/
theorem last_vcs_sendNewKey (h : (r.sendNewKey N).last_vcs i = some vc) :
    r.last_vcs i = some vc ∨ i = N.id ∧ (r.nvInfo N).vcs N.id = some vc := by
  dsimp only [sendNewKey, markStaleVi] at h
  split at h
  · next hi =>
    rcases or_eq_some_iff.1 h with hpres | ⟨-, hlast⟩
    · refine .inr ⟨hi, ?_⟩
      have hvcs := (filter_eq_some_iff.1 hpres).1
      rw [NVInfo.markStale] at hvcs
      split at hvcs
      · cases hvcs
      · split at hvcs
        · cases hvcs
        · exact hvcs
    · exact .inl hlast
  · cases h

/-- **Where a waiting view-change comes from**: it was there before, it was
received and verified, it is the replica's own, or a key refresh took the
replica's own back from a new view. -/
theorem last_vcs_step {e : Event} (h : (r.step N e).last_vcs i = some vc) : r.last_vcs i = some vc ∨
      (∃ auth, e = .viewChange vc auth ∧ vc.verify N auth ∧ i = vc.id) ∨
      (i = N.id ∧ vc.id = N.id ∧ vc ∈ (r.step N e).sentVcs) ∨
      (i = N.id ∧ (r.nvInfo N).vcs N.id = some vc) := by
  have hstep := stepped_step N r e
  generalize r.step N e = r' at hstep h ⊢
  cases hstep with
  | checkpoint ht => exact .inl (ht.last_vcs ▸ h)
  | install _ _ _ _ _ _ hproc =>
    obtain ⟨ht, ⟨_, _, _, _, rfl⟩, -⟩ := hproc
    exact .inl (ht.last_vcs ▸ h)
  | make _ _ _ _ _ hproc =>
    obtain ⟨ht, ⟨_, _, _, _, rfl⟩, -⟩ := hproc
    exact .inl (ht.last_vcs ▸ h)
  | newKey =>
    rcases last_vcs_sendNewKey h with hlast | hpres
    · exact .inl hlast
    · exact .inr (.inr (.inr hpres))
  | leave =>
    rcases last_vcs_viewChange h with hlast | hown
    · exact .inl hlast
    · exact .inr (.inr (.inl hown))
  | @viewChange vc' auth =>
    dsimp only [handleViewChange] at h
    split at h
    · exact .inl h
    · split at h
      · exact .inl h
      · split at h
        · next hcond =>
          rcases Entries.of_write h with ⟨rfl, rfl⟩ | ⟨-, h⟩
          · exact .inr (.inl ⟨auth, rfl, hcond.2, rfl⟩)
          · exact .inl h
        · exact .inl h
  | @newView nv auth =>
    dsimp only [handleNewView] at h
    split at h
    · next hcond =>
      refine .inl ((matched_foldl N r nv _ _ _ ?_ fun _ _ h => h).2 i vc h)
      rw [NVInfo.addNewView, if_neg (not_le.2 hcond.2.2)]
      exact .start
    · exact .inl h
  | _ => exact .inl h

/-! ## The replica's own view-changes -/

/-- **What a replica logged and reported** is of views it has left. -/
structure ReportInv (N : Node) (r : Replica) : Prop where
  oplog : ∀ s, (r.oplog s).v ≤ r.v
  sent : ∀ vc ∈ r.sentVcs, vc.id = N.id ∧ vc.view ≤ r.v ∧ ∀ ri ∈ vc.reqs, ri.v < vc.view

theorem reportInv_init (N : Node) : ReportInv N (init N) where
  oplog _ := show (-1 : View) ≤ 0 by decide
  sent _ h := absurd h List.not_mem_nil

theorem v_logged_le {v : View} {ri : OReqInfo} {cert : PreparedCert} (hri : ri.v ≤ v)
    (hpp : ∀ pp, cert.pi.pp = some pp → pp.view = v) : (logged v ri cert).v ≤ v := by
  have hinc : ∀ d, (ri.addIncomplete v d).v ≤ v := by
    intro d
    rw [OReqInfo.addIncomplete]
    split
    · split
      · exact hri
      · exact le_rfl
    · exact le_rfl
  rw [logged]
  split
  · next pp _ h => exact (hpp pp h).le
  · split
    · exact hinc _
    · split
      · exact hinc _
      · exact hri

theorem ReportInv.step (h : ReportInv N r) (hv : 0 ≤ r.v)
    (hpp : ∀ s pp, (r.log s).pc.pi.pp = some pp → pp.view = r.v) (e : Event) :
    ReportInv N (r.step N e) where
  oplog s := by
    refine le_trans ?_ (le_v_step N r e)
    rcases oplog_step N r e s with heq | heq | ⟨-, heq⟩ <;> rw [heq]
    · exact h.oplog s
    · exact le_trans (show (-1 : View) ≤ 0 by decide) hv
    · exact v_logged_le (h.oplog s) (hpp s)
  sent vc hvc := by
    have hle := le_v_step N r e
    rcases sentVcs_step N r e with heq | ⟨w, _, _, -, hlt, hw, heq⟩ <;> rw [heq] at hvc
    · obtain ⟨hid, hview, hreqs⟩ := h.sent vc hvc
      exact ⟨hid, hview.trans hle, hreqs⟩
    · rcases List.mem_concat_iff.1 hvc with hold | rfl
      · obtain ⟨hid, hview, hreqs⟩ := h.sent vc hold
        exact ⟨hid, hview.trans hle, hreqs⟩
      · rw [ViewChange.id_make, ViewChange.view_make]
        refine ⟨rfl, hw.ge, ViewChange.v_lt_of_mem_make (hv.trans hlt.le) fun n => ?_⟩
        exact lt_of_le_of_lt (v_logged_le (h.oplog n) (hpp n)) hlt

end Replica

end AbstractBFT.Aardvark
