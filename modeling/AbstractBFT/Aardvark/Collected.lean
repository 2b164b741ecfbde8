import AbstractBFT.Aardvark.Summary
import AbstractBFT.Aardvark.ViewInfo
/-!
# Aardvark — one `A_NV_info` in three models

`NVInfo` has the messages, `NVSummary` also what is made of them, and `NvInfo`
has digests in their place and counts acknowledgements. What a backup
collects is the same in each: `Collected` starts anew with every later
new-view message and takes the view-changes that it names, and the three
follow it until the new view is complete (`NVInfo.collected_exec`,
`NVSummary.collected_exec`, `NvInfo.names_exec`).
-/

namespace AbstractBFT.Aardvark

open Machine Function

/-- What a backup has collected for view `v`. -/
structure Collected where
  v : View
  nv : Option NewView
  vcs : ℕ → Option ViewChange

variable {N : Node} {vc : ViewChange} {verified : Bool} {xs : List (ViewChange × Bool)}

namespace Collected

variable (N) (c : Collected)

/-- A new-view message for a later view. -/
def addNewView (nv : NewView) : Collected :=
  if nv.view ≤ c.v then c else ⟨nv.view, some nv, fun _ => none⟩

/-- The view-change is one that the new-view message names, and is missing. -/
def Wants (vc : ViewChange) (verified : Bool) : Prop :=
  c.vcs vc.id = none ∧ c.nv.bind (·.viewChange vc.id) = some vc ∧ (verified ∨ N.f = 0)
  deriving Decidable

/-- A view-change, with the answer of `verify`. -/
def addViewChange (x : ViewChange × Bool) : Collected :=
  if c.Wants N x.1 x.2 then { c with vcs := update c.vcs x.1.id (some x.1) } else c

theorem frame_addViewChange (x : ViewChange × Bool) :
    (c.addViewChange N x).v = c.v ∧ (c.addViewChange N x).nv = c.nv := by
  rw [addViewChange]
  split <;> exact ⟨rfl, rfl⟩

variable {N c}

theorem wants_iff {nv : NewView} (hnone : c.vcs vc.id = none) (hnv : c.nv = some nv) :
    c.Wants N vc verified ↔ nv.viewChange vc.id = some vc ∧ (verified ∨ N.f = 0) := by
  rw [Wants, hnv, Option.bind_some]
  exact and_iff_right hnone

end Collected

/-! ## The messages -/

namespace NVInfo

variable {n : NVInfo}

/-- The new-view message and its view-changes. -/
def collected (n : NVInfo) : Collected := ⟨n.v, n.nv, n.vcs⟩

theorem collected_addNewView (n : NVInfo) (nv : NewView) :
    (n.addNewView nv).1.collected = n.collected.addNewView nv := by
  rw [addNewView, Collected.addNewView]
  by_cases hle : nv.view ≤ n.v
  · rw [if_pos hle, if_pos (show nv.view ≤ n.collected.v from hle)]
  · rw [if_neg hle, if_neg (show ¬ nv.view ≤ n.collected.v from hle)]
    rfl

theorem collected_check (nv : NewView) (n : NVInfo) : (n.check N nv).collected = n.collected := by
  obtain ⟨hv, hnv, hvcs, -⟩ := frame_check N nv n
  rw [collected, hv, hnv, hvcs, collected]

theorem collected_addViewChange (hb : N.primary n.v ≠ N.id) (hc : n.is_complete = false) :
    (n.addViewChange N vc verified).1.collected = n.collected.addViewChange N (vc, verified) := by
  rw [addViewChange, Collected.addViewChange, hc, Bool.or_false, if_neg hb]
  cases hvc : n.vcs vc.id with
  | some o => simp [Collected.Wants, collected, hvc]
  | none =>
    cases hnv : n.nv with
    | none => simp [Collected.Wants, collected, hnv]
    | some nv =>
      have hcoll : n.collected.nv = some nv := hnv
      simp only [Collected.wants_iff hvc hcoll, hcoll, Option.isSome_none, Bool.false_eq_true,
        if_false]
      split
      · dsimp only
        split
        · exact collected_check nv _
        · rfl
      · rfl

/-- **The messages** are those collected. -/
theorem collected_exec (hb : N.primary n.v ≠ N.id) (hc : n.is_complete = false) :
    (exec (fun n x => (n.addViewChange N x.1 x.2).1) n xs).collected =
      exec (Collected.addViewChange N) n.collected xs := by
  refine (exec_simulation (R := fun (n : NVInfo) c =>
    n.collected = c ∧ N.primary n.v ≠ N.id ∧ n.is_complete = false) (fun n c x h => ?_)
    ⟨rfl, hb, hc⟩ xs).1
  obtain ⟨rfl, hb, hc⟩ := h
  obtain ⟨hv, -, hcomp⟩ := frame_addViewChange N n x.1 x.2
  exact ⟨collected_addViewChange hb hc, by rw [hv]; exact hb, hcomp.trans hc⟩

end NVInfo

/-! ## The summaries -/

namespace NVSummary

variable {s : NVSummary}

/-- The new-view message and its view-changes. -/
def collected (s : NVSummary) : Collected := ⟨s.v, s.nv, s.vcs⟩

theorem collected_finish (s : NVSummary) : s.finish.collected = s.collected := by
  rw [finish]
  split <;> rfl

theorem collected_checkComp (i j : ℕ) : (checkComp N s i j).collected = s.collected := by
  rw [checkComp]
  split
  · rfl
  split
  · dsimp only
    split
    · exact collected_finish _
    · rfl
  · exact collected_finish s

theorem collected_checkPicked (nv : NewView) (is : List ℕ) :
    (checkPicked N nv s is).collected = s.collected := by
  induction is generalizing s with
  | nil => rfl
  | cons i is ih =>
    rw [checkPicked]
    split
    · rfl
    split
    · rfl
    dsimp only
    split
    · rfl
    · exact ih.trans (collected_checkComp i 0)

theorem collected_checkNewView (nv : NewView) (s : NVSummary) :
    (checkNewView N nv s).collected = s.collected := by
  rw [checkNewView]
  split
  case isFalse => rfl
  dsimp only
  split
  case isFalse => rfl
  split
  · rfl
  · exact collected_checkPicked nv _

theorem collected_addViewChange (hb : N.primary s.v ≠ N.id) (hc : s.is_complete = false)
    (hv : vc.view = s.v) :
    (s.addViewChange N vc verified).collected = s.collected.addViewChange N (vc, verified) := by
  rw [addViewChange, Collected.addViewChange, if_neg hb]
  cases hvc : s.vcs vc.id with
  | some o => simp [Collected.Wants, collected, hvc]
  | none =>
    cases hnv : s.nv with
    | none => simp [Collected.Wants, collected, hnv]
    | some nv =>
      have hcoll : s.collected.nv = some nv := hnv
      simp only [Collected.wants_iff hvc hcoll, hcoll, hv, hc, ne_eq, not_true_eq_false,
        Option.isSome_none, Bool.false_eq_true, or_self, if_false]
      split
      · split
        · exact collected_checkNewView nv _
        · rfl
      · rfl

/-- The view-change comes before the new view is complete. -/
def InTime (s : NVSummary) (x : ViewChange × Bool) : Prop :=
  s.is_complete = false ∧ x.1.view = s.v

/-- **The summaries** are of the messages collected. -/
theorem collected_exec (hb : N.primary s.v ≠ N.id)
    (hrun : Guarded (fun s x => s.addViewChange N x.1 x.2) InTime s xs) :
    (exec (fun s x => s.addViewChange N x.1 x.2) s xs).collected =
      exec (Collected.addViewChange N) s.collected xs := by
  refine (hrun.simulation (R := fun s c => s.collected = c ∧ N.primary s.v ≠ N.id)
    (fun s c x h hok => ?_) ⟨rfl, hb⟩).1
  obtain ⟨rfl, hb⟩ := h
  have hstep : _ = s.collected.addViewChange N x := collected_addViewChange hb hok.1 hok.2
  refine ⟨hstep, ?_⟩
  have hv := (congrArg Collected.v hstep).trans (s.collected.frame_addViewChange N x).1
  rw [show (s.addViewChange N x.1 x.2).v = s.v from hv]
  exact hb

end NVSummary

/-! ## The digests -/

namespace NvInfo

variable {n : NvInfo} {c : Collected} {digest : ViewChange → Digest} {D : ℕ → Bool}

/-- The information has the digests of what is collected, and no
acknowledgement was counted. -/
structure Names (N : Node) (digest : ViewChange → Digest) (n : NvInfo) (c : Collected) : Prop where
  v : n.v = c.v
  nv : ∀ i < N.n, n.nv i = (c.nv.bind (·.viewChange i)).map digest
  vcs : ∀ i, (n.vcs i).map (·.digest) = (c.vcs i).map digest
  acks : ∀ i, n.ack_count i = 0

/-- The new-view message, with digests. -/
def nvMsg (digest : ViewChange → Digest) (nv : NewView) : NvMsg :=
  ⟨nv.view, nv.vcs.map (Option.map digest), true⟩

/-- The view-change, with its digest. -/
def vcMsg (digest : ViewChange → Digest) (x : ViewChange × Bool) : VcMsg :=
  ⟨x.1.view, x.1.id, digest x.1, x.2, true⟩

theorem names_addNewView (h : n.Names N digest c) (hv : n.v ≠ 0) (nv : NewView) :
    (n.addNewView N (nvMsg digest nv)).1.Names N digest (c.addNewView nv) := by
  rw [addNewView, Collected.addNewView, ← h.v]
  by_cases hle : nv.view ≤ n.v
  · rw [if_pos (show (nvMsg digest nv).view ≤ n.v from hle), if_pos hle]
    exact h
  · rw [if_neg (show ¬ (nvMsg digest nv).view ≤ n.v from hle), if_neg hle, if_pos hv]
    refine ⟨rfl, fun i hi => ?_, fun _ => rfl, fun _ => rfl⟩
    change NvMsg.viewChange N _ i = (nv.viewChange i).map digest
    rw [NvMsg.viewChange, if_pos hi, NewView.viewChange, nvMsg, List.getElem?_map]
    cases nv.vcs[i]? with
    | none => rfl
    | some o => rfl

variable {V : Set ViewChange} (hV : NewView.NamesApart digest V)
include hV

theorem names_addViewChange (h : n.Names N digest c) (hb : N.primary n.v ≠ N.id)
    (hc : n.is_complete = false) (hid : vc.id < N.n) (hvc : vc ∈ V)
    (hnv : ∀ nv i vc', c.nv = some nv → nv.viewChange i = some vc' → vc' ∈ V) :
    (n.addViewChange N D (vcMsg digest (vc, verified)) verified).1.Names N digest
      (c.addViewChange N (vc, verified)) := by
  have htakes : n.Takes N (vcMsg digest (vc, verified)) verified ↔ c.Wants N vc verified := by
    have hnone : n.vcs vc.id = none ↔ c.vcs vc.id = none := by
      rw [← Option.map_eq_none_iff (f := (·.digest)), h.vcs, Option.map_eq_none_iff]
    have hnamed : n.nv vc.id = some (digest vc) ↔ c.nv.bind (·.viewChange vc.id) = some vc := by
      rw [h.nv _ hid]
      cases hcnv : c.nv with
      | none => simp
      | some nv => exact (NewView.viewChange_eq_some_iff hV hvc fun vc' => hnv nv _ vc' hcnv).symm
    simp [Takes, vcMsg, Collected.Wants, hnone, hnamed, hc, hb, h.acks]
  rw [addViewChange, Collected.addViewChange]
  by_cases hw : c.Wants N vc verified
  · rw [if_pos (htakes.2 hw), if_neg hb, if_pos hw]
    have hvcs : ∀ i, (update n.vcs vc.id (some (vcMsg digest (vc, verified))) i).map VcMsg.digest =
        (update c.vcs vc.id (some vc) i).map digest := by
      intro i
      by_cases hi : i = vc.id
      · rw [hi, update_self, update_self]
        rfl
      · rw [update_of_ne hi, update_of_ne hi, h.vcs]
    dsimp only
    split <;> exact ⟨h.v, h.nv, hvcs, h.acks⟩
  · rw [if_neg fun ht => hw (htakes.1 ht), if_neg hw]
    exact h

/-- **The digests** are those of the messages collected, where MD5 does not
collide. -/
theorem names_exec (h : n.Names N digest c) (hb : N.primary n.v ≠ N.id)
    (hnv : ∀ nv i vc', c.nv = some nv → nv.viewChange i = some vc' → vc' ∈ V)
    (hrun : Guarded (fun n x => (n.addViewChange N D (vcMsg digest x) x.2).1)
      (fun n x => n.is_complete = false ∧ x.1.id < N.n ∧ x.1 ∈ V) n xs) :
    (exec (fun n x => (n.addViewChange N D (vcMsg digest x) x.2).1) n xs).Names N digest
      (exec (Collected.addViewChange N) c xs) := by
  refine (hrun.simulation (R := fun n c => n.Names N digest c ∧ N.primary n.v ≠ N.id ∧
    ∀ nv i vc', c.nv = some nv → nv.viewChange i = some vc' → vc' ∈ V)
    (fun n c x hR hok => ?_) ⟨h, hb, hnv⟩).1
  obtain ⟨hn, hb, hnv⟩ := hR
  refine ⟨names_addViewChange hV hn hb hok.1 hok.2.1 hok.2.2 hnv, ?_, ?_⟩
  · rw [v_addViewChange]
    exact hb
  · rw [(c.frame_addViewChange N x).2]
    exact hnv

end NvInfo

end AbstractBFT.Aardvark
