import AbstractBFT.Aardvark.PrePrepare
import AbstractBFT.Lib.Run
import Mathlib.Data.Finset.Card
import Mathlib.Logic.Function.Basic
/-!
# Aardvark — view-changes and acknowledgements on their way

A replica keeps new-view information for each *primary* (`last_nvs`). View-changes
that have no new-view yet wait in `last_vcs`, and acknowledgements that the
primary cannot use yet in `vacks`. This is the bookkeeping of `A_View_info` and
`A_NV_info`: which message goes where, and what is counted. Whether the
gathered view-changes make a new view (`summarize`, `check_new_view`) is left
open: `D` answers each time it is asked.

A new-view message for a later view of the same primary overwrites the
information, also that of the view the replica is in. `established_run_iff` says that
nothing else does.
-/

namespace AbstractBFT.Aardvark

open Machine Function

/-- `int x = ...` from a `View`. -/
def asInt (x : View) : ℤ := x.bmod (2 ^ 32)

/-- `A_View_change`, as far as it is read here. `ok` is `verify()` and
`digestOk` is `verify_digest()`. -/
structure VcMsg where
  view : View
  id : ℕ
  digest : Digest
  ok : Bool
  digestOk : Bool
  deriving DecidableEq

/-- `A_View_change_ack`. -/
structure AckMsg where
  view : View
  id : ℕ
  vc_id : ℕ
  vc_digest : Digest
  auth : Bool
  deriving DecidableEq

/-- `verify`. -/
def AckMsg.verify (N : Node) (a : AckMsg) : Bool :=
  decide (a.id < N.n ∧ a.id ≠ N.id ∧ a.id ≠ a.vc_id ∧ N.primary a.view ≠ a.id ∧ 0 < a.view ∧
    a.vc_id < N.n) && a.auth

/-- `A_New_view` of a backup: the digests of the view-changes it names.
`ok` is `verify()`. -/
structure NvMsg where
  view : View
  named : List (Option Digest)
  ok : Bool
  deriving DecidableEq

/-- `view_change(id, d)`. -/
def NvMsg.viewChange (N : Node) (m : NvMsg) (id : ℕ) : Option Digest :=
  if id < N.n then m.named[id]?.join else none

/-- `A_NV_info`. `nv` gives the digests that the new-view message names, and
`calls` counts how often it was asked whether the information is complete. -/
structure NvInfo where
  v : View
  nv : ℕ → Option Digest
  vc_target : ℕ
  vc_cur : ℕ
  vcs : ℕ → Option VcMsg
  ack_count : ℕ → ℕ
  ack_reps : ℕ → Finset ℕ
  is_complete : Bool
  calls : ℕ

namespace NvInfo

/-- `A_NV_info()`. -/
def new : NvInfo := ⟨0, fun _ => none, 0, 0, fun _ => none, fun _ => 0, fun _ => ∅, false, 0⟩

/-- `clear`. -/
def clear (n : NvInfo) : NvInfo := { new with calls := n.calls }

/-- `summarize` or `check_new_view`. -/
def finish (D : ℕ → Bool) (n : NvInfo) : NvInfo :=
  { n with is_complete := n.is_complete || D n.calls, calls := n.calls + 1 }

/-- `add(A_New_view*)`. -/
def addNewView (N : Node) (n : NvInfo) (m : NvMsg) : NvInfo × Bool :=
  if m.view ≤ n.v then (n, false)
  else
    let c := if n.v ≠ 0 then n.clear else n
    ({ c with
      v := m.view
      nv := m.viewChange N
      vc_target := c.vc_target + (List.range N.n).countP fun i => (m.viewChange N i).isSome }, true)

/-- The view-change is stored. An unverified one needs `f`
acknowledgements at a backup. -/
def Takes (N : Node) (n : NvInfo) (m : VcMsg) (verified : Bool) : Prop :=
  n.vcs m.id = none ∧ n.is_complete = false ∧
    (N.primary n.v = N.id ∨ n.nv m.id = some m.digest) ∧
    (verified ∨ N.primary n.v ≠ N.id ∧ m.digestOk ∧ N.f ≤ n.ack_count m.id)
  deriving Decidable

/-- `add(A_View_change*)`. -/
def addViewChange (N : Node) (D : ℕ → Bool) (n : NvInfo) (m : VcMsg) (verified : Bool) :
    NvInfo × Bool :=
  if n.Takes N m verified then
    let t := { n with vcs := update n.vcs m.id (some m), vc_cur := n.vc_cur + 1 }
    if N.primary n.v = N.id then
      if m.id = N.id then
        (finish D { t with nv := update t.nv m.id (some m.digest) }, true)
      else (t, true)
    else if t.vc_cur = t.vc_target then (finish D t, true)
    else (t, true)
  else (n, false)

/-- The acknowledgement counts; `d` is the digest it is compared with. -/
def Counts (n : NvInfo) (a : AckMsg) (d : Digest) : Prop :=
  n.nv a.vc_id = none ∧ a.vc_digest = d ∧ a.id ∉ n.ack_reps a.vc_id
  deriving Decidable

/-- The rest of `add(A_View_change_ack*)`, with the digest `d`. -/
def tally (N : Node) (D : ℕ → Bool) (n : NvInfo) (a : AckMsg) (d : Digest) : NvInfo :=
  if n.Counts a d then
    let t := { n with
      ack_reps := update n.ack_reps a.vc_id (insert a.id (n.ack_reps a.vc_id))
      ack_count := update n.ack_count a.vc_id (n.ack_count a.vc_id + 1) }
    if (n.ack_count a.vc_id + 1 : ℤ) = N.f * 2 - 1 ∧ N.primary n.v = N.id then
      finish D { t with nv := update t.nv a.vc_id (some d) }
    else t
  else n

/-- `add(A_View_change_ack*)`. -/
def addAck (N : Node) (D : ℕ → Bool) (n : NvInfo) (a : AckMsg) : NvInfo × Bool :=
  if n.is_complete then (n, false)
  else if N.primary n.v ≠ N.id then
    match n.nv a.vc_id with
    | none => (n, false)
    | some d => (n.tally N D a d, true)
  else
    match n.vcs a.vc_id with
    | none => (n, false)
    | some vc => (n.tally N D a vc.digest, true)

end NvInfo

/-- `VCA_info`. -/
structure VcaInfo where
  v : View
  vacks : ℕ → Option AckMsg

/-- `VCA_info::clear`. -/
def VcaInfo.clear : VcaInfo := ⟨0, fun _ => none⟩

/-- `A_View_info`. -/
structure ViewInfo where
  v : View
  last_views : ℕ → View
  last_vcs : ℕ → Option VcMsg
  vacks : ℕ → VcaInfo
  last_nvs : ℕ → NvInfo

namespace ViewInfo

/-- `A_View_info(ident, vi)`. -/
def new (v : View) : ViewInfo :=
  ⟨v, fun _ => 0, fun _ => none, fun _ => .clear, fun _ => .new⟩

variable (N : Node) (D : ℕ → Bool) (s : ViewInfo)

/-- `discard_old`. -/
def discardOld : ViewInfo :=
  { s with
    last_vcs := fun i => (s.last_vcs i).filter fun vc => decide (s.v ≤ vc.view)
    vacks := fun i => if (s.vacks i).v < s.v then { VcaInfo.clear with v := s.v } else s.vacks i
    last_nvs := fun i => if (s.last_nvs i).v < s.v then (s.last_nvs i).clear else s.last_nvs i }

/-- Change the information of primary `p`. -/
def setInfo (p : ℕ) (n : NvInfo) : ViewInfo :=
  { s with last_nvs := update s.last_nvs p n }

/-- Move the view-change of `i` for view `w` to the information of primary `p`. -/
def moveViewChange (w : View) (p : ℕ) (s : ViewInfo) (i : ℕ) : ViewInfo :=
  match s.last_vcs i with
  | none => s
  | some vc =>
    if vc.view = w then
      let r := (s.last_nvs p).addViewChange N D vc true
      { s.setInfo p r.1 with
        last_vcs := if r.2 then update s.last_vcs i none else s.last_vcs }
    else s

/-- Move the acknowledgement of `i` for `j` to the information of primary `p`. -/
def moveAck (p j : ℕ) (s : ViewInfo) (i : ℕ) : ViewInfo :=
  match (s.vacks i).vacks j with
  | none => s
  | some a =>
    if (s.vacks i).v = s.v then
      let r := (s.last_nvs p).addAck N D a
      { s.setInfo p r.1 with
        vacks := if r.2 then
            update s.vacks i
              { s.vacks i with vacks := update (s.vacks i).vacks j none }
          else s.vacks }
    else s

/-- `view_change(v)`, with the view-change that the replica makes. -/
def viewChange (w : View) (own : VcMsg) : ViewInfo :=
  let s := discardOld { s with v := w }
  let s := { s with
    last_vcs := update s.last_vcs N.id (some own)
    last_views := update s.last_views N.id w }
  if N.primary w = N.id then
    let s := s.setInfo N.id ((s.last_nvs N.id).addNewView N ⟨w, [], true⟩).1
    let s := (List.range N.n).foldl (moveViewChange N D w N.id) s
    (List.range N.n).foldl
      (fun s i => (List.range N.n).foldl (fun s j => moveAck N D N.id j s i) s) s
  else s

/-- "There is a new-view message corresponding to vc": it is stored with
the information of `p`, and buffered acknowledgements that match it are
added. -/
def matchViewChange (p : ℕ) (vc : VcMsg) : ViewInfo :=
  let r := (s.last_nvs p).addViewChange N D vc vc.ok
  let t := s.setInfo p r.1
  if r.2 ∧ N.id = N.primary s.v ∧ asInt vc.view = s.v then
    (List.range N.n).foldl (moveAck N D p vc.id) t
  else t

/-- `last_views[i] = w`. -/
def noteView (i : ℕ) (w : View) : ViewInfo :=
  { s with last_views := update s.last_views i w }

/-- `add(A_View_change*)`. -/
def addViewChange (vc : VcMsg) : ViewInfo :=
  let vcv := asInt vc.view
  let p := N.primary vcv
  if vcv < s.v then s
  else if (s.last_nvs p).v = vcv then
    let t := s.matchViewChange N D p vc
    if vc.ok ∧ s.last_views vc.id < vcv then t.noteView vc.id vcv else t
  else if s.last_views vc.id < vcv ∧ vc.ok then
    { s with last_vcs := update s.last_vcs vc.id (some vc) }.noteView vc.id vcv
  else s

/-- `add(A_New_view*)`. -/
def addNewView (m : NvMsg) : ViewInfo :=
  let p := N.primary m.view
  if (s.v ≤ asInt m.view ∧ m.ok) ∧ (s.last_nvs p).v < m.view then
    let r := (s.last_nvs p).addNewView N m
    let t := s.setInfo p r.1
    if r.2 then (List.range N.n).foldl (moveViewChange N D (asInt m.view) p) t else t
  else s

/-- `add(A_View_change_ack*)`. -/
def addAck (a : AckMsg) : ViewInfo :=
  let vcv := asInt a.view
  let p := N.primary vcv
  if a.verify N then
    let r := (s.last_nvs p).addAck N D a
    if (s.last_nvs p).v = vcv ∧ r.2 then
      s.setInfo p r.1
    else
      -- `n.add` may have been called; if it returns false it changes nothing
      if N.id = p ∧ (s.vacks a.id).v ≤ vcv then
        let old := if (s.vacks a.id).v < vcv then fun _ => none else (s.vacks a.id).vacks
        { s with
          vacks := update s.vacks a.id ⟨s.v, update old a.vc_id (some a)⟩ }
      else s
  else s

end ViewInfo

/-- A message about a view change. -/
inductive VMessage where
  | newView (m : NvMsg)
  | viewChange (vc : VcMsg)
  | ack (a : AckMsg)

namespace ViewInfo

def receive (N : Node) (D : ℕ → Bool) (s : ViewInfo) : VMessage → ViewInfo
  | .newView m => s.addNewView N D m
  | .viewChange vc => s.addViewChange N D vc
  | .ack a => s.addAck N D a

/-- The information for the current view is complete. -/
def Established (N : Node) (s : ViewInfo) : Prop :=
  (s.last_nvs (N.primary s.v)).is_complete = true ∧ (s.last_nvs (N.primary s.v)).v = s.v
  deriving Decidable

/-- The message is a new-view of the current primary for another view. -/
def Overwrites (N : Node) (s : ViewInfo) : VMessage → Prop
  | .newView m =>
    (m.ok = true ∧ s.v ≤ asInt m.view) ∧ N.primary m.view = N.primary s.v ∧ s.v < m.view
  | .viewChange _ => False
  | .ack _ => False

instance (N : Node) (s : ViewInfo) (x : VMessage) : Decidable (s.Overwrites N x) := by
  cases x <;> dsimp only [Overwrites] <;> infer_instance

end ViewInfo

section Frame

variable {N : Node} {D : ℕ → Bool}

namespace NvInfo

variable {n : NvInfo}

@[simp] theorem v_addViewChange (n : NvInfo) (m : VcMsg) (verified : Bool) :
    (n.addViewChange N D m verified).1.v = n.v := by
  rw [addViewChange]
  split
  · dsimp only
    split
    · split <;> rfl
    · split <;> rfl
  · rfl

theorem v_tally (n : NvInfo) (a : AckMsg) (d : Digest) : (n.tally N D a d).v = n.v := by
  rw [tally]
  split
  · dsimp only
    split <;> rfl
  · rfl

@[simp] theorem v_addAck (n : NvInfo) (a : AckMsg) : (n.addAck N D a).1.v = n.v := by
  rw [addAck]
  split
  · rfl
  · split
    · split
      · rfl
      · exact v_tally ..
    · split
      · rfl
      · exact v_tally ..

theorem addViewChange_of_complete (h : n.is_complete = true) (m : VcMsg) (verified : Bool) :
    n.addViewChange N D m verified = (n, false) :=
  if_neg fun htakes => Bool.false_ne_true (htakes.2.1.symm.trans h)

theorem addAck_of_complete (h : n.is_complete = true) (a : AckMsg) : n.addAck N D a = (n, false) :=
  if_pos h

theorem v_addNewView {m : NvMsg} (h : n.v < m.view) : (n.addNewView N m).1.v = m.view := by
  rw [addNewView, if_neg (not_le.2 h)]

end NvInfo

namespace ViewInfo

variable {p : ℕ} {s t u : ViewInfo}

/-- What the moving loops leave alone: the view, the information of other
primaries, and the view of the information they move to. -/
structure Moved (p : ℕ) (s t : ViewInfo) : Prop where
  v : t.v = s.v
  other : ∀ q, q ≠ p → t.last_nvs q = s.last_nvs q
  view : (t.last_nvs p).v = (s.last_nvs p).v

theorem Moved.trans (h : Moved p s t) (h' : Moved p t u) : Moved p s u :=
  ⟨h'.v.trans h.v, fun q hq => (h'.other q hq).trans (h.other q hq), h'.view.trans h.view⟩

/-- What a message leaves alone: the view, and the complete information of
a primary that it is no new-view of. The view of an information never falls. -/
structure Quiet (s t : ViewInfo) : Prop where
  v : t.v = s.v
  complete : ∀ q, (s.last_nvs q).is_complete = true → t.last_nvs q = s.last_nvs q
  view : ∀ q, (s.last_nvs q).v ≤ (t.last_nvs q).v

/-- Moves to an information that is not complete are quiet. -/
theorem Moved.quiet (h : Moved p s t)
    (hp : (s.last_nvs p).is_complete = true → t.last_nvs p = s.last_nvs p) : Quiet s t := by
  refine ⟨h.v, fun q hq => ?_, fun q => ?_⟩
  · by_cases heq : q = p
    · subst heq
      exact hp hq
    · exact h.other q heq
  · by_cases heq : q = p
    · rw [heq, h.view]
    · rw [h.other q heq]

variable (p s)

theorem Moved.refl : Moved p s s := ⟨rfl, fun _ _ => rfl, rfl⟩

@[simp] theorem info_setInfo (n : NvInfo) : (s.setInfo p n).last_nvs p = n :=
  update_self ..

theorem info_setInfo_ne (s : ViewInfo) {p q : ℕ} (hq : q ≠ p) (n : NvInfo) :
    (s.setInfo p n).last_nvs q = s.last_nvs q :=
  update_of_ne hq ..

theorem setInfo_self : s.setInfo p (s.last_nvs p) = s := by
  rw [setInfo, update_eq_self]

theorem moved_setInfo {n : NvInfo} (hn : n.v = (s.last_nvs p).v) : Moved p s (s.setInfo p n) :=
  ⟨rfl, fun _ hq => info_setInfo_ne s hq n, by rw [info_setInfo, hn]⟩

theorem moved_moveViewChange (w : View) (i : ℕ) : Moved p s (moveViewChange N D w p s i) := by
  rw [moveViewChange]
  split
  · exact .refl p s
  · next vc _ =>
    split
    · obtain ⟨hv, hother, hview⟩ := moved_setInfo p s
        (NvInfo.v_addViewChange (N := N) (D := D) (s.last_nvs p) vc true)
      exact ⟨hv, hother, hview⟩
    · exact .refl p s

theorem moved_moveAck (j i : ℕ) : Moved p s (moveAck N D p j s i) := by
  rw [moveAck]
  split
  · exact .refl p s
  · next a _ =>
    split
    · obtain ⟨hv, hother, hview⟩ := moved_setInfo p s
        (NvInfo.v_addAck (N := N) (D := D) (s.last_nvs p) a)
      exact ⟨hv, hother, hview⟩
    · exact .refl p s

theorem moved_foldl {p : ℕ} {g : ViewInfo → ℕ → ViewInfo} (hg : ∀ s i, Moved p s (g s i))
    (is : List ℕ) (s : ViewInfo) : Moved p s (is.foldl g s) := by
  induction is generalizing s with
  | nil => exact .refl p s
  | cons i is ih => exact (hg s i).trans (ih (g s i))

theorem moved_matchViewChange (vc : VcMsg) : Moved p s (s.matchViewChange N D p vc) := by
  have hstore := moved_setInfo p s
    (NvInfo.v_addViewChange (N := N) (D := D) (s.last_nvs p) vc vc.ok)
  rw [matchViewChange]
  split
  · exact hstore.trans (moved_foldl (fun s i => moved_moveAck p s vc.id i) (List.range N.n) _)
  · exact hstore

theorem Quiet.refl : Quiet s s := ⟨rfl, fun _ _ => rfl, fun _ => le_refl _⟩

variable {p s} in
/-- A complete information takes no view-change. -/
theorem matchViewChange_of_complete (hp : (s.last_nvs p).is_complete = true) (vc : VcMsg) :
    s.matchViewChange N D p vc = s := by
  rw [matchViewChange, NvInfo.addViewChange_of_complete hp, setInfo_self]
  exact if_neg fun h => Bool.false_ne_true h.1

theorem quiet_addViewChange (vc : VcMsg) : Quiet s (s.addViewChange N D vc) := by
  rw [addViewChange]
  split
  · exact .refl s
  · split
    · have hquiet : Quiet s (s.matchViewChange N D (N.primary (asInt vc.view)) vc) :=
        (moved_matchViewChange _ s vc).quiet fun hp => by rw [matchViewChange_of_complete hp]
      split
      · exact ⟨hquiet.v, hquiet.complete, hquiet.view⟩
      · exact hquiet
    · split
      · exact ⟨rfl, fun _ _ => rfl, fun _ => le_refl _⟩
      · exact .refl s

theorem quiet_addAck (a : AckMsg) : Quiet s (s.addAck N D a) := by
  rw [addAck]
  dsimp only
  split
  · split
    · refine (moved_setInfo _ s (NvInfo.v_addAck ..)).quiet fun hp => ?_
      rw [info_setInfo, NvInfo.addAck_of_complete hp]
    · split
      · exact ⟨rfl, fun _ _ => rfl, fun _ => le_refl _⟩
      · exact .refl s
  · exact .refl s

theorem addNewView_cases (m : NvMsg) :
    s.addNewView N D m = s ∧
        ¬ ((s.v ≤ asInt m.view ∧ m.ok = true) ∧ (s.last_nvs (N.primary m.view)).v < m.view) ∨
      ((s.v ≤ asInt m.view ∧ m.ok = true) ∧ (s.last_nvs (N.primary m.view)).v < m.view) ∧
        (s.addNewView N D m).v = s.v ∧
        (∀ q, q ≠ N.primary m.view → (s.addNewView N D m).last_nvs q = s.last_nvs q) ∧
        ((s.addNewView N D m).last_nvs (N.primary m.view)).v = m.view := by
  rw [addNewView]
  dsimp only
  split
  · next hok =>
    have hview := NvInfo.v_addNewView (N := N) hok.2
    refine .inr ⟨hok, ?_⟩
    split
    · have hloop := moved_foldl (fun s i => moved_moveViewChange (N := N) (D := D)
        (N.primary m.view) s (asInt m.view) i) (List.range N.n)
        (s.setInfo (N.primary m.view) ((s.last_nvs (N.primary m.view)).addNewView N m).1)
      refine ⟨hloop.v, fun q hq => (hloop.other q hq).trans (info_setInfo_ne s hq _), ?_⟩
      rw [hloop.view, info_setInfo, hview]
    · refine ⟨rfl, fun q hq => info_setInfo_ne s hq _, ?_⟩
      rw [info_setInfo, hview]
  · next hok => exact .inl ⟨rfl, hok⟩

/-- The view stays, and the view of an information never falls. -/
theorem receive_mono (x : VMessage) :
    (s.receive N D x).v = s.v ∧ ∀ q, (s.last_nvs q).v ≤ ((s.receive N D x).last_nvs q).v := by
  cases x with
  | viewChange vc =>
    have h := quiet_addViewChange (N := N) (D := D) s vc
    exact ⟨h.v, h.view⟩
  | ack a =>
    have h := quiet_addAck (N := N) (D := D) s a
    exact ⟨h.v, h.view⟩
  | newView m =>
    rcases addNewView_cases (N := N) (D := D) s m with ⟨hsame, -⟩ | ⟨hok, hv, hother, hview⟩
    · dsimp only [receive]
      rw [hsame]
      exact ⟨rfl, fun _ => le_refl _⟩
    · refine ⟨hv, fun q => ?_⟩
      by_cases hq : q = N.primary m.view
      · dsimp only [receive]
        rw [hq, hview]
        exact hok.2.le
      · dsimp only [receive]
        rw [hother q hq]

variable {p s}

/-- **One message** keeps the complete information of the current view if
and only if it is no new-view of its primary for a later view. -/
theorem established_receive_iff (h : s.Established N) (x : VMessage) :
    (s.receive N D x).Established N ↔ ¬ s.Overwrites N x := by
  obtain ⟨hcomp, hview⟩ := h
  have hv := (receive_mono (N := N) (D := D) s x).1
  rw [Established, hv]
  have hkeep : (s.receive N D x).last_nvs (N.primary s.v) = s.last_nvs (N.primary s.v) →
      ((s.receive N D x).last_nvs (N.primary s.v)).is_complete = true ∧
        ((s.receive N D x).last_nvs (N.primary s.v)).v = s.v := by
    intro hsame
    rw [hsame]
    exact ⟨hcomp, hview⟩
  cases x with
  | viewChange vc =>
    exact iff_of_true (hkeep ((quiet_addViewChange s vc).complete _ hcomp)) not_false
  | ack a => exact iff_of_true (hkeep ((quiet_addAck s a).complete _ hcomp)) not_false
  | newView m =>
    rcases addNewView_cases (N := N) (D := D) s m with ⟨hsame, hnot⟩ | ⟨hok, -, hother, hnew⟩
    · refine iff_of_true (hkeep (congrFun (congrArg last_nvs hsame) _)) fun hover => hnot ?_
      obtain ⟨⟨hmok, hle⟩, hp, hlt⟩ := hover
      rw [hp, hview]
      exact ⟨⟨hle, hmok⟩, hlt⟩
    · by_cases hp : N.primary s.v = N.primary m.view
      · refine iff_of_false (fun hest => ?_) fun hnot => hnot ⟨hok.1.symm, hp.symm, ?_⟩
        · have heq : m.view = s.v := hnew.symm.trans (hp ▸ hest.2)
          have hlt := hok.2
          rw [← hp, hview, heq] at hlt
          exact lt_irrefl _ hlt
        · have hlt := hok.2
          rwa [← hp, hview] at hlt
      · exact iff_of_true (hkeep (hother _ hp)) fun hover => hp hover.2.1.symm

/-- An information for a later view stays so. -/
theorem not_established_exec {q : ℕ} (hq : q = N.primary s.v) (hlt : s.v < (s.last_nvs q).v)
    (xs : List VMessage) : ¬ (exec (receive N D) s xs).Established N := by
  have hrun : (exec (receive N D) s xs).v = s.v ∧
      s.v < ((exec (receive N D) s xs).last_nvs q).v :=
    exec_invariant (I := fun t => t.v = s.v ∧ s.v < (t.last_nvs q).v)
      (fun t x ht => ⟨(receive_mono t x).1.trans ht.1, ht.2.trans_le ((receive_mono t x).2 q)⟩)
      ⟨rfl, hlt⟩ xs
  intro hest
  have hview := hest.2
  rw [hrun.1, ← hq] at hview
  exact absurd hview (Int.ne_of_gt hrun.2)

section Sample

/-- Replica 2 of four moves to view 1 and gets the new-view of replica 1 with the three
view-changes that it names. -/
def inViewOne : ViewInfo :=
  exec (receive (toyNode 1 2) fun _ => true) ((new 0).viewChange (toyNode 1 2) (fun _ => true) 1
    ⟨1, 2, 12, true, true⟩)
    [.newView ⟨1, [some 10, some 11, none, some 13], true⟩,
      .viewChange ⟨1, 0, 10, true, true⟩, .viewChange ⟨1, 1, 11, true, true⟩,
      .viewChange ⟨1, 3, 13, true, true⟩]

end Sample

end ViewInfo

end Frame

end AbstractBFT.Aardvark
