import AbstractBFT.Aardvark.ReplicaStep
import AbstractBFT.Common.KMax
import AbstractBFT.Lib.Run
import Mathlib.Data.Int.Order.Basic
/-!
# Aardvark — which replicas are listened to

`recv` reads the sockets of the replicas that are not excluded and keeps,
while status messages are not badly needed, the last status of each replica
for when it is idle. Both tables are indexed by the sender a message names.
A view-change for a later view excludes its sender before anything of it is
verified, and a status message is kept without being verified; everyone is
listened to again when the replica moves to another view, or when a new view
starts after a pause of the flood protection.
-/

namespace AbstractBFT.Aardvark

open Machine
open Function (update update_of_ne)

/-- `check_rmcount`. -/
def checkRmcount : ℕ := 2000

/-- `flood_detection_factor`. -/
def floodDetectionFactor : ℕ := 20

/-- `flood_protected_views`. -/
def floodProtectedViews : ℕ := 500

/-- `A_Status`, without what it reports missing; `auth` says that the
authenticator of `id` verifies. -/
structure StatusMsg where
  id : ℕ
  view : View
  ls : ℕ
  le : ℕ
  auth : Bool
  deriving DecidableEq

/-! ## What the receive loop asks of the replica -/

namespace Replica

variable (N : Node) (r : Replica)

/-- What `vi.add(A_View_change*)` returns. -/
def storesViewChange (vc : ViewChange) (auth : Bool) : Bool :=
  !decide (vc.view < r.v) &&
    (let n := r.last_nvs (N.primary vc.view)
    if n.v = vc.view then (n.addViewChange N vc (vc.verify N auth)).2
    else decide (r.last_views vc.id < vc.view) && vc.verify N auth)

/-- `vi.max_view`, the last view that `f+1` replicas asked for. -/
def maxView : View :=
  ((kMax (N.f + 1) ((List.range N.n).map fun i => (r.last_views i : ℤ)) seqnoMax).getD 0).toNat

/-- `mark_stable(n)` finds the new view complete: everything it needs is
below the checkpoint. -/
def trims (n : ℕ) : Bool :=
  let nvi := r.nvInfo N
  decide (r.last_stable < n ∧ 0 < nvi.v ∧ nvi.is_complete = false ∧ nvi.chosen ∧ nvi.max ≤ n ∧
    N.primary nvi.v ≠ N.id)

/-- Does the event run `process_new_view`, and up to which sequence number? -/
def startsView : Event → Option ℕ
  | .stable n _ => if r.trims N n then some n else none
  | .newState c =>
    if r.last_executed < c ∧ r.last_stable + maxOut < c ∧ r.trims N (c - maxOut) then
      some (c - maxOut)
    else none
  | .install ms _ =>
    (r.nvInfo N).nv.bind fun nv =>
      if N.primary r.v ≠ N.id ∧ 0 < r.v ∧ (r.nvInfo N).v = r.v ∧ (r.nvInfo N).accepted ∧
          (r.nvInfo N).is_complete = false ∧ ms ≤ nv.min then some nv.max
      else none
  | .make nv ms _ =>
    if N.primary r.v = N.id ∧ 0 < r.v ∧ (r.nvInfo N).v = r.v ∧ (r.nvInfo N).is_complete = false ∧
        nv.view = r.v ∧ ms ≤ nv.min then some nv.max
    else none
  | _ => none

theorem v_leave {N : Node} {r : Replica} (hrun : r.halted = false) {w : View} (hw : r.v < w)
    (rc : Option ℕ) (ckpts : List Digest) : (r.step N (.leave w rc ckpts)).v = w := by
  rw [step, hrun, if_neg Bool.false_ne_true, handle, sendViewChange, if_neg (not_le.2 hw)]
  exact (frame_viewChange ..).1

theorem halted_handleViewChange (N : Node) (r : Replica) (vc : ViewChange) (auth : Bool) :
    (r.step N (.viewChange vc auth)).halted = r.halted := by
  rw [step]
  split
  · rfl
  · obtain ⟨_, _, _, heq⟩ := v_handleViewChange N r vc auth
    rw [handle, heq]

end Replica

/-! ## The receive loop -/

/-- `A_Replica` as its receive loop sees it. -/
structure Intake where
  replica : Replica
  excluded_replicas : ℕ → Bool
  status_pending : ℕ → Option StatusMsg
  status_to_process : ℕ
  status_messages_badly_needed : Bool
  not_deprioritize_status_before_this : ℕ
  rmcount : ℕ → ℕ
  flood_protection_active : Bool
  flood_protection_view : View

/-- A message for `jump_table`. `leave` is what is sent if a view-change
makes the replica move on. Checkpoints, keys, acknowledgements, fetches,
replies and state are `other`: what they lead to is a `Consequence`. -/
inductive Msg where
  | prePrepare (q : ReqQueue) (m : PrePrepare)
  | prepare (m : Prepare)
  | commit (m : Commit)
  | request (req : Request) (verified : Bool)
  | viewChange (vc : ViewChange) (auth : Bool) (rc : Option ℕ) (ckpts : List Digest)
  | newView (nv : NewView) (auth : Bool)
  | status (m : StatusMsg)
  | other

/-- What handling a message can lead to. -/
inductive Consequence where
  | newKey
  | stable (n : ℕ) (have_state : Bool)
  | newState (c : ℕ)
  | execute
  | propose (small big : List Request) (nd : List UInt8)
  | install (ms : ℕ) (pps : ℕ → PrePrepare)
  | make (nv : NewView) (ms : ℕ) (pps : ℕ → PrePrepare)

/-- As an event of the replica. -/
def Consequence.event : Consequence → Event
  | .newKey => .newKey
  | .stable n have_state => .stable n have_state
  | .newState c => .newState c
  | .execute => .execute
  | .propose small big nd => .propose small big nd
  | .install ms pps => .install ms pps
  | .make nv ms pps => .make nv ms pps

namespace Intake

/-- The constructor. -/
def init (N : Node) : Intake where
  replica := .init N
  excluded_replicas := fun _ => false
  status_pending := fun _ => none
  status_to_process := 0
  status_messages_badly_needed := false
  not_deprioritize_status_before_this := 0
  rmcount := fun _ => 0
  flood_protection_active := true
  flood_protection_view := 0

variable (N : Node) (s : Intake)

/-- An event of the replica. -/
def on (e : Event) : Intake := { s with replica := s.replica.step N e }

/-- `send_view_change`, to view `w`. -/
def leave (w : View) (rc : Option ℕ) (ckpts : List Digest) : Intake :=
  if w ≤ s.replica.v then s
  else
    { s.on N (.leave w rc ckpts) with
      excluded_replicas := fun _ => false
      status_messages_badly_needed := true
      rmcount := fun _ => 0 }

/-- What `process_new_view` does here. -/
def newView (max : ℕ) : Intake :=
  let s := { s with not_deprioritize_status_before_this := max + 1, rmcount := fun _ => 0 }
  if s.flood_protection_active = false ∧
      s.flood_protection_view + (floodProtectedViews : View) < s.replica.v then
    { s with flood_protection_active := true, excluded_replicas := fun _ => false }
  else s

/-- The event, with what a new view does that it starts. -/
def carryOut (e : Event) : Intake :=
  match s.replica.startsView N e with
  | some max => (s.newView max).on N e
  | none => s.on N e

/-- What handling a message leads to. A checkpoint taken late enough in the
view puts status messages behind the others. -/
def consequence (c : Consequence) : Intake :=
  if s.replica.halted then s
  else
    let le := s.replica.last_executed
    let s := s.carryOut N c.event
    if le < s.replica.last_executed ∧ s.replica.last_executed % checkpointInterval = 0 ∧
        s.not_deprioritize_status_before_this + maxOut < le then
      { s with status_messages_badly_needed := false }
    else s

/-- `max_replica_messages` and `second_max_replica_messages`: the most that
one of four replicas sent, and the most that another one did. -/
def maxMessages (rm : ℕ → ℕ) : ℤ × ℤ :=
  let first := [0, 1, 2, 3].foldl
    (fun (best : ℤ × Option ℕ) k => if best.1 < rm k then ((rm k : ℤ), some k) else best) (-1, none)
  let second := [0, 1, 2, 3].foldl
    (fun (best : ℤ) k => if some k ≠ first.2 ∧ best < rm k then (rm k : ℤ) else best) (-1)
  (first.1, if second = -1 then first.1 else second)

/-- The count that detects floods: four replicas, and their sum. "FLOOD
DETECTED!" pauses the protection. -/
def count (sock : Option ℕ) : Intake :=
  match sock with
  | none => s
  | some j =>
    if s.flood_protection_active then
      let rm := update s.rmcount j (s.rmcount j + 1)
      let rm := update rm 4 (rm 4 + 1)
      if checkRmcount < rm 4 then
        let most := maxMessages rm
        let flood := decide (most.2 * floodDetectionFactor ≤ most.1)
        { s with
          rmcount := fun _ => 0
          flood_protection_active := !flood
          flood_protection_view := if flood then s.replica.v else s.flood_protection_view }
      else { s with rmcount := rm }
    else s

/-- `handle(A_View_change)`. -/
def handleViewChange (vc : ViewChange) (auth : Bool) (rc : Option ℕ)
    (ckpts : List Digest) : Intake :=
  -- "muting replicas"
  let muted := if s.replica.hasNewView N ∧ s.replica.v < vc.view then
    { s with excluded_replicas := update s.excluded_replicas vc.id true } else s
  let added := muted.on N (.viewChange vc auth)
  if s.replica.storesViewChange N vc auth ∧ added.replica.v < added.replica.maxView N then
    added.leave N (added.replica.maxView N) rc ckpts
  else added

/-- `jump_table`. The sender a status message names has to be a replica, by
an assertion. -/
def jumpTable : Msg → Intake
  | .prePrepare q m => s.on N (.prePrepare q m)
  | .prepare m => s.on N (.prepare m)
  | .commit m => s.on N (.commit m)
  | .request req verified => s.on N (.request req verified)
  | .viewChange vc auth rc ckpts => s.handleViewChange N vc auth rc ckpts
  | .newView nv auth => s.on N (.newView nv auth)
  | .status m =>
    if s.status_messages_badly_needed then s
    else if m.id < N.n then
      { s with status_pending := update s.status_pending m.id (some m) }
    else { s with replica := { s.replica with halted := true } }
  | .other => s

/-- A message from a socket, or from the thread that verifies requests. -/
def receive (sock : Option ℕ) (m : Msg) (cs : List Consequence) : Intake :=
  if s.replica.halted then s else cs.foldl (consequence N) ((s.count sock).jumpTable N m)

/-- `pick_next_status`, when the loop is idle: the pending statuses are
handled in turn. Handling one sends messages and changes nothing here. -/
def pickNextStatus : Intake :=
  match ((List.range N.n).map fun k => (s.status_to_process + k + 1) % N.n).find? fun j =>
      (s.status_pending j).isSome with
  | some j =>
    { s with status_to_process := j, status_pending := update s.status_pending j none }
  | none => s

end Intake

/-- What can happen in the receive loop: a message, a timer that makes the
replica leave its view, or nothing to do. -/
inductive Input where
  | message (sock : Option ℕ) (m : Msg) (cs : List Consequence)
  | timer (w : View) (rc : Option ℕ) (ckpts : List Digest)
  | idle

namespace Intake

/-- One turn of the receive loop. -/
def step (N : Node) (s : Intake) : Input → Intake
  | .message sock m cs => s.receive N sock m cs
  | .timer w rc ckpts => if s.replica.halted then s else s.leave N w rc ckpts
  | .idle => if s.replica.halted then s else s.pickNextStatus N

/-- The message is a view-change for a later view that names replica `j`
while the replica has its view. -/
def Mutes (N : Node) (s : Intake) (j : ℕ) : Msg → Prop
  | .viewChange vc _ _ _ => vc.id = j ∧ s.replica.hasNewView N ∧ s.replica.v < vc.view
  | _ => False

/-- The message is a status that names replica `j` while statuses wait. -/
def Files (s : Intake) (j : ℕ) : Msg → Prop
  | .status m => m.id = j ∧ s.status_messages_badly_needed = false
  | _ => False

/-- What happens to `j`'s traffic where nothing names `j`: its status stays,
and it is excluded as before, or no more, after a move to a later view or
the end of a pause of the flood protection. -/
structure Isolated (j : ℕ) (s s' : Intake) : Prop where
  status : s'.status_pending j = s.status_pending j
  view : s.replica.v ≤ s'.replica.v
  flood : s.flood_protection_active = true → s'.flood_protection_active = true
  excluded : s'.excluded_replicas j = s.excluded_replicas j ∨
    s'.excluded_replicas j = false ∧ (s.replica.v < s'.replica.v ∨
      s.flood_protection_active = false ∧ s'.flood_protection_active = true)

namespace Isolated

variable {N : Node} {j : ℕ} {s s' s'' : Intake}

theorem of_eq (hstatus : s'.status_pending = s.status_pending) (hview : s.replica.v ≤ s'.replica.v)
    (hflood : s'.flood_protection_active = s.flood_protection_active)
    (hex : s'.excluded_replicas = s.excluded_replicas) : Isolated j s s' :=
  ⟨congrFun hstatus j, hview, fun h => hflood.trans h, .inl (congrFun hex j)⟩

theorem trans (h : Isolated j s s') (h' : Isolated j s' s'') : Isolated j s s'' where
  status := h'.status.trans h.status
  view := h.view.trans h'.view
  flood hs := h'.flood (h.flood hs)
  excluded := by
    rcases h'.excluded with hsame | ⟨hfalse, hwhy⟩
    · rcases h.excluded with hold | ⟨hfalse, hwhy⟩
      · exact .inl (hsame.trans hold)
      · refine .inr ⟨hsame.trans hfalse, ?_⟩
        rcases hwhy with hview | ⟨hpaused, hactive⟩
        · exact .inl (lt_of_lt_of_le hview h'.view)
        · exact .inr ⟨hpaused, h'.flood hactive⟩
    · refine .inr ⟨hfalse, ?_⟩
      rcases hwhy with hview | ⟨hpaused, hactive⟩
      · exact .inl (lt_of_le_of_lt h.view hview)
      · refine .inr ⟨?_, hactive⟩
        cases hs : s.flood_protection_active with
        | false => rfl
        | true =>
          rw [h.flood hs] at hpaused
          cases hpaused

theorem on (N : Node) (s : Intake) (e : Event) : Isolated j s (s.on N e) :=
  of_eq rfl (Replica.le_v_step N s.replica e) rfl rfl

theorem leave (hrun : s.replica.halted = false) (w : View) (rc : Option ℕ) (ckpts : List Digest) :
    Isolated j s (s.leave N w rc ckpts) := by
  rw [Intake.leave]
  split
  · exact of_eq rfl le_rfl rfl rfl
  · next hw =>
    have hv := Replica.v_leave (N := N) hrun (not_le.1 hw) rc ckpts
    have hlt : s.replica.v < (s.replica.step N (.leave w rc ckpts)).v := by
      rw [hv]
      exact not_le.1 hw
    exact ⟨rfl, hlt.le, id, .inr ⟨rfl, .inl hlt⟩⟩

theorem newView (s : Intake) (max : ℕ) : Isolated j s (s.newView max) := by
  rw [Intake.newView]
  split
  · next hpaused => exact ⟨rfl, le_rfl, fun _ => rfl, .inr ⟨rfl, .inr ⟨hpaused.1, rfl⟩⟩⟩
  · exact of_eq rfl le_rfl rfl rfl

theorem consequence (N : Node) (s : Intake) (c : Consequence) :
    Isolated j s (s.consequence N c) := by
  rw [Intake.consequence]
  split
  · exact of_eq rfl le_rfl rfl rfl
  have hrun : Isolated j s (s.carryOut N c.event) := by
    rw [carryOut]
    split
    · exact (newView s _).trans (on N _ _)
    · exact on N s _
  refine hrun.trans ?_
  generalize s.carryOut N c.event = s'
  dsimp only
  split
  · exact of_eq rfl le_rfl rfl rfl
  · exact of_eq rfl le_rfl rfl rfl

theorem foldl_consequence (N : Node) (cs : List Consequence) (s : Intake) :
    Isolated j s (cs.foldl (Intake.consequence N) s) := by
  induction cs generalizing s with
  | nil => exact of_eq rfl le_rfl rfl rfl
  | cons c cs ih => exact (consequence N s c).trans (ih _)

theorem handleViewChange (hrun : s.replica.halted = false) {vc : ViewChange} {auth : Bool}
    {rc : Option ℕ} {ckpts : List Digest} (hm : ¬ s.Mutes N j (.viewChange vc auth rc ckpts)) :
    Isolated j s (s.handleViewChange N vc auth rc ckpts) := by
  rw [Intake.handleViewChange]
  have hmuted : Isolated j s (if s.replica.hasNewView N ∧ s.replica.v < vc.view then
      { s with excluded_replicas := update s.excluded_replicas vc.id true } else s) := by
    split
    · next hlater =>
      have hne : j ≠ vc.id := fun hj => hm ⟨hj.symm, hlater⟩
      exact ⟨rfl, le_rfl, id, .inl (update_of_ne hne _ _)⟩
    · exact of_eq rfl le_rfl rfl rfl
  have hsame : (if s.replica.hasNewView N ∧ s.replica.v < vc.view then
      { s with excluded_replicas := update s.excluded_replicas vc.id true }
      else s).replica = s.replica := by
    split <;> rfl
  generalize (if s.replica.hasNewView N ∧ s.replica.v < vc.view then
      { s with excluded_replicas := update s.excluded_replicas vc.id true } else s) =
    muted at hmuted hsame ⊢
  refine hmuted.trans ((on N muted (.viewChange vc auth)).trans ?_)
  split
  · refine leave ?_ _ rc ckpts
    exact (Replica.halted_handleViewChange N muted.replica vc auth).trans (by rw [hsame, hrun])
  · exact of_eq rfl le_rfl rfl rfl

/-- **A message that neither mutes `j` nor files a status for it leaves
`j`'s traffic alone**, whatever it is. -/
theorem jumpTable (hrun : s.replica.halted = false) {m : Msg} (hmute : ¬ s.Mutes N j m)
    (hfile : ¬ s.Files j m) : Isolated j s (s.jumpTable N m) := by
  cases m with
  | viewChange vc auth rc ckpts => exact handleViewChange hrun hmute
  | status st =>
    rw [Intake.jumpTable]
    split
    · exact of_eq rfl le_rfl rfl rfl
    · next hwait =>
      split
      · have hne : j ≠ st.id := fun hj => hfile ⟨hj.symm, eq_false_of_ne_true hwait⟩
        exact ⟨update_of_ne hne _ _, le_rfl, id, .inl rfl⟩
      · exact of_eq rfl le_rfl rfl rfl
  | other => exact of_eq rfl le_rfl rfl rfl
  | _ => exact on N s _

end Isolated

/-- What is asked of an input with regard to `j`. -/
def KeepsTraffic (N : Node) (j : ℕ) (s : Intake) : Input → Prop
  | .message sock m cs =>
    let s' := s.receive N sock m cs
    ¬ s.Mutes N j m → ¬ s.Files j m →
      s'.status_pending j = s.status_pending j ∧
        (s'.excluded_replicas j = s.excluded_replicas j ∨
          s'.excluded_replicas j = false ∧ (s.replica.v < s'.replica.v ∨
            (s.count sock).flood_protection_active = false ∧ s'.flood_protection_active = true))
  | _ => True

/-- Counting touches the counters and the flood protection. -/
theorem frame_count (s : Intake) (sock : Option ℕ) :
    (s.count sock).replica = s.replica ∧
      (s.count sock).excluded_replicas = s.excluded_replicas ∧
      (s.count sock).status_pending = s.status_pending ∧
      (s.count sock).status_messages_badly_needed = s.status_messages_badly_needed := by
  cases sock with
  | none => exact ⟨rfl, rfl, rfl, rfl⟩
  | some j =>
    simp only [count]
    split
    · split <;> exact ⟨rfl, rfl, rfl, rfl⟩
    · exact ⟨rfl, rfl, rfl, rfl⟩

theorem keepsTraffic (N : Node) (j : ℕ) (s : Intake) (i : Input) : s.KeepsTraffic N j i := by
  cases i with
  | message sock m cs =>
    intro hmute hfile
    rw [receive]
    split
    · exact ⟨rfl, .inl rfl⟩
    next hrun =>
    obtain ⟨hrep, hex, hstat, hbadly⟩ := s.frame_count sock
    have hmute' : ¬ (s.count sock).Mutes N j m := by
      cases m <;> first | exact hmute | skip
      rwa [Mutes, hrep]
    have hfile' : ¬ (s.count sock).Files j m := by
      cases m <;> first | exact hfile | skip
      rwa [Files, hbadly]
    have hiso := (Isolated.jumpTable (by rw [hrep]; exact eq_false_of_ne_true hrun) hmute' hfile').trans
      (Isolated.foldl_consequence N cs _)
    refine ⟨hiso.status.trans (by rw [hstat]), ?_⟩
    rw [← hex, ← hrep]
    exact hiso.excluded
  | timer w rc ckpts => trivial
  | idle => trivial

/-- **Traffic is isolated but for what the sender field does.** In every
run, a message that is not a view-change for a later view naming `j` (while
the replica has its view) nor a status naming `j` (while statuses wait)
leaves the status kept for `j`, and never excludes `j`. It can end an
exclusion, where handling it moves the replica to a later view or a new view
ends a pause of the flood protection. -/
theorem muting_isolation (N : Node) (j : ℕ) (is : List Input) :
    Guarded (step N) (KeepsTraffic N j) (init N) is :=
  guarded_iff_forall_prefix.2 fun _ i _ => keepsTraffic N j _ i

/-! ## What the sender field does -/

/-- A view-change for view 1 that names replica `i`; `auth` says whether
`i` authenticated it. -/
def asksForView (i : ℕ) (auth : Bool) : Input :=
  .message (some 1) (.viewChange ⟨1, 0, i, [1], []⟩ auth none [1]) []

/-- A status that names replica 3 and that replica 3 did not authenticate. -/
def forgedStatus : StatusMsg := ⟨3, 0, 0, 0, false⟩

/-- **Messages that are not replica 3's change what is done with its
traffic.** A view-change of replica 2, the second for a later view, ends
replica 3's exclusion: the replica moves to that view. A view-change that
only names replica 3 excludes it, and a status that only names it is kept
as its status. -/
theorem others_change_traffic :
    ((exec (step (toyNode 1 0)) (init (toyNode 1 0)) [asksForView 3 true]).excluded_replicas 3 = true ∧
      (exec (step (toyNode 1 0)) (init (toyNode 1 0))
        [asksForView 3 true, asksForView 2 true]).excluded_replicas 3 = false) ∧
    ((init (toyNode 1 0)).excluded_replicas 3 = false ∧
      (exec (step (toyNode 1 0)) (init (toyNode 1 0)) [asksForView 3 false]).excluded_replicas 3 =
        true) ∧
    ((init (toyNode 1 0)).status_pending 3 = none ∧
      (exec (step (toyNode 1 0)) (init (toyNode 1 0))
        [.message (some 1) (.status forgedStatus) []]).status_pending 3 = some forgedStatus) := by
  decide +kernel

end Intake

end AbstractBFT.Aardvark
