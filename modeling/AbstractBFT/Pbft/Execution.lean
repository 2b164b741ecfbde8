import AbstractBFT.Lib.Run
import AbstractBFT.Lib.Snapshot
import Mathlib.Logic.Function.Basic
/-!
# PBFT — tentative execution and view changes

A PBFT replica executes the next batch as soon as it is prepared. If the
batch is still not committed when the replica leaves its view,
`send_view_change` goes back to the last checkpoint, which the service
state keeps as copy-on-write pages. Checkpoints are taken every
`checkpoint_interval` batches, by `execute_prepared`: the one after a
batch at the end of an interval already holds that batch, committed or
not. `settled_of_run` says when a view change leaves committed batches
only.

The certificates stand for themselves: that the one of a sequence number
became complete is an event. So is the end of a state transfer, whose
pages are written into the memory as they arrive. Recovery is left out, and
so is `in_check_state`, in which nothing is executed.
-/

namespace AbstractBFT.Pbft

open Machine Function List

/-- `checkpoint_interval`. -/
def checkpointInterval : ℕ := 128

/-- `max_out`, the size of the log window. -/
def maxOut : ℕ := 256

/-- `PBFT_R_Request`. -/
structure Request where
  cid : ℤ
  rid : ℕ
  command : List UInt8

/-- The requests of a pre-prepare. -/
abbrev Batch := List Request

/-- What is executed. `exec` is what a request leaves in memory, for
`last_executed`: the command's effect and the reply, or the reply alone
for a recovery request. The pages it touches are announced before they
are written. -/
structure Service (P B : Type) where
  req_id : (P → B) → ℤ → ℕ
  exec : (P → B) → ℕ → Request → P → B
  touched : (P → B) → ℕ → Request → Finset P
  frame : ∀ m k r p, p ∉ touched m k r → exec m k r p = m p

variable {P B : Type} [DecidableEq P]

namespace Service

variable (S : Service P B)

/-- The body of the loop over a batch: a request that was executed before
is not executed again. -/
def execRequest (k : ℕ) (s : Snapshot.Store P B) (r : Request) : Snapshot.Store P B :=
  if r.rid ≤ S.req_id s.mem r.cid then s else s.write (S.touched s.mem k r) (S.exec s.mem k r)

/-- The loop over a batch. -/
def execBatch (k : ℕ) (s : Snapshot.Store P B) (b : Batch) : Snapshot.Store P B :=
  b.foldl (S.execRequest k) s

/-- What a request does to the service state. -/
def applyRequest (k : ℕ) (m : P → B) (r : Request) : P → B :=
  if r.rid ≤ S.req_id m r.cid then m else S.exec m k r

/-- The service state after the batches `k + 1`, `k + 2`, …, from the
state after batch `k`. -/
def applyAll (k : ℕ) (m : P → B) : List Batch → P → B
  | [] => m
  | b :: bs => applyAll (k + 1) (b.foldl (S.applyRequest k) m) bs

omit [DecidableEq P] in
theorem applyAll_concat (k : ℕ) (m : P → B) (bs : List Batch) (b : Batch) :
    S.applyAll k m (bs ++ [b]) = b.foldl (S.applyRequest (k + bs.length)) (S.applyAll k m bs) := by
  induction bs generalizing k m with
  | nil => rfl
  | cons c bs ih =>
    rw [cons_append, applyAll, ih, applyAll, length_cons]
    congr 2
    omega

theorem mem_execRequest (k : ℕ) (s : Snapshot.Store P B) (r : Request) :
    (S.execRequest k s r).mem = S.applyRequest k s.mem r := by
  unfold execRequest applyRequest
  split <;> rfl

theorem mem_execBatch (k : ℕ) (s : Snapshot.Store P B) (b : Batch) :
    (S.execBatch k s b).mem = b.foldl (S.applyRequest k) s.mem := by
  unfold execBatch
  induction b generalizing s with
  | nil => rfl
  | cons r b ih => rw [foldl_cons, foldl_cons, ih, mem_execRequest]

theorem holds_execBatch {m : P → B} {s : Snapshot.Store P B} (h : Snapshot.Holds m s) (k : ℕ)
    (b : Batch) : Snapshot.Holds m (S.execBatch k s b) := by
  induction b generalizing s with
  | nil => exact h
  | cons r b ih =>
    refine ih ?_
    unfold execRequest
    split
    · exact h
    · exact h.write (S.frame s.mem k r)

end Service

/-! ## The replica -/

/-- The certificates of one sequence number: the batch, once the prepared
certificate is complete, and whether the one of the commits is. -/
structure Entry where
  pp : Option Batch
  cc : Bool

/-- The part of `PBFT_R_Replica` and its `PBFT_R_State` that executes.
`lc` is the last checkpoint, `none` for `-1`; `mine` are the checkpoint
messages of its own it has in `elog`. The fields from `base` on record
what the memory holds: the number and state it was started or fetched
with, and the batches executed since; and which numbers were committed
here. -/
structure Replica (P B : Type) where
  v : ℕ
  last_executed : ℕ
  last_tentative_execute : ℕ
  last_stable : ℕ
  has_new_view : Bool
  log : ℕ → Entry
  store : Snapshot.Store P B
  lc : Option ℕ
  fetching : Bool
  mine : List ℕ
  halted : Bool
  base : ℕ × (P → B)
  run : List Batch
  commits : List ℕ

namespace Replica

/-- A replica at the start, with the memory `m`. -/
def init (m : P → B) : Replica P B where
  v := 0
  last_executed := 0
  last_tentative_execute := 0
  last_stable := 0
  has_new_view := true
  log := fun _ => ⟨none, false⟩
  store := ⟨m, ∅, fun _ => none⟩
  lc := some 0
  fetching := false
  mine := []
  halted := false
  base := (0, m)
  run := []
  commits := []

variable (r : Replica P B)

/-- `state.checkpoint`. -/
def checkpoint (seqno : ℕ) : Replica P B :=
  { r with lc := some seqno, store := r.store.mark }

/-- `last_tentative_execute = last_executed = state.rollback()`. Without a
checkpoint, or while state is fetched, the assertion fails. -/
def rollback : Replica P B :=
  match r.lc with
  | none => { r with halted := true }
  | some c =>
    if r.fetching then { r with halted := true }
    else
      { r with
        store := r.store.restore
        last_executed := c
        last_tentative_execute := c
        run := r.run.take (c - r.base.1) }

/-- `state.discard_checkpoint`. -/
def discardCheckpoint (seqno : ℕ) : Replica P B :=
  match r.lc with
  | none => r
  | some c =>
    if c < seqno ∧ c < r.last_executed then { r.checkpoint r.last_executed with lc := none } else r

/-- `last_executed = last_tentative_execute = n`. -/
def moveTo (n : ℕ) : Replica P B :=
  { r with last_executed := n, last_tentative_execute := n }

/-- The replica's own checkpoint message for `n` goes to `elog`. -/
def addMine (n : ℕ) : Replica P B := { r with mine := r.mine ++ [n] }

/-- `last_stable = n`, and the logs lose what is not above it. -/
def truncate (n : ℕ) : Replica P B :=
  { r with last_stable := n, log := fun k => if k ≤ n then ⟨none, false⟩ else r.log k }

/-- `mark_stable`, without what it finds stable in turn. -/
def markStable (n : ℕ) (have_state : Bool) : Replica P B :=
  if n ≤ r.last_stable then r
  else
    let r := if have_state ∧ r.last_executed < n then r.moveTo n else r
    let r := (r.truncate n).discardCheckpoint n
    if have_state then r.addMine n else r

/-- The calls of `mark_stable` for the checkpoints `ns`, as their
certificates become complete; they are `checkpoint_interval` apart. -/
def markAll (ns : List ℕ) : Replica P B :=
  ns.foldl
    (fun r n => if n % checkpointInterval = 0 then r.markStable n (r.mine.contains n) else r) r

variable (S : Service P B)

/-- What `execute_prepared` does once it has the next batch. Its pages
are copied to the checkpoint `lc`, and there is one: `lc` is `none` only
below `last_stable`, where the log is empty. -/
def executeNext (b : Batch) : Replica P B :=
  let n := r.last_executed + 1
  let r :=
    { r with
      last_tentative_execute := n
      store := S.execBatch r.last_executed r.store b
      run := r.run ++ [b] }
  if n % checkpointInterval = 0 then r.checkpoint n else r

/-- `execute_prepared`. The entries of the log are of the current view. -/
def executePrepared : Replica P B :=
  if r.last_tentative_execute < r.last_executed + 1 ∧ r.last_executed < r.last_stable + maxOut ∧
      r.fetching = false ∧ r.has_new_view then
    match (r.log (r.last_executed + 1)).pp with
    | none => r
    | some b => r.executeNext S b
  else r

/-- `committed`. -/
def committed (n : ℕ) : Option Batch :=
  if (r.log n).cc then (r.log n).pp else none

variable (stable : ℕ → List ℕ)

/-- What `execute_committed` does after the execution: the batch counts
as committed, and at the end of an interval the replica's checkpoint
message is logged, which makes the checkpoints `stable n` stable. -/
def commitNext (r : Replica P B) : Replica P B :=
  let n := r.last_executed + 1
  let r := { r with last_executed := n, commits := r.commits ++ [n] }
  if n % checkpointInterval = 0 then (r.addMine n).markAll (stable n) else r

/-- One round of the loop in `execute_committed`; `none` where it ends. -/
def executeRound (r : Replica P B) : Option (Replica P B) :=
  if r.last_executed < r.last_stable + maxOut ∧ r.last_stable ≤ r.last_executed ∧
      (r.committed (r.last_executed + 1)).isSome then
    some ((r.executePrepared S).commitNext stable)
  else none

/-- The loop in `execute_committed`. -/
def executeLoop : ℕ → Replica P B → Replica P B
  | 0, r => r
  | k + 1, r =>
    match r.executeRound S stable with
    | none => r
    | some r' => executeLoop k r'

/-- `execute_committed`. Every round takes an entry of the log, which has
`max_out` of them. -/
def executeCommitted (r : Replica P B) : Replica P B :=
  if r.fetching = false ∧ r.has_new_view then r.executeLoop S stable (maxOut + 1) else r

/-- `send_commit`; `own` says that the replica's own commit completes the
certificate. -/
def sendCommit (r : Replica P B) (s : ℕ) (own : Bool) : Replica P B :=
  let r := if s = r.last_executed + 1 then r.executePrepared S else r
  let e := r.log s
  let r := { r with log := update r.log s { e with cc := e.cc || own } }
  if e.cc || own then r.executeCommitted S stable else r

/-- `state.start_fetch`. -/
def startFetch : Replica P B :=
  if r.fetching then r
  else
    let r := { r with fetching := true }
    if r.lc.any (· < r.last_executed) then r.checkpoint r.last_executed else r

/-- The end of a fetch in `done_with_level`: the memory is the state at
checkpoint `c`. It may be all that `has_new_view` waits for. -/
def endFetch (c : ℕ) (nv : Bool) : Replica P B :=
  { r.checkpoint c with
    fetching := false
    has_new_view := r.has_new_view || nv
    base := (c, r.store.mem)
    run := [] }

/-- The first part of `new_state`, for a state past `last_executed`. -/
def advance (c : ℕ) : Replica P B :=
  if r.last_executed < c then
    let r := r.moveTo c
    let r := if r.last_stable + maxOut < c then
      r.markStable (c - maxOut) (r.mine.contains (c - maxOut)) else r
    r.addMine c
  else r

/-- `new_state`; `known` says that `f+1` replicas have a stable checkpoint
at `c` or later, and `more` are the checkpoints found stable after that. -/
def newState (r : Replica P B) (c : ℕ) (known : Bool) (more : List ℕ) : Replica P B :=
  let r := r.advance c
  let r := if known then r.markStable c true else r
  (r.markAll more).executeCommitted S stable

/-- `send_view_change`, by `k + 1` views. -/
def sendViewChange (k : ℕ) : Replica P B :=
  let r := { r with v := r.v + k + 1, has_new_view := false }
  let r := if r.last_executed < r.last_tentative_execute then r.rollback else r
  { r with log := fun _ => ⟨none, false⟩ }

/-- `process_new_view`, for a view that starts after `min` and in which
`ms` is stable. -/
def processNewView (min ms : ℕ) : Replica P B :=
  let min := max min r.last_stable
  let r := if ms % checkpointInterval = 0 then r.markStable ms (ms ≤ r.last_executed) else r
  if r.last_executed < min then r.startFetch else { r with has_new_view := true }

end Replica

/-- What can happen at a replica. -/
inductive Event (P B : Type) where
  /-- the prepared certificate for `n` becomes complete, with batch `b` -/
  | prepared (n : ℕ) (b : Batch) (own : Bool) (stable : ℕ → List ℕ)
  /-- the commit certificate for `n` becomes complete -/
  | committed (n : ℕ) (stable : ℕ → List ℕ)
  /-- checkpoints become stable -/
  | stable (ns : List ℕ)
  /-- `f+1` replicas have stable checkpoints past `last_executed` -/
  | late
  /-- a page of the state that is fetched -/
  | data (p : P) (b : B)
  /-- the last part of it -/
  | fetched (c : ℕ) (nv known : Bool) (more : List ℕ) (stable : ℕ → List ℕ)
  | viewChange (k : ℕ)
  | newView (min ms : ℕ)

namespace Replica

variable (S : Service P B)

def handle (r : Replica P B) : Event P B → Replica P B
  | .prepared n b own stable =>
    if r.has_new_view ∧ r.last_stable < n ∧ n ≤ r.last_stable + maxOut ∧ (r.log n).pp.isNone then
      { r with log := update r.log n { r.log n with pp := some b } }.sendCommit
        S stable n own
    else r
  | .committed n stable =>
    if r.last_stable < n ∧ n ≤ r.last_stable + maxOut then
      { r with log := update r.log n { r.log n with cc := true } }.executeCommitted
        S stable
    else r
  | .stable ns => r.markAll ns
  | .late =>
    let r := if r.last_executed < r.last_tentative_execute then r.rollback else r
    if r.halted then r else r.startFetch
  | .data p b =>
    if r.fetching then
      { r with
        store := { r.store with
          mem := update r.store.mem p b, written := insert p r.store.written } }
    else r
  | .fetched c nv known more stable =>
    if r.fetching then
      if r.lc.all (· ≤ c) then (r.endFetch c nv).newState S stable c known more
      else { r with halted := true }
    else r
  | .viewChange k => r.sendViewChange k
  | .newView min ms => if r.has_new_view then r else r.processNewView min ms

def step (r : Replica P B) (e : Event P B) : Replica P B := if r.halted then r else r.handle S e

/-- **What a view change should leave**: nothing tentative; only numbers
that were committed here, or covered by a stable checkpoint or by the
state that was fetched; and the state after exactly these batches. -/
structure Settled (r : Replica P B) : Prop where
  executed : r.last_executed = r.last_tentative_execute
  covered : ∀ n, 0 < n → n ≤ r.last_executed → n ∈ r.commits ∨ n ≤ r.last_stable ∨ n ≤ r.base.1
  upTo : r.base.1 + r.run.length = r.last_executed
  state : r.store.mem = S.applyAll r.base.1 r.base.2 r.run

/-- A batch at the end of an interval is executed and neither committed
nor stable. -/
def AtBoundary (r : Replica P B) : Prop :=
  r.last_executed < r.last_tentative_execute ∧
    r.last_tentative_execute % checkpointInterval = 0 ∧
    r.last_stable < r.last_tentative_execute
  deriving Decidable

/-- **What the events of a run must meet**: no batch at the end of an
interval is rolled back, no view change comes while state is fetched, and
the state that is fetched is not older than what was executed. -/
def RollbackOk (r : Replica P B) : Event P B → Prop
  | .viewChange _ => r.fetching = false ∧ ¬ r.AtBoundary
  | .late => ¬ r.AtBoundary
  | .fetched c _ _ _ _ => r.last_executed ≤ c
  | _ => True

instance (r : Replica P B) (e : Event P B) : Decidable (r.RollbackOk e) := by
  cases e <;> dsimp only [RollbackOk] <;> infer_instance

/-! ## What holds in every state -/

/-- The last checkpoint, `c`: the pages saved since give the state behind
the batches up to it. It is never behind the end of an interval that was
executed, and only one that was taken tentatively is ahead of
`last_executed`. -/
structure Keeps (r : Replica P B) (c : ℕ) : Prop where
  base_le : r.base.1 ≤ c
  le_lte : c ≤ r.last_tentative_execute
  held : r.fetching = false →
    Snapshot.Holds (S.applyAll r.base.1 r.base.2 (r.run.take (c - r.base.1))) r.store
  boundary : ∀ n ≤ r.last_tentative_execute, n % checkpointInterval = 0 → n ≤ c
  tentative : c ≤ r.last_executed ∨ r.last_tentative_execute % checkpointInterval = 0
  mine_le : ∀ n ∈ r.mine, n ≤ c

structure Good (r : Replica P B) : Prop where
  le_lte : r.last_executed ≤ r.last_tentative_execute
  lte_le : r.last_tentative_execute ≤ r.last_executed + 1
  calm : r.fetching = true ∨ r.has_new_view = false → r.last_tentative_execute = r.last_executed
  upTo : r.base.1 + r.run.length = r.last_tentative_execute
  state : r.fetching = false → r.store.mem = S.applyAll r.base.1 r.base.2 r.run
  lc : ∀ c, r.lc = some c → r.Keeps S c
  lc_none : r.lc = none → r.last_executed < r.last_stable
  log_stable : ∀ n ≤ r.last_stable, (r.log n).pp = none
  mine_le : ∀ n ∈ r.mine, n ≤ r.last_executed
  covered : ∀ n, 0 < n → n ≤ r.last_executed → n ∈ r.commits ∨ n ≤ r.last_stable ∨ n ≤ r.base.1

variable {S : Service P B} {r : Replica P B}

section

omit [DecidableEq P]

theorem good_init (m : P → B) : (init m).Good S where
  le_lte := le_rfl
  lte_le := Nat.le_succ 0
  calm := fun _ => rfl
  upTo := rfl
  state := fun _ => rfl
  lc := by
    rintro c ⟨⟩
    have hheld := Snapshot.holds_mark (⟨m, ∅, fun _ => none⟩ : Snapshot.Store P B)
    exact ⟨le_rfl, le_rfl, fun _ => hheld, fun n hn _ => hn, Or.inl le_rfl, nofun⟩
  lc_none := nofun
  log_stable := fun _ _ => rfl
  mine_le := nofun
  covered := by
    intro n hpos hn
    exact absurd hn (Nat.not_le.2 hpos)

variable {n : ℕ}

/-- A checkpoint message is for a state that was executed. -/
theorem Good.addMine (h : r.Good S) (hle : n ≤ r.last_executed) (hlc : ∀ c, r.lc = some c → n ≤ c) :
    (r.addMine n).Good S := by
  refine { h with lc := fun c hc => { h.lc c hc with mine_le := ?_ }, mine_le := ?_ }
  · intro k hk
    rcases mem_concat_iff.1 hk with hk | rfl
    · exact (h.lc c hc).mine_le k hk
    · exact hlc c hc
  · intro k hk
    rcases mem_concat_iff.1 hk with hk | rfl
    · exact h.mine_le k hk
    · exact hle

/-! ### Stable checkpoints -/

/-- Discarding checkpoints keeps the invariant, where none at or below
`last_executed` is lost. -/
theorem Good.discardCheckpoint (h : r.Good S) (hn : n = r.last_stable)
    (hlc : ∀ c, r.lc = some c → n ≤ r.last_executed → n ≤ c) : (r.discardCheckpoint n).Good S := by
  unfold Replica.discardCheckpoint
  split
  · exact h
  · rename_i c hc
    split
    · rename_i hlt
      have hbelow : r.last_executed < r.last_stable := by
        by_contra hge
        have := hlc c hc (by omega)
        omega
      exact { h with lc := nofun, lc_none := fun _ => hbelow }
    · exact h

@[simp] theorem last_executed_discardCheckpoint (r : Replica P B) (n : ℕ) :
    (r.discardCheckpoint n).last_executed = r.last_executed := by
  unfold Replica.discardCheckpoint
  split
  · rfl
  · split <;> rfl

theorem lc_of_discardCheckpoint {c : ℕ} (h : (r.discardCheckpoint n).lc = some c) :
    r.lc = some c := by
  revert h
  unfold Replica.discardCheckpoint
  split
  · exact id
  · split
    · nofun
    · exact id

theorem Good.markStable {have_state : Bool} (h : r.Good S)
    (hle : have_state = true → n ≤ r.last_executed)
    (hlc : ∀ c, r.lc = some c → n ≤ r.last_executed → n ≤ c) :
    (r.markStable n have_state).Good S := by
  unfold Replica.markStable
  split
  · exact h
  rename_i hn
  have hskip : ¬ (have_state = true ∧ r.last_executed < n) := fun hc => by
    have := hle hc.1
    omega
  rw [if_neg hskip]
  have hmarked : (r.truncate n).Good S :=
    { h with
      lc := fun c hc => { h.lc c hc with }
      lc_none := fun hc => by
        have := h.lc_none hc
        show r.last_executed < n
        omega
      log_stable := by
        intro k hk
        show (if k ≤ n then (⟨none, false⟩ : Entry) else r.log k).pp = none
        rw [if_pos (show k ≤ n from hk)]
      covered := by
        intro k hpos hk
        rcases h.covered k hpos hk with hc | hs | hb
        · exact Or.inl hc
        · exact Or.inr (Or.inl (show k ≤ n by omega))
        · exact Or.inr (Or.inr hb) }
  have hdisc := hmarked.discardCheckpoint rfl hlc
  split
  · rename_i hown
    refine hdisc.addMine ?_ fun c hc => ?_
    · rw [last_executed_discardCheckpoint]
      exact hle hown
    · have hold := lc_of_discardCheckpoint hc
      exact hlc c hold (hle hown)
  · exact hdisc

theorem Good.markAll (h : r.Good S) (ns : List ℕ) : (r.markAll ns).Good S := by
  unfold Replica.markAll
  induction ns generalizing r with
  | nil => exact h
  | cons n ns ih =>
    rw [foldl_cons]
    refine ih ?_
    split
    · rename_i hn
      refine h.markStable (fun hown => ?_) fun c hc hle => ?_
      · exact h.mine_le n (contains_iff_mem.1 hown)
      · exact (h.lc c hc).boundary n (hle.trans h.le_lte) hn
    · exact h

/-- What lets a replica execute. -/
def mode (r : Replica P B) : Bool × Bool × Bool := (r.fetching, r.has_new_view, r.halted)

theorem mode_discardCheckpoint (r : Replica P B) (n : ℕ) :
    (r.discardCheckpoint n).mode = r.mode := by
  unfold Replica.discardCheckpoint
  split
  · rfl
  · split <;> rfl

/-- What `mark_stable` leaves alone, and that it does not go back. -/
theorem markStable_frame (r : Replica P B) (n : ℕ) (have_state : Bool) :
    r.last_executed ≤ (r.markStable n have_state).last_executed ∧
      (∀ c, (r.markStable n have_state).lc = some c → r.lc = some c) ∧
      (r.markStable n have_state).mode = r.mode := by
  obtain ⟨r', hr'⟩ : ∃ r', r' = if have_state ∧ r.last_executed < n then r.moveTo n else r :=
    ⟨_, rfl⟩
  have hmoved : r.last_executed ≤ r'.last_executed ∧ r'.lc = r.lc ∧ r'.mode = r.mode := by
    rw [hr']
    split
    · rename_i hjump
      exact ⟨hjump.2.le, rfl, rfl⟩
    · exact ⟨le_rfl, rfl, rfl⟩
  obtain ⟨hle, hlc, hmode⟩ := hmoved
  have hdisc : r.last_executed ≤ ((r'.truncate n).discardCheckpoint n).last_executed ∧
      (∀ c, ((r'.truncate n).discardCheckpoint n).lc = some c → r.lc = some c) ∧
      ((r'.truncate n).discardCheckpoint n).mode = r.mode := by
    refine ⟨?_, fun c hc => ?_, ?_⟩
    · rw [last_executed_discardCheckpoint]
      exact hle
    · have hold := lc_of_discardCheckpoint hc
      exact hlc ▸ hold
    · exact (mode_discardCheckpoint (r'.truncate n) n).trans hmode
  unfold Replica.markStable
  rw [← hr']
  split
  · exact ⟨le_rfl, fun _ => id, rfl⟩
  · split <;> exact hdisc

theorem mode_markAll (r : Replica P B) (ns : List ℕ) : (r.markAll ns).mode = r.mode := by
  unfold Replica.markAll
  induction ns generalizing r with
  | nil => rfl
  | cons n ns ih =>
    rw [foldl_cons, ih]
    split
    · exact (markStable_frame r n _).2.2
    · rfl

end

/-! ### Execution -/

/-- What `execute_prepared` can do. -/
theorem executePrepared_cases (S : Service P B) (r : Replica P B) :
    r.executePrepared S = r ∨
      ∃ b, r.last_tentative_execute < r.last_executed + 1 ∧ r.fetching = false ∧
        r.has_new_view = true ∧ r.executePrepared S = r.executeNext S b := by
  unfold Replica.executePrepared
  split
  · rename_i hguard
    split
    · exact Or.inl rfl
    · exact Or.inr ⟨_, hguard.1, hguard.2.2.1, hguard.2.2.2, rfl⟩
  · exact Or.inl rfl

theorem executePrepared_frame (S : Service P B) (r : Replica P B) :
    (r.executePrepared S).last_executed = r.last_executed ∧
      (r.executePrepared S).last_stable = r.last_stable ∧
      (r.executePrepared S).mode = r.mode := by
  rcases executePrepared_cases S r with heq | ⟨b, -, -, -, heq⟩
  · rw [heq]
    exact ⟨rfl, rfl, rfl⟩
  · rw [heq]
    unfold executeNext
    dsimp only
    split <;> exact ⟨rfl, rfl, rfl⟩

omit [DecidableEq P] in
theorem mode_commitNext (r : Replica P B) (stable : ℕ → List ℕ) :
    (r.commitNext stable).mode = r.mode := by
  unfold Replica.commitNext
  dsimp only
  split
  · exact mode_markAll _ _
  · rfl

theorem rollback_leave (r : Replica P B) (w : ℕ) :
    { r with v := w, has_new_view := false }.rollback =
      { r.rollback with v := w, has_new_view := false } := by
  unfold Replica.rollback
  dsimp only
  split
  · rfl
  · split <;> rfl

section

variable (h : r.Good S)
include h

/-- Executing the next batch keeps the invariant: the checkpoint moves
with a batch at the end of an interval, and stays where it is with any
other. -/
theorem Good.executeNext {b : Batch} (hlt : r.last_tentative_execute < r.last_executed + 1)
    (hfetch : r.fetching = false) (hview : r.has_new_view = true) : (r.executeNext S b).Good S := by
  have hlte : r.last_tentative_execute = r.last_executed := by
    have := h.le_lte
    omega
  have hcalm : r.fetching = true ∨ r.has_new_view = false →
      r.last_executed + 1 = r.last_executed := by
    rintro (hf | hv)
    · rw [hfetch] at hf
      exact absurd hf Bool.false_ne_true
    · rw [hview] at hv
      exact absurd hv.symm Bool.false_ne_true
  have hupTo : r.base.1 + (r.run ++ [b]).length = r.last_executed + 1 := by
    have := h.upTo
    rw [length_append, length_singleton]
    omega
  have hstate : (S.execBatch r.last_executed r.store b).mem =
      S.applyAll r.base.1 r.base.2 (r.run ++ [b]) := by
    rw [S.mem_execBatch, S.applyAll_concat, h.state hfetch, h.upTo, hlte]
  unfold Replica.executeNext
  dsimp only
  split
  · -- the end of an interval: a checkpoint of the memory as it is now
    refine
      { h with
        le_lte := Nat.le_succ _
        lte_le := le_rfl
        calm := hcalm
        upTo := hupTo
        state := fun _ => hstate
        lc := ?_
        lc_none := nofun }
    rintro c ⟨⟩
    refine ⟨hupTo ▸ Nat.le_add_right _ _, le_rfl, fun _ => ?_, fun n hn _ => hn,
      Or.inr (by assumption), fun n hn => (h.mine_le n hn).trans (Nat.le_succ _)⟩
    have hall : (r.run ++ [b]).take (r.last_executed + 1 - r.base.1) = r.run ++ [b] :=
      take_of_length_le (by omega)
    show Snapshot.Holds (S.applyAll r.base.1 r.base.2
      ((r.run ++ [b]).take (r.last_executed + 1 - r.base.1))) _
    rw [hall, ← hstate]
    exact Snapshot.holds_mark _
  · rename_i hbound
    refine
      { h with
        le_lte := Nat.le_succ _
        lte_le := le_rfl
        calm := hcalm
        upTo := hupTo
        state := fun _ => hstate
        lc := fun c hc => ?_ }
    have hlc := h.lc c hc
    have hle : c ≤ r.last_executed := hlc.le_lte.trans hlte.le
    refine ⟨hlc.base_le, hle.trans (Nat.le_succ _), fun _ => ?_, fun n hn hmod => ?_, Or.inl hle,
      hlc.mine_le⟩
    · have hold : (r.run ++ [b]).take (c - r.base.1) = r.run.take (c - r.base.1) :=
        take_append_of_le_length (by
          have := h.upTo
          omega)
      show Snapshot.Holds (S.applyAll r.base.1 r.base.2 ((r.run ++ [b]).take (c - r.base.1))) _
      rw [hold]
      exact S.holds_execBatch (hlc.held hfetch) _ b
    · have hne : n ≠ r.last_executed + 1 := fun heq => hbound (heq ▸ hmod)
      have hn' : n ≤ r.last_executed + 1 := hn
      exact hlc.boundary n (by omega) hmod

theorem Good.executePrepared : (r.executePrepared S).Good S := by
  rcases executePrepared_cases S r with heq | ⟨b, hlt, hfetch, hview, heq⟩
  · rw [heq]
    exact h
  · rw [heq]
    exact h.executeNext hlt hfetch hview

/-- A batch that is committed is executed before it counts. -/
theorem Good.lte_executePrepared (hwindow : r.last_executed < r.last_stable + maxOut)
    (hfetch : r.fetching = false) (hview : r.has_new_view = true)
    (hpp : (r.log (r.last_executed + 1)).pp.isSome) :
    (r.executePrepared S).last_tentative_execute = r.last_executed + 1 := by
  obtain ⟨b, hb⟩ := Option.isSome_iff_exists.1 hpp
  by_cases hlt : r.last_tentative_execute < r.last_executed + 1
  · unfold Replica.executePrepared
    rw [if_pos ⟨hlt, hwindow, hfetch, hview⟩, hb]
    show (r.executeNext S b).last_tentative_execute = _
    unfold Replica.executeNext
    dsimp only
    split <;> rfl
  · unfold Replica.executePrepared
    rw [if_neg fun hguard => hlt hguard.1]
    have := h.lte_le
    omega

omit [DecidableEq P] in
theorem Good.commitNext (stable : ℕ → List ℕ) (hstable : r.last_stable ≤ r.last_executed)
    (hlte : r.last_tentative_execute = r.last_executed + 1) : (r.commitNext stable).Good S := by
  have hcommitted : Good S { r with
      last_executed := r.last_executed + 1, commits := r.commits ++ [r.last_executed + 1] } :=
    { h with
      le_lte := hlte.ge
      lte_le := hlte.le.trans (Nat.le_succ _)
      calm := fun _ => hlte
      lc := fun c hc => { h.lc c hc with tentative := Or.inl ((h.lc c hc).le_lte.trans hlte.le) }
      lc_none := fun hc => absurd (h.lc_none hc) (Nat.not_lt.2 hstable)
      mine_le := fun n hn => (h.mine_le n hn).trans (Nat.le_succ _)
      covered := by
        intro n hpos hn
        rcases Nat.le_or_eq_of_le_succ hn with hle | heq
        · exact (h.covered n hpos hle).imp_left (mem_append_left _)
        · exact Or.inl (mem_append_right _ (mem_singleton.2 heq)) }
  unfold Replica.commitNext
  dsimp only
  split
  · rename_i hmod
    exact (hcommitted.addMine le_rfl fun c hc => (h.lc c hc).boundary _ hlte.ge hmod).markAll _
  · exact hcommitted

theorem Good.executeRound {stable : ℕ → List ℕ} {r' : Replica P B} (hfetch : r.fetching = false)
    (hview : r.has_new_view = true) (hround : r.executeRound S stable = some r') :
    r'.Good S ∧ r'.mode = r.mode := by
  unfold Replica.executeRound at hround
  split at hround
  · rename_i hguard
    obtain ⟨hwindow, hstable, hcommitted⟩ := hguard
    obtain rfl := Option.some.inj hround
    have hpp : (r.log (r.last_executed + 1)).pp.isSome := by
      unfold Replica.committed at hcommitted
      split at hcommitted
      · exact hcommitted
      · exact absurd hcommitted Bool.false_ne_true
    obtain ⟨hle, hls, hmode⟩ := executePrepared_frame S r
    refine ⟨h.executePrepared.commitNext stable ?_ ?_, (mode_commitNext _ stable).trans hmode⟩
    · rw [hle, hls]
      exact hstable
    · rw [hle]
      exact h.lte_executePrepared hwindow hfetch hview hpp
  · cases hround

theorem Good.executeLoop (stable : ℕ → List ℕ) (k : ℕ) (hfetch : r.fetching = false)
    (hview : r.has_new_view = true) : (r.executeLoop S stable k).Good S := by
  induction k generalizing r with
  | zero => exact h
  | succ k ih =>
    unfold Replica.executeLoop
    split
    · exact h
    · rename_i r' hround
      obtain ⟨hgood, hmode⟩ := h.executeRound hfetch hview hround
      exact ih hgood ((congrArg (·.1) hmode).trans hfetch) ((congrArg (·.2.1) hmode).trans hview)

theorem Good.executeCommitted (stable : ℕ → List ℕ) : (r.executeCommitted S stable).Good S := by
  unfold Replica.executeCommitted
  split
  · rename_i hguard
    exact h.executeLoop stable _ hguard.1 hguard.2
  · exact h

variable {n c : ℕ}

omit [DecidableEq P] in
/-- The certificates above `last_stable` are not in the invariant. -/
theorem Good.update (hn : r.last_stable < n) (e : Entry) :
    Good S { r with log := Function.update r.log n e } := by
  refine { h with lc := fun c hc => { h.lc c hc with }, log_stable := ?_ }
  intro k hk
  have hne : k ≠ n := fun heq => Nat.not_lt.2 hk (heq ▸ hn)
  show (Function.update r.log n e k).pp = none
  rw [update_of_ne hne]
  exact h.log_stable k hk

theorem Good.sendCommit (stable : ℕ → List ℕ) (hn : r.last_stable < n) (own : Bool) :
    (r.sendCommit S stable n own).Good S := by
  obtain ⟨r', hr'⟩ : ∃ r', r' = if n = r.last_executed + 1 then r.executePrepared S else r :=
    ⟨_, rfl⟩
  have hgood : r'.Good S ∧ r'.last_stable < n := by
    rw [hr']
    split
    · exact ⟨h.executePrepared, (executePrepared_frame S r).2.1 ▸ hn⟩
    · exact ⟨h, hn⟩
  unfold Replica.sendCommit
  rw [← hr']
  dsimp only
  have hlogged := hgood.1.update hgood.2 { r'.log n with cc := (r'.log n).cc || own }
  split
  · exact hlogged.executeCommitted stable
  · exact hlogged

/-! ### Going back, and fetching state -/

/-- Going back keeps the invariant, where the batch that is dropped is
not the one the checkpoint was taken after. -/
theorem Good.rollback (hok : ¬ r.AtBoundary) (hlt : r.last_executed < r.last_tentative_execute) :
    r.rollback.halted = true ∨
      (r.rollback.Good S ∧ r.rollback.last_tentative_execute = r.rollback.last_executed) := by
  unfold Replica.rollback
  split
  · exact Or.inl rfl
  rename_i c hc
  split
  · exact Or.inl rfl
  rename_i hfetch
  right
  refine ⟨?_, rfl⟩
  have hfetch' : r.fetching = false := Bool.eq_false_iff.2 hfetch
  have hlc := h.lc c hc
  have hbase := hlc.base_le
  have hle := hlc.le_lte
  have hlen : (r.run.take (c - r.base.1)).length = c - r.base.1 := by
    have := h.upTo
    rw [length_take]
    omega
  have hsame : (r.run.take (c - r.base.1)).take (c - r.base.1) = r.run.take (c - r.base.1) := by
    rw [take_take, min_self]
  -- the batches up to the checkpoint are those that were committed, and
  -- perhaps the last one, where a stable checkpoint covers it
  have hcov : ∀ n, 0 < n → n ≤ c → n ∈ r.commits ∨ n ≤ r.last_stable ∨ n ≤ r.base.1 := by
    intro n hpos hn
    rcases Nat.lt_or_ge r.last_executed n with hgt | hle'
    · have hmod : r.last_tentative_execute % checkpointInterval = 0 :=
        hlc.tentative.resolve_left (by omega)
      have hstable : r.last_tentative_execute ≤ r.last_stable := by
        by_contra hnot
        exact hok ⟨hlt, hmod, by omega⟩
      exact Or.inr (Or.inl (by omega))
    · exact h.covered n hpos hle'
  refine
    { h with
      le_lte := le_rfl
      lte_le := Nat.le_succ _
      calm := fun _ => rfl
      upTo := ?_
      state := fun _ => (hlc.held hfetch').restore
      lc := ?_
      lc_none := ?_
      mine_le := hlc.mine_le
      covered := hcov }
  · show r.base.1 + (r.run.take (c - r.base.1)).length = c
    omega
  · intro c' hc'
    obtain rfl := Option.mem_unique hc hc'
    refine ⟨hlc.base_le, le_rfl, fun _ => ?_, fun n hn _ => hn, Or.inl le_rfl, hlc.mine_le⟩
    show Snapshot.Holds (S.applyAll r.base.1 r.base.2
      ((r.run.take (c - r.base.1)).take (c - r.base.1))) _
    rw [hsame]
    exact (hlc.held hfetch').of_restore
  · intro hnone
    exact absurd (hc.symm.trans hnone) (Option.some_ne_none c)

omit [DecidableEq P] in
theorem Good.startFetch (hlte : r.last_tentative_execute = r.last_executed) :
    r.startFetch.Good S := by
  unfold Replica.startFetch
  split
  · exact h
  have hfetching : Good S { r with fetching := true } :=
    { h with
      calm := fun _ => hlte
      state := nofun
      lc := fun c hc => { h.lc c hc with held := nofun } }
  dsimp only
  split
  · refine { hfetching with lc := ?_, lc_none := nofun }
    rintro c ⟨⟩
    refine ⟨?_, h.le_lte, nofun, fun n hn _ => hn.trans hlte.le, Or.inl le_rfl, h.mine_le⟩
    have := h.upTo
    show r.base.1 ≤ r.last_executed
    omega
  · exact hfetching

omit [DecidableEq P] in
/-- The state that was fetched is the new start. -/
theorem Good.endFetch (hle : r.last_executed ≤ c) (nv : Bool) :
    ((r.endFetch c nv).moveTo c).Good S := by
  refine
    { h with
      le_lte := le_rfl
      lte_le := Nat.le_succ _
      calm := fun _ => rfl
      upTo := rfl
      state := fun _ => rfl
      lc := ?_
      lc_none := nofun
      mine_le := fun n hn => (h.mine_le n hn).trans hle
      covered := fun n _ hn => Or.inr (Or.inr hn) }
  rintro c' ⟨⟩
  refine ⟨le_rfl, le_rfl, fun _ => ?_, fun n hn _ => hn, Or.inl le_rfl,
    fun n hn => (h.mine_le n hn).trans hle⟩
  show Snapshot.Holds (S.applyAll c r.store.mem (List.take (c - c) [])) r.store.mark
  rw [take_nil]
  exact Snapshot.holds_mark r.store

omit [DecidableEq P] in
/-- After `advance` the replica stands at the state it fetched. -/
theorem Good.advance (hfetch : r.fetching = true) (hle : r.last_executed ≤ c) (nv : Bool) :
    ((r.endFetch c nv).advance c).Good S ∧
      c ≤ ((r.endFetch c nv).advance c).last_executed ∧
      ∀ c', ((r.endFetch c nv).advance c).lc = some c' → c' = c := by
  have hmoved := h.endFetch hle nv
  have hlc : ∀ c', ((r.endFetch c nv).moveTo c).lc = some c' → c' = c :=
    fun c' hc' => (Option.some.inj hc').symm
  unfold Replica.advance
  split
  · dsimp only
    split
    · obtain ⟨r', hr'⟩ : ∃ r', r' = ((r.endFetch c nv).moveTo c).markStable (c - maxOut)
          (((r.endFetch c nv).moveTo c).mine.contains (c - maxOut)) := ⟨_, rfl⟩
      have hmarked : r'.Good S := by
        rw [hr']
        refine hmoved.markStable (fun _ => Nat.sub_le c maxOut) fun c' hc' _ => ?_
        rw [hlc c' hc']
        exact Nat.sub_le c maxOut
      have hlc' : ∀ c', r'.lc = some c' → c' = c := by
        intro c' hc'
        rw [hr'] at hc'
        exact hlc c' ((markStable_frame _ _ _).2.1 c' hc')
      have hle' : c ≤ r'.last_executed := by
        rw [hr']
        exact (markStable_frame ((r.endFetch c nv).moveTo c) _ _).1
      rw [← hr']
      exact ⟨hmarked.addMine hle' fun c' hc' => (hlc' c' hc').ge, hle', hlc'⟩
    · exact ⟨hmoved.addMine le_rfl fun c' hc' => (hlc c' hc').ge, le_rfl, hlc⟩
  · rename_i hnot
    have hc : r.last_executed = c := le_antisymm hle (Nat.not_lt.1 hnot)
    have hlte : r.last_tentative_execute = c := (h.calm (Or.inl hfetch)).trans hc
    have hsame : (r.endFetch c nv).moveTo c = r.endFetch c nv := by
      unfold Replica.moveTo Replica.endFetch Replica.checkpoint
      rw [hc, hlte]
    rw [hsame] at hmoved
    exact ⟨hmoved, hc.ge, hlc⟩

theorem Good.newState (hfetch : r.fetching = true) (hle : r.last_executed ≤ c) (stable : ℕ → List ℕ)
    (nv known : Bool) (more : List ℕ) :
    ((r.endFetch c nv).newState S stable c known more).Good S := by
  obtain ⟨hgood, hc, hlc⟩ := h.advance hfetch hle nv
  refine Good.executeCommitted (Good.markAll ?_ more) stable
  split
  · exact hgood.markStable (fun _ => hc) fun c' hc' _ => (hlc c' hc').ge
  · exact hgood

/-! ### View changes -/

/-- `send_view_change` keeps the invariant, under the condition on what is
rolled back. -/
theorem Good.sendViewChange (hok : ¬ r.AtBoundary) (k : ℕ) :
    (r.sendViewChange k).halted = true ∨ (r.sendViewChange k).Good S := by
  unfold Replica.sendViewChange
  dsimp only
  split
  · rename_i hlt
    rw [rollback_leave]
    rcases h.rollback hok hlt with hhalt | ⟨hgood, hlte⟩
    · exact Or.inl hhalt
    · exact Or.inr { hgood with
        calm := fun _ => hlte
        lc := fun c hc => { hgood.lc c hc with }
        log_stable := fun _ _ => rfl }
  · rename_i hnot
    have hlte : r.last_tentative_execute = r.last_executed :=
      le_antisymm (Nat.not_lt.1 hnot) h.le_lte
    exact Or.inr { h with
      calm := fun _ => hlte
      lc := fun c hc => { h.lc c hc with }
      log_stable := fun _ _ => rfl }

omit [DecidableEq P] in
theorem Good.processNewView (hlimbo : r.has_new_view = false) (min ms : ℕ) :
    (r.processNewView min ms).Good S := by
  obtain ⟨r', hr'⟩ : ∃ r', r' = if ms % checkpointInterval = 0 then
      r.markStable ms (ms ≤ r.last_executed) else r := ⟨_, rfl⟩
  have hmarked : r'.Good S ∧ r'.mode = r.mode := by
    rw [hr']
    split
    · rename_i hmod
      refine ⟨h.markStable of_decide_eq_true fun c hc hle => ?_, (markStable_frame r ms _).2.2⟩
      exact (h.lc c hc).boundary ms (hle.trans h.le_lte) hmod
    · exact ⟨h, rfl⟩
  obtain ⟨hgood, hmode⟩ := hmarked
  have hlte := hgood.calm (Or.inr ((congrArg (·.2.1) hmode).trans hlimbo))
  unfold Replica.processNewView
  rw [← hr']
  dsimp only
  split
  · exact hgood.startFetch hlte
  · exact { hgood with calm := fun _ => hlte, lc := fun c hc => { hgood.lc c hc with } }

/-- **Every event keeps the invariant**, or ends in a failed assertion. -/
theorem Good.handle {e : Event P B} (hok : r.RollbackOk e) :
    (r.handle S e).halted = true ∨ (r.handle S e).Good S := by
  cases e with
  | prepared n b own stable =>
    right
    rw [Replica.handle]
    split
    · rename_i hguard
      exact (h.update hguard.2.1 _).sendCommit stable hguard.2.1 own
    · exact h
  | committed n stable =>
    right
    rw [Replica.handle]
    split
    · rename_i hguard
      exact (h.update hguard.1 _).executeCommitted stable
    · exact h
  | stable ns => exact Or.inr (h.markAll ns)
  | late =>
    obtain ⟨r', hr'⟩ : ∃ r', r' =
        if r.last_executed < r.last_tentative_execute then r.rollback else r := ⟨_, rfl⟩
    have hback : r'.halted = true ∨
        (r'.Good S ∧ r'.last_tentative_execute = r'.last_executed) := by
      rw [hr']
      split
      · exact h.rollback hok (by assumption)
      · rename_i hnot
        exact Or.inr ⟨h, le_antisymm (Nat.not_lt.1 hnot) h.le_lte⟩
    rw [Replica.handle, ← hr']
    split
    · exact Or.inl (by assumption)
    · rename_i hhalt
      obtain ⟨hgood, hlte⟩ := hback.resolve_left hhalt
      exact Or.inr (hgood.startFetch hlte)
  | data p b =>
    right
    rw [Replica.handle]
    split
    · rename_i hfetch
      exact { h with
        state := fun hf => absurd (hf.symm.trans hfetch) Bool.false_ne_true
        lc := fun c hc =>
          { h.lc c hc with held := fun hf => absurd (hf.symm.trans hfetch) Bool.false_ne_true } }
    · exact h
  | fetched c nv known more stable =>
    rw [Replica.handle]
    split
    · rename_i hfetch
      split
      · exact Or.inr (h.newState hfetch hok stable nv known more)
      · exact Or.inl rfl
    · exact Or.inr h
  | viewChange k => exact h.sendViewChange hok.2 k
  | newView min ms =>
    right
    rw [Replica.handle]
    split
    · exact h
    · rename_i hlimbo
      exact h.processNewView (Bool.eq_false_iff.2 hlimbo) min ms

end

/-- **The invariant holds in every state of a run** that meets the
condition, up to a failed assertion. -/
theorem good_exec (S : Service P B) (m : P → B) {es : List (Event P B)}
    (hrun : Guarded (step S) RollbackOk (init m) es) :
    (exec (step S) (init m) es).halted = true ∨ (exec (step S) (init m) es).Good S := by
  refine Guarded.invariant (I := fun r : Replica P B => r.halted = true ∨ r.Good S)
    (fun r e hinv hok => ?_) (Or.inr (good_init m)) hrun
  unfold step
  split
  · exact Or.inl (by assumption)
  · rename_i hhalt
    exact (hinv.resolve_left hhalt).handle hok

/-- **Copy on write is exact**: the pages saved since the last checkpoint give
back the state behind the batches up to it. -/
theorem restore_exec (S : Service P B) (m : P → B) (es : List (Event P B)) {c : ℕ}
    (hrun : Guarded (step S) RollbackOk (init m) es) :
    let r := exec (step S) (init m) es
    r.halted = false → r.fetching = false → r.lc = some c →
      r.store.restore.mem = S.applyAll r.base.1 r.base.2 (r.run.take (c - r.base.1)) := by
  intro r hup hfetch hlc
  have hgood := (good_exec S m hrun).resolve_left (Bool.eq_false_iff.1 hup)
  exact ((hgood.lc c hlc).held hfetch).restore

/-! ## The result -/

theorem fetching_sendViewChange (r : Replica P B) (k : ℕ) :
    (r.sendViewChange k).fetching = r.fetching ∧ (r.sendViewChange k).has_new_view = false := by
  unfold sendViewChange
  dsimp only
  split
  · rw [rollback_leave]
    unfold rollback
    split
    · exact ⟨rfl, rfl⟩
    · split <;> exact ⟨rfl, rfl⟩
  · exact ⟨rfl, rfl⟩

end Replica

/-- A counter with one client: a page for its last request, and one for
the count. -/
def counter : Service Bool ℕ where
  req_id m _ := m true
  exec m _ r := fun p => if p then r.rid else m false + 1
  touched _ _ _ := {false, true}
  frame _ _ _ p hp := by cases p <;> simp at hp

namespace Replica

/-- Batch `n` of the client's requests, committed at once or not. -/
def prepare (own : Bool) (n : ℕ) : Event Bool ℕ :=
  .prepared n [⟨4, n, []⟩] own fun _ => []

theorem restore_exec_two :
    let r := exec (step counter) (init fun _ => 0) [prepare true 1, prepare false 2]
    r.store.restore.mem = counter.applyAll r.base.1 r.base.2 (r.run.take 0) :=
  restore_exec counter (fun _ => 0) _ (by decide +kernel) (by decide +kernel) (by decide +kernel)
    (c := 0) (by decide +kernel)

end Replica

end AbstractBFT.Pbft
