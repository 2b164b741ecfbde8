import AbstractBFT.ZLight.Replica
/-!
# The checkpoint flag of ZLight

`checkpoint_in_progress` is set when a replica takes a checkpoint and
cleared when a set of `2f + 1` checkpoint messages is complete. `Collects`
says what is in the sets. A replica that is behind sees a set completed
before it takes the checkpoint itself; then `handle(zl_Checkpoint)` finds the
own checkpoint too old, and the flag that was just set stays.
-/

namespace AbstractBFT

open Function Machine List

namespace Instance

open Chain (CCheckpoint CheckpointSet)

variable {S H : Type} {N : INode S H} {r : IReplica N} {l l' : List CCheckpoint} {id : ℕ}

/-! ## The sets of checkpoint messages -/

/-- The replicas with a message for `s` among those that were handled. -/
def senders (N : INode S H) (id : ℕ) (l : List CCheckpoint) (s : ℕ) : Finset ℤ :=
  ((l.filter fun c => IReplica.verifyCheckpoint N id c && c.seqid == s).map fun c => c.id).toFinset

variable {s : ℕ} {c : CCheckpoint} {who : Finset ℤ} {cset : CheckpointSet}

theorem mem_senders {i : ℤ} :
    i ∈ senders N id l s ↔
      ∃ c ∈ l, IReplica.verifyCheckpoint N id c = true ∧ c.seqid = s ∧ c.id = i := by
  simp [senders, and_assoc]

theorem senders_congr (h : ∀ c, c ∈ l ↔ c ∈ l') : senders N id l s = senders N id l' s := by
  ext i
  simp only [mem_senders, h]

/-- One more message, for another number or one that does not verify. -/
theorem senders_cons_of_not (h : IReplica.verifyCheckpoint N id c = true → c.seqid ≠ s) :
    senders N id (c :: l) s = senders N id l s := by
  ext i
  simp only [mem_senders, mem_cons]
  constructor
  · rintro ⟨c', rfl | hmem, hver, hs, hi⟩
    · exact absurd hs (h hver)
    · exact ⟨c', hmem, hver, hs, hi⟩
  · rintro ⟨c', hmem, h'⟩
    exact ⟨c', Or.inr hmem, h'⟩

theorem senders_cons (h : IReplica.verifyCheckpoint N id c = true) :
    senders N id (c :: l) c.seqid = insert c.id (senders N id l c.seqid) := by
  ext i
  simp only [mem_senders, mem_cons, Finset.mem_insert]
  constructor
  · rintro ⟨c', rfl | hmem, hver, hs, hi⟩
    · exact Or.inl hi.symm
    · exact Or.inr ⟨c', hmem, hver, hs, hi⟩
  · rintro (rfl | ⟨c', hmem, h'⟩)
    · exact ⟨c, Or.inl rfl, h, rfl, rfl⟩
    · exact ⟨c', Or.inr hmem, h'⟩

/-- The set for `s`, a new one if there is none. -/
def IReplica.checkpointSet (r : IReplica N) (s : ℕ) : CheckpointSet :=
  (r.current_checkpoints s).getD ⟨fun _ => none, 0, s⟩

/-- What a set holds: one message of each sender, and it is not complete. -/
structure Holds (N : INode S H) (who : Finset ℤ) (s : ℕ) (cset : CheckpointSet) : Prop where
  seqid : cset.s = s
  card : cset.n = who.card
  elems : ∀ i, (cset.elems i).isSome ↔ i ∈ who
  incomplete : cset.n < 2 * N.f + 1

/-- **Above the last stable checkpoint the sets hold what was handled.** -/
def Collects (id : ℕ) (l : List CCheckpoint) (r : IReplica N) : Prop :=
  ∀ s, r.last_chkp_seqno < s → Holds N (senders N id l s) s (r.checkpointSet s)

theorem Collects.init (service : S) : Collects id [] (IReplica.init N service) :=
  fun s _ => ⟨rfl, rfl, fun i => by simp [senders, IReplica.checkpointSet, IReplica.init],
    Nat.succ_pos _⟩

theorem Collects.congr (h : Collects id l r) (hmem : ∀ c, c ∈ l ↔ c ∈ l') : Collects id l' r := by
  intro s hs
  rw [← senders_congr hmem]
  exact h s hs

theorem Collects.of_eq {r' : IReplica N} (h : Collects id l r)
    (hsets : r'.current_checkpoints = r.current_checkpoints)
    (hlast : r'.last_chkp_seqno = r.last_chkp_seqno) : Collects id l r' := by
  intro s hs
  unfold IReplica.checkpointSet
  rw [hsets]
  exact h s (hlast ▸ hs)

theorem Holds.add (h : Holds N who s cset) {cset' : CheckpointSet}
    (hadd : cset.add c.id c = some cset') (hopen : cset'.n ≠ 2 * N.f + 1) :
    Holds N (insert c.id who) s cset' := by
  unfold CheckpointSet.add at hadd
  split at hadd
  · cases hadd
  rename_i hnot
  obtain rfl := Option.some.inj hadd
  rw [not_or] at hnot
  have hnew : c.id ∉ who := fun hmem => hnot.1 ((h.elems c.id).2 hmem)
  have hn := h.incomplete
  refine ⟨h.seqid, ?_, fun i => ?_, ?_⟩
  · rw [Finset.card_insert_of_notMem hnew, ← h.card]
  · by_cases hi : i = c.id
    · subst hi
      simp
    · simp [h.elems i, hi]
  · dsimp only at hopen ⊢
    omega

/-- A message is not added: its sender is in the set already. -/
theorem Holds.mem_of_add_eq_none (h : Holds N who s cset) (hs : c.seqid = s)
    (hadd : cset.add c.id c = none) : c.id ∈ who := by
  unfold CheckpointSet.add at hadd
  split at hadd
  · rename_i hor
    rcases hor with hsome | hne
    · exact (h.elems c.id).1 hsome
    · exact absurd (hs.trans h.seqid.symm) hne
  · cases hadd

theorem Collects.handleCheckpoint (h : Collects id l r) (c : CCheckpoint) :
    Collects id (c :: l) (r.handleCheckpoint id c) := by
  unfold IReplica.handleCheckpoint
  split
  · rename_i hver
    intro s hs
    rw [senders_cons_of_not fun hc => by simp [hc] at hver]
    exact h s hs
  rename_i hver
  have hver : IReplica.verifyCheckpoint N id c = true := by simpa using hver
  split
  · rename_i hold
    intro s hs
    rw [senders_cons_of_not fun _ => by omega]
    exact h s hs
  rename_i hnew
  have hset := h c.seqid (Nat.lt_of_not_le hnew)
  have hother : ∀ (sets : Option CheckpointSet) s, r.last_chkp_seqno < s → s ≠ c.seqid →
      Holds N (senders N id (c :: l) s) s
        (((update r.current_checkpoints c.seqid sets) s).getD ⟨fun _ => none, 0, s⟩) := by
    intro sets s hs hne
    rw [update_of_ne hne, senders_cons_of_not fun _ => Ne.symm hne]
    exact h s hs
  dsimp only
  split
  · rename_i hadd
    intro s hs
    by_cases hne : s = c.seqid
    · subst hne
      unfold IReplica.checkpointSet
      dsimp only
      rw [update_self, senders_cons hver,
        Finset.insert_eq_of_mem (hset.mem_of_add_eq_none rfl hadd)]
      exact hset
    · exact hother _ s hs hne
  · rename_i cset hadd
    split
    · -- the checkpoint is stable, and the sets above it are as they were
      intro s hs
      have hlt : c.seqid < s := hs
      exact hother _ s (by omega) (by omega)
    · rename_i hopen
      intro s hs
      by_cases hne : s = c.seqid
      · subst hne
        unfold IReplica.checkpointSet
        dsimp only
        rw [update_self, senders_cons hver]
        exact hset.add hadd hopen
      · exact hother _ s hs hne

/-- A message clears the flag, or leaves it and the last stable checkpoint
as they are. -/
theorem IReplica.handleCheckpoint_flag (r : IReplica N) (id : ℕ) (c : CCheckpoint) :
    (r.handleCheckpoint id c).checkpoint_in_progress = false ∨
      (r.handleCheckpoint id c).checkpoint_in_progress = r.checkpoint_in_progress ∧
      (r.handleCheckpoint id c).last_chkp_seqno = r.last_chkp_seqno := by
  unfold handleCheckpoint
  split
  · exact Or.inr ⟨rfl, rfl⟩
  split
  · exact Or.inr ⟨rfl, rfl⟩
  dsimp only
  split
  · exact Or.inr ⟨rfl, rfl⟩
  split
  · exact Or.inl rfl
  · exact Or.inr ⟨rfl, rfl⟩

/-- The first message for its number makes nothing stable. -/
theorem IReplica.handleCheckpoint_first (r : IReplica N) (id : ℕ) (c : CCheckpoint) (hf : 0 < N.f)
    (hfirst : r.last_chkp_seqno < c.seqid → r.current_checkpoints c.seqid = none) :
    (r.handleCheckpoint id c).checkpoint_in_progress = r.checkpoint_in_progress ∧
      (r.handleCheckpoint id c).last_chkp_seqno = r.last_chkp_seqno := by
  unfold handleCheckpoint
  split
  · exact ⟨rfl, rfl⟩
  split
  · exact ⟨rfl, rfl⟩
  rename_i hnew
  rw [hfirst (Nat.lt_of_not_le hnew)]
  simp [CheckpointSet.add, hf.ne']

end Instance

namespace ZLight

open Instance
open Chain (CCheckpoint)

namespace ZReplica

variable {S : Type} {N : ZNode S} {r r' : ZReplica N} {id : ℕ} {m : Request}

/-! ## What a step does to the flag -/

/-- What the flag depends on. -/
def flagPart (r : ZReplica N) :=
  (r.core.checkpoint_in_progress, r.core.current_checkpoints, r.core.last_chkp_seqno,
    r.checkpoints)

/-- The replica when it has executed `m`, before it looks whether a
checkpoint is due. -/
def afterExecution (r : ZReplica N) (id : ℕ) (m : Request) : ZReplica N :=
  let log := r.core.rh.addRequest N.md5 (fun q => q.rep.od) m r.core.seqno
  let core := sendResult { r.core.execute m r.core.seqno log.2 with rh := log.1 } id m
  { r with core := core, last_seqno := core.seqno }

theorem executeRequest_eq (id : ℕ) (hnew : (r.core.replies m.rep.cid).rep.rid < m.rep.rid) :
    r.executeRequest id m =
      (if (r.afterExecution id m).core.rh.shouldCheckpoint then
        (r.afterExecution id m).takeCheckpoint id else r.afterExecution id m, true) := by
  unfold executeRequest
  rw [if_neg (by omega), if_neg (by omega)]
  rfl

variable (r id m)

/-- The reply is there to be sent, so that nothing fails. -/
theorem afterExecution_eq :
    let log := r.core.rh.addRequest N.md5 (fun q => q.rep.od) m r.core.seqno
    ∃ sent, r.afterExecution id m =
      { r with
        core := { r.core.execute m r.core.seqno log.2 with rh := log.1, sent := sent }
        last_seqno := r.core.seqno } := by
  intro log
  unfold afterExecution sendResult IReplica.sendReply
  dsimp only
  split
  · split
    · rename_i hfail
      simp only [IReplica.execute, update_self] at hfail
      omega
    · exact ⟨_, rfl⟩
  · exact ⟨_, rfl⟩

theorem flagPart_afterExecution : (r.afterExecution id m).flagPart = r.flagPart := by
  obtain ⟨sent, hafter⟩ := r.afterExecution_eq id m
  rw [hafter]
  rfl

theorem rh_afterExecution :
    (r.afterExecution id m).core.rh =
      (r.core.rh.addRequest N.md5 (fun q => q.rep.od) m r.core.seqno).1 := by
  obtain ⟨sent, hafter⟩ := r.afterExecution_eq id m
  rw [hafter]

/-- The number of the checkpoint is that of the request just executed. -/
theorem getTopSeqno_afterExecution :
    (r.afterExecution id m).core.rh.getTopSeqno = r.core.seqno := by
  rw [rh_afterExecution]
  simp [ReqHistoryLog.getTopSeqno, ReqHistoryLog.addRequest]

/-- The next request fills the history to a multiple of `TRUNCATE_SIZE`. -/
def due : Bool := (r.core.rh.rh.length + 1) % ReqHistoryLog.truncateSize == 0

theorem shouldCheckpoint_afterExecution :
    (r.afterExecution id m).core.rh.shouldCheckpoint = r.due := by
  rw [rh_afterExecution]
  simp [ReqHistoryLog.shouldCheckpoint, ReqHistoryLog.addRequest, due]

theorem flagPart_sendReply (cid : ℤ) :
    ({ r with core := r.core.sendReply id cid } : ZReplica N).flagPart = r.flagPart := by
  unfold IReplica.sendReply
  dsimp only
  split <;> rfl

theorem flagPart_notify (cid : ℤ) (rid : ℕ) :
    ({ r with core := r.core.notify id cid rid } : ZReplica N).flagPart = r.flagPart := by
  unfold IReplica.notify
  split <;> rfl

/-- The number the event gives to a request that is new for its client, if
it brings one. -/
def nextSeqno : Event → Option ℕ
  | .request m =>
    if id = 0 ∧ (r.core.replies m.rep.cid).rep.rid < m.rep.rid then some (r.core.seqno + 1)
    else none
  | .order o =>
    if (r.core.replies o.stored_request.rep.cid).rep.rid < o.stored_request.rep.rid then
      some (r.last_seqno + 1)
    else none
  | _ => none

variable {r id m}

/-- What a step comes down to for the flag. -/
inductive FlagMove (id : ℕ) (r : ZReplica N) (e : Event) (r' : ZReplica N) : Prop where
  | kept (hpart : r'.flagPart = r.flagPart)
      (hmessage : ∀ c, e = .checkpoint c → r.core.down = true)
  | message (c : CCheckpoint) (he : e = .checkpoint c) (hup : r.core.down = false)
      (heq : r' = { r with core := r.core.handleCheckpoint id c })
  | own (taken : ZReplica N) (hpart : taken.flagPart = r.flagPart)
      (hnext : r.nextSeqno id e = some taken.core.rh.getTopSeqno) (hdue : r.due = true)
      (heq : r'.flagPart = (taken.takeCheckpoint id).flagPart)

/-- A request is executed under the number `r.core.seqno`. -/
theorem flagMove_execute {e : Event} (r₀ : ZReplica N) (hpart : r.flagPart = r₀.flagPart)
    (hrh : r.core.rh = r₀.core.rh) (hmessage : ∀ c, e ≠ .checkpoint c)
    (hnew : (r.core.replies m.rep.cid).rep.rid < m.rep.rid)
    (hnext : r₀.nextSeqno id e = some r.core.seqno)
    (hflag : r'.flagPart = (r.executeRequest id m).1.flagPart) : FlagMove id r₀ e r' := by
  have hafter := (r.flagPart_afterExecution id m).trans hpart
  rw [executeRequest_eq id hnew] at hflag
  by_cases hdue : r.due = true
  · rw [shouldCheckpoint_afterExecution, if_pos hdue] at hflag
    refine .own (r.afterExecution id m) hafter ?_ ?_ hflag
    · rw [getTopSeqno_afterExecution]
      exact hnext
    · unfold due at hdue ⊢
      rw [← hrh]
      exact hdue
  · rw [shouldCheckpoint_afterExecution, if_neg hdue] at hflag
    exact .kept (hflag.trans hafter) fun c hc => absurd hc (hmessage c)

theorem flagPart_executeRequest_again (h : (r.core.replies m.rep.cid).rep.rid = m.rep.rid) :
    (r.executeRequest id m).1.flagPart = r.flagPart := by
  rw [executeRequest_again h]
  exact flagPart_sendReply ..

/-- A request that passes the gate leaves everything but a counter. -/
theorem canHandle_eq {core : IReplica N.toINode} (h : r.core.canHandle = some core) :
    ∃ nb, core = { r.core with current_nb_requests_while_checkpointing := nb } := by
  unfold IReplica.canHandle at h
  split at h
  · split at h
    · exact ⟨_, (Option.some.inj h).symm⟩
    · cases h
  · exact ⟨_, (Option.some.inj h).symm⟩

/-- The primary, on a request that is not older than its client's last. -/
theorem flagMove_orderNext (r₀ : ZReplica N) (hpart : r.flagPart = r₀.flagPart)
    (hrh : r.core.rh = r₀.core.rh) (hreplies : r.core.replies = r₀.core.replies)
    (hseqno : r.core.seqno = r₀.core.seqno) (hle : (r.core.replies m.rep.cid).rep.rid ≤ m.rep.rid) :
    FlagMove 0 r₀ (.request m) (r.orderNext 0 m) := by
  rcases Nat.lt_or_eq_of_le hle with hlt | heq
  swap
  · rw [orderNext_again heq]
    exact .kept ((flagPart_sendReply ..).trans hpart) nofun
  have hnext : r₀.nextSeqno 0 (.request m) = some (r.setSeqno (r.core.seqno + 1)).core.seqno := by
    unfold nextSeqno
    dsimp only
    rw [← hreplies, ← hseqno, if_pos ⟨rfl, hlt⟩]
    rfl
  have hflag : (r.orderNext 0 m).flagPart =
      ((r.setSeqno (r.core.seqno + 1)).executeRequest 0 m).1.flagPart := by
    unfold orderNext
    rw [if_neg hlt.ne]
    dsimp only
    split <;> rfl
  have hcount : (r.setSeqno (r.core.seqno + 1)).flagPart = r₀.flagPart := hpart
  exact flagMove_execute r₀ hcount hrh nofun hlt hnext hflag

theorem flagMove_handleRequest (r : ZReplica N) (id : ℕ) (m : Request) :
    FlagMove id r (.request m) (r.handleRequest id m) := by
  have hkept : ∀ r' : ZReplica N, r'.flagPart = r.flagPart → FlagMove id r (.request m) r' :=
    fun r' h => .kept h nofun
  unfold handleRequest
  split
  · exact hkept _ (flagPart_notify ..)
  swap
  · exact hkept _ rfl
  split
  · exact hkept _ rfl
  split
  · exact hkept _ rfl
  split
  · exact hkept _ rfl
  rename_i core hgate
  obtain ⟨nb, rfl⟩ := canHandle_eq hgate
  dsimp only
  split
  · rename_i hid
    subst hid
    split
    · rename_i hle
      exact flagMove_orderNext r rfl rfl rfl rfl hle
    · exact hkept _ rfl
  · split
    · rename_i hrid
      exact hkept _ (flagPart_executeRequest_again hrid)
    · exact hkept _ rfl

theorem flagMove_handleOrderRequest (r : ZReplica N) (id : ℕ) (o : OrderRequest) :
    FlagMove id r (.order o) (r.handleOrderRequest id o) := by
  have hkept : ∀ r' : ZReplica N, r'.flagPart = r.flagPart → FlagMove id r (.order o) r' :=
    fun r' h => .kept h nofun
  by_cases htakes : Takes id r o
  swap
  · rcases handleOrderRequest_of_not_takes htakes with heq | heq | heq <;> rw [heq]
    · exact hkept _ rfl
    · exact hkept _ rfl
    · exact hkept _ (flagPart_sendReply (r.setSeqno (r.last_seqno + 1)) ..)
  have hnext : r.nextSeqno id (.order o) = some (r.setSeqno (r.last_seqno + 1)).core.seqno := by
    unfold nextSeqno
    dsimp only
    rw [if_pos htakes.new]
    rfl
  have heq : r.handleOrderRequest id o =
      ((r.setSeqno (r.last_seqno + 1)).executeRequest id o.stored_request).1 := by
    unfold handleOrderRequest
    rw [htakes.verified, htakes.request, if_neg (by decide), if_pos htakes.header,
      if_neg (by simp [htakes.next]), if_neg (by decide)]
  have hcount : (r.setSeqno (r.last_seqno + 1)).flagPart = r.flagPart := rfl
  rw [heq]
  exact flagMove_execute r hcount rfl nofun htakes.new hnext rfl

/-- **Every step of an activation, sorted by what it does to the flag.** -/
theorem step_flag (r : ZReplica N) (id : ℕ) {e : Event} (he : ∀ state, e ≠ .enable state) :
    FlagMove id r e (r.step id e) := by
  unfold step
  split
  · rename_i hdown
    exact .kept rfl fun _ _ => hdown
  rename_i hup
  cases e with
  | request m => exact flagMove_handleRequest r id m
  | order o => exact flagMove_handleOrderRequest r id o
  | checkpoint c => exact .message c rfl (by simpa using hup) rfl
  | enable state => exact absurd rfl (he state)
  | other => exact .kept rfl nofun

/-- **The replica is not behind**: when a checkpoint is due, none for its
number or a later one is stable yet. -/
def NotBehind (id : ℕ) (r : ZReplica N) (e : Event) : Prop :=
  r.due = true → ∀ seqno ∈ r.nextSeqno id e, r.core.last_chkp_seqno < seqno
  deriving Decidable

end ZReplica

/-! ## Runs -/

variable {S : Type} {N : ZNode S} {id : ℕ}

/-- A replica, and the checkpoint messages it has received. -/
structure Watched (N : ZNode S) where
  replica : ZReplica N
  received : List CCheckpoint

namespace Watched

def init (N : ZNode S) (service : S) (last_seqno : ℕ) : Watched N :=
  ⟨.init N service last_seqno, []⟩

/-- One event at replica `id`. A process that is gone receives nothing. -/
def step (id : ℕ) (w : Watched N) (e : ZReplica.Event) : Watched N where
  replica := w.replica.step id e
  received :=
    match w.replica.core.down, e with
    | false, .checkpoint c => w.received ++ [c]
    | _, _ => w.received

/-- The replicas whose checkpoint matches `c`, the replica's own: itself,
and those it has received one from. -/
def matching (id : ℕ) (w : Watched N) (c : CCheckpoint) : Finset ℤ :=
  insert (id : ℤ) ((w.received.filter fun c' =>
    IReplica.verifyCheckpoint N.toINode id c' && c'.seqid == c.seqid && c'.digest == c.digest).map
      fun c' => c'.id).toFinset

/-- **The flag says that a checkpoint is in progress**: one of the replica's
own is above the last stable one, and as long as the flag is set none of
those has matching messages of `2f + 1` replicas. -/
def FlagOk (id : ℕ) (w : Watched N) : Prop :=
  w.replica.core.checkpoint_in_progress = true →
    (∃ c ∈ w.replica.checkpoints, w.replica.core.last_chkp_seqno < c.seqid) ∧
    ∀ c ∈ w.replica.checkpoints, w.replica.core.last_chkp_seqno < c.seqid →
      (w.matching id c).card < 2 * N.f + 1

/-- What every step keeps. -/
structure FlagInv (id : ℕ) (w : Watched N) : Prop where
  own : ∀ c ∈ w.replica.checkpoints, c.id = id
  collects : Collects id (w.received ++ w.replica.checkpoints) w.replica.core
  pending : w.replica.core.checkpoint_in_progress = true →
    ∃ c ∈ w.replica.checkpoints, w.replica.core.last_chkp_seqno < c.seqid

variable {w : Watched N}

theorem received_step_of_not {e : ZReplica.Event}
    (h : ∀ c, e = .checkpoint c → w.replica.core.down = true) :
    (w.step id e).received = w.received := by
  unfold step
  split
  · rename_i c hdown
    exact absurd (h c rfl) (by simp [hdown])
  · rfl

theorem received_step_of_checkpoint (id : ℕ) {c : CCheckpoint} (hup : w.replica.core.down = false) :
    (w.step id (.checkpoint c)).received = w.received ++ [c] := by
  unfold step
  rw [hup]

theorem FlagInv.init (N : ZNode S) (service : S) (last_seqno : ℕ) :
    FlagInv id (Watched.init N service last_seqno) where
  own := nofun
  collects := Collects.init service
  pending := nofun

namespace FlagInv

variable (h : FlagInv id w)

include h

/-- The set of a checkpoint in progress has a place for each matching
message, and is not complete. -/
theorem flagOk (hid : id < N.n) : FlagOk id w := by
  intro hflag
  refine ⟨h.pending hflag, fun c hc hlt => ?_⟩
  have hset := h.collects c.seqid hlt
  have hver : IReplica.verifyCheckpoint N.toINode id c = true := by
    have hn : (id : ℤ) < N.n := by exact_mod_cast hid
    simp [IReplica.verifyCheckpoint, INode.isReplica, h.own c hc, hn]
  have hsub : w.matching id c ⊆
      senders N.toINode id (w.received ++ w.replica.checkpoints) c.seqid := by
    intro i hi
    rw [mem_senders]
    rcases Finset.mem_insert.1 hi with rfl | hrec
    · exact ⟨c, mem_append_right _ hc, hver, rfl, h.own c hc⟩
    · simp only [mem_toFinset, mem_map, mem_filter, Bool.and_eq_true,
        beq_iff_eq] at hrec
      obtain ⟨c', ⟨hmem, ⟨hver', hseq⟩, -⟩, rfl⟩ := hrec
      exact ⟨c', mem_append_left _ hmem, hver', hseq, rfl⟩
  calc (w.matching id c).card ≤ _ := Finset.card_le_card hsub
    _ = _ := hset.card.symm
    _ < 2 * N.f + 1 := hset.incomplete

theorem of_part {w' : Watched N} (hpart : w'.replica.flagPart = w.replica.flagPart)
    (hreceived : w'.received = w.received) : FlagInv id w' := by
  simp only [ZReplica.flagPart, Prod.mk.injEq] at hpart
  obtain ⟨hflag, hsets, hlast, hown⟩ := hpart
  refine ⟨fun c hc => h.own c (hown ▸ hc), ?_, fun hset => ?_⟩
  · rw [hreceived, hown]
    exact h.collects.of_eq hsets hlast
  · rw [hown, hlast]
    exact h.pending (hflag.symm.trans hset)

theorem message (c : CCheckpoint) :
    FlagInv id ⟨{ w.replica with core := w.replica.core.handleCheckpoint id c },
      w.received ++ [c]⟩ := by
  refine ⟨h.own, (h.collects.handleCheckpoint c).congr fun c' => ?_, fun hset => ?_⟩
  · simp only [mem_cons, mem_append, not_mem_nil, or_false]
    tauto
  · rcases w.replica.core.handleCheckpoint_flag id c with hclear | ⟨hflag, hlast⟩
    · rw [show _ = false from hclear] at hset
      cases hset
    · obtain ⟨c', hc', hlt⟩ := h.pending (hflag.symm.trans hset)
      exact ⟨c', hc', hlast ▸ hlt⟩

/-- The replica takes a checkpoint above the last stable one. -/
theorem takeCheckpoint (hlt : w.replica.core.last_chkp_seqno < w.replica.core.rh.getTopSeqno) :
    FlagInv id ⟨w.replica.takeCheckpoint id, w.received⟩ := by
  have hstart : Collects id (w.received ++ w.replica.checkpoints)
      { w.replica.core with checkpoint_in_progress := true } := h.collects.of_eq rfl rfl
  unfold ZReplica.takeCheckpoint
  dsimp only
  generalize hchkp : (⟨id, w.replica.core.rh.getTopSeqno, w.replica.core.rh.rhDigest N.md5, _⟩ :
    CCheckpoint) = chkp
  refine ⟨fun c hc => ?_, (hstart.handleCheckpoint chkp).congr fun c' => ?_, fun hset => ?_⟩
  · rcases mem_concat_iff.1 hc with hold | rfl
    · exact h.own c hold
    · rw [← hchkp]
  · simp only [mem_cons, mem_append, not_mem_nil, or_false]
    tauto
  · refine ⟨chkp, mem_append_right _ (mem_singleton_self _), ?_⟩
    rcases ({ w.replica.core with checkpoint_in_progress := true } :
      IReplica N.toINode).handleCheckpoint_flag id chkp with hclear | ⟨-, hlast⟩
    · rw [show _ = false from hclear] at hset
      cases hset
    · rw [show _ = w.replica.core.last_chkp_seqno from hlast, ← hchkp]
      exact hlt

/-- **One step keeps it**, unless a replica that is behind takes a
checkpoint. -/
theorem step {e : ZReplica.Event} (he : ∀ state, e ≠ .enable state)
    (hok : w.replica.NotBehind id e) : FlagInv id (w.step id e) := by
  rcases w.replica.step_flag id he with
    ⟨hpart, hmessage⟩ | ⟨c, rfl, hup, heq⟩ | ⟨taken, hpart, hnext, hdue, heq⟩
  · exact h.of_part hpart (received_step_of_not hmessage)
  · have hw : w.step id (.checkpoint c) =
        ⟨{ w.replica with core := w.replica.core.handleCheckpoint id c }, w.received ++ [c]⟩ := by
      rw [← heq, ← received_step_of_checkpoint id hup]
      rfl
    rw [hw]
    exact h.message c
  · have hreceived : (w.step id e).received = w.received := by
      refine received_step_of_not fun c hc => ?_
      rw [hc] at hnext
      cases hnext
    have htaken : FlagInv id ⟨taken, w.received⟩ := h.of_part hpart rfl
    have hlast : taken.core.last_chkp_seqno = w.replica.core.last_chkp_seqno := by
      simp only [ZReplica.flagPart, Prod.mk.injEq] at hpart
      exact hpart.2.2.1
    have hlt : taken.core.last_chkp_seqno < taken.core.rh.getTopSeqno := by
      rw [hlast]
      exact hok hdue _ hnext
    exact (htaken.takeCheckpoint hlt).of_part heq hreceived

end FlagInv

/-- **The flag is right** in every run of an activation in which the
replica is not behind when it takes a checkpoint. -/
theorem checkpoint_flag (N : ZNode S) (id : ℕ) (hid : id < N.n) (service : S) (last_seqno : ℕ)
    (es : List ZReplica.Event) (hes : ∀ e ∈ es, ∀ state, e ≠ .enable state)
    (h : Guarded (step id) (fun w e => w.replica.NotBehind id e)
      (init N service last_seqno) es) :
    FlagOk id (exec (step id) (init N service last_seqno) es) := by
  have hboth := (Guarded.of_forall_mem hes (init N service last_seqno)).and h
  have hinv := hboth.invariant (I := FlagInv id) (fun _ _ hw hok => hw.step hok.1 hok.2)
    (.init N service last_seqno)
  exact hinv.flagOk hid

end Watched

section Sample

/-- The primary has executed `k` requests of client 4 since it started, and
`stable` is its last stable checkpoint. -/
structure Executed (stable k : ℕ) (r : ZReplica sampleNode) : Prop where
  normal : r.core.cur_state = .normal
  up : r.core.down = false
  idle : r.core.checkpoint_in_progress = false
  last : r.core.last_chkp_seqno = stable
  sets : ∀ s, stable < s → r.core.current_checkpoints s = none
  none_own : r.checkpoints = []
  seqno : r.core.seqno = k
  length : r.core.rh.rh.length = k
  top : r.core.rh.getTopSeqno = k
  rid : (r.core.replies 4).rep.rid = k

namespace Executed

variable {stable k : ℕ} {r : ZReplica sampleNode} (h : Executed stable k r)

include h

theorem step_eq :
    r.step 0 (.request (sampleRequest 4 (k + 1))) = r.orderNext 0 (sampleRequest 4 (k + 1)) := by
  have hgate : r.core.canHandle = some r.core := by
    unfold IReplica.canHandle
    rw [h.idle]
    rfl
  have hverify : verifyRequest sampleNode 0 (sampleRequest 4 (k + 1)) = true := rfl
  have hle : (r.core.replies (sampleRequest 4 (k + 1)).rep.cid).rep.rid ≤ k + 1 := by
    show (r.core.replies 4).rep.rid ≤ k + 1
    rw [h.rid]
    omega
  unfold ZReplica.step ZReplica.handleRequest
  rw [h.up, h.normal]
  dsimp only
  rw [hverify, hgate]
  exact if_pos hle

/-- What there is before it is seen whether a checkpoint is due. -/
theorem afterExecution :
    Executed stable (k + 1)
      ((r.setSeqno (k + 1)).afterExecution 0 (sampleRequest 4 (k + 1))) := by
  obtain ⟨sent, hafter⟩ := (r.setSeqno (k + 1)).afterExecution_eq 0 (sampleRequest 4 (k + 1))
  have htop := (r.setSeqno (k + 1)).getTopSeqno_afterExecution 0 (sampleRequest 4 (k + 1))
  rw [hafter] at htop ⊢
  refine ⟨h.normal, h.up, h.idle, h.last, h.sets, h.none_own, rfl, ?_, htop, rfl⟩
  simp [ReqHistoryLog.addRequest, ZReplica.setSeqno, h.length]

/-- The next request is executed, and if a checkpoint is due it is taken. -/
theorem step_core :
    let after := (r.setSeqno (k + 1)).afterExecution 0 (sampleRequest 4 (k + 1))
    let next := if k + 1 = 1024 then after.takeCheckpoint 0 else after
    k + 1 ≤ 1024 →
      (r.step 0 (.request (sampleRequest 4 (k + 1)))).core = next.core ∧
      (r.step 0 (.request (sampleRequest 4 (k + 1)))).checkpoints = next.checkpoints := by
  intro after next hk
  have hnew : ((r.setSeqno (k + 1)).core.replies (sampleRequest 4 (k + 1)).rep.cid).rep.rid <
      (sampleRequest 4 (k + 1)).rep.rid := by
    show (r.core.replies 4).rep.rid < k + 1
    rw [h.rid]
    exact Nat.lt_succ_self k
  have hne : ¬ (r.core.replies (sampleRequest 4 (k + 1)).rep.cid).rep.rid =
      (sampleRequest 4 (k + 1)).rep.rid := hnew.ne
  have hdue : (r.setSeqno (k + 1)).due = decide (k + 1 = 1024) := by
    show ((r.core.rh.rh.length + 1) % 1024 == 0) = _
    rw [h.length, Bool.eq_iff_iff]
    simp only [beq_iff_eq, decide_eq_true_eq]
    omega
  have hexec : ((r.setSeqno (k + 1)).executeRequest 0 (sampleRequest 4 (k + 1))) =
      (next, true) := by
    rw [ZReplica.executeRequest_eq 0 hnew, ZReplica.shouldCheckpoint_afterExecution, hdue]
    simp only [decide_eq_true_eq]
    rfl
  rw [h.step_eq]
  unfold ZReplica.orderNext
  rw [if_neg hne, h.seqno]
  dsimp only
  rw [hexec]
  exact ⟨rfl, rfl⟩

/-- **One more request**, as long as no checkpoint is due. -/
theorem step (hk : k + 1 < 1024) :
    Executed stable (k + 1) (r.step 0 (.request (sampleRequest 4 (k + 1)))) := by
  obtain ⟨hcore, hown⟩ := h.step_core hk.le
  rw [if_neg hk.ne] at hcore hown
  have hafter := h.afterExecution
  exact ⟨hcore ▸ hafter.normal, hcore ▸ hafter.up, hcore ▸ hafter.idle, hcore ▸ hafter.last,
    hcore ▸ hafter.sets, hown.trans hafter.none_own, hcore ▸ hafter.seqno, hcore ▸ hafter.length,
    hcore ▸ hafter.top, hcore ▸ hafter.rid⟩

/-- **The request that makes a checkpoint due**: the flag is set and stays
set, whether or not the checkpoint is stable already. -/
theorem step_due (hk : k + 1 = 1024) :
    let r' := r.step 0 (.request (sampleRequest 4 (k + 1)))
    r'.core.checkpoint_in_progress = true ∧ r'.core.last_chkp_seqno = stable ∧
      r'.checkpoints.map (fun c => c.seqid) = [1024] := by
  intro r'
  obtain ⟨hcore, hown⟩ := h.step_core hk.le
  rw [if_pos hk] at hcore hown
  have hafter := h.afterExecution
  generalize (r.setSeqno (k + 1)).afterExecution 0 (sampleRequest 4 (k + 1)) = after
    at hcore hown hafter
  unfold ZReplica.takeCheckpoint at hcore hown
  rw [hafter.none_own] at hown
  have hfirst := ({ after.core with checkpoint_in_progress := true } :
    IReplica sampleNode.toINode).handleCheckpoint_first 0
      ⟨0, after.core.rh.getTopSeqno, after.core.rh.rhDigest sampleNode.md5,
        sampleNode.gen_signature 0 (.checkpoint 0 after.core.rh.getTopSeqno
          (after.core.rh.rhDigest sampleNode.md5))⟩ Nat.one_pos
      fun hlt => hafter.sets _ (hafter.last ▸ hlt)
  refine ⟨?_, ?_, ?_⟩
  · exact (congrArg IReplica.checkpoint_in_progress hcore).trans hfirst.1
  · exact (congrArg IReplica.last_chkp_seqno hcore).trans (hfirst.2.trans hafter.last)
  · rw [show r'.checkpoints = _ from hown]
    simp [hafter.top, hk]

end Executed

/-- The first `k` requests of client 4. -/
def requests (k : ℕ) : List ZReplica.Event :=
  (List.range k).map fun i => .request (sampleRequest 4 (i + 1))

theorem requests_succ (k : ℕ) :
    requests (k + 1) = requests k ++ [.request (sampleRequest 4 (k + 1))] := by
  unfold requests
  rw [range_succ, map_append]
  rfl

namespace Executed

variable {stable k : ℕ} {w : Watched sampleNode}

theorem exec_requests (h : Executed stable 0 w.replica) (hk : k < 1024) :
    Executed stable k (exec (Watched.step 0) w (requests k)).replica := by
  induction k with
  | zero => exact h
  | succ k ih =>
    rw [requests_succ, exec_append]
    exact (ih (by omega)).step hk

/-- **The history is filled**, and the own checkpoint taken. -/
theorem exec_full (h : Executed stable 0 w.replica) (hk : k = 1024) :
    let r := (exec (Watched.step 0) w (requests k)).replica
    r.core.checkpoint_in_progress = true ∧ r.core.last_chkp_seqno = stable ∧
      r.checkpoints.map (fun c => c.seqid) = [1024] := by
  obtain ⟨j, rfl⟩ : ∃ j, k = j + 1 := ⟨k - 1, by omega⟩
  rw [requests_succ, exec_append]
  exact (h.exec_requests (by omega)).step_due hk

theorem notBehind (h : Executed 0 k w.replica) :
    w.replica.NotBehind 0 (.request (sampleRequest 4 (k + 1))) := by
  intro _ seqno hnext
  unfold ZReplica.nextSeqno at hnext
  dsimp only at hnext
  rw [h.last]
  split at hnext
  · rw [← Option.some.inj hnext]
    exact Nat.succ_pos _
  · cases hnext

theorem guarded_requests (h : Executed 0 0 w.replica) (hk : k ≤ 1024) :
    Guarded (Watched.step 0) (fun w e => w.replica.NotBehind 0 e) w (requests k) := by
  induction k with
  | zero => trivial
  | succ k ih =>
    rw [requests_succ]
    exact guarded_append.2
      ⟨ih (by omega), (h.exec_requests (by omega)).notBehind, trivial⟩

end Executed

theorem checkpoint_flag_primary :
    let w := exec (Watched.step 0) (Watched.init sampleNode 0 0) (requests 1024)
    w.replica.core.checkpoint_in_progress = true ∧ Watched.FlagOk 0 w := by
  have h : Executed 0 0 (Watched.init sampleNode 0 0).replica :=
    ⟨rfl, rfl, rfl, rfl, fun _ _ => rfl, rfl, rfl, rfl, rfl, rfl⟩
  obtain ⟨k, hk⟩ : ∃ k, k = 1024 := ⟨_, rfl⟩
  rw [← hk]
  refine ⟨(h.exec_full hk).1, Watched.checkpoint_flag sampleNode 0 (by decide) 0 0 _ ?_
    (h.guarded_requests hk.le)⟩
  intro e he state
  obtain ⟨i, -, rfl⟩ := mem_map.1 he
  exact nofun

/-- The checkpoint messages of the others for this number. -/
def remoteCheckpoints (seq : ℕ) : List ZReplica.Event :=
  [1, 2, 3].map fun i => .checkpoint ⟨i, seq, 0, []⟩

/-- **The flag stays set.** The others reach the checkpoint before the
primary does, and it gets stable; then the primary takes it too, and nothing
is in progress. -/
theorem checkpoint_flag_stuck :
    let w := exec (Watched.step 0) (Watched.init sampleNode 0 0)
      (remoteCheckpoints 1024 ++ requests 1024)
    w.replica.core.checkpoint_in_progress = true ∧ w.replica.core.last_chkp_seqno = 1024 ∧
      w.replica.checkpoints.map (fun c => c.seqid) = [1024] ∧ ¬ Watched.FlagOk 0 w := by
  have h : Executed 1024 0 (exec (Watched.step 0) (Watched.init sampleNode 0 0)
      (remoteCheckpoints 1024)).replica := by
    refine ⟨rfl, rfl, rfl, rfl, fun s hs => ?_, rfl, rfl, rfl, rfl, rfl⟩
    exact (update_of_ne hs.ne' _ _).trans
      ((update_of_ne hs.ne' _ _).trans (update_of_ne hs.ne' _ _))
  obtain ⟨k, hk⟩ : ∃ k, k = 1024 := ⟨_, rfl⟩
  rw [exec_append]
  generalize exec (Watched.step 0) (Watched.init sampleNode 0 0) (remoteCheckpoints 1024) =
    w at h
  rw [← hk]
  obtain ⟨hflag, hlast, hown⟩ := h.exec_full hk
  refine ⟨hflag, hlast.trans hk.symm, hown.trans (by rw [hk]), fun hok => ?_⟩
  obtain ⟨⟨c, hc, hlt⟩, -⟩ := hok hflag
  have hmem : c.seqid ∈ [1024] := hown ▸ mem_map_of_mem hc
  rw [hlast, mem_singleton.1 hmem] at hlt
  exact absurd hlt (lt_irrefl _)

end Sample

end ZLight

end AbstractBFT
