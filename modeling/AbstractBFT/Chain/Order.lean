import AbstractBFT.Chain.AbortHistory
import AbstractBFT.Chain.Client
/-!
# Chain — what a replica executes and vouches for

A replica executes a request only with the MAC of every replica within
`f+1` hops before it over the request's header, sequence number
included (`CRequest.verify_sound`), and it makes MACs only over what it
executed (`ExecInv.step`).

The results are about moves that meet `OrderOk`: no request names a
replica as its client, a request that is taken for a repetition is one,
and a panic finds the request thread without a request.
-/

namespace AbstractBFT.Chain

open List Option

/-! ## What `verify` has seen -/

/-- Every cell of `m'` is one of `m`. -/
def CellsOf (m' m : Mem) : Prop := ∀ x, ∃ i, m' x = m i

theorem CellsOf.refl (m : Mem) : CellsOf m m := fun x => ⟨x, rfl⟩

theorem cellsOf_memmove (m : Mem) (dst src cnt : ℕ) : CellsOf (memmove m dst src cnt) m := by
  intro x
  unfold memmove
  split
  · exact ⟨_, rfl⟩
  · exact ⟨_, rfl⟩

/-- Two cells of a message that are a nonce and the MAC over `s` from `p`
for `me`. -/
def HasMac (N : CNode) (p me : ℤ) (s : Payload) (m : Mem) : Prop :=
  ∃ x y, N.umac (key p me) s (m x) = m y

variable {p me cid : ℤ} {s : Payload} {mem : Mem} {id off : ℕ} {r r' : CRequest}

theorem HasMac.of_cellsOf {N : CNode} {m m' : Mem} (h : HasMac N p me s m') (hc : CellsOf m' m) :
    HasMac N p me s m := by
  obtain ⟨x, y, hxy⟩ := h
  obtain ⟨i, hi⟩ := hc x
  obtain ⟨j, hj⟩ := hc y
  rw [hi, hj] at hxy
  exact ⟨i, j, hxy⟩

/-- The loop of `verify_auth` checks the MAC of every replica it passes,
except one whose identifier the request gives as its client's. -/
theorem CNode.verifyAuthLoop_sound {N : CNode} {n_id : ℕ} {i dest rem : ℕ} {out : Mem × ℕ}
    (h : N.verifyAuthLoop n_id me cid s i mem dest rem = some out) (hp0 : 0 ≤ p)
    (hge : (n_id : ℤ) - i ≤ p) (hlt : p < n_id) (hpc : p ≠ cid) : HasMac N p me s mem := by
  induction i generalizing mem dest rem with
  | zero => simp only [Nat.cast_zero, sub_zero] at hge; omega
  | succ i ih =>
    rw [verifyAuthLoop] at h
    dsimp only at h
    generalize hpid : (if (n_id : ℤ) - (i + 1) < 0 then cid else (n_id : ℤ) - (i + 1)) = p_id at h
    split at h
    · cases h
    next hcheck =>
    by_cases hp : p = n_id - (i + 1)
    · -- this step is the one for `p`
      rw [if_neg (by omega), ← hp] at hpid
      rw [← hpid] at hcheck
      have hver : N.verifyMac p me s mem dest := by
        by_contra hno
        exact hcheck ⟨hpc, by simpa using hno⟩
      exact ⟨dest, dest + 1, verifyMac_iff.1 hver⟩
    · have hge' : (n_id : ℤ) - i ≤ p := by push_cast at hge; omega
      split at h
      · refine (ih h hge').of_cellsOf ?_
        split
        · exact cellsOf_memmove _ _ _ _
        · exact CellsOf.refl _
      · split at h
        · exact (ih h hge').of_cellsOf (cellsOf_memmove _ _ _ _)
        · exact (ih h hge').of_cellsOf (cellsOf_memmove _ _ _ _)

theorem CNode.cellsOf_verifyAuthFromClient {N : CNode} {mem' : Mem}
    (h : N.verifyAuthFromClient id cid s mem = some (mem', off)) : CellsOf mem' mem := by
  unfold verifyAuthFromClient at h
  split at h
  · obtain ⟨rfl, -⟩ := Prod.mk.inj (some.inj h)
    exact CellsOf.refl _
  split at h
  · obtain ⟨rfl, -⟩ := Prod.mk.inj (some.inj h)
    exact CellsOf.refl _
  dsimp only at h
  split at h
  · cases h
  split at h
  · obtain ⟨rfl, -⟩ := Prod.mk.inj (some.inj h)
    exact cellsOf_memmove _ _ _ _
  · obtain ⟨rfl, -⟩ := Prod.mk.inj (some.inj h)
    exact cellsOf_memmove _ _ _ _

/-- Verification only moves the authenticator's cells. -/
theorem CRequest.eq_of_verify {N : CNode} (h : r.verify N id = some (r', off)) :
    r'.rep = r.rep ∧ r'.command = r.command := by
  unfold verify at h
  split at h
  · cases h
  split at h
  · cases h
  split at h
  · cases h
  obtain ⟨rfl, -⟩ := Prod.mk.inj (some.inj h)
  exact ⟨rfl, rfl⟩

/-- **What a verified request carries**: its header is untouched, and
every replica within `f+1` hops before this one, other than the one the
request names as its client, made a MAC over it. -/
theorem CRequest.verify_sound {N : CNode} (h : r.verify N id = some (r', off)) :
    r'.rep = r.rep ∧ ∀ p : ℕ, p < id → id ≤ p + (N.f + 1) → (p : ℤ) ≠ r.rep.cid →
      HasMac N p id (.request r.rep) r.auth := by
  unfold verify at h
  split at h
  · cases h
  split at h
  · cases h
  next mem off₀ hclient =>
  split at h
  · cases h
  next mem' off' hauth =>
  obtain ⟨rfl, -⟩ := Prod.mk.inj (some.inj h)
  refine ⟨rfl, fun p hlt hle hpc => ?_⟩
  have hmac : HasMac N p id (.request r.rep) mem := by
    refine CNode.verifyAuthLoop_sound hauth (by omega) ?_ (by omega) hpc
    omega
  exact hmac.of_cellsOf (CNode.cellsOf_verifyAuthFromClient hclient)

variable {S : Type} {N : RNode S}

/-! ## What a replica has executed and vouched for -/

/-- The request thread has a request in its hands. -/
def RequestThread.busy : RequestThread → Bool
  | .admitted _ => true
  | .draining _ => true
  | .processing _ => true
  | _ => false

/-- **What a replica keeps about the requests it executed**: the request
numbers of a client go up, the reply table is at the last one, and the
MACs the replica made are over headers of executed requests and replies
to them. Outside state `NORMAL` the request thread has nothing to
execute. -/
structure ExecInv (r : CReplica N) : Prop where
  increasing : r.executed.Pairwise fun a b => a.rep.cid = b.rep.cid → a.rep.rid < b.rep.rid
  rid_le : ∀ q ∈ r.executed, q.rep.rid ≤ (r.replies q.rep.cid).rep.rid
  last : ∀ q ∈ r.executed, ∃ q' ∈ r.executed, q'.rep.cid = q.rep.cid ∧
    q'.rep.rid = (r.replies q.rep.cid).rep.rid ∧
    q'.rep.seq_num = (r.replies q.rep.cid).sent_seqno
  macs_request : ∀ dst h, (dst, .request h) ∈ r.macs → ∃ q ∈ r.executed, q.rep = h
  macs_reply : ∀ dst rr, (dst, .reply rr) ∈ r.macs →
    ∃ q ∈ r.executed, q.rep.cid = dst ∧ q.rep.rid = rr.rid
  idle : r.cur_state ≠ .normal → r.requestThread.busy = false

namespace CReplica

variable {id : ℕ} {r r' : CReplica N} {req req' : CRequest}

@[simp] theorem executed_send (id : ℕ) (req : CRequest) (off : ℕ) (unonce : Cell) :
    (r.send id req off unonce).executed = r.executed := by
  unfold send
  split <;> rfl

/-- The MACs of a request are over its header and the reply's. -/
theorem mem_authMacs {rr : CReplyRep} {p : ℤ × Payload} (h : p ∈ authMacs N id req rr) :
    p.2 = .request req.rep ∨ p = (req.rep.cid, .reply rr) := by
  rcases mem_append.1 h with h | h
  · obtain ⟨j, -, rfl⟩ := mem_map.1 h
    exact .inl rfl
  · split at h
    · exact .inr (mem_singleton.1 h)
    · cases h

end CReplica

namespace ExecInv

variable {id : ℕ} {r r' : CReplica N} {req : CRequest}

theorem init (service : S) : ExecInv (CReplica.init N service) where
  increasing := List.Pairwise.nil
  rid_le := by intro q h; simp [CReplica.init] at h
  last := by intro q h; simp [CReplica.init] at h
  macs_request := by intro dst h hm; simp [CReplica.init] at hm
  macs_reply := by intro dst rr hm; simp [CReplica.init] at hm
  idle := fun _ => rfl

variable (h : ExecInv r)
include h

/-- The invariant reads only the request thread's part of a replica. -/
theorem congr (hexec : r'.executed = r.executed) (hrep : r'.replies = r.replies)
    (hmacs : r'.macs = r.macs) (hidle : r'.cur_state ≠ .normal → r'.requestThread.busy = false) :
    ExecInv r' := by
  obtain ⟨h1, h2, h3, h4, h5, -⟩ := h
  constructor
  · rw [hexec]; exact h1
  · rw [hexec, hrep]; exact h2
  · rw [hexec, hrep]; exact h3
  · rw [hexec, hmacs]; exact h4
  · rw [hexec, hmacs]; exact h5
  · exact hidle

/-- A request that was not seen is executed. -/
theorem executeRequest (hs : r.cur_state = .normal) (hseen : r.isSeen req = false)
    {seqno : ℕ} (hseq : req.rep.seq_num = seqno) :
    ExecInv (CReplica.executeRequest { r with seqno } req) := by
  have hlt : (r.replies req.rep.cid).rep.rid < req.rep.rid := by
    simpa [CReplica.isSeen] using hseen
  have hexec : (CReplica.executeRequest { r with seqno } req).executed = r.executed ++ [req] := by
    unfold CReplica.executeRequest
    rw [if_pos hs]
  have hrep_self : ((CReplica.executeRequest { r with seqno } req).replies req.rep.cid).rep.rid =
        req.rep.rid ∧
      ((CReplica.executeRequest { r with seqno } req).replies req.rep.cid).sent_seqno = seqno := by
    unfold CReplica.executeRequest
    simp
  have hrep_ne : ∀ cid, cid ≠ req.rep.cid →
      (CReplica.executeRequest { r with seqno } req).replies cid = r.replies cid := by
    intro cid hne
    exact Function.update_of_ne hne _ _
  constructor
  · rw [hexec, pairwise_append]
    refine ⟨h.increasing, pairwise_singleton _ _, fun a ha b hb hab => ?_⟩
    obtain rfl := mem_singleton.1 hb
    have := h.rid_le a ha
    rw [hab] at this
    omega
  · rw [hexec]
    intro q hq
    by_cases hcid : q.rep.cid = req.rep.cid
    · rw [hcid, hrep_self.1]
      rcases mem_concat_iff.1 hq with hq | rfl
      · have := h.rid_le q hq
        rw [hcid] at this
        omega
      · rfl
    · rw [hrep_ne _ hcid]
      rcases mem_append.1 hq with hq | hq
      · exact h.rid_le q hq
      · exact absurd (by rw [mem_singleton.1 hq]) hcid
  · rw [hexec]
    intro q hq
    by_cases hcid : q.rep.cid = req.rep.cid
    · refine ⟨req, by simp, hcid.symm, ?_, ?_⟩
      · rw [hcid, hrep_self.1]
      · rw [hcid, hrep_self.2, hseq]
    · rw [hrep_ne _ hcid]
      rcases mem_append.1 hq with hq | hq
      · obtain ⟨q', hq', hl⟩ := h.last q hq
        exact ⟨q', mem_append_left _ hq', hl⟩
      · exact absurd (by rw [mem_singleton.1 hq]) hcid
  · rw [hexec]
    intro dst hh hm
    obtain ⟨q, hq, hrep⟩ := h.macs_request dst hh hm
    exact ⟨q, mem_append_left _ hq, hrep⟩
  · rw [hexec]
    intro dst rr hm
    obtain ⟨q, hq, hrep⟩ := h.macs_reply dst rr hm
    exact ⟨q, mem_append_left _ hq, hrep⟩
  · exact h.idle

theorem send {off : ℕ} {unonce : Cell} (hreq : ∃ q ∈ r.executed, q.rep = req.rep) :
    ExecInv (r.send id req off unonce) := by
  obtain ⟨q, hq, hqrep⟩ := hreq
  obtain ⟨q', hq', hcid, hrid, -⟩ := h.last q hq
  have hexec := CReplica.executed_send (r := r) (N := N) id req off unonce
  have hrep : (r.send id req off unonce).replies = r.replies := by
    unfold CReplica.send
    split <;> rfl
  have hidle : (r.send id req off unonce).cur_state ≠ .normal →
      (r.send id req off unonce).requestThread.busy = false := by
    unfold CReplica.send
    split <;> exact h.idle
  -- the request keeps its header when it is authenticated
  have hmacs : ∀ p ∈ (r.send id req off unonce).macs, p ∈ r.macs ∨
      p.2 = .request req.rep ∨ p = (req.rep.cid, .reply (r.replies req.rep.cid).rep) := by
    intro p hp
    have hp' : p ∈ r.macs ++ CReplica.authMacs N id
        (req.authenticate N.toCNode id id off (some (r.replies req.rep.cid).rep) unonce)
        (r.replies req.rep.cid).rep := by
      unfold CReplica.send at hp
      split at hp <;> exact hp
    rcases mem_append.1 hp' with hp' | hp'
    · exact .inl hp'
    · exact .inr (CReplica.mem_authMacs hp')
  constructor
  · rw [hexec]; exact h.increasing
  · rw [hexec, hrep]; exact h.rid_le
  · rw [hexec, hrep]; exact h.last
  · rw [hexec]
    intro dst hh hm
    rcases hmacs _ hm with hm | hm | hm
    · exact h.macs_request dst hh hm
    · cases hm
      exact ⟨q, hq, hqrep⟩
    · cases hm
  · rw [hexec]
    intro dst rr hm
    rcases hmacs _ hm with hm | hm | hm
    · exact h.macs_reply dst rr hm
    · cases hm
    · cases hm
      rw [hqrep] at hcid hrid
      exact ⟨q', hq', hcid, hrid⟩
  · exact hidle

/-- A client's request number names one executed request. -/
theorem eq_of_ids {a b : CRequest} (ha : a ∈ r.executed) (hb : b ∈ r.executed)
    (hcid : a.rep.cid = b.rep.cid) (hrid : a.rep.rid = b.rep.rid) : a = b := by
  obtain ⟨i, hi, rfl⟩ := getElem_of_mem ha
  obtain ⟨j, hj, rfl⟩ := getElem_of_mem hb
  have hpair := pairwise_iff_getElem.1 h.increasing
  rcases Nat.lt_trichotomy i j with hij | rfl | hij
  · have := hpair i j hi hj hij hcid
    omega
  · rfl
  · have := hpair j i hj hi hij hcid.symm
    omega

end ExecInv

namespace CReplica

variable {id : ℕ} {r r' : CReplica N} {req : CRequest}

/-- The request this move verifies, if it does. -/
def processed (r : CReplica N) (e : CEvent) : Option CRequest :=
  match e, r.requestThread with
  | .request _, .processing req => some req
  | _, _ => none

/-- **What a move must meet to keep the order.** A panic handled in state
`NORMAL` finds the request thread without a request; no request names a
replica as its client; a request that verifies and is taken for a
repetition is one, up to the sequence number the head gives it. -/
@[mk_iff]
structure OrderOk (id : ℕ) (r : CReplica N) (e : CEvent) : Prop where
  panic_idle : r.cur_state = .normal → r.handlesPanic id e → r.requestThread.busy = false
  client : ∀ req ∈ r.processed e, N.isReplica req.rep.cid = false
  repeated : ∀ req ∈ r.processed e, r.isSeen req → (req.verify N.toCNode id).isSome →
    ∃ q ∈ r.executed, req.rep =
      { q.rep with seq_num := if id = 0 then req.rep.seq_num else q.rep.seq_num }

instance (id : ℕ) (r : CReplica N) (e : CEvent) : Decidable (OrderOk id r e) :=
  decidable_of_iff' _ (orderOk_iff id r e)

/-- What a move that executes nothing leaves alone; `panic` says whether
it may leave state `NORMAL`. -/
structure ExecFrame (panic : Bool) (r r' : CReplica N) : Prop where
  executed : r'.executed = r.executed
  replies : r'.replies = r.replies
  macs : r'.macs = r.macs
  requestThread : r'.requestThread = r.requestThread
  leaves : r.cur_state = .normal → r'.cur_state ≠ .normal → panic = true
  stays : r.cur_state ≠ .normal → r'.cur_state ≠ .normal

namespace ExecFrame

variable {panic : Bool}

theorem refl (r : CReplica N) : ExecFrame panic r r :=
  ⟨rfl, rfl, rfl, rfl, fun h h' => absurd h h', id⟩

theorem of_state (hexec : r'.executed = r.executed) (hrep : r'.replies = r.replies)
    (hmacs : r'.macs = r.macs) (hthread : r'.requestThread = r.requestThread)
    (hstate : r'.cur_state = r.cur_state) : ExecFrame panic r r' :=
  ⟨hexec, hrep, hmacs, hthread, fun h h' => absurd (hstate.trans h) h',
    fun h => by rw [hstate]; exact h⟩

theorem of_ne (hexec : r'.executed = r.executed) (hrep : r'.replies = r.replies)
    (hmacs : r'.macs = r.macs) (hthread : r'.requestThread = r.requestThread)
    (hne : r.cur_state ≠ .normal) (hne' : r'.cur_state ≠ .normal) : ExecFrame panic r r' :=
  ⟨hexec, hrep, hmacs, hthread, fun h => absurd h hne, fun _ => hne'⟩

theorem weaken (h : ExecFrame false r r') : ExecFrame panic r r' :=
  { h with leaves := fun hs hs' => absurd (h.leaves hs hs') (by simp) }

end ExecFrame

theorem Quiet.execFrame {panic : Bool} (h : Quiet panic r r') : ExecFrame panic r r' := by
  have hpart := h.order
  simp only [orderPart, Prod.mk.injEq] at hpart
  obtain ⟨hexec, hrep, -, -, -, hthread, -⟩ := hpart
  rcases h.state with hs | ⟨hpanic, -, hs⟩
  · exact .of_state hexec hrep h.macs hthread hs
  · exact ⟨hexec, hrep, h.macs, hthread, fun _ _ => hpanic, fun _ => by rw [hs]; decide⟩

theorem execFrame_handleAbort (r : CReplica N) (id : ℕ) (m : Abort) :
    ExecFrame false r (r.handleAbort id m) := by
  have hmove := r.abortMove_handleAbort id m
  generalize r.handleAbort id m = r' at hmove ⊢
  cases hmove with
  | dropped => exact .refl r
  | collect => exact .of_state rfl rfl rfl rfl rfl
  | adopt c ah_2 hs => exact .of_ne rfl rfl rfl rfl (by rw [hs]; decide) nofun
  | wait c ah_2 missing sent _ hs => exact .of_ne rfl rfl rfl rfl (by rw [hs]; decide) nofun

theorem execFrame_handleGetAGrip (r : CReplica N) (m : CGetAGrip) :
    ExecFrame false r (r.handleGetAGrip m) := by
  have hmove := r.gripMove_handleGetAGrip m
  generalize r.handleGetAGrip m = r' at hmove ⊢
  cases hmove with
  | dropped => exact .refl r
  | fetch => exact .of_state rfl rfl rfl rfl rfl
  | adopt i hs => exact .of_ne rfl rfl rfl rfl (by rw [hs]; decide) nofun

theorem execFrame_forwardStopped (r : CReplica N) (id : ℕ) (q : CRequest) :
    ExecFrame false r (r.forwardStopped id q) := by
  unfold forwardStopped
  split
  · exact .of_state rfl rfl rfl rfl rfl
  · exact .of_state rfl rfl rfl rfl rfl

/-- A move of the request thread, or one that executes nothing. -/
theorem execFrame_step (r : CReplica N) (id : ℕ) (e : CEvent) :
    (∃ unonce, e = .request unonce) ∨
    (∃ req, r.requestThread = .idle ∧ r.cur_state = .normal ∧
      r.step id e = { r with requestThread := .admitted req }) ∨
    ExecFrame (r.handlesPanic id e) r (r.step id e) := by
  have hsorted := r.step_sorted id e
  generalize r.step id e = r' at hsorted ⊢
  cases hsorted with
  | quiet h => exact .inr (.inr h.execFrame)
  | forward req => exact .inr (.inr (execFrame_forwardStopped r id req).weaken)
  | takeUp req panics hidle hs => exact .inr (.inl ⟨req, hidle, hs, rfl⟩)
  | request unonce => exact .inl ⟨unonce, rfl⟩
  | abort queue m =>
    have h := execFrame_handleAbort (r.popped queue) id m
    exact .inr (.inr (ExecFrame.weaken ⟨h.1, h.2, h.3, h.4, h.5, h.6⟩))
  | getAGrip queue m =>
    have h := execFrame_handleGetAGrip (r.popped queue) m
    exact .inr (.inr (ExecFrame.weaken ⟨h.1, h.2, h.3, h.4, h.5, h.6⟩))

/-- `isSeen` looks at the header only. -/
theorem isSeen_congr {req req' : CRequest} (h : req'.rep = req.rep) :
    r.isSeen req' = r.isSeen req := by
  unfold isSeen
  rw [h]

/-- A request a correct replica sends on is one it executed. -/
theorem execInv_processRequest (h : ExecInv r) (hs : r.cur_state = .normal) {unonce : Cell}
    (hrep : r.isSeen req → (req.verify N.toCNode id).isSome → ∃ q ∈ r.executed, req.rep =
      { q.rep with seq_num := if id = 0 then req.rep.seq_num else q.rep.seq_num }) :
    ExecInv (r.processRequest id req unonce) := by
  rcases r.processRequest_cases id req unonce with heq | ⟨req₁, off, r', req', hver, hord, heq⟩
  · rw [heq]
    exact h
  rw [heq]
  obtain ⟨hhead, -⟩ := CRequest.verify_sound hver
  rcases order_cases hord with
    ⟨hseen, seqno, ⟨-, hseq⟩, hcid, hrid, -, -, rfl⟩ | ⟨hseen, rfl, hother, hhd⟩
  · have hseen' : r.isSeen req' = false := by
      unfold isSeen at hseen ⊢
      rw [hcid, hrid]
      exact hseen
    refine (h.executeRequest hs hseen' hseq).send ⟨req', ?_, rfl⟩
    unfold executeRequest
    rw [if_pos hs]
    simp
  · refine h.send ?_
    obtain ⟨q, hq, hqrep⟩ := hrep (by rw [← isSeen_congr hhead]; exact hseen) (by rw [hver]; rfl)
    by_cases hid : id = 0
    · -- the head takes the sequence number from its reply table
      obtain ⟨hold, rfl⟩ := hhd hid
      have hqcid : q.rep.cid = req₁.rep.cid := by rw [hhead, hqrep]
      have hqrid : q.rep.rid = req₁.rep.rid := by rw [hhead, hqrep]
      obtain ⟨q', hq', hcid', hrid', hseq'⟩ := h.last q hq
      have hrideq : req₁.rep.rid = (r'.replies req₁.rep.cid).rep.rid := by
        have h1 : req₁.rep.rid ≤ (r'.replies req₁.rep.cid).rep.rid := by
          simpa [isSeen] using hseen
        have h2 : (r'.replies req₁.rep.cid).rep.rid ≤ req₁.rep.rid := by
          simpa [isOld] using hold
        omega
      have hqq : q' = q := by
        refine h.eq_of_ids hq' hq hcid' ?_
        rw [hrid', hqcid, hqrid, ← hrideq]
      refine ⟨q, hq, ?_⟩
      rw [hqq, hqcid] at hseq'
      unfold CRequest.setSeqno
      rw [← hseq', hhead, hqrep]
    · rw [if_neg hid] at hqrep
      refine ⟨q, hq, ?_⟩
      rw [hother hid, hhead, hqrep]

/-- What every move but the verification of a request keeps. -/
structure Unexecuted (r r' : CReplica N) : Prop where
  executed : r'.executed = r.executed
  replies : r'.replies = r.replies
  macs : r'.macs = r.macs
  idle : r'.cur_state ≠ .normal → r'.requestThread.busy = false
  stays : r.cur_state ≠ .normal → r'.cur_state ≠ .normal

/-- A move in state `NORMAL` that does not leave it. -/
theorem Unexecuted.of_normal (hs : r.cur_state = .normal) (hs' : r'.cur_state = r.cur_state)
    (he : r'.executed = r.executed) (hr : r'.replies = r.replies) (hm : r'.macs = r.macs) :
    Unexecuted r r' :=
  ⟨he, hr, hm, fun hne => absurd (hs'.trans hs) hne, fun hne => absurd hs hne⟩

variable (hidle : r.cur_state ≠ .normal → r.requestThread.busy = false)
include hidle

/-- **The request thread** is at work in state `NORMAL` only, and executes
nothing before it verifies a request. -/
theorem requestMove_exec_cases (unonce : Cell) :
    (r.cur_state = .normal ∧ ∃ req ∈ r.processed (.request unonce),
      r.requestMove id unonce = { r.processRequest id req unonce with requestThread := .idle }) ∨
    Unexecuted r (r.requestMove id unonce) := by
  have hself : Unexecuted r r := ⟨rfl, rfl, rfl, hidle, fun hne => hne⟩
  have hbusy : ∀ {thread : RequestThread}, r.requestThread = thread → thread.busy →
      r.cur_state = .normal := by
    intro thread hthread hb
    by_contra hne
    rw [← hthread, hidle hne] at hb
    cases hb
  unfold requestMove
  split
  · exact .inr hself
  · exact .inr hself
  · next req hthread =>
    have hs := hbusy hthread rfl
    right
    split
    · split
      · exact .of_normal hs rfl rfl rfl rfl
      · exact .of_normal hs rfl rfl rfl rfl
    · exact .of_normal hs rfl rfl rfl rfl
  · next req hthread =>
    have hs := hbusy hthread rfl
    right
    split
    · exact .of_normal hs rfl rfl rfl rfl
    · split
      · exact .of_normal hs rfl rfl rfl rfl
      · next hstop => exact absurd (hs.symm.trans hstop) (by simp)
      · next hne _ => exact absurd hs hne
  · next req hthread =>
    have hproc : r.processed (.request unonce) = some req := by
      unfold processed
      rw [hthread]
    exact .inl ⟨hbusy hthread rfl, req, hproc, rfl⟩

variable {e : CEvent} (hok : r.OrderOk id e)
include hok

/-- A move that leaves the request thread alone, and the state unless it
panics. -/
theorem Unexecuted.of_frame (hf : ExecFrame (r.handlesPanic id e) r r') : Unexecuted r r' := by
  refine ⟨hf.executed, hf.replies, hf.macs, fun hne => ?_, hf.stays⟩
  rw [hf.requestThread]
  by_cases hs : r.cur_state = .normal
  · exact hok.panic_idle hs (hf.leaves hs hne)
  · exact hidle hs

/-- **What a move can do to the requests a replica executed**: in state
`NORMAL` the request thread verifies one, any other move leaves them
alone. -/
theorem step_exec_cases :
    (r.cur_state = .normal ∧ ∃ unonce, ∃ req ∈ r.processed e,
      r.step id e = { r.processRequest id req unonce with requestThread := .idle }) ∨
    Unexecuted r (r.step id e) := by
  rcases r.execFrame_step id e with ⟨unonce, rfl⟩ | ⟨req, -, hs, heq⟩ | hf
  · refine (requestMove_exec_cases hidle unonce).imp_left ?_
    rintro ⟨hs, req, hproc, heq⟩
    exact ⟨hs, unonce, req, hproc, heq⟩
  · rw [heq]
    exact .inr (.of_normal hs rfl rfl rfl rfl)
  · exact .inr (.of_frame hidle hok hf)

/-- A move executes nothing or one request, which verified; every replica
but the head keeps its header. -/
theorem executed_step :
    (r.step id e).executed = r.executed ∨
    r.cur_state = .normal ∧ ∃ req ∈ r.processed e, (req.verify N.toCNode id).isSome ∧
      ∃ q : CRequest, (id ≠ 0 → q.rep = req.rep) ∧
        (r.step id e).executed = r.executed ++ [q] := by
  rcases step_exec_cases hidle hok with ⟨hs, unonce, req, hproc, heq⟩ | hun
  swap
  · exact .inl hun.executed
  rw [heq]
  rcases r.processRequest_cases id req unonce with heq' | ⟨req₁, off, r', req', hver, hord, heq'⟩
  · exact .inl (by rw [heq'])
  rw [heq', executed_send]
  rcases order_cases hord with ⟨-, seqno, -, -, -, -, hother, rfl⟩ | ⟨-, rfl, -, -⟩
  · refine .inr ⟨hs, req, hproc, by rw [hver]; rfl, req', fun hid => ?_, ?_⟩
    · rw [hother hid, (CRequest.verify_sound hver).1]
    · unfold executeRequest
      rw [if_pos hs]
  · exact .inl rfl

theorem prefix_executed_step : r.executed <+: (r.step id e).executed := by
  rcases executed_step hidle hok with heq | ⟨-, req, -, -, q, -, heq⟩
  · rw [heq]
  · rw [heq]
    exact prefix_append _ _

end CReplica

/-- **One move keeps what a replica knows about its requests.** -/
theorem ExecInv.step {r : CReplica N} {e : CReplica.CEvent} (h : ExecInv r) (hok : r.OrderOk id e) :
    ExecInv (r.step id e) := by
  rcases CReplica.step_exec_cases h.idle hok with ⟨hs, unonce, req, hproc, heq⟩ | hun
  · rw [heq]
    exact (CReplica.execInv_processRequest h hs (hok.repeated req hproc)).congr rfl rfl rfl
      fun _ => rfl
  · exact h.congr hun.executed hun.replies hun.macs hun.idle

end AbstractBFT.Chain
