import AbstractBFT.Chain.Robust
import AbstractBFT.Chain.Switch
/-!
# Chain — the service after a switch

A replica applies requests to its service as it executes them, before
anything is agreed, and never at the switch: `adopt` replaces the history
and leaves the service alone. So what was applied when the next instance
begins is what the replica had executed, whatever the merged history says.
The two have the same requests where the replica's own abort lists those of
the merged history (`switch_applies_merged`): then nothing is fetched that
was not executed, and nothing was executed that is not in it.

`Applying` records what is applied, also by a request thread that a panic
overtook; `Applying.service_exec` ties the record to the service.
-/

namespace AbstractBFT.Chain

open Machine Function List

variable {S : Type} {N : RNode S}

/-! ## What is applied -/

namespace CReplica

variable (r : CReplica N) (id : ℕ)

/-- The request `execute_request` gets, if it is called for this one. -/
def toExecute (req : CRequest) : List CRequest :=
  if r.isSeen req then []
  else if id = 0 then [req.setSeqno (r.seqno + 1)]
  else if req.rep.seq_num = r.last_seqno + 1 then [req]
  else []

/-- The requests this move applies to the service. -/
def applies (e : CEvent) : List CRequest :=
  match r.processed e with
  | none => []
  | some req =>
    if req.isReadOnly then []
    else
      match req.verify N.toCNode id with
      | none => []
      | some (req, _) => r.toExecute id req

/-- The service after a request. -/
def apply (N : RNode S) (service : S) (req : CRequest) : S :=
  (N.exec_command service (req.command.take req.rep.command_size) req.rep.cid).1

theorem service_handleAbort (m : Abort) : (r.handleAbort id m).service = r.service := by
  have hmove := r.abortMove_handleAbort id m
  generalize r.handleAbort id m = r' at hmove ⊢
  cases hmove <;> rfl

theorem service_handleGetAGrip (m : CGetAGrip) : (r.handleGetAGrip m).service = r.service := by
  have hmove := r.gripMove_handleGetAGrip m
  generalize r.handleGetAGrip m = r' at hmove ⊢
  cases hmove <;> rfl

theorem service_forwardStopped (req : CRequest) :
    (r.forwardStopped id req).service = r.service := by
  unfold forwardStopped
  split <;> rfl

variable {r id}

/-- What the request thread does to the service and to the record of what
was executed in state `NORMAL`. -/
theorem processRequest_applies (req : CRequest) (unonce : Cell) :
    let l := if req.isReadOnly then [] else
      match req.verify N.toCNode id with
      | none => []
      | some (req, _) => r.toExecute id req
    (r.processRequest id req unonce).service = l.foldl (apply N) r.service ∧
      (r.processRequest id req unonce).executed =
        r.executed ++ if r.cur_state = .normal then l else [] := by
  have hsend : ∀ (r : CReplica N) req off, (r.send id req off unonce).service = r.service := by
    intro r req off
    unfold send
    split <;> rfl
  have hnone : r.executed = r.executed ++ if r.cur_state = .normal then [] else [] := by
    rw [ite_self, append_nil]
  unfold processRequest
  split
  · exact ⟨rfl, hnone⟩
  cases hver : req.verify N.toCNode id with
  | none => exact ⟨rfl, hnone⟩
  | some p =>
    obtain ⟨req', off⟩ := p
    dsimp only
    have hexec : ∀ seqno q, (executeRequest { r with seqno } q).executed =
        r.executed ++ if r.cur_state = .normal then [q] else [] := by
      intro seqno q
      unfold executeRequest
      split
      · rfl
      · rw [append_nil]
    unfold order toExecute
    by_cases hseen : r.isSeen req'
    · rw [if_pos hseen, hseen]
      by_cases hid : id = 0
      · rw [if_pos hid]
        by_cases hold : r.isOld req'
        · rw [hold]
          exact ⟨rfl, hnone⟩
        · rw [Bool.not_eq_true] at hold
          rw [hold]
          exact ⟨hsend .., (executed_send ..).trans hnone⟩
      · rw [if_neg hid]
        exact ⟨hsend .., (executed_send ..).trans hnone⟩
    · rw [if_neg hseen, Bool.eq_false_iff.2 hseen]
      by_cases hid : id = 0
      · rw [if_pos hid, if_pos hid]
        exact ⟨hsend .., (executed_send ..).trans (hexec ..)⟩
      · rw [if_neg hid, if_neg hid]
        by_cases hseq : req'.rep.seq_num = r.last_seqno + 1
        · rw [if_pos hseq]
          simp only [Bool.not_false, if_true, hseq, ne_eq, not_true_eq_false, if_false]
          exact ⟨hsend .., (executed_send ..).trans (hexec ..)⟩
        · rw [if_neg hseq]
          simp only [Bool.not_false, if_true, ne_eq, hseq, not_false_eq_true]
          exact ⟨rfl, hnone⟩

/-- A move of the request thread that verifies nothing. -/
theorem requestMove_of_processed (id : ℕ) (unonce : Cell)
    (h : r.processed (.request unonce) = none) :
    (r.requestMove id unonce).service = r.service ∧
      (r.requestMove id unonce).executed = r.executed := by
  unfold processed at h
  unfold requestMove
  split
  · exact ⟨rfl, rfl⟩
  · exact ⟨rfl, rfl⟩
  · split
    · split <;> exact ⟨rfl, rfl⟩
    · exact ⟨rfl, rfl⟩
  · split
    · exact ⟨rfl, rfl⟩
    split
    · exact ⟨rfl, rfl⟩
    · exact ⟨service_forwardStopped .., (execFrame_forwardStopped ..).executed⟩
    · exact ⟨rfl, rfl⟩
  · rename_i req hthread
    rw [hthread] at h
    cases h

/-- A request is verified by the request thread only. -/
theorem step_of_processed (id : ℕ) {e : CEvent} {req : CRequest} (h : r.processed e = some req) :
    ∃ unonce, e = .request unonce ∧
      r.step id e = { r.processRequest id req unonce with requestThread := .idle } := by
  unfold processed at h
  split at h
  · rename_i unonce _ hthread
    obtain rfl := Option.some.inj h
    refine ⟨unonce, rfl, ?_⟩
    rw [step, requestMove, hthread]
  · cases h

/-- **What a move applies** is what happens to the service, and in state
`NORMAL` to the record of what was executed. -/
theorem step_applies (r : CReplica N) (id : ℕ) (e : CEvent) :
    (r.step id e).service = (r.applies id e).foldl (apply N) r.service ∧
      (r.step id e).executed =
        r.executed ++ if r.cur_state = .normal then r.applies id e else [] := by
  -- a move that verifies no request
  have hnone : ∀ r' : CReplica N, r.processed e = none → r'.service = r.service →
      r'.executed = r.executed → r'.service = (r.applies id e).foldl (apply N) r.service ∧
        r'.executed = r.executed ++ if r.cur_state = .normal then r.applies id e else [] := by
    intro r' hproc hservice hexec
    unfold applies
    rw [hproc, hservice, hexec, ite_self, append_nil]
    exact ⟨rfl, rfl⟩
  cases hproc : r.processed e with
  | some req =>
    obtain ⟨unonce, rfl, hmove⟩ := step_of_processed id hproc
    unfold applies
    rw [hmove, hproc]
    exact processRequest_applies req unonce
  | none =>
    have hsorted := r.step_sorted id e
    generalize r.step id e = r' at hsorted ⊢
    cases hsorted with
    | quiet h => exact hnone _ hproc h.service h.execFrame.executed
    | forward req =>
      exact hnone _ hproc (service_forwardStopped ..) (execFrame_forwardStopped r id req).executed
    | takeUp => exact hnone _ hproc rfl rfl
    | request unonce =>
      obtain ⟨hservice, hexec⟩ := requestMove_of_processed id unonce hproc
      exact hnone _ hproc hservice hexec
    | abort queue m =>
      exact hnone _ hproc (service_handleAbort ..) (execFrame_handleAbort _ id m).executed
    | getAGrip queue m =>
      exact hnone _ hproc (service_handleGetAGrip ..) (execFrame_handleGetAGrip _ m).executed

/-- The next instance is enabled by stopping. -/
theorem switched_step (r : CReplica N) (id : ℕ) (e : CEvent) :
    (r.step id e).switched = r.switched ∨ (r.step id e).cur_state = .stop := by
  have hphase := r.step_phase id e
  generalize r.step id e = r' at hphase ⊢
  rcases hphase with hframe | ⟨queue, m, -, heq⟩ | ⟨queue, m, -, heq⟩
  · exact Or.inl hframe.switched
  · have hmove := abortMove_handleAbort (r.popped queue) id m
    rw [← heq] at hmove
    cases hmove with
    | adopt => exact Or.inr rfl
    | _ => exact Or.inl rfl
  · have hmove := gripMove_handleGetAGrip (r.popped queue) m
    rw [← heq] at hmove
    cases hmove with
    | adopt => exact Or.inr rfl
    | _ => exact Or.inl rfl

end CReplica

/-- A switch: the abort set, the merged history, and, when the next instance
was enabled, the requests applied, the history and the next sequence
number. -/
structure SwitchRecord where
  aborts : ℕ → Option Abort
  merged : AbortHistory
  applied : List CRequest
  history : List (RhEntry CRequest)
  seqno : ℕ

/-- A replica with the requests it applied in this activation, and its
switches. -/
structure Applying (N : RNode S) where
  replica : CReplica N
  applied : List CRequest
  switches : List SwitchRecord

namespace Applying

/-- At the beginning of an activation. -/
def init (N : RNode S) (service : S) : Applying N := ⟨CReplica.init N service, [], []⟩

/-- One move at replica `id`. -/
def step (id : ℕ) (a : Applying N) (e : CReplica.CEvent) : Applying N :=
  let replica := a.replica.step id e
  let applied := a.applied ++ a.replica.applies id e
  { replica, applied
    switches :=
      if replica.switched = a.replica.switched then a.switches
      else
        a.switches ++ (replica.merges.getLast?.map fun mg =>
          ⟨mg.aborts, mg.merged, applied, replica.rh.rh, replica.seqno⟩).toList }

end Applying

/-- The requests of a list, by client and request identifier. -/
def requestIds (l : List CRequest) : Finset (ℤ × ℕ) :=
  (l.map fun q => (q.rep.cid, q.rep.rid)).toFinset

/-- The requests a history names. -/
def elementIds (l : AbortHistory) : Finset (ℤ × ℕ) :=
  (l.map fun e => (e.cid, e.rid)).toFinset

/-- **What was applied is the merged history.** -/
def SwitchRecord.Faithful (sw : SwitchRecord) : Prop := requestIds sw.applied = elementIds sw.merged

/-! ## The replica's own abort -/

namespace CReplica

/-- An abort that verifies and names the replica itself is one it
broadcast. -/
def OwnAbort (id : ℕ) (r : CReplica N) : RMessage → Prop
  | .abort m => CAbort.verify N m → m.rep.replica.toNat = id →
      ∃ rec ∈ r.aborted, SameAbort rec.abort m
  | _ => True

instance (id : ℕ) (r : CReplica N) (m : RMessage) : Decidable (r.OwnAbort id m) := by
  apply @m.casesOn <;> intros <;> dsimp only [OwnAbort] <;> infer_instance

/-- **The replica's own signature is not forged** in what this move looks
at. -/
def OwnUnforged (id : ℕ) (r : CReplica N) (e : CEvent) : Prop :=
  ∀ m ∈ r.taken e, r.OwnAbort id m
  deriving Decidable

/-- What the message must meet: when an abort completes the set, the
replica's own abort in it is from a history that was not truncated, and
lists the requests of the merged history. -/
def OwnListsMerged (id : ℕ) (r : CReplica N) : RMessage → Prop
  | .abort m => ∀ c ∈ r.aborts.add m, 3 * N.f + 1 ≤ c.count → ∀ own ∈ c.ac id,
      (∀ rec ∈ r.aborted, SameAbort rec.abort own → rec.truncated = 0) ∧
      elementIds own.history = elementIds (Smasher.merged N.n N.f c.ac)
  | _ => True

instance (id : ℕ) (r : CReplica N) (m : RMessage) : Decidable (r.OwnListsMerged id m) := by
  apply @m.casesOn <;> intros <;> dsimp only [OwnListsMerged] <;> infer_instance

/-- **What a move must meet.** No executed request is on its way into the
history when the replica leaves state `NORMAL`, none is verified after
that, and what it merges is what its own abort lists. -/
def SwitchOk (id : ℕ) (r : CReplica N) (e : CEvent) : Prop :=
  Drained id r e ∧ (r.cur_state ≠ .normal → (r.processed e).isNone) ∧
    ∀ m ∈ r.taken e, r.OwnListsMerged id m
  deriving Decidable

end CReplica

/-- What the message must meet, for the part of the replica on the way into
the abort. -/
def MergesOwn (N : RNode S) (id : ℕ) (s : LogState N) : RMessage → Prop
  | .abort m => CAbort.verify N m →
      (m.rep.replica.toNat = id → ∃ rec ∈ s.aborted, SameAbort rec.abort m) ∧
      ∀ c, s.aborts.add m = some c → 3 * N.f + 1 ≤ c.count → ∀ own, c.ac id = some own →
        (∀ rec ∈ s.aborted, SameAbort rec.abort own → rec.truncated = 0) ∧
        elementIds own.history = elementIds (Smasher.merged N.n N.f c.ac)
  | _ => True

/-- **What a replica keeps of its own aborts**: before it stops they are of
histories it executed, with nothing else in them; its own entry of the
certificate is one of them; and what it merges is what it executed. -/
structure OwnInv (N : RNode S) (id : ℕ) (s : LogState N) : Prop where
  before : s.cur_state ≠ .stop → ∀ rec ∈ s.aborted, rec.state ≠ .stop
  size : ∀ rec ∈ s.aborted, rec.state ≠ .stop →
    rec.abort.rep.hist_size = s.executed.length - rec.truncated
  own : ∀ a, s.aborts.ac id = some a → ∃ rec ∈ s.aborted, SameAbort rec.abort a
  merged : s.cur_state = .miswaiting ∨ s.cur_state = .stop →
    ∃ mg, s.merges.getLast? = some mg ∧ mg.merged = Smasher.merged N.n N.f mg.aborts ∧
      requestIds s.executed = elementIds mg.merged

/-- An abort joins the certificate: the entry of another replica, or what
the message says. -/
theorem AbortCertificate.ac_of_add {c c' : AbortCertificate} {m a : Abort} {i : ℕ}
    (hadd : c.add m = some c') (ha : c'.ac i = some a) :
    c.ac i = some a ∨ m.rep.replica.toNat = i ∧ a = m := by
  unfold AbortCertificate.add at hadd
  dsimp only at hadd
  split at hadd
  · obtain rfl := Option.some.inj hadd
    rcases Entries.of_write ha with ⟨rfl, rfl⟩ | ⟨-, hold⟩
    · exact Or.inr ⟨rfl, rfl⟩
    · exact Or.inl hold
  · split at hadd
    · obtain rfl := Option.some.inj hadd
      exact Or.inl ha
    · cases hadd

theorem AbortCertificate.ac_of_getD_add {c : AbortCertificate} {m a : Abort} {i : ℕ}
    (ha : ((c.add m).getD c).ac i = some a) : c.ac i = some a ∨ m.rep.replica.toNat = i ∧ a = m := by
  cases hadd : c.add m with
  | none =>
    rw [hadd] at ha
    exact Or.inl ha
  | some c' =>
    rw [hadd] at ha
    exact AbortCertificate.ac_of_add hadd ha

/-- Between the panic and the stop everything executed is in the history,
so an abort built from it lists all of it that was not truncated. -/
theorem LogInv.hist_size {id : ℕ} {s : LogState N} (h : LogInv N id s) (hne : s.cur_state ≠ .normal)
    (hns : s.cur_state ≠ .stop) (hlen : s.rh.rh.length < 2 ^ 15) (rid : ℕ)
    (buffer : ℕ → AbortHistoryElement) :
    (CAbort.ofHistory N id rid s.rh buffer).rep.hist_size = s.executed.length - s.truncated := by
  have hlength := congrArg (fun log => log.rh.length) (h.rh_eq hns)
  simp only [length_truncatedLog, h.all_logged hne hns, Nat.min_self] at hlength
  show s.rh.rh.length % 2 ^ 16 = _
  rw [Nat.mod_eq_of_lt (by omega), hlength]

/-- **An abort from a history that was not truncated lists what was
executed**, and nothing else. -/
theorem elementIds_of_complete {executed : List CRequest} {rec : AbortRecord} {own : Abort}
    (hcomp : Complete N executed rec) (hsize : rec.abort.rep.hist_size = executed.length - rec.truncated)
    (hzero : rec.truncated = 0) (hsame : SameAbort rec.abort own) :
    elementIds own.history = requestIds executed := by
  obtain ⟨hrep, helems⟩ := hsame
  rw [hzero, Nat.sub_zero, hrep] at hsize
  have hlen : own.history.length = executed.length := by
    rw [Abort.history, length_map, length_range, hsize]
  have hmap : own.history.map (fun e => (e.cid, e.rid)) =
      executed.map fun q => (q.rep.cid, q.rep.rid) := by
    refine ext_getElem (by rw [length_map, length_map, hlen]) fun i h₁ h₂ => ?_
    rw [length_map] at h₂
    obtain ⟨-, helem⟩ := hcomp i executed[i] (getElem?_eq_getElem h₂) (by omega)
    rw [hzero, Nat.sub_zero, helems i (by omega)] at helem
    simp only [Abort.history, map_map, getElem_map, getElem_range,
      comp_apply, helem]
  unfold elementIds requestIds
  rw [hmap]

namespace OwnInv

variable {id : ℕ} {s s' : LogState N}

theorem init (service : S) : OwnInv N id (CReplica.init N service).logState where
  before _ := nofun
  size := nofun
  own := nofun
  merged h := by rcases h with h | h <;> cases h

theorem of_eq (h : OwnInv N id s) (hstate : s'.cur_state = s.cur_state)
    (haborted : s'.aborted = s.aborted) (hexec : s'.executed = s.executed)
    (haborts : s'.aborts = s.aborts) (hmerges : s'.merges = s.merges) : OwnInv N id s' :=
  ⟨by rw [hstate, haborted]; exact h.before, by rw [haborted, hexec]; exact h.size,
    by rw [haborts, haborted]; exact h.own, by rw [hstate, hmerges, hexec]; exact h.merged⟩

theorem step (h : OwnInv N id s) (hlog : LogInv N id s) (hstep : LogStep N id (MergesOwn N id) s s') :
    OwnInv N id s' := by
  cases hstep with
  | execute q seqno hs hseq hq =>
    have hquiet : s.aborted = [] := (hlog.quiet hs).2
    refine ⟨h.before, fun rec hrec => ?_, h.own, fun h' => ?_⟩
    · rw [show rec ∈ s.aborted ↔ rec ∈ [] by rw [hquiet]] at hrec
      cases hrec
    · rw [show _ = ReplicaState.normal from hs] at h'
      rcases h' with h' | h' <;> cases h'
  | leave hs hh hq =>
    exact ⟨fun _ => h.before (by rw [hs]; decide), h.size, h.own,
      fun h' => by rcases h' with h' | h' <;> cases h'⟩
  | repanic hs =>
    exact ⟨fun _ => h.before (by rw [hs]; decide), h.size, h.own,
      fun h' => by rcases h' with h' | h' <;> cases h'⟩
  | abort rid toAbort buffer a ha hrid hlen =>
    have hne : s.cur_state ≠ .normal := by
      intro hs
      rw [(hlog.quiet hs).1] at hrid
      cases hrid
    refine ⟨fun hns rec hrec => ?_, fun rec hrec hns => ?_, fun b hb => ?_, h.merged⟩
    · rcases mem_concat_iff.1 hrec with hold | rfl
      · exact h.before hns rec hold
      · exact hns
    · rcases mem_append.1 hrec with hold | hnew
      · exact h.size rec hold hns
      · rw [mem_singleton.1 hnew] at hns ⊢
        rw [ha]
        exact hlog.hist_size hne hns hlen rid buffer
    · rcases AbortCertificate.ac_of_getD_add hb with hold | ⟨-, rfl⟩
      · obtain ⟨rec, hrec, hsame⟩ := h.own b hold
        exact ⟨rec, mem_append_left _ hrec, hsame⟩
      · exact ⟨_, mem_append_right _ (mem_singleton_self _), rfl, fun _ _ => rfl⟩
  | collect m aborts hs hm hver hadd =>
    refine ⟨h.before, h.size, fun b hb => ?_, h.merged⟩
    rcases AbortCertificate.ac_of_add hadd hb with hold | ⟨hid, rfl⟩
    · exact h.own b hold
    · exact (hm hver).1 hid
  | merge m aborts ah_2 missing hs hm hver hadd hfull hproc =>
    have hns : s.cur_state ≠ .stop := by rw [hs]; decide
    refine ⟨fun _ => h.before hns, h.size, nofun, fun _ => ⟨_, getLast?_concat, ?_⟩⟩
    have hmerged := Smasher.eq_merged_of_process hproc
    refine ⟨hmerged, ?_⟩
    -- the replica's own abort is in the set, and is one it broadcast
    obtain ⟨own, hown⟩ := Smasher.isSome_own_of_process hproc
    obtain ⟨hzero, hids⟩ := (hm hver).2 aborts hadd hfull own hown
    obtain ⟨rec, hrec, hsame⟩ : ∃ rec ∈ s.aborted, SameAbort rec.abort own := by
      rcases AbortCertificate.ac_of_add hadd hown with hold | ⟨hid, rfl⟩
      · exact h.own own hold
      · exact (hm hver).1 hid
    have hstate := h.before hns rec hrec
    show requestIds s.executed = elementIds ah_2
    rw [hmerged, ← hids, elementIds_of_complete (hlog.complete rec hrec hstate)
      (h.size rec hrec hstate) (hzero rec hrec hsame) hsame]
  | adopt hs =>
    have hns : s.cur_state ≠ .stop := by rw [hs]; decide
    exact ⟨fun _ => h.before hns, h.size, h.own, fun _ => h.merged (Or.inl hs)⟩
  | _ => exact h.of_eq rfl rfl rfl rfl rfl

theorem steps (h : OwnInv N id s) (hlog : LogInv N id s)
    (hsteps : LogSteps N id (MergesOwn N id) s s') : OwnInv N id s' := by
  induction hsteps with
  | refl => exact h
  | tail hsteps hstep ih => exact ih.step (hlog.steps hsteps) hstep

end OwnInv

/-! ## The switch -/

/-- What a run keeps: what was applied is what was executed, and every
switch was faithful. -/
structure Applying.Inv (id : ℕ) (a : Applying N) : Prop where
  log : LogInv N id a.replica.logState
  own : OwnInv N id a.replica.logState
  applied : a.applied = a.replica.executed
  faithful : ∀ sw ∈ a.switches, sw.merged = Smasher.merged N.n N.f sw.aborts ∧ sw.Faithful

namespace Applying.Inv

variable {id : ℕ} {a : Applying N}

theorem init (service : S) : (Applying.init N service).Inv id :=
  ⟨LogInv.init service, OwnInv.init service, rfl, nofun⟩

theorem step (h : a.Inv id) {e : CReplica.CEvent} (hunf : a.replica.OwnUnforged id e)
    (hok : a.replica.SwitchOk id e) : (a.step id e).Inv id := by
  obtain ⟨hdrained, hlate, hmerge⟩ := hok
  have hmsg : ∀ m ∈ a.replica.taken e, MergesOwn N id a.replica.logState m := by
    intro m hm
    cases m with
    | abort m =>
      exact fun hver => ⟨hunf _ hm hver, fun c hadd hfull own hown =>
        hmerge _ hm c hadd hfull own hown⟩
    | _ => trivial
  have hsteps := CReplica.step_sim hdrained hmsg
  have hlog : LogInv N id (a.step id e).replica.logState := h.log.steps hsteps
  have hown : OwnInv N id (a.step id e).replica.logState := h.own.steps h.log hsteps
  have happlied : (a.step id e).applied = (a.step id e).replica.executed := by
    show a.applied ++ a.replica.applies id e = (a.replica.step id e).executed
    rw [(a.replica.step_applies id e).2, h.applied]
    by_cases hs : a.replica.cur_state = .normal
    · rw [if_pos hs]
    · have hnone : a.replica.applies id e = [] := by
        unfold CReplica.applies
        rw [Option.isNone_iff_eq_none.1 (hlate hs)]
      rw [if_neg hs, hnone]
  refine ⟨hlog, hown, happlied, fun sw hsw => ?_⟩
  unfold Applying.step at hsw
  dsimp only at hsw
  split at hsw
  · exact h.faithful sw hsw
  rename_i hswitched
  rcases mem_append.1 hsw with hold | hnew
  · exact h.faithful sw hold
  -- the next instance was enabled, so the replica has stopped
  have hstop := (a.replica.switched_step id e).resolve_left hswitched
  obtain ⟨mg, hlast, hmerged, hids⟩ := hown.merged (Or.inr hstop)
  rw [show (a.replica.step id e).merges.getLast? = some mg from hlast] at hnew
  obtain rfl := mem_singleton.1 hnew
  refine ⟨hmerged, ?_⟩
  show requestIds (a.step id e).applied = elementIds mg.merged
  rw [happlied]
  exact hids

end Applying.Inv

/-- The correct replicas, each with its own run, applied the merged history
when they enabled the next instance; two that merged the same set applied
the same requests. -/
def ServiceFollows (N : RNode S) (byz : Finset ℕ) (service : S) (es : ℕ → List CReplica.CEvent) :
    Prop :=
  ∀ k, Correct N byz k → ∀ sw ∈ (exec (Applying.step k) (Applying.init N service) (es k)).switches,
    sw.Faithful ∧ ∀ k', Correct N byz k' →
      ∀ sw' ∈ (exec (Applying.step k') (Applying.init N service) (es k')).switches,
        sw.aborts = sw'.aborts → requestIds sw.applied = requestIds sw'.applied

/-- **The service after a switch.** In runs of the correct replicas where no
request is overtaken by a panic and each replica's own abort lists what is
merged, every replica applied the merged history, and those that merged the
same abort set start from the same requests. -/
theorem switch_applies_merged (N : RNode S) (byz : Finset ℕ) (service : S)
    (es : ℕ → List CReplica.CEvent)
    (hunf : ∀ k, Correct N byz k → Guarded (Applying.step k)
      (fun a e => a.replica.OwnUnforged k e) (Applying.init N service) (es k))
    (hok : ∀ k, Correct N byz k → Guarded (Applying.step k)
      (fun a e => a.replica.SwitchOk k e) (Applying.init N service) (es k)) :
    ServiceFollows N byz service es := by
  have hinv : ∀ k, Correct N byz k →
      (exec (Applying.step k) (Applying.init N service) (es k)).Inv k := fun k hk =>
    ((hunf k hk).and (hok k hk)).invariant (I := Applying.Inv k) (fun a e h hae => h.step hae.1 hae.2)
      (Applying.Inv.init service)
  intro k hk sw hsw
  obtain ⟨hmerged, hfaithful⟩ := (hinv k hk).faithful sw hsw
  refine ⟨hfaithful, fun k' hk' sw' hsw' hsame => ?_⟩
  obtain ⟨hmerged', hfaithful'⟩ := (hinv k' hk').faithful sw' hsw'
  calc requestIds sw.applied = elementIds sw.merged := hfaithful
    _ = elementIds sw'.merged := by rw [hmerged, hmerged', hsame]
    _ = requestIds sw'.applied := hfaithful'.symm

section Sample

/-- The abort of replica `k`, which executed the requests of `l`. -/
def abortListing (k : ℕ) (l : List CRequest) : Abort :=
  CAbort.ofHistory sampleRNode k 1 (logOf sampleRNode l) fun _ => ⟨0, 0, 0⟩

/-- The aborts of these replicas arrive. -/
def abortsArrive (as : List (ℕ × List CRequest)) : List CReplica.CEvent :=
  as.map fun p => .incoming (.abort (abortListing p.1 p.2)) false

/-- The replica panics and broadcasts its abort. -/
def panics : List CReplica.CEvent :=
  [.incoming (.panic 4 1) false, .abort 0 fun _ => ⟨0, 0, 0⟩]

/-- The head executes and logs the request and merges the aborts of the
others; replica `3` executed what is in `l`. -/
def headSwitches (l : List CRequest) : List CReplica.CEvent :=
  headExecutes ++ [.robust false, .robust false] ++ panics ++
    abortsArrive [(1, [passedOn []]), (2, [passedOn []]), (3, l)]

/-- Replica `3` has executed nothing; it fetches the request. -/
def lastFetches : List CReplica.CEvent :=
  panics ++ abortsArrive [(0, [passedOn []]), (1, [passedOn []]), (2, [passedOn []])] ++
    [.incoming (.getAGrip ⟨1, 4, 0, 1, passedOn []⟩) false]

/-- The runs of the replicas: the head's, and that of replica `3`. -/
def runsOf (head last : List CReplica.CEvent) : ℕ → List CReplica.CEvent
  | 0 => head
  | 3 => last
  | _ => []

theorem switch_applies_merged_head :
    ((exec (Applying.step 0) (Applying.init sampleRNode ())
      (headSwitches [passedOn []])).switches.map fun sw => (sw.applied.length, sw.merged.length)) =
        [(1, 1)] ∧
    ServiceFollows sampleRNode ∅ () (runsOf (headSwitches [passedOn []]) []) := by
  refine ⟨by decide +kernel, switch_applies_merged sampleRNode ∅ () _ (fun k _ => ?_) fun k _ => ?_⟩
  · unfold runsOf
    split
    · decide +kernel
    · trivial
    · trivial
  · unfold runsOf
    split
    · decide +kernel
    · trivial
    · trivial

/-- **Fetched requests are not applied.** Replica `3` was cut off before the
request reached it. It merges the same aborts as the head and fetches the
request, and it enables the next instance without having applied it. -/
theorem fetched_not_applied :
    let es := runsOf (headSwitches []) lastFetches
    let sws (k : ℕ) := (exec (Applying.step k) (Applying.init sampleRNode ()) (es k)).switches
    (∀ k, Correct sampleRNode ∅ k → Guarded (Applying.step k)
      (fun a e => a.replica.OwnUnforged k e) (Applying.init sampleRNode ()) (es k)) ∧
    (∃ sw ∈ sws 0, ∃ sw' ∈ sws 3, sw.aborts = sw'.aborts ∧ ¬ sw'.Faithful ∧
      requestIds sw.applied ≠ requestIds sw'.applied) ∧
    ¬ ServiceFollows sampleRNode ∅ () es := by
  intro es sws
  have hsws : ∃ sw ∈ sws 0, ∃ sw' ∈ sws 3, sw.aborts = sw'.aborts ∧ ¬ sw'.Faithful ∧
      requestIds sw.applied ≠ requestIds sw'.applied := by
    refine ⟨_, mem_singleton.2 rfl, _, mem_singleton.2 rfl, ?_, ?_, ?_⟩
    · funext i
      match i with
      | 0 => rfl
      | 1 => rfl
      | 2 => rfl
      | 3 => rfl
      | _ + 4 => rfl
    · show ¬ (requestIds _ = elementIds _)
      decide +kernel
    · decide +kernel
  refine ⟨fun k _ => ?_, hsws, fun h => ?_⟩
  · unfold es runsOf
    split
    · decide +kernel
    · decide +kernel
    · trivial
  · obtain ⟨sw, hsw, sw', hsw', -, hnot, -⟩ := hsws
    exact hnot (h 3 (by decide) sw' hsw').1

end Sample

end AbstractBFT.Chain
