import AbstractBFT.Chain.Fetch
import AbstractBFT.Chain.Phase
/-!
# Chain — waiting for missing requests

A replica that merged the aborts and misses some of the requests keeps
track of them in arrays beside `missing`, and holds the rest of the merged
history in its own. The arrays stay aligned whatever comes (`Aligned`). The
rest may go: `handle(C_Checkpoint)` truncates the history in any state, and
`missing` was computed from the replica's own abort in the certificate,
which can be older than the history.
-/

namespace AbstractBFT.Chain

open Machine List Option

namespace CReplica

variable {S : Type} {N : RNode S} {id : ℕ} {r r' : CReplica N}

/-! ## The invariant -/

/-- The history holds a request with this client, number and digest. -/
def InHistory (r : CReplica N) (e : AbortHistoryElement) : Prop :=
  ∃ entry ∈ r.rh.rh, entry.req.map CRequest.element = some e
  deriving Decidable

/-- "invariant: `num_missing = sum(missing_mask[i]==true)`", and the arrays
go together. `ah_2` is what the last merge made. -/
structure Aligned (r : CReplica N) : Prop where
  mask : r.missing_mask.length = r.missing.length
  store : r.missing_store.length = r.missing.length
  store_seq : r.missing_store_seq.length = r.missing.length
  num_missing : r.num_missing = r.missing_mask.count true
  slot : ∀ (i : ℕ) b q, r.missing_mask[i]? = some b → r.missing_store[i]? = some q →
    (q.isSome ↔ b = false)
  ah_2 : ∃ m, r.merges.getLast? = some m ∧ m.merged = r.ah_2

/-- **What a replica that waits has.** -/
structure Waits (r : CReplica N) : Prop extends Aligned r where
  covered : ∀ e ∈ r.ah_2, r.InHistory e ∨ e ∈ r.missing

/-! ## The arrays -/

theorem Aligned.calm (h : r.Aligned) (hc : Calm r r') : r'.Aligned := by
  have hpart := hc.part
  simp only [waitingPart, Prod.mk.injEq] at hpart
  obtain ⟨hah, hmissing, hmask, hstore, hseq, hnum⟩ := hpart
  refine ⟨?_, ?_, ?_, ?_, ?_, ?_⟩
  · rw [hmask, hmissing]
    exact h.mask
  · rw [hstore, hmissing]
    exact h.store
  · rw [hseq, hmissing]
    exact h.store_seq
  · rw [hnum, hmask]
    exact h.num_missing
  · rw [hmask, hstore]
    exact h.slot
  · rw [hc.merges, hah]
    exact h.ah_2

theorem aligned_afterMerge (r : CReplica N) (c : AbortCertificate)
    (ah_2 missing : AbortHistory) : (r.afterMerge c ah_2 missing).Aligned := by
  unfold afterMerge
  refine ⟨by simp, by simp, by simp, ?_, fun i b q hb hq => ?_, _, getLast?_concat, rfl⟩
  · simp [count_replicate_self]
  · rw [getElem?_map] at hb hq
    obtain ⟨e, -, rfl⟩ := map_eq_some_iff.1 hb
    obtain ⟨e', -, rfl⟩ := map_eq_some_iff.1 hq
    simp

/-- A request that is fetched is taken off the mask and put into the store
at the same place. -/
theorem Aligned.fetch (h : r.Aligned) {m : CGetAGrip} {i : ℕ} (hi : r.findMissing m = some i) :
    (r.afterGrip m i).Aligned := by
  obtain ⟨e, he, hmask, -⟩ := findMissing_eq_some hi
  obtain ⟨hlt, hget⟩ := List.getElem?_eq_some_iff.1 hmask
  refine ⟨List.length_set.trans h.mask, List.length_set.trans h.store,
    List.length_set.trans h.store_seq, ?_, fun j b q hb hq => ?_, h.ah_2⟩
  · show r.num_missing - 1 = (r.missing_mask.set i false).count true
    rw [count_set hlt, hget, h.num_missing]
    simp
  · unfold afterGrip at hb hq
    by_cases hij : i = j
    · subst hij
      have hlt' : i < r.missing_store.length := by rw [h.store, ← h.mask]; exact hlt
      rw [getElem?_set_self hlt] at hb
      rw [getElem?_set_self hlt'] at hq
      rw [← some.inj hb, ← some.inj hq]
      simp
    · rw [getElem?_set_ne hij] at hb hq
      exact h.slot j b q hb hq

/-- Enabling a replica does not make it wait. -/
theorem enableReplica_eq_of_miswaiting {state : Bool}
    (hs : (r.enableReplica state).cur_state = .miswaiting) : r.enableReplica state = r := by
  unfold enableReplica at hs ⊢
  split at hs
  · split at hs
    · rename_i hheld
      rw [if_pos hheld]
    · cases hs
  · cases hs
  · cases hs
  · rfl

section

variable (h : r.cur_state = .miswaiting → r.Aligned)

include h

theorem aligned_handleAbort (m : Abort) (hs : (r.handleAbort id m).cur_state = .miswaiting) :
    (r.handleAbort id m).Aligned := by
  have hmove := r.abortMove_handleAbort id m
  generalize r.handleAbort id m = r' at hs hmove ⊢
  cases hmove with
  | dropped => exact h hs
  | collect c hpanic =>
    rw [show _ = ReplicaState.panicking from hpanic] at hs
    cases hs
  | adopt => cases hs
  | wait c ah_2 missing =>
    have h := r.aligned_afterMerge c ah_2 missing
    exact ⟨h.1, h.2, h.3, h.4, h.5, h.6⟩

theorem aligned_handleGetAGrip (m : CGetAGrip) (hs : (r.handleGetAGrip m).cur_state = .miswaiting) :
    (r.handleGetAGrip m).Aligned := by
  have hmove := r.gripMove_handleGetAGrip m
  generalize r.handleGetAGrip m = r' at hs hmove ⊢
  cases hmove with
  | dropped => exact h hs
  | fetch i hwait hi => exact (h hwait).fetch hi
  | adopt => cases hs

theorem aligned_step {e : CEvent} (hs : (r.step id e).cur_state = .miswaiting) :
    (r.step id e).Aligned := by
  rcases r.step_phase id e with hframe | ⟨queue, m, -, heq⟩ | ⟨queue, m, -, heq⟩
  · have hcalm := hframe.calm
    rcases hcalm.state with hsame | hpanic
    · exact (h (hsame ▸ hs)).calm hcalm
    · rw [hpanic] at hs
      cases hs
  · rw [heq] at hs ⊢
    exact aligned_handleAbort (r := r.popped queue)
      (fun hw => (h hw).calm ⟨rfl, rfl, rfl, Or.inl rfl⟩) m hs
  · rw [heq] at hs ⊢
    exact aligned_handleGetAGrip (r := r.popped queue)
      (fun hw => (h hw).calm ⟨rfl, rfl, rfl, Or.inl rfl⟩) m hs

/-- **The arrays stay aligned**, whatever the replica does. -/
theorem aligned_act {a : Activity} (hs : (r.act id a).cur_state = .miswaiting) :
    (r.act id a).Aligned := by
  cases a with
  | move e => exact aligned_step h hs
  | enable state =>
    have heq : r.act id (.enable state) = r := enableReplica_eq_of_miswaiting hs
    rw [heq] at hs ⊢
    exact h hs

end

/-! ## What a move does to the history and the certificate -/

/-- This move calls `truncate_history`: a checkpoint message completes its
set, or the request that is appended reaches a checkpoint that is stable
already. -/
def truncates (r : CReplica N) (id : ℕ) : CEvent → Bool
  | .incoming (.checkpoint c) _ => r.completes id c
  | .robust _ =>
    match r.robustThread, r.robust_messages_queue with
    | .checkpointing c, _ => r.completes id c
    | .logging q, _ =>
      let rh := logRequest N r.rh q q.rep.seq_num
      rh.shouldCheckpoint && decide (rh.getTopSeqno ≤ r.last_chkp_seqno)
    | .idle, .checkpoint c :: _ => r.completes id c
    | _, _ => false
  | _ => false

def historyPart (r : CReplica N) := (r.rh, r.aborts)

theorem historyPart_handlePanic (r : CReplica N) (id : ℕ) (cid : ℤ) (rid : ℕ) :
    (r.handlePanic id cid rid).historyPart = r.historyPart := by
  unfold handlePanic
  dsimp only
  split
  · split <;> rfl
  · split <;> rfl

theorem historyPart_of_steady (h : r'.steadyPart = r.steadyPart) :
    r'.historyPart = r.historyPart := by
  simp only [steadyPart, Prod.mk.injEq] at h
  exact Prod.ext h.2.2.2.2.1 h.2.2.2.2.2.1

theorem historyPart_handleCheckpoint (r : CReplica N) (id : ℕ) (c : CCheckpoint) (panics : Bool) :
    (r.handleCheckpoint id c panics).historyPart =
      if r.completes id c then (r.truncate c.seqid).historyPart else r.historyPart := by
  unfold handleCheckpoint completes
  cases hcset : r.admitCheckpoint id c with
  | none =>
    dsimp only
    split <;> rfl
  | some cset =>
    dsimp only
    by_cases hn : cset.n = 2 * N.f + 1
    · have hbeq : (cset.n == 2 * N.f + 1) = true := by simpa using hn
      rw [if_pos hn, if_pos hbeq]
      split
      · exact historyPart_handlePanic ..
      · rfl
    · have hbeq : ¬ (cset.n == 2 * N.f + 1) = true := by simpa using hn
      rw [if_neg hn, if_neg hbeq]
      rfl

/-- What a move comes down to for the history and the certificate. -/
inductive HistoryMove (id : ℕ) (r : CReplica N) (e : CEvent) (r' : CReplica N) : Prop where
  | kept (h : r'.historyPart = r.historyPart)
  | log (q : CRequest) (h : r'.historyPart = (logRequest N r.rh q q.rep.seq_num, r.aborts))
  | truncate (htrunc : r.truncates id e = true) (haborts : r'.aborts = r.aborts)
      (hrh : ∀ entry ∈ r'.rh.rh, entry ∈ r.rh.rh ∨ entry.req.isSome)
  | broadcast (rid : ℕ) (buffer : ℕ → AbortHistoryElement)
      (h : r'.historyPart =
        (r.rh, (r.aborts.add (CAbort.ofHistory N id rid r.rh buffer)).getD r.aborts))
  | abort (queue : List RMessage) (m : Abort) (htaken : r.taken e = some (.abort m))
      (heq : r' = (r.popped queue).handleAbort id m)
  | getAGrip (queue : List RMessage) (m : CGetAGrip) (htaken : r.taken e = some (.getAGrip m))
      (heq : r' = (r.popped queue).handleGetAGrip m)

theorem mem_rh_truncate {entry : RhEntry CRequest} {seq : ℕ}
    (h : entry ∈ (r.truncate seq).rh.rh) : entry ∈ r.rh.rh := by
  unfold CReplica.truncate at h
  split at h
  · exact h
  rename_i rh hrh
  have hsuffix := ReqHistoryLog.truncateHistory_getD_suffix r.rh seq
  rw [hrh] at hsuffix
  exact hsuffix.mem h

theorem aborts_truncate (seq : ℕ) : (r.truncate seq).aborts = r.aborts := by
  unfold CReplica.truncate
  split <;> rfl

variable {e : CEvent} {c : CCheckpoint}

theorem historyMove_checkpoint (panics : Bool) (hpart : r'.historyPart = r.historyPart)
    (hcomp : r'.completes id c = r.completes id c)
    (htrunc : r.completes id c = true → r.truncates id e = true) :
    HistoryMove id r e (r'.handleCheckpoint id c panics) := by
  have h := historyPart_handleCheckpoint r' id c panics
  rw [hcomp] at h
  by_cases hc : r.completes id c = true
  swap
  · rw [if_neg hc] at h
    exact .kept (h.trans hpart)
  rw [if_pos hc] at h
  simp only [historyPart, Prod.mk.injEq] at h hpart
  refine .truncate (htrunc hc) ?_ fun entry he => Or.inl ?_
  · rw [h.2, aborts_truncate, hpart.2]
  · rw [h.1] at he
    exact hpart.1 ▸ mem_rh_truncate he

theorem historyMove_logExecuted {q : CRequest} (htrunc : r.truncates id e = true ↔
      (logRequest N r.rh q q.rep.seq_num).shouldCheckpoint = true ∧
        (logRequest N r.rh q q.rep.seq_num).getTopSeqno ≤ r.last_chkp_seqno) :
    HistoryMove id r e (r.logExecuted id q) := by
  unfold logExecuted
  dsimp only
  split
  · rename_i hshould
    split
    · rename_i htop
      refine .truncate (htrunc.2 ⟨hshould, htop⟩) (aborts_truncate _) fun entry he => ?_
      have hmem := mem_rh_truncate he
      rcases mem_append.1 (show entry ∈ r.rh.rh ++ [_] from hmem) with hold | hnew
      · exact Or.inl hold
      · rw [mem_singleton.1 hnew]
        exact Or.inr rfl
    · exact .log q rfl
  · exact .log q rfl

theorem truncates_of_taken (h : r.taken e = some (.checkpoint c)) (hc : r.completes id c = true) :
    r.truncates id e = true := by
  unfold taken at h
  unfold truncates
  split at h
  · split at h
    · rw [some.inj h]
      exact hc
    · cases h
  · split at h
    · next hidle hqueue =>
      rw [hidle, hqueue, some.inj h]
      exact hc
    · cases h
  · cases h

/-- **Every move, sorted by what it does to the history and the
certificate.** -/
theorem step_history (r : CReplica N) (id : ℕ) (e : CEvent) : HistoryMove id r e (r.step id e) := by
  have hdeed := r.step_deed id e
  generalize r.step id e = r' at hdeed ⊢
  cases hdeed with
  | forward req => exact .kept (historyPart_of_steady (steadyPart_forwardStopped r id req))
  | request unonce => exact .kept (historyPart_of_steady (steadyPart_requestMove r id unonce))
  | log q panics hthread =>
    refine historyMove_logExecuted ?_
    unfold truncates
    rw [hthread]
    simp
  | own c panics hthread =>
    have hpart : (r.sends c).historyPart = r.historyPart := rfl
    refine historyMove_checkpoint panics hpart rfl fun hc => ?_
    unfold truncates
    rw [hthread]
    exact hc
  | handle e m panics queue htaken =>
    cases m with
    | checkpoint c => exact historyMove_checkpoint panics rfl rfl (truncates_of_taken htaken)
    | panic cid rid => exact .kept (historyPart_handlePanic ..)
    | abort m => exact .abort queue m htaken rfl
    | getAGrip m => exact .getAGrip queue m htaken rfl
    | _ => exact .kept rfl
  | timeout => exact .kept (historyPart_handlePanic ..)
  | abort i buffer =>
    unfold broadcastAbort
    split
    · exact .kept rfl
    · exact .broadcast _ buffer rfl
  | _ => exact .kept rfl

/-! ## The coverage -/

/-- An abort that names the replica itself lists only what its history
holds. -/
def OwnCurrent (id : ℕ) (r : CReplica N) : RMessage → Prop
  | .abort m => r.cur_state = .panicking → m.rep.replica.toNat = id →
      ∀ e ∈ m.history, r.InHistory e
  | _ => True

instance (id : ℕ) (r : CReplica N) (m : RMessage) : Decidable (r.OwnCurrent id m) := by
  apply @m.casesOn <;> intros <;> dsimp only [OwnCurrent] <;> infer_instance

/-- **What a move must meet.** From when its own abort is in the certificate
until it stops, the replica does not truncate its history; what it takes for
its own abort is of that history; and no abort is left in its place when it
is enabled again. -/
def HistoryStays (id : ℕ) (r : CReplica N) : Activity → Prop
  | .move e =>
    (r.cur_state ≠ .stop → r.cur_state = .miswaiting ∨ (r.aborts.ac id).isSome →
      r.truncates id e = false) ∧ ∀ m ∈ r.taken e, r.OwnCurrent id m
  | .enable state => state = true → r.cur_state = .stop → (r.aborts.ac id).isNone

instance (id : ℕ) (r : CReplica N) (a : Activity) : Decidable (r.HistoryStays id a) := by
  apply @a.casesOn <;> intros <;> dsimp only [HistoryStays] <;> infer_instance

/-- **What the history covers**, until the replica stops: the replica's own
abort in the certificate, and what a merge did not find missing. -/
structure Covers (id : ℕ) (r : CReplica N) : Prop where
  all_some : r.cur_state ≠ .stop → ∀ entry ∈ r.rh.rh, entry.req.isSome
  own : r.cur_state ≠ .stop → ∀ own, r.aborts.ac id = some own → ∀ e ∈ own.history, r.InHistory e
  merged : r.cur_state = .miswaiting → ∀ e ∈ r.ah_2, r.InHistory e ∨ e ∈ r.missing

namespace Covers

theorem init (service : S) : Covers id (CReplica.init N service) where
  all_some _ := nofun
  own _ := nofun
  merged := nofun

/-- A replica that stopped has nothing to cover. -/
theorem of_stop (hs : r.cur_state = .stop) : Covers id r where
  all_some h := absurd hs h
  own h := absurd hs h
  merged h := by
    rw [hs] at h
    cases h

variable (h : Covers id r)

include h

/-- An abort that is built from the history lists what is in it. -/
theorem inHistory_ofHistory (hs : r.cur_state ≠ .stop) {rid : ℕ} {buffer : ℕ → AbortHistoryElement}
    {e : AbortHistoryElement} (he : e ∈ (CAbort.ofHistory N id rid r.rh buffer).history) :
    r.InHistory e := by
  obtain ⟨i, hi, rfl⟩ := mem_map.1 he
  have hsize : (CAbort.ofHistory N id rid r.rh buffer).rep.hist_size = r.rh.rh.length % 2 ^ 16 :=
    rfl
  rw [hsize, mem_range] at hi
  have hlt : i < r.rh.rh.length := hi.trans_le (Nat.mod_le _ _)
  have hmem : r.rh.rh[i] ∈ r.rh.rh := getElem_mem hlt
  obtain ⟨q, hq⟩ := isSome_iff_exists.1 (h.all_some hs _ hmem)
  have hget : r.rh.rh[i]? = some ⟨some q, r.rh.rh[i].seq, r.rh.rh[i].d_h⟩ := by
    rw [getElem?_eq_getElem hlt, ← hq]
  refine ⟨r.rh.rh[i], hmem, ?_⟩
  rw [elems_ofHistory (h.all_some hs) hget, hq]
  rfl

/-- **A merge**: what it does not find missing the own abort lists. -/
theorem handleAbort (m : Abort) (hm : r.OwnCurrent id (.abort m)) :
    Covers id (r.handleAbort id m) := by
  have hmove := r.abortMove_handleAbort id m
  generalize r.handleAbort id m = r' at hmove ⊢
  have hown : ∀ c, r.cur_state = .panicking → r.aborts.add m = some c →
      ∀ own, c.ac id = some own → ∀ e ∈ own.history, r.InHistory e := by
    intro c hs hadd own hac
    rcases AbortCertificate.ac_of_add hadd hac with hold | ⟨hid, rfl⟩
    · exact h.own (by rw [hs]; decide) own hold
    · exact hm hs hid
  cases hmove with
  | dropped => exact h
  | collect c hs _ hadd => exact ⟨h.all_some, fun _ => hown c hs hadd, h.merged⟩
  | adopt => exact .of_stop rfl
  | wait c ah_2 missing sent _ hs _ hadd _ hproc =>
    refine ⟨fun _ => h.all_some (by rw [hs]; decide), nofun, fun _ e he => ?_⟩
    by_cases hmem : e ∈ missing
    · exact Or.inr hmem
    · obtain ⟨own, hac, hin⟩ := Smasher.mem_own_of_process hproc he hmem
      exact Or.inl (hown c hs hadd own hac e hin)

theorem handleGetAGrip (m : CGetAGrip) : Covers id (r.handleGetAGrip m) := by
  have hmove := r.gripMove_handleGetAGrip m
  generalize r.handleGetAGrip m = r' at hmove ⊢
  cases hmove with
  | dropped => exact h
  | fetch => exact ⟨h.all_some, h.own, h.merged⟩
  | adopt => exact .of_stop rfl

/-- A replica that is enabled again has an empty history, and no abort of
its own. -/
theorem enableReplica {state : Bool} (hok : r.HistoryStays id (.enable state)) :
    Covers id (r.enableReplica state) := by
  unfold CReplica.enableReplica
  split
  · rename_i hs
    split
    · exact h
    · refine ⟨nofun, fun _ own hown => ?_, nofun⟩
      have hnone : r.aborts.ac id = none := isNone_iff_eq_none.1 (hok rfl hs)
      rw [show r.aborts.ac id = some own from hown] at hnone
      cases hnone
  · exact .of_stop rfl
  · exact .of_stop rfl
  · exact h

section

variable {panic : Bool} (hframe : PanicFrame panic r r')

include hframe

/-- The history grows, and nothing else happens. -/
theorem grow (haborts : r'.aborts = r.aborts)
    (hrh : ∀ entry ∈ r'.rh.rh, entry ∈ r.rh.rh ∨ entry.req.isSome) (hsub : r.rh.rh ⊆ r'.rh.rh) :
    Covers id r' := by
  have hpart := hframe.part
  simp only [waitingPart, Prod.mk.injEq] at hpart
  have hin : ∀ e, r.InHistory e → r'.InHistory e := by
    rintro e ⟨entry, hmem, he⟩
    exact ⟨entry, hsub hmem, he⟩
  have hstop := hframe.ne_stop
  refine ⟨fun hne entry he => ?_, fun hne own hown e he => ?_, fun hs e he => ?_⟩
  · rcases hrh entry he with hold | hnew
    · exact h.all_some (hstop hne) entry hold
    · exact hnew
  · rw [haborts] at hown
    exact hin e (h.own (hstop hne) own hown e he)
  · rcases hframe.state with heq | ⟨-, -, hpanic⟩
    · rw [hpart.1] at he
      rw [hpart.2.1]
      exact (h.merged (heq ▸ hs) e he).imp_left (hin e)
    · rw [hpanic] at hs
      cases hs

/-- The history may be truncated while there is nothing to cover. -/
theorem shrink (haborts : r'.aborts = r.aborts)
    (hrh : ∀ entry ∈ r'.rh.rh, entry ∈ r.rh.rh ∨ entry.req.isSome)
    (hno : r.cur_state ≠ .stop → r.cur_state ≠ .miswaiting ∧ r.aborts.ac id = none) :
    Covers id r' := by
  have hstop := hframe.ne_stop
  refine ⟨fun hne entry he => ?_, fun hne own hown => ?_, fun hs => ?_⟩
  · rcases hrh entry he with hold | hnew
    · exact h.all_some (hstop hne) entry hold
    · exact hnew
  · rw [haborts, (hno (hstop hne)).2] at hown
    cases hown
  · have hne : r'.cur_state ≠ .stop := by rw [hs]; decide
    rcases hframe.state with heq | ⟨-, -, hpanic⟩
    · exact absurd (heq ▸ hs) (hno (hstop hne)).1
    · rw [hpanic] at hs
      cases hs

/-- The own abort is built from the history and joins the certificate. -/
theorem broadcast {rid : ℕ} {buffer : ℕ → AbortHistoryElement} (hrh : r'.rh = r.rh)
    (haborts : r'.aborts =
      (r.aborts.add (CAbort.ofHistory N id rid r.rh buffer)).getD r.aborts) : Covers id r' := by
  have hsame : Covers id { r' with aborts := r.aborts } := by
    have hframe' : PanicFrame panic r { r' with aborts := r.aborts } :=
      ⟨hframe.part, hframe.merges, hframe.switched, hframe.state⟩
    refine h.grow hframe' rfl (fun entry he => Or.inl ?_) ?_
    · exact hrh ▸ he
    · exact hrh ▸ List.Subset.refl _
  have hin : ∀ e, r.InHistory e → r'.InHistory e := by
    unfold InHistory
    rw [hrh]
    exact fun _ he => he
  refine ⟨hsame.all_some, fun hne own hown e he => ?_, hsame.merged⟩
  rw [haborts] at hown
  have hne' := hframe.ne_stop hne
  rcases AbortCertificate.ac_of_getD_add hown with hold | ⟨-, rfl⟩
  · exact hin e (h.own hne' own hold e he)
  · exact hin e (h.inHistory_ofHistory hne' he)

end

theorem step {e : CEvent} (hok : r.HistoryStays id (.move e)) : Covers id (r.step id e) := by
  have hpop : ∀ queue, Covers id (r.popped queue) :=
    fun _ => ⟨h.all_some, h.own, h.merged⟩
  obtain ⟨htrunc, hown⟩ := hok
  rcases r.step_phase id e with hframe | ⟨queue, m, htaken, heq⟩ | ⟨queue, m, htaken, heq⟩
  swap
  · rw [heq]
    exact (hpop queue).handleAbort m (hown _ htaken)
  swap
  · rw [heq]
    exact (hpop queue).handleGetAGrip m
  have hhistory := r.step_history id e
  generalize r.step id e = r' at hframe hhistory ⊢
  cases hhistory with
  | kept hpart =>
    obtain ⟨hrh, haborts⟩ := Prod.mk.inj hpart
    exact h.grow hframe haborts (fun _ he => Or.inl (hrh ▸ he)) (hrh ▸ List.Subset.refl _)
  | log q hpart =>
    obtain ⟨hrh, haborts⟩ := Prod.mk.inj hpart
    have hentries : r'.rh.rh = r.rh.rh ++ [_] := congrArg ReqHistoryLog.rh hrh
    refine h.grow hframe haborts (fun entry he => ?_) ?_
    · rw [hentries] at he
      rcases mem_concat_iff.1 he with hold | rfl
      · exact Or.inl hold
      · exact Or.inr rfl
    · rw [hentries]
      exact subset_append_left _ _
  | truncate htruncates haborts hrh =>
    refine h.shrink hframe haborts hrh fun hne => ?_
    have hnot := fun hor => Bool.false_ne_true ((htrunc hne hor).symm.trans htruncates)
    refine ⟨fun hs => hnot (Or.inl hs), ?_⟩
    exact not_isSome_iff_eq_none.1 fun hsome => hnot (Or.inr hsome)
  | broadcast rid buffer hpart =>
    obtain ⟨hrh, haborts⟩ := Prod.mk.inj hpart
    exact h.broadcast hframe hrh haborts
  | abort queue m htaken heq =>
    rw [heq]
    exact (hpop queue).handleAbort m (hown _ htaken)
  | getAGrip queue m _ heq =>
    rw [heq]
    exact (hpop queue).handleGetAGrip m

theorem act {a : Activity} (hok : r.HistoryStays id a) : Covers id (r.act id a) := by
  cases a with
  | move e => exact h.step hok
  | enable state => exact h.enableReplica hok
end Covers

/-- **A replica that waits for missing requests** has their arrays aligned
and everything else of the merged history in its own, in every run over any
number of activations in which the history stays. -/
theorem waiting_for_missing (N : RNode S) (id : ℕ) (service : S) (es : List Activity)
    (h : Guarded (act id) (HistoryStays id) (init N service) es)
    (hs : (exec (act id) (init N service) es).cur_state = .miswaiting) :
    (exec (act id) (init N service) es).Waits := by
  have haligned : (exec (act id) (init N service) es).cur_state = .miswaiting →
      (exec (act id) (init N service) es).Aligned :=
    exec_invariant (I := fun r : CReplica N => r.cur_state = .miswaiting → r.Aligned)
      (fun _ _ h hs => aligned_act h hs) (fun hs => by cases hs) es
  have hcovers : Covers id (exec (act id) (init N service) es) :=
    h.invariant (I := Covers id) (fun _ _ h hok => h.act hok) (Covers.init service)
  exact ⟨haligned hs, hcovers.merged hs⟩

/-- The head executes and logs the first request; the others executed two. -/
def headWaits : List Activity :=
  (headExecutes ++ [CEvent.robust false, .robust false] ++ panics ++
    abortsArrive ([1, 2, 3].map fun k => (k, [passedOn [], secondPassedOn]))).map .move

theorem waiting_for_missing_head :
    let r := exec (act 0) (init sampleRNode ()) headWaits
    r.cur_state = .miswaiting ∧ r.ah_2.length = 2 ∧ r.missing.length = 1 ∧ r.Waits := by
  intro r
  have hs : r.cur_state = .miswaiting := by decide +kernel
  exact ⟨hs, by decide +kernel, by decide +kernel,
    waiting_for_missing sampleRNode 0 () headWaits (by decide +kernel) hs⟩

/-- **A checkpoint takes away what the replica relies on.** The first
request gets stable while the head waits for the second. It is neither in
the history nor missing, and when the second one comes the new history
lacks it. -/
theorem waiting_truncated :
    let r := exec (act 0) (init sampleRNode ()) (headWaits ++ checkpointsFor 1)
    let adopted := r.act 0 (.move (.incoming (.getAGrip ⟨2, 4, 1, 2, secondPassedOn⟩) false))
    r.cur_state = .miswaiting ∧ ¬ r.Waits ∧
      adopted.cur_state = .stop ∧ adopted.rh.rh.length < r.ah_2.length := by
  intro r adopted
  have hlost : ∃ e ∈ r.ah_2, ¬ (r.InHistory e ∨ e ∈ r.missing) := by decide +kernel
  refine ⟨by decide +kernel, fun h => ?_, by decide +kernel, by decide +kernel⟩
  obtain ⟨e, he, hnot⟩ := hlost
  exact hnot (h.covered e he)

end CReplica

end AbstractBFT.Chain
