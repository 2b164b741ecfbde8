import AbstractBFT.Chain.Adopt
import AbstractBFT.Chain.Commit
/-!
# Chain — committed requests survive the switch

When the instance panics, every replica merges the abort histories of a
set of replicas. The smasher votes position by position, so the aborts of
the correct replicas have to start at the same checkpoint; where they do,
every committed request above the last truncation is in every merged
history, at the place its sequence number gives
(`committed_survive_switch`).

`KeepsHistory` is what a replica that left state `NORMAL` keeps of a
sequence `R` that was executed first everywhere, `CertInv` what it knows
about its abort set. `SwitchInv` joins them for the whole system, for
every `R` that the replicas which left `NORMAL` executed first: a later
commit can only make `R` longer by what they all executed.
-/

namespace AbstractBFT.Chain

open Function Machine List Option

variable {S : Type} {N : RNode S} {R : List CRequest}

/-! ## One replica -/

section Replica

variable {id : ℕ} {s s' : LogState N}

/-- What a replica keeps of `R` once it left state `NORMAL`. -/
structure KeepsHistory (N : RNode S) (R : List CRequest) (s : LogState N) : Prop where
  aborts : ∀ a ∈ s.aborted, AbortFrom N R a
  stopped : s.cur_state = .stop → HistFrom N R s.truncated s.rh.rh
  waiting : s.cur_state = .miswaiting →
    ∃ b ≤ s.truncated, (elementsOf N R).drop b <+: s.ah_2
  fetched : s.cur_state = .miswaiting → ∀ q, some q ∈ s.missing_store → ∀ q' ∈ R,
    ¬ (q.rep.cid = q'.rep.cid ∧ q.rep.rid = q'.rep.rid)

/-- What the message must give: an abort that completes the set makes a
merged history that goes on from `R`, and a get-a-grip brings no request
of `R`. -/
def GoesOn (N : RNode S) (R : List CRequest) (id : ℕ) (s : LogState N) : RMessage → Prop
  | .abort m => ∀ aborts ah_2 missing, s.cur_state = .panicking → CAbort.verify N m →
      s.aborts.add m = some aborts → 3 * N.f + 1 ≤ aborts.count →
      Smasher.process N.n N.f aborts.ac id = some (ah_2, missing) →
      ∃ b ≤ s.truncated, (elementsOf N R).drop b <+: ah_2
  | .getAGrip m => s.cur_state = .miswaiting → ∀ q ∈ R,
      ¬ (m.stored_request.rep.cid = q.rep.cid ∧ m.stored_request.rep.rid = q.rep.rid)
  | _ => True

variable {P : LogState N → RMessage → Prop}

/-- A step executes at the end, and nothing outside state `NORMAL`. -/
theorem LogStep.executed (h : LogStep N id P s s') :
    s.executed <+: s'.executed ∧
      (s.cur_state ≠ .normal → s'.cur_state ≠ .normal ∧ s'.executed = s.executed) := by
  cases h with
  | execute q seqno hs hseq hq => exact ⟨prefix_append _ _, fun h => absurd hs h⟩
  | leave hs hh hq => exact ⟨prefix_rfl, fun h => absurd hs h⟩
  | repanic hs => exact ⟨prefix_rfl, fun _ => ⟨by simp, rfl⟩⟩
  | merge m aborts ah_2 missing hs hm hver hadd hfull hproc =>
    exact ⟨prefix_rfl, fun _ => ⟨by simp, rfl⟩⟩
  | adopt hs => exact ⟨prefix_rfl, fun _ => ⟨by simp, rfl⟩⟩
  | _ => exact ⟨prefix_rfl, fun h => ⟨h, rfl⟩⟩

theorem LogSteps.aborted (h : LogSteps N id P s s') : s.aborted <+: s'.aborted := by
  induction h with
  | refl => exact prefix_rfl
  | tail _ hstep ih =>
    refine ih.trans ?_
    cases hstep with
    | abort rid toAbort buffer a ha hrid hlen => exact prefix_append _ _
    | _ => exact prefix_rfl

theorem LogSteps.executed (h : LogSteps N id P s s') :
    s.executed <+: s'.executed ∧
      (s.cur_state ≠ .normal → s'.cur_state ≠ .normal ∧ s'.executed = s.executed) := by
  induction h with
  | refl => exact ⟨prefix_rfl, fun h => ⟨h, rfl⟩⟩
  | tail _ hstep ih =>
    obtain ⟨hpre, hsame⟩ := hstep.executed
    refine ⟨ih.1.trans hpre, fun hne => ?_⟩
    obtain ⟨hne', heq⟩ := ih.2 hne
    obtain ⟨hne'', heq'⟩ := hsame hne'
    exact ⟨hne'', heq'.trans heq⟩

namespace KeepsHistory

theorem init (service : S) : KeepsHistory N R (CReplica.init N service).logState where
  aborts := by intro a ha; simp [CReplica.logState, CReplica.init] at ha
  stopped := by intro h; cases h
  waiting := by intro h; cases h
  fetched := by intro h; cases h

variable (h : KeepsHistory N R s)
include h

/-- Nothing to show while the replica is in state `NORMAL` or
`PANICKING`. -/
theorem of_state (haborted : s'.aborted = s.aborted) (hns : s'.cur_state ≠ .stop)
    (hnm : s'.cur_state ≠ .miswaiting) : KeepsHistory N R s' :=
  ⟨by rw [haborted]; exact h.aborts, fun h' => absurd h' hns, fun h' => absurd h' hnm,
    fun h' => absurd h' hnm⟩

/-- The fetched requests of the store. -/
theorem not_mem_store (hs : s.cur_state = .miswaiting) :
    ∀ p ∈ s.store, ∀ q ∈ R, ¬ (p.1.rep.cid = q.rep.cid ∧ p.1.rep.rid = q.rep.rid) := by
  intro p hp q hq
  obtain ⟨⟨req, seq⟩, hmem, hreq⟩ := mem_filterMap.1 hp
  obtain ⟨req', rfl, rfl⟩ := map_eq_some_iff.1 hreq
  exact h.fetched hs req' (of_mem_zip hmem).1 q hq

theorem step (hlog : LogInv N id s) (hstep : LogStep N id (GoesOn N R id) s s')
    (hids : s'.executed.Pairwise fun p q => p.rep.cid = q.rep.cid → p.rep.rid < q.rep.rid)
    (hR : s'.cur_state ≠ .normal → R.map CRequest.rep <+: s'.executed.map CRequest.rep) :
    KeepsHistory N R s' := by
  have hhand : ∀ q, s.inHand = [q] → s.cur_state = .normal := by
    intro q hq
    by_contra hne
    rw [hlog.drained hne] at hq
    cases hq
  cases hstep with
  | execute q seqno hs hseq hq => exact h.of_state rfl (by simp [hs]) (by simp [hs])
  | executeLate q seqno hs => exact ⟨h.aborts, h.stopped, h.waiting, h.fetched⟩
  | take q queued hs hh hq => exact h.of_state rfl (by simp [hs]) (by simp [hs])
  | discard q queued hs hq => exact ⟨h.aborts, h.stopped, h.waiting, h.fetched⟩
  | log q hh => exact h.of_state rfl (by simp [hhand q hh]) (by simp [hhand q hh])
  | logTruncate q rh hh ht => exact h.of_state rfl (by simp [hhand q hh]) (by simp [hhand q hh])
  | truncate seq rh ht hlt =>
    have hlt' : s.truncated < seq := lt_of_le_of_lt hlog.truncated_le_chkp hlt
    refine ⟨h.aborts, fun hs => (h.stopped hs).truncate hlt' ht, fun hs => ?_, h.fetched⟩
    obtain ⟨b, hb, hpre⟩ := h.waiting hs
    exact ⟨b, hb.trans hlt'.le, hpre⟩
  | checkpoint seq hlt => exact ⟨h.aborts, h.stopped, h.waiting, h.fetched⟩
  | leave hs hh hq => exact h.of_state rfl (by simp) (by simp)
  | repanic hs => exact h.of_state rfl (by simp) (by simp)
  | ask rid hs => exact ⟨h.aborts, h.stopped, h.waiting, h.fetched⟩
  | abort rid toAbort buffer a ha hrid hlen =>
    refine ⟨fun rec hrec => ?_, h.stopped, h.waiting, h.fetched⟩
    rcases mem_append.1 hrec with hrec | hrec
    · exact h.aborts rec hrec
    rw [mem_singleton.1 hrec, ha]
    have hne : s.cur_state ≠ .normal := by
      intro hs
      rw [(hlog.quiet hs).1] at hrid
      cases hrid
    by_cases hstop : s.cur_state = .stop
    · exact .of_histFrom (h.stopped hstop) hlen _ rid buffer _
    · exact .of_complete (hlog.complete_ofHistory hne hstop hlen rid buffer) (hR hne)
  | collect m aborts hs hm hver hadd => exact h.of_state rfl (by simp [hs]) (by simp [hs])
  | merge m aborts ah_2 missing hs hm hver hadd hfull hproc =>
    refine ⟨h.aborts, fun h' => absurd h' (by simp), fun _ => ?_, fun _ q hq => ?_⟩
    · exact hm aborts ah_2 missing hs hver hadd hfull hproc
    · simp at hq
  | fetch m i hs hm =>
    refine ⟨h.aborts, h.stopped, h.waiting, fun _ q hq => ?_⟩
    rcases mem_or_eq_of_mem_set hq with hq | hq
    · exact h.fetched hs q hq
    · rw [some.inj hq]
      exact hm hs
  | adopt hs =>
    have hne : s.cur_state ≠ .normal := by rw [hs]; decide
    have hns : s.cur_state ≠ .stop := by rw [hs]; decide
    refine ⟨h.aborts, fun _ => ?_, fun h' => absurd h' (by simp), fun h' => absurd h' (by simp)⟩
    obtain ⟨b, hb, hpre⟩ := h.waiting hs
    show HistFrom N R s.truncated (rebuild N s.rh s.store s.ah_2).rh
    rw [hlog.rh_eq hns, hlog.all_logged hne hns]
    exact .rebuild (hR (by simp)) hlog.numbered hids hb hpre (h.not_mem_store hs)

theorem steps (hlog : LogInv N id s) (hsteps : LogSteps N id (GoesOn N R id) s s')
    (hids : s'.executed.Pairwise fun p q => p.rep.cid = q.rep.cid → p.rep.rid < q.rep.rid)
    (hR : s'.cur_state ≠ .normal → R.map CRequest.rep <+: s'.executed.map CRequest.rep) :
    KeepsHistory N R s' := by
  induction hsteps with
  | refl => exact h
  | tail hsteps hstep ih =>
    obtain ⟨hpre, hsame⟩ := hstep.executed
    refine (ih (hids.sublist hpre.sublist) fun hne => ?_).step (hlog.steps hsteps) hstep hids hR
    obtain ⟨hne', heq⟩ := hsame hne
    rw [← heq]
    exact hR hne'

end KeepsHistory

end Replica

/-! ## Abort sets -/

section AbortSets

variable {byz : Finset ℕ} {aborted aborted' : ℕ → List AbortRecord} {b : ℕ}
  {A : ℕ → Option Abort}

/-- Two aborts with one header and the same elements. -/
def SameAbort (a a' : Abort) : Prop :=
  a.rep = a'.rep ∧ ∀ j < a'.rep.hist_size, a.elems j = a'.elems j

instance (a a' : Abort) : Decidable (SameAbort a a') := inferInstanceAs (Decidable (_ ∧ _))

/-- The replicas with an abort in the set. -/
def members (N : RNode S) (A : ℕ → Option Abort) : Finset ℕ :=
  (Finset.range N.n).filter fun i => (A i).isSome

/-- **An abort set**: aborts of `2f+1` replicas, of which those of the
correct ones are aborts they broadcast, from histories truncated at
`b`. -/
structure AbortSet (N : RNode S) (byz : Finset ℕ) (aborted : ℕ → List AbortRecord) (b : ℕ)
    (A : ℕ → Option Abort) : Prop where
  enough : 2 * N.f + 1 ≤ (members N A).card
  genuine : ∀ i, Correct N byz i → ∀ a, A i = some a →
    ∃ rec ∈ aborted i, SameAbort rec.abort a ∧ rec.truncated = b

namespace AbortSet

variable (h : AbortSet N byz aborted b A)
include h

theorem mono (hsub : ∀ i, aborted i ⊆ aborted' i) : AbortSet N byz aborted' b A := by
  refine ⟨h.enough, fun i hi a ha => ?_⟩
  obtain ⟨rec, hrec, hsame⟩ := h.genuine i hi a ha
  exact ⟨rec, hsub i hrec, hsame⟩

/-- More than `f` of the members are correct. -/
theorem lt_card_correct (hbyz : byz.card ≤ N.f) : N.f < (members N A \ byz).card := by
  have henough := h.enough
  have := Finset.le_card_sdiff byz (members N A)
  omega

/-- **The merged history goes on from `R`** if the aborts of the correct
replicas do. -/
theorem prefix_merged (hbyz : byz.card ≤ N.f)
    (hfrom : ∀ i, Correct N byz i → ∀ rec ∈ aborted i, AbortFrom N R rec)
    (hnodup : (elementsOf N R).Nodup) : (elementsOf N R).drop b <+: Smasher.merged N.n N.f A := by
  refine Smasher.prefix_merged (members N A \ byz) byz (fun i hi => ?_) (h.lt_card_correct hbyz)
    (fun i hin hsome hgood => ?_) hbyz (hnodup.sublist (drop_sublist _ _))
  · simp only [members, Finset.mem_sdiff, Finset.mem_filter, Finset.mem_range] at hi
    obtain ⟨⟨hin, hsome⟩, hib⟩ := hi
    obtain ⟨a, ha⟩ := isSome_iff_exists.1 hsome
    obtain ⟨rec, hrec, ⟨hrep, helems⟩, rfl⟩ := h.genuine i ⟨hin, hib⟩ a ha
    -- where the abort's element for the `j`-th request above the truncation is
    have hat : ∀ j e, ((elementsOf N R).drop rec.truncated)[j]? = some e →
        j < a.rep.hist_size ∧ a.elems j = e := by
      intro j e he
      rw [getElem?_drop] at he
      obtain ⟨hlt, helem⟩ := hfrom i ⟨hin, hib⟩ rec hrec _ e he (by omega)
      rw [Nat.add_sub_cancel_left, hrep] at hlt
      rw [Nat.add_sub_cancel_left, helems j hlt] at helem
      exact ⟨hlt, helem⟩
    refine ⟨hin, a, ha, ?_, fun j e he => (hat j e he).2⟩
    by_contra hlong
    have hlast := (hat a.rep.hist_size _ (getElem?_eq_getElem (by omega))).1
    omega
  · by_contra hib
    refine hgood ?_
    simp [members, hin, hsome, hib]

end AbortSet

/-- The aborts of any two correct replicas in the set start at the same
checkpoint. -/
def Aligned (N : RNode S) (byz : Finset ℕ) (aborted : ℕ → List AbortRecord)
    (A : ℕ → Option Abort) : Prop :=
  ∀ i < N.n, i ∉ byz → ∀ j < N.n, j ∉ byz → ∀ a ∈ A i, ∀ a' ∈ A j, ∀ rec ∈ aborted i,
    ∀ rec' ∈ aborted j, SameAbort rec.abort a → SameAbort rec'.abort a' →
      rec.truncated = rec'.truncated

instance (aborted : ℕ → List AbortRecord) (A : ℕ → Option Abort) :
    Decidable (Aligned N byz aborted A) :=
  have (i j : ℕ) : Decidable (∀ a ∈ A i, ∀ a' ∈ A j, ∀ rec ∈ aborted i, ∀ rec' ∈ aborted j,
      SameAbort rec.abort a → SameAbort rec'.abort a' → rec.truncated = rec'.truncated) :=
    inferInstance
  inferInstanceAs (Decidable (∀ i < N.n, i ∉ byz → ∀ j < N.n, j ∉ byz → _))

/-- What a replica knows of the certificate it collects. -/
structure Certified (N : RNode S) (byz : Finset ℕ) (aborted : ℕ → List AbortRecord)
    (c : AbortCertificate) : Prop where
  genuine : ∀ i, Correct N byz i → ∀ a, c.ac i = some a →
    ∃ rec ∈ aborted i, SameAbort rec.abort a
  count : c.count ≤ (members N c.ac).card

namespace Certified

variable {c c' : AbortCertificate} {a : Abort}

theorem empty : Certified N byz aborted AbortCertificate.empty :=
  ⟨fun _ _ _ ha => absurd ha (by simp [AbortCertificate.empty]), Nat.zero_le _⟩

variable (h : Certified N byz aborted c)
include h

theorem mono (hsub : ∀ i, aborted i ⊆ aborted' i) : Certified N byz aborted' c := by
  refine ⟨fun i hi a ha => ?_, h.count⟩
  obtain ⟨rec, hrec, hsame⟩ := h.genuine i hi a ha
  exact ⟨rec, hsub i hrec, hsame⟩

theorem add (hadd : c.add a = some c') (hn : a.rep.replica.toNat < N.n)
    (hgen : Correct N byz a.rep.replica.toNat →
      ∃ rec ∈ aborted a.rep.replica.toNat, SameAbort rec.abort a) : Certified N byz aborted c' := by
  unfold AbortCertificate.add at hadd
  dsimp only at hadd
  split at hadd
  · next hnone =>
    obtain rfl := some.inj hadd
    refine ⟨fun i hi a' ha' => ?_, ?_⟩
    · rcases Entries.of_write ha' with ⟨rfl, rfl⟩ | ⟨-, hold⟩
      · exact hgen hi
      · exact h.genuine i hi a' hold
    · have hnot : a.rep.replica.toNat ∉ members N c.ac := by simp [members, hnone]
      have hsub : insert a.rep.replica.toNat (members N c.ac) ⊆
          members N (update c.ac a.rep.replica.toNat (some a)) := by
        intro i hi
        unfold members at hi ⊢
        by_cases hi' : i = a.rep.replica.toNat
        · subst hi'
          simp [hn]
        · simpa [hi', update_of_ne hi'] using hi
      have hcard := Finset.card_le_card hsub
      rw [Finset.card_insert_of_notMem hnot] at hcard
      exact (Nat.succ_le_succ h.count).trans hcard
  · split at hadd
    · obtain rfl := some.inj hadd
      exact h
    · cases hadd

/-- A complete certificate whose correct aborts are aligned is an abort
set. -/
theorem abortSet (hfull : 3 * N.f + 1 ≤ c.count) (hal : Aligned N byz aborted c.ac) :
    ∃ b, AbortSet N byz aborted b c.ac := by
  have hcount := h.count
  have henough : 2 * N.f + 1 ≤ (members N c.ac).card := by omega
  by_cases hex : ∃ i, Correct N byz i ∧ (c.ac i).isSome
  · obtain ⟨i, hi, hsome⟩ := hex
    obtain ⟨a, ha⟩ := isSome_iff_exists.1 hsome
    obtain ⟨rec, hrec, hsame⟩ := h.genuine i hi a ha
    refine ⟨rec.truncated, henough, fun j hj a' ha' => ?_⟩
    obtain ⟨rec', hrec', hsame'⟩ := h.genuine j hj a' ha'
    exact ⟨rec', hrec', hsame',
      hal j hj.1 hj.2 i hi.1 hi.2 a' ha' a ha rec' hrec' rec hrec hsame' hsame⟩
  · exact ⟨0, henough, fun j hj a' ha' => absurd ⟨j, hj, by rw [ha']; rfl⟩ hex⟩

end Certified

/-! ## What a replica knows of the aborts -/

variable {id : ℕ} {s s' : LogState N}

/-- **The invariant of the aborts at a replica**: the certificate, and
the sets it merged. -/
structure CertInv (N : RNode S) (byz : Finset ℕ) (aborted : ℕ → List AbortRecord)
    (s : LogState N) : Prop where
  certified : Certified N byz aborted s.aborts
  truncated : ∀ rec ∈ s.aborted, rec.truncated ≤ s.truncated
  merges : ∀ mg ∈ s.merges, mg.merged = Smasher.merged N.n N.f mg.aborts ∧
    ∃ b, AbortSet N byz aborted b mg.aborts

/-- What an abort message must give: if it verifies it is not forged, and
if it completes the set, the aborts of the correct replicas are
aligned. -/
def Joins (N : RNode S) (byz : Finset ℕ) (aborted : ℕ → List AbortRecord) (id : ℕ)
    (s : LogState N) : RMessage → Prop
  | .abort m => CAbort.verify N m →
      (Correct N byz m.rep.replica.toNat →
        ∃ rec ∈ update aborted id s.aborted m.rep.replica.toNat, SameAbort rec.abort m) ∧
      ∀ c ∈ s.aborts.add m, 3 * N.f + 1 ≤ c.count →
        Aligned N byz (update aborted id s.aborted) c.ac
  | _ => True

theorem joins_update (byz : Finset ℕ) (aborted : ℕ → List AbortRecord) (x : List AbortRecord) :
    Joins N byz (update aborted id x) id = Joins N byz aborted id := by
  funext s m
  cases m with
  | abort m => simp only [Joins, update_idem]
  | _ => rfl

theorem toNat_lt_of_verify {m : Abort} (h : CAbort.verify N m) : m.rep.replica.toNat < N.n := by
  unfold CAbort.verify at h
  simp only [CNode.isReplica, Bool.and_eq_true, decide_eq_true_eq] at h
  omega

namespace CertInv

theorem init (service : S) : CertInv N byz aborted (CReplica.init N service).logState where
  certified := Certified.empty
  truncated := by intro rec hrec; simp [CReplica.logState, CReplica.init] at hrec
  merges := by intro mg hmg; simp [CReplica.logState, CReplica.init] at hmg

variable (h : CertInv N byz aborted s)
include h

theorem mono (hsub : ∀ i, aborted i ⊆ aborted' i) : CertInv N byz aborted' s := by
  refine ⟨h.certified.mono hsub, h.truncated, fun mg hmg => ?_⟩
  obtain ⟨hmerged, b, hset⟩ := h.merges mg hmg
  exact ⟨hmerged, b, hset.mono hsub⟩

variable (hown : aborted id = s.aborted)
include hown

variable {m : Abort} {c : AbortCertificate}

/-- The certificate after a message that joins it. -/
theorem certified_add (hm : Joins N byz aborted id s (.abort m)) (hver : CAbort.verify N m)
    (hadd : s.aborts.add m = some c) : Certified N byz aborted c := by
  have hgen := (hm hver).1
  rw [← hown, update_eq_self] at hgen
  exact h.certified.add hadd (toNat_lt_of_verify hver) hgen

/-- **A completed set is an abort set.** -/
theorem abortSet (hm : Joins N byz aborted id s (.abort m)) (hver : CAbort.verify N m)
    (hadd : s.aborts.add m = some c) (hfull : 3 * N.f + 1 ≤ c.count) :
    ∃ b, AbortSet N byz aborted b c.ac := by
  have hal := (hm hver).2 c hadd hfull
  rw [← hown, update_eq_self] at hal
  exact (h.certified_add hown hm hver hadd).abortSet hfull hal

theorem step (hid : Correct N byz id) (hlog : LogInv N id s)
    (hstep : LogStep N id (Joins N byz aborted id) s s') :
    CertInv N byz (update aborted id s'.aborted) s' := by
  have hupd : update aborted id s.aborted = aborted := by
    rw [← hown, update_eq_self]
  -- most steps leave the aborts alone
  have hsame : ∀ s' : LogState N, s'.aborted = s.aborted → s'.aborts = s.aborts →
      s'.merges = s.merges → s.truncated ≤ s'.truncated →
      CertInv N byz (update aborted id s'.aborted) s' := by
    intro s' h1 h2 h3 h4
    rw [h1, hupd]
    exact ⟨by rw [h2]; exact h.certified, by
      rw [h1]; exact fun rec hrec => (h.truncated rec hrec).trans h4, by rw [h3]; exact h.merges⟩
  have hchkp := hlog.truncated_le_chkp
  cases hstep with
  | logTruncate q rh hh ht => exact hsame _ rfl rfl rfl hchkp
  | truncate seq rh ht hlt => exact hsame _ rfl rfl rfl (hchkp.trans hlt.le)
  | abort rid toAbort buffer a ha hrid hlen =>
    have hsub : ∀ i, aborted i ⊆
        update aborted id (s.aborted ++ [⟨a, s.cur_state, s.truncated⟩]) i := by
      intro i
      by_cases hi : i = id
      · subst hi
        rw [update_self, hown]
        exact subset_append_left _ _
      · rw [update_of_ne hi]
        exact List.Subset.refl _
    have hmono := h.mono hsub
    refine ⟨?_, fun rec hrec => ?_, hmono.merges⟩
    · show Certified N byz _ ((s.aborts.add a).getD s.aborts)
      cases hadd : s.aborts.add a with
      | none => exact hmono.certified
      | some c =>
        have hrep : a.rep.replica.toNat = id := by rw [ha]; rfl
        refine hmono.certified.add hadd (by rw [hrep]; exact hid.1) fun _ => ?_
        rw [hrep, update_self]
        exact ⟨_, mem_append_right _ (mem_singleton.2 rfl), rfl, fun _ _ => rfl⟩
    · rcases mem_concat_iff.1 hrec with hrec | rfl
      · exact h.truncated rec hrec
      · rfl
  | collect m aborts hs hm hver hadd =>
    show CertInv N byz (update aborted id s.aborted) _
    rw [hupd]
    exact ⟨h.certified_add hown hm hver hadd, h.truncated, h.merges⟩
  | merge m aborts ah_2 missing hs hm hver hadd hfull hproc =>
    show CertInv N byz (update aborted id s.aborted) _
    rw [hupd]
    refine ⟨Certified.empty, h.truncated, fun mg hmg => ?_⟩
    rcases mem_concat_iff.1 hmg with hmg | rfl
    · exact h.merges mg hmg
    · exact ⟨Smasher.eq_merged_of_process hproc, h.abortSet hown hm hver hadd hfull⟩
  | _ => exact hsame _ rfl rfl rfl le_rfl

theorem steps (hid : Correct N byz id) (hlog : LogInv N id s)
    (hsteps : LogSteps N id (Joins N byz aborted id) s s') :
    CertInv N byz (update aborted id s'.aborted) s' := by
  induction hsteps with
  | refl =>
    rw [← hown, update_eq_self]
    exact h
  | tail hsteps hstep ih =>
    rw [← joins_update byz aborted] at hstep
    have := ih.step (update_self _ _ _) hid (hlog.steps hsteps) hstep
    rwa [update_idem] at this

end CertInv

end AbortSets

/-! ## The system -/

section System

variable (byz : Finset ℕ) (s : CSystem N)

/-- The aborts every replica broadcast. -/
def CSystem.aborted (k : ℕ) : List AbortRecord := (s.replicas k).aborted

/-- An abort that verifies and names a correct replica is one that
replica broadcast. -/
def AbortUnforged : RMessage → Prop
  | .abort m => CAbort.verify N m → Correct N byz m.rep.replica.toNat →
      ∃ rec ∈ s.aborted m.rep.replica.toNat, SameAbort rec.abort m
  | _ => True

instance (m : RMessage) : Decidable (AbortUnforged byz s m) := by
  cases m <;> dsimp only [AbortUnforged] <;> infer_instance

/-- **The signatures of correct replicas are not forged** in what this
event looks at. -/
def AbortsUnforged : SysEvent → Prop
  | .replica k e => ∀ m ∈ (s.replicas k).taken e, AbortUnforged byz s m
  | .client _ _ _ => True

instance (e : SysEvent) : Decidable (AbortsUnforged byz s e) := by
  apply @e.casesOn <;> intros <;> dsimp only [AbortsUnforged] <;> infer_instance

/-- What a message must meet at replica `k`: an abort that completes the
set makes a set of aligned aborts; a get-a-grip for a missing request
does not carry one the replica executed itself. -/
def CSystem.Mergeable (k : ℕ) : RMessage → Prop
  | .abort m => ∀ c ∈ (s.replicas k).aborts.add m, 3 * N.f + 1 ≤ c.count →
      Aligned N byz s.aborted c.ac
  | .getAGrip m => (s.replicas k).cur_state = .miswaiting → ∀ q ∈ (s.replicas k).executed,
      ¬ (m.stored_request.rep.cid = q.rep.cid ∧ m.stored_request.rep.rid = q.rep.rid)
  | _ => True

instance (k : ℕ) (m : RMessage) : Decidable (s.Mergeable byz k m) := by
  cases m <;> dsimp only [CSystem.Mergeable] <;> infer_instance

/-- **What an event must meet at the merge.** -/
def CSystem.MergeOk : SysEvent → Prop
  | .replica k e => ∀ m ∈ (s.replicas k).taken e, s.Mergeable byz k m
  | .client _ _ _ => True

instance (e : SysEvent) : Decidable (s.MergeOk byz e) := by
  apply @e.casesOn <;> intros <;> dsimp only [CSystem.MergeOk] <;> infer_instance

/-- The replicas that left state `NORMAL` executed `R` first. -/
def Compat (byz : Finset ℕ) (R : List CRequest) (s : CSystem N) : Prop :=
  ∀ k, Correct N byz k → (s.replicas k).cur_state ≠ .normal → R.map CRequest.rep <+: s.headers k

/-- **What every state of a run keeps.** -/
structure SwitchInv : Prop where
  sys : SysInv byz s
  certs : ∀ k, Correct N byz k → CertInv N byz s.aborted (s.replicas k).logState
  keeps : ∀ R, Compat byz R s → ∀ k, Correct N byz k → KeepsHistory N R (s.replicas k).logState

variable {byz s}

/-- The elements of a sequence a replica executed are different. -/
theorem nodup_elementsOf {l : List CRequest} (hR : R.map CRequest.rep <+: l.map CRequest.rep)
    (hids : l.Pairwise fun p q => p.rep.cid = q.rep.cid → p.rep.rid < q.rep.rid) :
    (elementsOf N R).Nodup := by
  rw [nodup_iff_pairwise_ne, pairwise_iff_getElem]
  intro i j hi hj hij heq
  obtain ⟨p, hp, hpe⟩ := getElem?_elementsOf.1 (getElem?_eq_getElem hi)
  obtain ⟨q, hq, hqe⟩ := getElem?_elementsOf.1 (getElem?_eq_getElem hj)
  obtain ⟨p', hp', hprep, -⟩ := getElem?_of_prefix (N := N) hR hp
  obtain ⟨q', hq', hqrep, -⟩ := getElem?_of_prefix (N := N) hR hq
  obtain ⟨hi', hp'⟩ := List.getElem?_eq_some_iff.1 hp'
  obtain ⟨hj', hq'⟩ := List.getElem?_eq_some_iff.1 hq'
  have hlt := List.pairwise_iff_getElem.1 hids i j hi' hj' hij
  rw [hp', hq', hprep, hqrep] at hlt
  rw [hpe, hqe] at heq
  have hcid : p.rep.cid = q.rep.cid := by injection heq
  have hrid : p.rep.rid = q.rep.rid := by injection heq
  omega

namespace SwitchInv

theorem init (byz : Finset ℕ) (service : S) : SwitchInv byz (CSystem.init N service) where
  sys := SysInv.init byz service
  certs := fun _ _ => CertInv.init service
  keeps := fun _ _ _ _ => KeepsHistory.init service

variable {k : ℕ} {e : CReplica.CEvent}

theorem joins (hunf : AbortsUnforged byz s (.replica k e)) (hok : s.MergeOk byz (.replica k e)) :
    ∀ m ∈ (s.replicas k).taken e, Joins N byz s.aborted k (s.replicas k).logState m := by
  have hupd : update s.aborted k (s.replicas k).logState.aborted = s.aborted :=
    update_eq_self k s.aborted
  intro m hm
  cases m with
  | abort m =>
    intro hver
    rw [hupd]
    exact ⟨hunf _ hm hver, hok _ hm⟩
  | _ => trivial

/-- **What a correct replica merges goes on from `R`.** -/
theorem goesOn (h : SwitchInv byz s) (hbyz : byz.card ≤ N.f) (hk : Correct N byz k)
    (hunf : AbortsUnforged byz s (.replica k e)) (hok : s.MergeOk byz (.replica k e))
    (hR : Compat byz R s) :
    ∀ m ∈ (s.replicas k).taken e, GoesOn N R k (s.replicas k).logState m := by
  intro m hm
  cases m with
  | abort m =>
    intro c ah_2 missing hs hver hadd hfull hproc
    have hRk := hR k hk (by rw [show (s.replicas k).cur_state = _ from hs]; decide)
    obtain ⟨b, hset⟩ := (h.certs k hk).abortSet rfl (joins hunf hok _ hm) hver hadd hfull
    have hpre := hset.prefix_merged hbyz (fun i hi => (h.keeps R hR i hi).aborts)
      (nodup_elementsOf hRk (h.sys.exec k hk).increasing)
    -- the replica's own abort is in the set
    obtain ⟨own, hown⟩ := Smasher.isSome_own_of_process hproc
    obtain ⟨rec, hrec, -, rfl⟩ := hset.genuine k hk own hown
    rw [Smasher.eq_merged_of_process hproc]
    exact ⟨rec.truncated, (h.certs k hk).truncated rec hrec, hpre⟩
  | getAGrip m =>
    intro hs q hq
    have hRk := hR k hk (by rw [show (s.replicas k).cur_state = _ from hs]; decide)
    obtain ⟨i, hi⟩ := getElem?_of_mem hq
    obtain ⟨q', hq', hrep, -⟩ := getElem?_of_prefix (N := N) hRk hi
    have := hok _ hm hs q' (mem_of_getElem? hq')
    rwa [hrep] at this
  | _ => trivial

/-- What left state `NORMAL` does not execute any more. -/
theorem compat_of_step (hd : CReplica.Drained k (s.replicas k) e)
    (hR : Compat byz R (s.step (.replica k e))) : Compat byz R s := by
  intro p hp hne
  have hR' := hR p hp
  by_cases hpk : p = k
  · subst hpk
    obtain ⟨hne', heq⟩ := (LogSteps.executed (CReplica.step_sim (P := fun _ _ => True) hd
      fun _ _ => trivial)).2 hne
    simp only [CSystem.step, CSystem.headers, update_self] at hR'
    have := hR' hne'
    rwa [show ((s.replicas p).step p e).executed = _ from heq] at this
  · simp only [CSystem.step, CSystem.headers, update_of_ne hpk] at hR'
    exact hR' hne

theorem step (h : SwitchInv byz s) (hbyz : byz.card ≤ N.f) {e : SysEvent}
    (hmacs : MacsUnforged byz s e) (hunf : AbortsUnforged byz s e) (hord : s.OrderOk e)
    (hok : s.MergeOk byz e) : SwitchInv byz (s.step e) := by
  have hsys := h.sys.step hmacs hord
  cases e with
  | client c rid queue =>
    have hreplicas : (s.step (.client c rid queue)).replicas = s.replicas := by
      rw [CSystem.step]
      split
      · split <;> rfl
      · rfl
    refine ⟨hsys, fun k hk => ?_, fun R hR k hk => ?_⟩
    · unfold CSystem.aborted
      rw [hreplicas]
      exact h.certs k hk
    · rw [hreplicas]
      refine h.keeps R (fun p hp hne => ?_) k hk
      have := hR p hp
      unfold CSystem.headers at this
      rw [hreplicas] at this
      exact this hne
  | replica k₀ e =>
    have hk₀ := hmacs.1
    have hlog := h.sys.log k₀ hk₀
    have hself : (s.step (.replica k₀ e)).replicas k₀ = (s.replicas k₀).step k₀ e := by
      simp [CSystem.step]
    have hother : ∀ k, k ≠ k₀ → (s.step (.replica k₀ e)).replicas k = s.replicas k := by
      intro k hk
      simp [CSystem.step, update_of_ne hk]
    have haborted : (s.step (.replica k₀ e)).aborted =
        update s.aborted k₀ ((s.replicas k₀).step k₀ e).logState.aborted := by
      funext k
      unfold CSystem.aborted
      by_cases hk : k = k₀
      · subst hk
        rw [hself, update_self]
        rfl
      · rw [hother k hk, update_of_ne hk]
    have hsteps := CReplica.step_sim hord.1 (joins hunf hok)
    have hcert := (h.certs k₀ hk₀).steps rfl hk₀ hlog hsteps
    refine ⟨hsys, fun k hk => ?_, fun R hR k hk => ?_⟩
    · rw [haborted]
      by_cases hkk : k = k₀
      · subst hkk
        rw [hself]
        exact hcert
      · rw [hother k hkk]
        refine (h.certs k hk).mono fun i => ?_
        by_cases hi : i = k₀
        · subst hi
          rw [update_self]
          exact (LogSteps.aborted hsteps).subset
        · rw [update_of_ne hi]
          exact List.Subset.refl _
    · have hback := compat_of_step hord.1 hR
      by_cases hkk : k = k₀
      · subst hkk
        have hids := (hsys.exec k hk).increasing
        have hRk := hR k hk
        unfold CSystem.headers at hRk
        rw [hself] at hids hRk ⊢
        exact (h.keeps R hback k hk).steps hlog
          (CReplica.step_sim hord.1 (goesOn h hbyz hk hunf hok hback)) hids hRk
      · rw [hother k hkk]
        exact h.keeps R hback k hk

end SwitchInv

/-- **The accepted requests are in this merged history** at the places
their sequence numbers give, those above every truncation. -/
def CSystem.SurviveIn (byz : Finset ℕ) (s : CSystem N) (seqno : ℤ × ℕ → ℕ)
    (merged : AbortHistory) : Prop :=
  ∃ b, ∀ a ∈ s.accepted, (∀ k, Correct N byz k → (s.replicas k).truncated < seqno a) →
    b < seqno a ∧ ∃ e, merged[seqno a - b - 1]? = some e ∧ (e.cid, e.rid) = a

/-- **Committed requests survive the switch**: every request whose reply
was accepted has one sequence number at all correct replicas, and is in
every history a correct replica merged, as well as in what any abort set
would give. -/
def CSystem.CommittedSurvive (byz : Finset ℕ) (s : CSystem N) : Prop :=
  ∃ seqno : ℤ × ℕ → ℕ,
    (∀ a ∈ s.accepted, ∀ k, Correct N byz k → ∃ q ∈ (s.replicas k).executed,
      (q.rep.cid, q.rep.rid) = a ∧ q.rep.seq_num = seqno a) ∧
    (∀ k, Correct N byz k → ∀ mg ∈ (s.replicas k).merges, s.SurviveIn byz seqno mg.merged) ∧
    ∀ b A, AbortSet N byz s.aborted b A → s.SurviveIn byz seqno (Smasher.merged N.n N.f A)

/-- **Where a request that every correct replica executed is in a merged
history.** -/
theorem SwitchInv.getElem?_merged (h : SwitchInv byz s) (hbyz : byz.card ≤ N.f)
    (hR : ∀ k, Correct N byz k → R.map CRequest.rep <+: s.headers k) {b : ℕ}
    {A : ℕ → Option Abort} (hA : AbortSet N byz s.aborted b A) {i : ℕ} {q : CRequest}
    (hi : R[i]? = some q) (habove : ∀ k, Correct N byz k → (s.replicas k).truncated ≤ i) :
    b ≤ i ∧ (Smasher.merged N.n N.f A)[i - b]? =
      some ⟨q.rep.cid, q.rep.rid, historyDigest N (R.take (i + 1))⟩ := by
  -- an abort of a correct replica is in the set, so the set starts below
  obtain ⟨p, hp⟩ := Finset.card_pos.1 (Nat.zero_lt_of_lt (hA.lt_card_correct hbyz))
  simp only [members, Finset.mem_sdiff, Finset.mem_filter, Finset.mem_range] at hp
  obtain ⟨⟨hpn, hsome⟩, hpb⟩ := hp
  obtain ⟨own, hown⟩ := isSome_iff_exists.1 hsome
  obtain ⟨rec, hrec, -, hb⟩ := hA.genuine p ⟨hpn, hpb⟩ own hown
  have htrunc : rec.truncated ≤ (s.replicas p).truncated :=
    (h.certs p ⟨hpn, hpb⟩).truncated rec hrec
  have hle := habove p ⟨hpn, hpb⟩
  have hnodup : (elementsOf N R).Nodup :=
    nodup_elementsOf (hR p ⟨hpn, hpb⟩) (h.sys.exec p ⟨hpn, hpb⟩).increasing
  obtain ⟨rest, hrest⟩ := hA.prefix_merged hbyz
    (fun k hk => (h.keeps R (fun k hk _ => hR k hk) k hk).aborts) hnodup
  have hget : ((elementsOf N R).drop b)[i - b]? =
      some ⟨q.rep.cid, q.rep.rid, historyDigest N (R.take (i + 1))⟩ := by
    rw [getElem?_drop, show b + (i - b) = i by omega]
    exact getElem?_elementsOf.2 ⟨q, hi, rfl⟩
  refine ⟨by omega, ?_⟩
  rw [← hrest, getElem?_append_left (List.getElem?_eq_some_iff.1 hget).1, hget]

theorem SwitchInv.committedSurvive (h : SwitchInv byz s) (hbyz : byz.card ≤ N.f) :
    s.CommittedSurvive byz := by
  obtain ⟨R, hR, haccepted⟩ := h.sys.committed hbyz
  -- a request's number is its place in the committed sequence
  have hplace : ∀ a : ℤ × ℕ, ∃ n, a ∈ s.accepted → ∃ i q, n = i + 1 ∧ R[i]? = some q ∧
      (q.rep.cid, q.rep.rid) = a := by
    intro a
    by_cases ha : a ∈ s.accepted
    · obtain ⟨q, hq, hcid, hrid⟩ := haccepted a ha
      obtain ⟨i, hi⟩ := getElem?_of_mem hq
      exact ⟨i + 1, fun _ => ⟨i, q, rfl, hi, Prod.ext hcid hrid⟩⟩
    · exact ⟨0, fun h' => absurd h' ha⟩
  choose seqno hseqno using hplace
  have hset : ∀ b A, AbortSet N byz s.aborted b A →
      s.SurviveIn byz seqno (Smasher.merged N.n N.f A) := by
    intro b A hA
    refine ⟨b, fun a ha habove => ?_⟩
    obtain ⟨i, q, hn, hi, hids⟩ := hseqno a ha
    obtain ⟨hle, hget⟩ := h.getElem?_merged hbyz hR hA hi fun k hk => by
      have := habove k hk
      omega
    refine ⟨by omega, ⟨q.rep.cid, q.rep.rid, historyDigest N (R.take (i + 1))⟩, ?_, hids⟩
    rw [show seqno a - b - 1 = i - b by omega, hget]
  refine ⟨seqno, fun a ha k hk => ?_, fun k hk mg hmg => ?_, hset⟩
  · obtain ⟨i, q, hn, hi, hids⟩ := hseqno a ha
    obtain ⟨q', hq', hrep, -⟩ := getElem?_of_prefix (N := N) (hR k hk) hi
    refine ⟨q', mem_of_getElem? hq', by rw [hrep]; exact hids, ?_⟩
    rw [hn]
    exact (h.sys.log k hk).numbered i q' hq'
  · obtain ⟨hmerged, b, hA⟩ := (h.certs k hk).merges mg hmg
    rw [hmerged]
    exact hset b _ hA

/-- **Committed requests survive a Chain switch** in every run with at
most `f` faulty replicas, unforged MACs and signatures, whose events keep
the order and whose merges are of aligned aborts. -/
theorem committed_survive_switch (N : RNode S) (byz : Finset ℕ) (hbyz : byz.card ≤ N.f)
    (service : S) (es : List SysEvent)
    (hunf : Guarded CSystem.step
      (fun s e => MacsUnforged byz s e ∧ AbortsUnforged byz s e) (CSystem.init N service) es)
    (hok : Guarded CSystem.step
      (fun s e => s.OrderOk e ∧ s.MergeOk byz e) (CSystem.init N service) es) :
    (exec CSystem.step (CSystem.init N service) es).CommittedSurvive byz := by
  refine SwitchInv.committedSurvive ?_ hbyz
  exact (hunf.and hok).invariant (fun s e h hse => h.step hbyz hse.1.1 hse.1.2 hse.2.1 hse.2.2)
    (SwitchInv.init byz service)

/-- **One order along the chain**, and what clients accepted is in a common
prefix of it. -/
structure CSystem.Ordered (byz : Finset ℕ) (s : CSystem N) : Prop where
  chain : ∀ p k, Correct N byz p → Correct N byz k → p ≤ k → s.headers k <+: s.headers p
  accepted : ∃ R : List CRequest, (∀ k, Correct N byz k → R.map CRequest.rep <+: s.headers k) ∧
    ∀ a ∈ s.accepted, ∃ q ∈ R, q.rep.cid = a.1 ∧ q.rep.rid = a.2

theorem ordered_exec (N : RNode S) (byz : Finset ℕ) (hbyz : byz.card ≤ N.f) (service : S)
    (es : List SysEvent)
    (h : Guarded CSystem.step (fun s e => MacsUnforged byz s e ∧ s.OrderOk e)
      (CSystem.init N service) es) :
    (exec CSystem.step (CSystem.init N service) es).Ordered byz := by
  have hinv := h.invariant (I := SysInv byz) (fun _ _ h he => h.step he.1 he.2) (.init byz service)
  exact ⟨fun p k hp hk hle => hinv.order_le hbyz hp hk hle, hinv.committed hbyz⟩

end System

section Sample

variable {byz : Finset ℕ}

/-- Every MAC a correct replica could have made for what this event looks
at, it made. -/
def Vouched (byz : Finset ℕ) (s : CSystem N) : SysEvent → Prop
  | .replica k e => Correct N byz k ∧ ∀ req ∈ (s.replicas k).processed e, ∀ p < k, p ∉ byz →
      ((k : ℤ), .request req.rep) ∈ (s.replicas p).macs
  | .client c _ queue => ∀ rep ∈ queue.filterMap CMessage.header, ∀ j ≤ N.f, 2 * N.f + j ∉ byz →
      (c.id, .reply rep) ∈ (s.replicas (2 * N.f + j)).macs

instance (s : CSystem N) (e : SysEvent) : Decidable (Vouched byz s e) := by
  apply @e.casesOn <;> intros <;> dsimp only [Vouched] <;> infer_instance

theorem MacsUnforged.of_vouched {s : CSystem N} {e : SysEvent} (h : Vouched byz s e) :
    MacsUnforged byz s e := by
  cases e with
  | replica k e => exact ⟨h.1, fun req hreq p hp hpb _ => h.2 req hreq p hp hpb⟩
  | client c rid queue =>
    intro r hr j hj hjb _
    exact h r.rep (mem_filterMap.2 ⟨_, hr, rfl⟩) j hj hjb

/-- The request with the number the head gives it, and these cells for
its authenticator. -/
def passedOn (cells : List Cell) : CRequest :=
  { sampleRequest with
    rep := { sampleRequest.rep with seq_num := 1 }
    auth := fun i => cells.getD i 0 }

/-- Client `4`'s second request, as it is passed on. -/
def secondPassedOn : CRequest :=
  { passedOn [] with rep := { (passedOn []).rep with rid := 2, seq_num := 2 } }

/-- The request as it reaches replica `k`. -/
def handed : ℕ → CRequest
  | 0 => sampleRequest
  | 1 => passedOn [0, 4001, 0, 1, 2]
  | _ => passedOn [0, 2, 0, 1002, 1003]

/-- Replica `k` takes the request up, executes it and passes it on. -/
def executes (k : ℕ) : List SysEvent :=
  [.replica k (.incoming (.request (handed k)) false), .replica k (.request 0),
    .replica k (.request 0), .replica k (.request 0)]

/-- The robust thread of replica `k` moves twice. -/
def robustTwice (k : ℕ) : List SysEvent := [.replica k (.robust false), .replica k (.robust false)]

/-- Client `4` gets the reply with the MACs of replicas `2` and `3`. -/
def accepts : SysEvent := .client sampleClient 2 [.reply (sampleReply goodMacs)]

/-- A panic reaches replica `k` through the monitor. -/
def panicArrives (k : ℕ) : SysEvent := .replica k (.arrive (.panic 4 1))

/-- Replica `k` handles the panic and broadcasts its abort. -/
def aborts (k : ℕ) : List SysEvent :=
  [.replica k (.robust false), .replica k (.abort 0 fun _ => ⟨0, 0, 0⟩)]

/-- Replica `0` gets the aborts of the others, which list the requests
of `l`; the one of replica `3`, which is faulty, lists nothing. -/
def merges (l : List CRequest) : List SysEvent :=
  let abort (k : ℕ) (l : List CRequest) : SysEvent :=
    .replica 0 (.incoming (.abort (CAbort.ofHistory sampleRNode k 1 (logOf sampleRNode l)
      fun _ => ⟨0, 0, 0⟩)) false)
  [abort 1 l, abort 2 l, abort 3 []]

/-- The request is logged everywhere before the panic comes. -/
def switchAfterLogging : List SysEvent :=
  executes 0 ++ executes 1 ++ executes 2 ++ [accepts] ++ robustTwice 0 ++ robustTwice 1 ++
    robustTwice 2 ++ [panicArrives 0, panicArrives 1, panicArrives 2] ++ aborts 0 ++ aborts 1 ++
    aborts 2 ++ merges [passedOn []]

/-- The panic is queued everywhere before the request. -/
def switchOvertakes : List SysEvent :=
  [panicArrives 0, panicArrives 1, panicArrives 2] ++ executes 0 ++ executes 1 ++ executes 2 ++
    [accepts] ++ aborts 0 ++ aborts 1 ++ aborts 2 ++ merges []

theorem ordered_exec_four :
    (exec CSystem.step (CSystem.init sampleRNode ()) switchAfterLogging).Ordered {3} := by
  have hv : Guarded CSystem.step (fun s e => Vouched {3} s e ∧ s.OrderOk e)
      (CSystem.init sampleRNode ()) switchAfterLogging := by decide +kernel
  exact ordered_exec sampleRNode {3} (by decide) () _ (hv.mono fun s e h => ⟨.of_vouched h.1, h.2⟩)

/-- After the logging, the accepted request is in the history replica `0`
merges. -/
theorem committed_survive_after_logging :
    (exec CSystem.step (CSystem.init sampleRNode ()) switchAfterLogging).accepted
        = [(4, 1)] ∧
    ((exec CSystem.step (CSystem.init sampleRNode ()) switchAfterLogging).replicas
        0).merges.length = 1 ∧
    (exec CSystem.step (CSystem.init sampleRNode ()) switchAfterLogging).CommittedSurvive
      {3} := by
  refine ⟨by decide +kernel, by decide +kernel,
    committed_survive_switch sampleRNode {3} (by decide) () switchAfterLogging ?_ ?_⟩
  · have hv : Guarded CSystem.step (fun s e => Vouched {3} s e ∧ AbortsUnforged {3} s e)
        (CSystem.init sampleRNode ()) switchAfterLogging := by decide +kernel
    exact hv.mono fun s e h => ⟨.of_vouched h.1, h.2⟩
  · decide +kernel

/-- **A panic that overtakes the request loses it for good**: client `4`
accepted its reply, and the merged history is empty. -/
theorem committed_lost_in_switch :
    Guarded CSystem.step (fun s e => MacsUnforged {3} s e ∧ AbortsUnforged {3} s e)
      (CSystem.init sampleRNode ()) switchOvertakes ∧
    ¬ (exec CSystem.step (CSystem.init sampleRNode ()) switchOvertakes).CommittedSurvive
      {3} := by
  constructor
  · have hv : Guarded CSystem.step (fun s e => Vouched {3} s e ∧ AbortsUnforged {3} s e)
        (CSystem.init sampleRNode ()) switchOvertakes := by decide +kernel
    exact hv.mono fun s e h => ⟨.of_vouched h.1, h.2⟩
  · generalize hs : exec CSystem.step (CSystem.init sampleRNode ()) switchOvertakes = s
    have hfacts : (4, 1) ∈ s.accepted ∧ (∀ q ∈ (s.replicas 0).executed, q.rep.seq_num = 1) ∧
        (∃ mg ∈ (s.replicas 0).merges, mg.merged = []) ∧
        ∀ k < 4, k ∉ ({3} : Finset ℕ) → (s.replicas k).truncated = 0 := by
      rw [← hs]
      decide +kernel
    obtain ⟨hacc, hnum, ⟨mg, hmg, hnil⟩, htrunc⟩ := hfacts
    rintro ⟨seqno, hexec, hmerge, -⟩
    have h0 : Correct sampleRNode {3} 0 := by decide
    obtain ⟨q, hq, -, hseq⟩ := hexec _ hacc 0 h0
    rw [hnum q hq] at hseq
    obtain ⟨b, hb⟩ := hmerge 0 h0 mg hmg
    obtain ⟨-, e, he, -⟩ := hb _ hacc fun k hk => by
      rw [htrunc k hk.1 hk.2]
      omega
    rw [hnil] at he
    simp at he

end Sample

end AbstractBFT.Chain
