import AbstractBFT.Chain.Applied
import AbstractBFT.Chain.Fetch
/-!
# Chain — sequence numbers after a switch

A rebuilt history takes its sequence numbers from two places: an entry that
is moved over keeps the number it had, and a fetched request gets the number
its get-a-grip says, which nobody checks. The numbers go up, and two
replicas that merged the same aborts agree on them and on the next one,
where both places number the merged history by position from a common base
(`switch_numbers_agree`).
-/

namespace AbstractBFT.Chain

open Machine List

variable {S : Type} {N : RNode S}

/-! ## Numbers by position -/

instance (e : AbortHistoryElement) (x : RhEntry CRequest) : Decidable (Holds e x) :=
  decidable_of_iff' _ holds_iff

/-- The number `s` is the one the element's place in `H` stands for. -/
def NumberedAs (b : ℕ) (H : AbortHistory) (cid : ℤ) (rid : ℕ) (s : ℕ) : Prop :=
  ∀ p ∈ H.zipIdx, p.1.cid = cid → p.1.rid = rid → s = b + p.2 + 1
  deriving Decidable

/-- The entries of a history that are in `H` are numbered by their place
there. -/
def LogNumbered (b : ℕ) (H : AbortHistory) (rh : List (RhEntry CRequest)) : Prop :=
  ∀ x ∈ rh, ∀ q ∈ x.req, NumberedAs b H q.rep.cid q.rep.rid x.seq
  deriving Decidable

variable {b rid s : ℕ} {H : AbortHistory} {cid : ℤ} {e : AbortHistoryElement}

theorem NumberedAs.eq (h : NumberedAs b H cid rid s) {k : ℕ} (he : H[k]? = some e)
    (hcid : e.cid = cid) (hrid : e.rid = rid) : s = b + k + 1 :=
  h (e, k) (mem_zipIdx_iff_getElem?.2 he) hcid hrid

theorem NumberedAs.tail (h : NumberedAs b (e :: H) cid rid s) : NumberedAs (b + 1) H cid rid s := by
  rintro ⟨e', k⟩ hk hcid hrid
  have := h.eq (k := k + 1) (mem_zipIdx_iff_getElem?.1 hk) hcid hrid
  show s = b + 1 + k + 1
  omega

/-- What an entry says: whose request, and its number. -/
def numberOf (x : RhEntry CRequest) : Option (ℤ × ℕ) × ℕ :=
  (x.req.map fun q => (q.rep.cid, q.rep.rid), x.seq)

/-- The merged history, numbered from `b + 1` on. -/
def numbering (b : ℕ) (H : AbortHistory) : List (Option (ℤ × ℕ) × ℕ) :=
  H.mapIdx fun k e => (some (e.cid, e.rid), b + k + 1)

theorem numbering_cons (b : ℕ) (e : AbortHistoryElement) (H : AbortHistory) :
    numbering b (e :: H) = (some (e.cid, e.rid), b + 1) :: numbering (b + 1) H := by
  unfold numbering
  rw [mapIdx_cons]
  congr 2
  funext k e'
  congr 1
  omega

/-- **The rebuilt history is numbered by position**, if what the replica had
and what it fetched is, and together they have every element. -/
theorem foldl_rebuildStep_numbered (store : List (CRequest × ℕ)) (H : AbortHistory)
    (b : ℕ) (old : List (RhEntry CRequest)) (log : CLog N) (hold : LogNumbered b H old)
    (hstore : ∀ p ∈ store, NumberedAs b H p.1.rep.cid p.1.rep.rid p.2)
    (hall : ∀ e ∈ H, (∃ x ∈ old, Holds e x) ∨
      ∃ p ∈ store, p.1.rep.cid = e.cid ∧ p.1.rep.rid = e.rid) :
    (H.foldl (rebuildStep N store) (old, log)).2.rh.map numberOf =
      log.rh.map numberOf ++ numbering b H := by
  induction H generalizing b old log with
  | nil => exact (append_nil _).symm
  | cons e H ih =>
    have hstore' : ∀ p ∈ store, NumberedAs (b + 1) H p.1.rep.cid p.1.rep.rid p.2 :=
      fun p hp => (hstore p hp).tail
    rw [foldl_cons, numbering_cons]
    rcases rebuildStep_cases store old log e with
      ⟨pre, x, post, q, rfl, hq, hcid, hrid, -, heq⟩ | ⟨-, p, hp, ⟨hcid, hrid⟩, heq⟩ |
        ⟨hno, hnone, heq⟩
    · have hx := hold x (by simp) q hq
      have hseq : x.seq = b + 0 + 1 := hx.eq (k := 0) rfl hcid.symm hrid.symm
      rw [heq, ih (b + 1) _ _ (fun y hy q' hq' => ?_) hstore' fun e' he' => ?_]
      · simp [ReqHistoryLog.addRequest, numberOf, hcid, hrid, hseq]
      · have hy' : y ∈ pre ++ x :: post := by
          rcases mem_append.1 hy with hpre | hpost
          · exact mem_append_left _ hpre
          · rcases mem_cons.1 hpost with rfl | hpost
            · cases hq'
            · exact mem_append_right _ (mem_cons_of_mem _ hpost)
        exact (hold y hy' q' hq').tail
      · refine (hall e' (mem_cons_of_mem _ he')).imp_left ?_
        rintro ⟨y, hy, hholds⟩
        rcases mem_append.1 hy with hpre | hpost
        · exact ⟨y, mem_append_left _ hpre, hholds⟩
        · rcases mem_cons.1 hpost with rfl | hpost
          · -- the entry that moves over has one number, so it is at one place
            obtain ⟨k, hk⟩ := getElem?_of_mem he'
            obtain ⟨q', hq', hcid', hrid'⟩ := hholds
            have := (hold y hy q' hq').eq (k := k + 1) hk hcid'.symm hrid'.symm
            omega
          · exact ⟨y, mem_append_right _ (mem_cons_of_mem _ hpost), hholds⟩
    · have hseq : p.2 = b + 0 + 1 := (hstore p hp).eq (k := 0) rfl hcid.symm hrid.symm
      rw [heq, ih (b + 1) _ _ (fun y hy q' hq' => (hold y hy q' hq').tail) hstore'
        fun e' he' => hall e' (mem_cons_of_mem _ he')]
      simp [logRequest, numberOf, hcid, hrid, hseq]
    · rcases hall e (by simp) with ⟨x, hx, hholds⟩ | ⟨p, hp, hids⟩
      · exact absurd hholds (hno x hx)
      · exact absurd hids (hnone p hp)

/-! ## What is fetched -/

namespace CReplica

/-- What the replica's own history must be for the merged one: numbered by
position, and without a gap where the replica's abort listed something. -/
def KeepsNumbers (b : ℕ) (id : ℕ) (aborts : ℕ → Option Abort) (r : CReplica N) : Prop :=
  LogNumbered b (Smasher.merged N.n N.f aborts) r.rh.rh ∧
    ∀ own ∈ aborts id, ∀ e ∈ Smasher.merged N.n N.f aborts, e ∈ own.history →
      ∃ x ∈ r.rh.rh, Holds e x
  deriving Decidable

/-- The get-a-grip has the request it announces, under the number of its
place in the merged history. -/
def GripNumbered (b : ℕ) (H : AbortHistory) (m : CGetAGrip) : Prop :=
  (m.stored_request.rep.cid = m.cid ∧ m.stored_request.rep.rid = m.req_id) ∧
    NumberedAs b H m.cid m.req_id m.seqno
  deriving Decidable

/-- **What the message must meet**, with `base` the number the aborts start
from: the replica's own history is numbered by position when the set is
complete and when a get-a-grip is taken, and so is the get-a-grip. -/
def NumbersOk (base : (ℕ → Option Abort) → ℕ) (id : ℕ) (r : CReplica N) : RMessage → Prop
  | .abort m => ∀ c ∈ r.aborts.add m, 3 * N.f + 1 ≤ c.count → r.KeepsNumbers (base c.ac) id c.ac
  | .getAGrip m => r.cur_state = .miswaiting → ∀ mg ∈ r.merges.getLast?,
      r.KeepsNumbers (base mg.aborts) id mg.aborts ∧
        GripNumbered (base mg.aborts) (Smasher.merged N.n N.f mg.aborts) m
  | _ => True

instance (base : (ℕ → Option Abort) → ℕ) (id : ℕ) (r : CReplica N) (m : RMessage) :
    Decidable (r.NumbersOk base id m) := by
  apply @m.casesOn <;> intros <;> dsimp only [NumbersOk] <;> infer_instance

end CReplica

/-- What is kept for a missing element: its place in `missing_mask`,
`missing_store` and `missing_store_seq`. -/
inductive Slot (b : ℕ) (H : AbortHistory) (e : AbortHistoryElement) :
    Option Bool → Option (Option CRequest) → Option ℕ → Prop where
  /-- the request has not come yet -/
  | waiting (seq : ℕ) : Slot b H e (some true) (some none) (some seq)
  /-- the request came, with the number of its place -/
  | filled (q : CRequest) (seq : ℕ) (hq : q.rep.cid = e.cid ∧ q.rep.rid = e.rid)
      (hseq : NumberedAs b H e.cid e.rid seq) : Slot b H e (some false) (some (some q)) (some seq)

/-- **What a replica that waits for requests has**, `mg` being its last
merge. -/
structure Fetching (base : (ℕ → Option Abort) → ℕ) (id : ℕ) (r : CReplica N) (mg : MergeRecord) :
    Prop where
  last : r.merges.getLast? = some mg
  ah_2 : r.ah_2 = mg.merged
  merged : mg.merged = Smasher.merged N.n N.f mg.aborts
  own : ∀ e ∈ mg.merged, e ∉ r.missing → ∃ own ∈ mg.aborts id, e ∈ own.history
  length : r.missing_store.length = r.missing.length
  slot : ∀ (i : ℕ) e, r.missing[i]? = some e → Slot (base mg.aborts) mg.merged e r.missing_mask[i]?
    r.missing_store[i]? r.missing_store_seq[i]?
  count : r.num_missing = r.missing_mask.count true

namespace Fetching

variable {base : (ℕ → Option Abort) → ℕ} {id : ℕ} {r r' : CReplica N} {mg : MergeRecord}

/-- The set was completed just now. -/
theorem of_merge {aborts : ℕ → Option Abort} {ah_2 : AbortHistory}
    (hproc : Smasher.process N.n N.f aborts id = some (ah_2, r.missing))
    (hlast : r.merges.getLast? = some ⟨aborts, ah_2⟩) (hah : r.ah_2 = ah_2)
    (hmask : r.missing_mask = r.missing.map fun _ => true)
    (hstore : r.missing_store = r.missing.map fun _ => none)
    (hseq : r.missing_store_seq = r.missing.map fun _ => 0)
    (hnum : r.num_missing = r.missing.length) : Fetching base id r ⟨aborts, ah_2⟩ := by
  refine ⟨hlast, hah, Smasher.eq_merged_of_process hproc, fun e he hnot => ?_, ?_, ?_, ?_⟩
  · exact Smasher.mem_own_of_process hproc he hnot
  · rw [hstore, length_map]
  · intro i e he
    rw [hmask, hstore, hseq, getElem?_map, getElem?_map, getElem?_map, he]
    exact .waiting 0
  · rw [hnum, hmask, map_const', count_replicate_self]

variable (h : Fetching base id r mg)

include h

theorem calm (hc : CReplica.Calm r r') : Fetching base id r' mg := by
  have hpart := hc.part
  simp only [CReplica.waitingPart, Prod.mk.injEq] at hpart
  obtain ⟨hah, hmissing, hmask, hstore, hseq, hnum⟩ := hpart
  refine ⟨hc.merges ▸ h.last, hah ▸ h.ah_2, h.merged, ?_, ?_, ?_, ?_⟩
  · rw [hmissing]
    exact h.own
  · rw [hstore, hmissing]
    exact h.length
  · rw [hmissing, hmask, hstore, hseq]
    exact h.slot
  · rw [hnum, hmask]
    exact h.count

theorem mark {m : CGetAGrip} {i : ℕ} (hi : r.findMissing m = some i)
    (hm : CReplica.GripNumbered (base mg.aborts) mg.merged m) :
    Fetching base id (r.afterGrip m i) mg := by
  obtain ⟨e, he, hmask, hcid, hrid, -⟩ := CReplica.findMissing_eq_some hi
  refine ⟨h.last, h.ah_2, h.merged, h.own, ?_, fun j e' he' => ?_, ?_⟩
  · exact length_set.trans h.length
  · have hslot := h.slot j e' he'
    show Slot _ _ e' (r.missing_mask.set i false)[j]? (r.missing_store.set i _)[j]?
      (r.missing_store_seq.set i m.seqno)[j]?
    by_cases hij : i = j
    · subst hij
      obtain rfl : e = e' := Option.mem_unique he he'
      have hlt : i < r.missing_mask.length ∧ i < r.missing_store.length ∧
          i < r.missing_store_seq.length := by
        generalize hm : r.missing_mask[i]? = o, hs : r.missing_store[i]? = o',
          hq : r.missing_store_seq[i]? = o'' at hslot
        cases hslot <;> exact ⟨(List.getElem?_eq_some_iff.1 hm).1,
          (List.getElem?_eq_some_iff.1 hs).1, (List.getElem?_eq_some_iff.1 hq).1⟩
      rw [getElem?_set_self hlt.1, getElem?_set_self hlt.2.1,
        getElem?_set_self hlt.2.2]
      obtain ⟨⟨hqcid, hqrid⟩, hnum⟩ := hm
      rw [← hcid, ← hrid] at hnum
      exact .filled _ _ ⟨hqcid.trans hcid.symm, hqrid.trans hrid.symm⟩ hnum
    · rw [getElem?_set_ne hij, getElem?_set_ne hij, getElem?_set_ne hij]
      exact hslot
  · show r.num_missing - 1 = (r.missing_mask.set i false).count true
    obtain ⟨hlt, hget⟩ := List.getElem?_eq_some_iff.1 hmask
    rw [count_set hlt, hget, h.count]
    simp

/-- What `missing_store` holds of requests when nothing is missing any
more. -/
theorem store_numbered :
    ∀ p ∈ r.fetched, NumberedAs (base mg.aborts) mg.merged p.1.rep.cid p.1.rep.rid p.2 := by
  intro p hp
  obtain ⟨⟨o, seq⟩, ho, hop⟩ := mem_filterMap.1 hp
  obtain ⟨q, hq, rfl⟩ := Option.map_eq_some_iff.1 hop
  obtain ⟨j, hj⟩ := getElem?_of_mem ho
  obtain ⟨hstore, hseq⟩ := List.getElem?_zip_eq_some.1 hj
  have hlt : j < r.missing.length := h.length ▸ (List.getElem?_eq_some_iff.1 hstore).1
  have hslot := h.slot j _ (getElem?_eq_getElem hlt)
  rw [hstore, hseq] at hslot
  obtain rfl : o = some q := hq
  generalize r.missing_mask[j]? = mask at hslot
  cases hslot with
  | filled _ _ hids hnum =>
    show NumberedAs _ _ q.rep.cid q.rep.rid seq
    rw [hids.1, hids.2]
    exact hnum

variable (hzero : r.num_missing = 0)

include hzero

/-- When nothing is missing any more every missing element is there. -/
theorem exists_stored {e : AbortHistoryElement} (he : e ∈ r.missing) :
    ∃ p ∈ r.fetched, p.1.rep.cid = e.cid ∧ p.1.rep.rid = e.rid := by
  obtain ⟨j, hj⟩ := getElem?_of_mem he
  have hslot := h.slot j e hj
  generalize hm : r.missing_mask[j]? = o, hs : r.missing_store[j]? = o',
    hq : r.missing_store_seq[j]? = o'' at hslot
  cases hslot with
  | waiting seq =>
    have hmem : true ∈ r.missing_mask := mem_of_getElem? hm
    have hpos : 0 < r.missing_mask.count true := count_pos_iff.2 hmem
    have := h.count
    omega
  | filled q seq hids _ =>
    refine ⟨(q, seq), mem_filterMap.2 ⟨(some q, seq), ?_, rfl⟩, hids⟩
    exact mem_of_getElem? (getElem?_zip_eq_some.2 ⟨hs, hq⟩)

/-- **The last missing request came**: the history that replaces the old
one is numbered by position. -/
theorem rebuild_numbered (hkeeps : r.KeepsNumbers (base mg.aborts) id mg.aborts) :
    (rebuild N r.rh r.fetched r.ah_2).rh.map numberOf =
      numbering (base mg.aborts) mg.merged := by
  rw [h.ah_2]
  obtain ⟨hlog, hown⟩ := hkeeps
  rw [← h.merged] at hlog hown
  refine foldl_rebuildStep_numbered _ _ _ _ _ hlog h.store_numbered fun e he => ?_
  by_cases hmem : e ∈ r.missing
  · exact Or.inr (h.exists_stored hzero hmem)
  · obtain ⟨own, hac, hin⟩ := h.own e he hmem
    exact Or.inl (hown own hac e he hin)

end Fetching

/-! ## The switch -/

/-- A replica that has just enabled the next instance: its history is the
merged one by position, and `seqno` goes on from there. -/
def Renumbered (base : (ℕ → Option Abort) → ℕ) (r : CReplica N) : Prop :=
  ∃ mg, r.merges.getLast? = some mg ∧
    r.rh.rh.map numberOf =
      numbering (base mg.aborts) (Smasher.merged N.n N.f mg.aborts) ∧
    r.seqno = r.rh.getTopSeqno + 1

namespace CReplica

variable {base : (ℕ → Option Abort) → ℕ} {id : ℕ} {r r' : CReplica N}

/-- What a move keeps and does. -/
structure Renumbers (base : (ℕ → Option Abort) → ℕ) (id : ℕ) (r r' : CReplica N) : Prop where
  fetching : r'.cur_state = .miswaiting → ∃ mg, Fetching base id r' mg
  switched : r'.switched = r.switched ∨ Renumbered base r'

variable (h : r.cur_state = .miswaiting → ∃ mg, Fetching base id r mg)

include h

theorem Calm.renumbers (hc : Calm r r') : Renumbers base id r r' := by
  refine ⟨fun hs => ?_, Or.inl hc.switched⟩
  rcases hc.state with hsame | hpanic
  · obtain ⟨mg, hmg⟩ := h (hsame.symm.trans hs)
    exact ⟨mg, hmg.calm hc⟩
  · rw [hpanic] at hs
    cases hs

theorem renumbers_handleAbort {m : Abort} (hok : r.NumbersOk base id (.abort m)) :
    Renumbers base id r (r.handleAbort id m) := by
  have hmove := r.abortMove_handleAbort id m
  generalize r.handleAbort id m = r' at hmove ⊢
  cases hmove with
  | dropped => exact (Calm.refl r).renumbers h
  | collect c =>
    have hcalm : Calm r { r with aborts := c } := ⟨rfl, rfl, rfl, Or.inl rfl⟩
    exact hcalm.renumbers h
  | adopt c ah_2 _ _ hadd hfull hproc =>
    obtain ⟨hlog, hown⟩ := hok c hadd hfull
    refine ⟨nofun, Or.inr ⟨_, getLast?_concat, ?_, rfl⟩⟩
    obtain rfl := Smasher.eq_merged_of_process hproc
    refine foldl_rebuildStep_numbered _ _ _ _ _ hlog nofun fun e he => Or.inl ?_
    obtain ⟨own, hac, hin⟩ := Smasher.mem_own_of_process hproc he not_mem_nil
    exact hown own hac e he hin
  | wait c ah_2 missing sent _ _ _ _ _ hproc =>
    exact ⟨fun _ => ⟨_, Fetching.of_merge hproc getLast?_concat rfl rfl rfl rfl rfl⟩,
      Or.inl rfl⟩

theorem renumbers_handleGetAGrip {m : CGetAGrip} (hok : r.NumbersOk base id (.getAGrip m)) :
    Renumbers base id r (r.handleGetAGrip m) := by
  have hmark : ∀ {i}, r.cur_state = .miswaiting → r.findMissing m = some i →
      ∃ mg, r.KeepsNumbers (base mg.aborts) id mg.aborts ∧
        Fetching base id (r.afterGrip m i) mg := by
    intro i hs hi
    obtain ⟨mg, hmg⟩ := h hs
    obtain ⟨hkeeps, hgrip⟩ := hok hs mg hmg.last
    rw [← hmg.merged] at hgrip
    exact ⟨mg, hkeeps, hmg.mark hi hgrip⟩
  have hmove := r.gripMove_handleGetAGrip m
  generalize r.handleGetAGrip m = r' at hmove ⊢
  cases hmove with
  | dropped => exact (Calm.refl r).renumbers h
  | fetch i hs hi =>
    obtain ⟨mg, -, hmg⟩ := hmark hs hi
    exact ⟨fun _ => ⟨mg, hmg⟩, Or.inl rfl⟩
  | adopt i hs hi hzero =>
    obtain ⟨mg, hkeeps, hmg⟩ := hmark hs hi
    refine ⟨nofun, Or.inr ⟨mg, hmg.last, ?_, rfl⟩⟩
    rw [← hmg.merged]
    exact hmg.rebuild_numbered hzero hkeeps

/-- **Every move keeps the numbers.** -/
theorem renumbers_step {e : CEvent} (hok : ∀ m ∈ r.taken e, r.NumbersOk base id m) :
    Renumbers base id r (r.step id e) := by
  rcases r.step_phase id e with hframe | ⟨queue, m, htaken, heq⟩ | ⟨queue, m, htaken, heq⟩
  · exact hframe.calm.renumbers h
  all_goals
    have hpop : Calm r (r.popped queue) := ⟨rfl, rfl, rfl, Or.inl rfl⟩
    have hwait := (hpop.renumbers h).fetching
    rw [heq]
  · have hmove := renumbers_handleAbort hwait (hok _ htaken)
    exact ⟨hmove.fetching, hmove.switched⟩
  · have hmove := renumbers_handleGetAGrip hwait (hok _ htaken)
    exact ⟨hmove.fetching, hmove.switched⟩

end CReplica

/-- The entries of the history after the switch, by client, request and
sequence number. -/
def SwitchRecord.numbers (sw : SwitchRecord) : List (Option (ℤ × ℕ) × ℕ) := sw.history.map numberOf

/-- The sequence number `find` gives for an element. -/
def SwitchRecord.seqOf (sw : SwitchRecord) (e : AbortHistoryElement) : Option ℕ :=
  (sw.numbers.find? fun p => p.1 = some (e.cid, e.rid)).map Prod.snd

/-- The correct replicas, each with its own run, end with sequence numbers
that go up; two that merged the same set have the same number for each
element and the same next one. -/
def NumbersAgree (N : RNode S) (byz : Finset ℕ) (service : S) (es : ℕ → List CReplica.CEvent) :
    Prop :=
  ∀ k, Correct N byz k → ∀ sw ∈ (exec (Applying.step k) (Applying.init N service) (es k)).switches,
    (sw.history.map RhEntry.seq).Pairwise (· < ·) ∧ ∀ k', Correct N byz k' →
      ∀ sw' ∈ (exec (Applying.step k') (Applying.init N service) (es k')).switches,
        sw.aborts = sw'.aborts →
          (∀ e ∈ sw.merged, sw.seqOf e = sw'.seqOf e) ∧ sw.seqno = sw'.seqno

/-- A switch to the merged history by position. -/
structure SwitchRecord.NumberedFrom (N : RNode S) (base : (ℕ → Option Abort) → ℕ)
    (sw : SwitchRecord) : Prop where
  numbers : sw.numbers = numbering (base sw.aborts) (Smasher.merged N.n N.f sw.aborts)
  seqno : sw.seqno = sw.numbers.getLast?.elim 0 Prod.snd + 1

theorem getTopSeqno_eq (log : CLog N) :
    log.getTopSeqno = (log.rh.map numberOf).getLast?.elim 0 Prod.snd := by
  unfold ReqHistoryLog.getTopSeqno
  rw [getLast?_map]
  cases log.rh.getLast? with
  | none => rfl
  | some x => rfl

theorem pairwise_numbering (b : ℕ) (H : AbortHistory) :
    ((numbering b H).map Prod.snd).Pairwise (· < ·) := by
  rw [pairwise_iff_getElem]
  intro i j hi hj hij
  simp only [numbering, getElem_map, getElem_mapIdx]
  omega

/-- What a run keeps. -/
structure Applying.Numbered (base : (ℕ → Option Abort) → ℕ) (id : ℕ) (a : Applying N) : Prop where
  fetching : a.replica.cur_state = .miswaiting → ∃ mg, Fetching base id a.replica mg
  switches : ∀ sw ∈ a.switches, sw.NumberedFrom N base

theorem Applying.Numbered.init (base : (ℕ → Option Abort) → ℕ) (id : ℕ) (service : S) :
    (Applying.init N service).Numbered base id :=
  ⟨nofun, nofun⟩

theorem Applying.Numbered.step {base : (ℕ → Option Abort) → ℕ} {id : ℕ} {a : Applying N}
    (h : a.Numbered base id) {e : CReplica.CEvent}
    (hok : ∀ m ∈ a.replica.taken e, a.replica.NumbersOk base id m) :
    (a.step id e).Numbered base id := by
  have hmove := CReplica.renumbers_step h.fetching hok
  refine ⟨hmove.fetching, fun sw hsw => ?_⟩
  unfold Applying.step at hsw
  dsimp only at hsw
  split at hsw
  · exact h.switches sw hsw
  next hswitched =>
  rcases mem_append.1 hsw with hold | hnew
  · exact h.switches sw hold
  obtain ⟨mg, hlast, hnumbers, hseqno⟩ := hmove.switched.resolve_left hswitched
  rw [hlast] at hnew
  obtain rfl := mem_singleton.1 hnew
  refine ⟨hnumbers, ?_⟩
  show (a.replica.step id e).seqno = _
  rw [hseqno, getTopSeqno_eq]
  rfl

/-- **Sequence numbers after a switch.** In runs of the correct replicas
where histories and get-a-grips number the merged history by position, from
a base that the abort set decides, the numbers go up and the replicas
agree. -/
theorem switch_numbers_agree (N : RNode S) (byz : Finset ℕ) (service : S)
    (base : (ℕ → Option Abort) → ℕ) (es : ℕ → List CReplica.CEvent)
    (hok : ∀ k, Correct N byz k → Guarded (Applying.step k)
      (fun a e => ∀ m ∈ a.replica.taken e, a.replica.NumbersOk base k m)
      (Applying.init N service) (es k)) :
    NumbersAgree N byz service es := by
  have hinv : ∀ k, Correct N byz k →
      (exec (Applying.step k) (Applying.init N service) (es k)).Numbered base k := fun k hk =>
    (hok k hk).invariant (I := Applying.Numbered base k) (fun a e h hae => h.step hae)
      (Applying.Numbered.init base k service)
  intro k hk sw hsw
  have hnum := (hinv k hk).switches sw hsw
  refine ⟨?_, fun k' hk' sw' hsw' hsame => ?_⟩
  · have hseqs : sw.history.map RhEntry.seq = sw.numbers.map Prod.snd := by
      unfold SwitchRecord.numbers
      rw [map_map]
      rfl
    rw [hseqs, hnum.numbers]
    exact pairwise_numbering ..
  · have hnum' := (hinv k' hk').switches sw' hsw'
    have heq : sw.numbers = sw'.numbers := by
      rw [hnum.numbers, hnum'.numbers, hsame]
    refine ⟨fun e _ => ?_, ?_⟩
    · unfold SwitchRecord.seqOf
      rw [heq]
    · rw [hnum.seqno, hnum'.seqno, heq]

section Sample

/-- A replica that has executed nothing gets the aborts of the others: those
of `0` and `1` list two requests. The get-a-grips number them as `seqs`
says. -/
def fetchesBoth (other : ℕ) (seqs : ℕ × ℕ) : List CReplica.CEvent :=
  panics ++ abortsArrive [(0, [passedOn [], secondPassedOn]), (1, [passedOn [], secondPassedOn]),
      (other, [])] ++
    [.incoming (.getAGrip ⟨1, 4, 0, seqs.1, passedOn []⟩) false,
      .incoming (.getAGrip ⟨2, 4, 0, seqs.2, secondPassedOn⟩) false]

/-- The runs of replicas `2` and `3`. -/
def fetchRuns (seqs seqs' : ℕ × ℕ) : ℕ → List CReplica.CEvent
  | 2 => fetchesBoth 3 seqs
  | 3 => fetchesBoth 2 seqs'
  | _ => []

theorem switch_numbers_agree_fetched :
    ((exec (Applying.step 3) (Applying.init sampleRNode ())
      (fetchRuns (1, 2) (1, 2) 3)).switches.map fun sw =>
        (sw.history.map RhEntry.seq, sw.seqno)) = [([1, 2], 3)] ∧
    NumbersAgree sampleRNode {0} () (fetchRuns (1, 2) (1, 2)) := by
  refine ⟨by decide +kernel, switch_numbers_agree sampleRNode {0} () (fun _ => 0) _ fun k _ => ?_⟩
  unfold fetchRuns
  split
  · decide +kernel
  · decide +kernel
  · trivial

/-- **The numbers of a get-a-grip are not checked.** Replicas `2` and `3`
merge the same aborts; the faulty head sends replica `3` the requests under
other numbers. -/
theorem fetched_numbers_differ :
    let sws (k : ℕ) := (exec (Applying.step k) (Applying.init sampleRNode ())
      (fetchRuns (1, 2) (9, 3) k)).switches
    (∃ sw ∈ sws 2, ∃ sw' ∈ sws 3, sw.aborts = sw'.aborts ∧
      sw.history.map RhEntry.seq = [1, 2] ∧ sw.seqno = 3 ∧
      sw'.history.map RhEntry.seq = [9, 3] ∧ sw'.seqno = 4) ∧
    ¬ NumbersAgree sampleRNode {0} () (fetchRuns (1, 2) (9, 3)) := by
  intro sws
  have hsws : ∃ sw ∈ sws 2, ∃ sw' ∈ sws 3, sw.aborts = sw'.aborts ∧
      sw.history.map RhEntry.seq = [1, 2] ∧ sw.seqno = 3 ∧
      sw'.history.map RhEntry.seq = [9, 3] ∧ sw'.seqno = 4 := by
    refine ⟨_, mem_singleton.2 rfl, _, mem_singleton.2 rfl, ?_, ?_, ?_, ?_, ?_⟩
    · funext i
      match i with
      | 0 => rfl
      | 1 => rfl
      | 2 => rfl
      | 3 => rfl
      | _ + 4 => rfl
    all_goals decide +kernel
  refine ⟨hsws, fun h => ?_⟩
  obtain ⟨sw, -, sw', hsw', -, -, -, hseqs, -⟩ := hsws
  have hup := (h 3 (by decide) sw' hsw').1
  rw [hseqs] at hup
  exact absurd hup (by decide)

end Sample

end AbstractBFT.Chain
