import AbstractBFT.Chain.AbortHistory
/-!
# Chain — what a replica keeps of a sequence of requests

A sequence `R` that every correct replica executed first shows in the
aborts they broadcast (`AbortFrom.of_complete`). Where the merged history
goes on from `R`, so does the history a replica rebuilds from it
(`HistFrom.rebuild`), later truncations (`HistFrom.truncate`) and the
aborts the replica broadcasts after it stopped
(`AbortFrom.of_histFrom`).
-/

namespace AbstractBFT.Chain

open List

variable {S : Type} {N : RNode S} {R : List CRequest}

/-! ## The elements of a sequence -/

/-- The history digest is the digest of a sum over the headers. -/
theorem rh_d_logOf (l : List CRequest) :
    (logOf N l).rh_d = (l.map fun q => q.rep.od).foldl DSum.add (DSum.zero N.M) := by
  induction l using List.reverseRecOn with
  | nil => rfl
  | append_singleton l q ih =>
    rw [logOf_concat, map_append, foldl_append, ← ih]
    rfl

variable {l : List CRequest} {i t : ℕ} {e : AbortHistoryElement} {log : CLog N}
variable {pre : List (RhEntry CRequest)} {es : AbortHistory}

theorem historyDigest_congr {l' : List CRequest} (h : l.map CRequest.rep = l'.map CRequest.rep) :
    historyDigest N l = historyDigest N l' := by
  have hod : (l.map fun q => q.rep.od) = l'.map fun q => q.rep.od := by
    have := congrArg (List.map fun rep : CRequestRep => rep.od) h
    simpa only [map_map, Function.comp_def] using this
  unfold historyDigest ReqHistoryLog.rhDigest
  rw [rh_d_logOf, rh_d_logOf, hod]

/-- What an abort lists for the sequence `R`. -/
def elementsOf (N : RNode S) (R : List CRequest) : AbortHistory :=
  R.mapIdx fun i q => ⟨q.rep.cid, q.rep.rid, historyDigest N (R.take (i + 1))⟩

@[simp] theorem length_elementsOf : (elementsOf N R).length = R.length :=
  length_mapIdx

theorem getElem?_elementsOf :
    (elementsOf N R)[i]? = some e ↔
      ∃ q, R[i]? = some q ∧ e = ⟨q.rep.cid, q.rep.rid, historyDigest N (R.take (i + 1))⟩ := by
  unfold elementsOf
  rw [getElem?_mapIdx, Option.map_eq_some_iff]
  simp only [eq_comm]

/-- A request of `R` in a list of requests that goes on from it. -/
theorem getElem?_of_prefix (hR : R.map CRequest.rep <+: l.map CRequest.rep) {q : CRequest}
    (h : R[i]? = some q) :
    ∃ q', l[i]? = some q' ∧ q'.rep = q.rep ∧
      historyDigest N (l.take (i + 1)) = historyDigest N (R.take (i + 1)) := by
  have hi : i < R.length := (List.getElem?_eq_some_iff.1 h).1
  obtain ⟨t, ht⟩ := hR
  have hget : (l.map CRequest.rep)[i]? = some q.rep := by
    rw [← ht, getElem?_append_left (by simpa using hi), getElem?_map, h]
    rfl
  rw [getElem?_map, Option.map_eq_some_iff] at hget
  obtain ⟨q', hq', hrep⟩ := hget
  refine ⟨q', hq', hrep, historyDigest_congr ?_⟩
  rw [map_take, map_take, ← ht, take_append_of_le_length (by simp; omega)]

/-! ## Aborts -/

/-- The abort lists the elements of `R` above its truncation, where they
belong. -/
def AbortFrom (N : RNode S) (R : List CRequest) (a : AbortRecord) : Prop :=
  ∀ i e, (elementsOf N R)[i]? = some e → a.truncated ≤ i →
    i - a.truncated < a.abort.rep.hist_size ∧ a.abort.elems (i - a.truncated) = e

/-- A complete abort lists what the replica executed first. -/
theorem AbortFrom.of_complete {a : AbortRecord} (h : Complete N l a)
    (hR : R.map CRequest.rep <+: l.map CRequest.rep) : AbortFrom N R a := by
  intro i e he hle
  obtain ⟨q, hq, rfl⟩ := getElem?_elementsOf.1 he
  obtain ⟨q', hq', hrep, hdig⟩ := getElem?_of_prefix (N := N) hR hq
  obtain ⟨hlt, helem⟩ := h i q' hq' hle
  rw [helem, hrep, hdig]
  exact ⟨hlt, rfl⟩

/-! ## The history -/

/-- A history that holds the requests of `R` from number `t + 1` on, and
a request in every entry. -/
structure HistFrom (N : RNode S) (R : List CRequest) (t : ℕ) (rh : List (RhEntry CRequest)) :
    Prop where
  listed : ∀ i e, (elementsOf N R)[t + i]? = some e →
    ∃ q d, rh[i]? = some ⟨some q, t + i + 1, d⟩ ∧ q.element = e
  all_some : ∀ e ∈ rh, e.req.isSome

/-- An abort built from such a history. -/
theorem AbortFrom.of_histFrom (h : HistFrom N R t log.rh) (hlen : log.rh.length < 2 ^ 15)
    (replica : ℤ) (rid : ℕ) (buffer : ℕ → AbortHistoryElement) (state : ReplicaState) :
    AbortFrom N R ⟨CAbort.ofHistory N replica rid log buffer, state, t⟩ := by
  intro i e he hle
  obtain ⟨j, rfl⟩ : ∃ j, i = t + j := ⟨i - t, by simp at hle; omega⟩
  simp only [Nat.add_sub_cancel_left]
  obtain ⟨q, d, hget, hq⟩ := h.listed j e he
  constructor
  · show j < log.rh.length % 2 ^ 16
    rw [Nat.mod_eq_of_lt (by omega)]
    exact (List.getElem?_eq_some_iff.1 hget).1
  · rw [elems_ofHistory h.all_some hget, hq]

theorem HistFrom.truncate {c : ℕ} {log' : CLog N} (h : HistFrom N R t log.rh)
    (hlt : t < c) (ht : log.truncateHistory c = some log') : HistFrom N R c log'.rh := by
  unfold ReqHistoryLog.truncateHistory at ht
  split at ht
  · cases ht
  next pos hpos =>
  obtain rfl := Option.some.inj ht
  refine ⟨fun i e he => ?_, fun e he => h.all_some e (mem_of_mem_drop he)⟩
  obtain ⟨hposlt, hseq, hmin⟩ := List.findIdx?_eq_some_iff_getElem.1 hpos
  have hlen : c + i < (elementsOf N R).length := (List.getElem?_eq_some_iff.1 he).1
  -- the entries of `R` are numbered, so the one found is number `c`
  have hentry : ∀ j (hj : j < log.rh.length), t + j < (elementsOf N R).length →
      log.rh[j].seq = t + j + 1 := by
    intro j hj hjR
    obtain ⟨q, d, hget, -⟩ := h.listed j _ (getElem?_eq_getElem hjR)
    rw [getElem?_eq_getElem hj] at hget
    rw [Option.some.inj hget]
  have hposeq : pos = c - t - 1 := by
    obtain ⟨q, d, hget, -⟩ := h.listed (c - t - 1) _ (getElem?_eq_getElem (by omega))
    have hcl : c - t - 1 < log.rh.length := (List.getElem?_eq_some_iff.1 hget).1
    rcases Nat.lt_trichotomy pos (c - t - 1) with hlt' | heq | hgt
    · have := hentry pos hposlt (by omega)
      simp only [this, beq_iff_eq] at hseq
      omega
    · exact heq
    · have := hentry _ hcl (by omega)
      exact absurd (by simp only [this, beq_iff_eq]; omega) (hmin _ hgt)
  have hidx : t + (pos + 1 + i) = c + i := by omega
  obtain ⟨q, d, hget, hq⟩ := h.listed (pos + 1 + i) e (by rw [hidx]; exact he)
  refine ⟨q, d, ?_, hq⟩
  rw [getElem?_drop, hget, hidx]

/-! ## The rebuilt history -/

/-- The entry holds the request an element names. -/
def Holds (e : AbortHistoryElement) (x : RhEntry CRequest) : Prop :=
  ∃ q, x.req = some q ∧ q.rep.cid = e.cid ∧ q.rep.rid = e.rid

/-- An element whose request is at the front of what is left of the old
history is moved over. -/
theorem rebuildStep_of_holds (store : List (CRequest × ℕ)) {x : RhEntry CRequest}
    (hpre : ∀ y ∈ pre, y.req = none) (h : Holds e x) (rest : List (RhEntry CRequest))
    (log : CLog N) :
    ∃ d log', rebuildStep N store (pre ++ x :: rest, log) e =
        ((pre ++ [⟨none, x.seq, x.d_h⟩]) ++ rest, log') ∧
      log'.rh = log.rh ++ [⟨x.req, x.seq, d⟩] := by
  obtain ⟨q, hq, hcid, hrid⟩ := h
  obtain ⟨req, seq, d_h⟩ := x
  obtain rfl : req = some q := hq
  have hnone : findEntry pre e.cid e.rid = none := by
    refine findIdx?_eq_none_iff.2 fun y hy => ?_
    rw [hpre y hy]
  have hfind : findEntry (pre ++ ⟨some q, seq, d_h⟩ :: rest) e.cid e.rid = some pre.length := by
    unfold findEntry at hnone ⊢
    rw [findIdx?_append, hnone]
    simp [findIdx?_cons, hcid, hrid]
  unfold rebuildStep
  rw [hfind]
  simp only [getElem?_append_right le_rfl, Nat.sub_self, getElem?_cons_zero]
  refine ⟨_, _, Prod.ext ?_ rfl, rfl⟩
  simp

/-- Elements whose requests are what is left of the old history, in its
order, are moved over one by one. -/
theorem foldl_rebuildStep_of_holds (store : List (CRequest × ℕ)) {old : List (RhEntry CRequest)}
    (h : List.Forall₂ Holds es old) (hpre : ∀ y ∈ pre, y.req = none)
    (rest : List (RhEntry CRequest)) (log : CLog N) :
    ∃ st added, es.foldl (rebuildStep N store) (pre ++ (old ++ rest), log) = st ∧
      st.2.rh = log.rh ++ added ∧
      added.map (fun x => (x.req, x.seq)) = old.map fun x => (x.req, x.seq) := by
  induction h generalizing pre log with
  | nil => exact ⟨_, [], rfl, by simp, rfl⟩
  | @cons e x es old hx _ ih =>
    obtain ⟨d, log', hstep, hlog'⟩ := rebuildStep_of_holds (N := N) store hpre hx (old ++ rest) log
    have hpre' : ∀ y ∈ pre ++ [⟨none, x.seq, x.d_h⟩], y.req = none := by
      intro y hy
      rcases mem_concat_iff.1 hy with hy | rfl
      · exact hpre y hy
      · rfl
    obtain ⟨st, added, hst, hrh, hmap⟩ := ih hpre' log'
    refine ⟨st, ⟨x.req, x.seq, d⟩ :: added, ?_, ?_, ?_⟩
    · rw [foldl_cons, cons_append, hstep]
      exact hst
    · rw [hrh, hlog']
      simp
    · rw [map_cons, map_cons, hmap]

/-- Elements that are neither in the old history nor fetched are left
out. -/
theorem foldl_rebuildStep_of_unknown {store : List (CRequest × ℕ)}
    {st : List (RhEntry CRequest) × CLog N} (hold : ∀ e ∈ es, ∀ x ∈ st.1, ¬ Holds e x)
    (hstore : ∀ e ∈ es, ∀ p ∈ store, ¬ (p.1.rep.cid = e.cid ∧ p.1.rep.rid = e.rid)) :
    es.foldl (rebuildStep N store) st = st := by
  induction es with
  | nil => rfl
  | cons e es ih =>
    have hfind : findEntry st.1 e.cid e.rid = none := by
      refine findIdx?_eq_none_iff.2 fun x hx => ?_
      have hno := hold e (by simp) x hx
      cases hreq : x.req with
      | none => rfl
      | some q =>
        by_contra hids
        simp only [Bool.not_eq_false, Bool.and_eq_true, beq_iff_eq] at hids
        exact hno ⟨q, hreq, hids⟩
    have hfetched : (store.find? fun p => p.1.rep.cid == e.cid && p.1.rep.rid == e.rid) = none := by
      refine find?_eq_none.2 fun p hp hids => hstore e (by simp) p hp ?_
      simpa using hids
    have hstep : rebuildStep N store st e = st := by
      unfold rebuildStep
      rw [hfind, hfetched]
    rw [foldl_cons, hstep]
    exact ih (fun e' he' => hold e' (mem_cons_of_mem _ he'))
      fun e' he' => hstore e' (mem_cons_of_mem _ he')

/-- A step appends to the new history, and only requests. -/
theorem rebuildStep_appends (store : List (CRequest × ℕ))
    (st : List (RhEntry CRequest) × CLog N) (e : AbortHistoryElement) :
    ∃ added, (rebuildStep N store st e).2.rh = st.2.rh ++ added ∧ ∀ x ∈ added, x.req.isSome := by
  unfold rebuildStep
  split
  · split
    · exact ⟨_, rfl, by simp⟩
    · exact ⟨[], by simp, by simp⟩
  · split
    · exact ⟨_, rfl, by simp⟩
    · exact ⟨[], by simp, by simp⟩

theorem foldl_rebuildStep_appends (store : List (CRequest × ℕ)) (es : AbortHistory)
    (st : List (RhEntry CRequest) × CLog N) :
    ∃ added, (es.foldl (rebuildStep N store) st).2.rh = st.2.rh ++ added ∧
      ∀ x ∈ added, x.req.isSome := by
  induction es generalizing st with
  | nil => exact ⟨[], by simp, by simp⟩
  | cons e es ih =>
    obtain ⟨a, ha, hsome⟩ := rebuildStep_appends (N := N) store st e
    obtain ⟨b, hb, hsome'⟩ := ih (rebuildStep N store st e)
    refine ⟨a ++ b, ?_, ?_⟩
    · rw [foldl_cons, hb, ha, append_assoc]
    · intro x hx
      rcases mem_append.1 hx with hx | hx
      · exact hsome x hx
      · exact hsome' x hx

section Rebuild

variable {l : List CRequest} {b t : ℕ} {store : List (CRequest × ℕ)}

/-- The entry of request number `t + i + 1`. -/
theorem getElem?_logged {i : ℕ} {q : CRequest} (hq : l[t + i]? = some q) :
    (truncatedLog N l l.length t).rh[i]? = some (lastEntry N (l.take (t + i + 1)) q) :=
  getElem?_truncatedLog hq (List.getElem?_eq_some_iff.1 hq).1

variable (hR : R.map CRequest.rep <+: l.map CRequest.rep)
include hR

/-- The elements of `R` the replica has truncated are left out: they are
neither in its history nor among what it fetched. -/
theorem foldl_rebuildStep_of_truncated
    (hids : l.Pairwise fun p q => p.rep.cid = q.rep.cid → p.rep.rid < q.rep.rid)
    (hstore : ∀ p ∈ store, ∀ q ∈ R, ¬ (p.1.rep.cid = q.rep.cid ∧ p.1.rep.rid = q.rep.rid))
    (log : CLog N) :
    (((elementsOf N R).drop b).take (t - b)).foldl (rebuildStep N store)
      ((truncatedLog N l l.length t).rh, log) = ((truncatedLog N l l.length t).rh, log) := by
  have hmem : ∀ e ∈ ((elementsOf N R).drop b).take (t - b), ∃ i < t, ∃ q, R[i]? = some q ∧
      e.cid = q.rep.cid ∧ e.rid = q.rep.rid := by
    intro e he
    obtain ⟨j, hj⟩ := getElem?_of_mem he
    rw [getElem?_take] at hj
    split at hj
    · rw [getElem?_drop] at hj
      obtain ⟨q, hq, rfl⟩ := getElem?_elementsOf.1 hj
      exact ⟨b + j, by omega, q, hq, rfl, rfl⟩
    · cases hj
  refine foldl_rebuildStep_of_unknown (fun e he x hx hholds => ?_) fun e he p hp hpe => ?_
  · obtain ⟨i, hit, q, hq, hcid, hrid⟩ := hmem e he
    obtain ⟨q', hq', hrep, -⟩ := getElem?_of_prefix (N := N) hR hq
    obtain ⟨j, hj⟩ := getElem?_of_mem hx
    have hjlt := (List.getElem?_eq_some_iff.1 hj).1
    rw [length_truncatedLog, Nat.min_self] at hjlt
    rw [getElem?_logged (getElem?_eq_getElem (by omega))] at hj
    obtain ⟨qx, hqx, hxcid, hxrid⟩ := hholds
    rw [← Option.some.inj hj] at hqx
    obtain rfl := Option.some.inj hqx
    -- two requests at different places of `l` have different identifiers
    obtain ⟨hilt, hil⟩ := List.getElem?_eq_some_iff.1 hq'
    have hlt := List.pairwise_iff_getElem.1 hids i (t + j) hilt (by omega) (by omega)
    rw [hil, hrep, ← hcid, ← hrid] at hlt
    have := hlt hxcid.symm
    exact absurd hxrid (by simp only; omega)
  · obtain ⟨i, hit, q, hq, hcid, hrid⟩ := hmem e he
    rw [hcid, hrid] at hpe
    exact hstore p hp q (mem_of_getElem? hq) hpe

/-- The other elements of `R` are in the history, in their order. -/
theorem forall₂_holds :
    List.Forall₂ Holds ((elementsOf N R).drop t)
      ((truncatedLog N l l.length t).rh.take (R.length - t)) := by
  have hlenR : R.length ≤ l.length := by simpa using hR.length_le
  rw [List.forall₂_iff_get]
  refine ⟨by simp; omega, fun i h₁ h₂ => ?_⟩
  rw [length_drop, length_elementsOf] at h₁
  have hRi : R[t + i]? = some R[t + i] := getElem?_eq_getElem (by omega)
  obtain ⟨q', hq', hrep, -⟩ := getElem?_of_prefix (N := N) hR hRi
  have hx : ((truncatedLog N l l.length t).rh.take (R.length - t))[i]? =
      some (lastEntry N (l.take (t + i + 1)) q') := by
    rw [getElem?_take_of_lt h₁]
    exact getElem?_logged hq'
  have he : ((elementsOf N R).drop t)[i]? = some ⟨R[t + i].rep.cid, R[t + i].rep.rid,
      historyDigest N (R.take (t + i + 1))⟩ := by
    rw [getElem?_drop]
    exact getElem?_elementsOf.2 ⟨_, hRi, rfl⟩
  rw [get_eq_getElem, get_eq_getElem, (List.getElem?_eq_some_iff.1 hx).2,
    (List.getElem?_eq_some_iff.1 he).2]
  exact ⟨_, rfl, by rw [hrep], by rw [hrep]⟩

/-- **The rebuilt history goes on from `R`** if the merged one does. -/
theorem HistFrom.rebuild {ah_2 : AbortHistory} (hnum : Numbered l)
    (hids : l.Pairwise fun p q => p.rep.cid = q.rep.cid → p.rep.rid < q.rep.rid)
    (hbt : b ≤ t) (hah : (elementsOf N R).drop b <+: ah_2)
    (hstore : ∀ p ∈ store, ∀ q ∈ R, ¬ (p.1.rep.cid = q.rep.cid ∧ p.1.rep.rid = q.rep.rid)) :
    HistFrom N R t (Chain.rebuild N (truncatedLog N l l.length t) store ah_2).rh := by
  obtain ⟨rest, rfl⟩ := hah
  have hsplit : (elementsOf N R).drop b =
      ((elementsOf N R).drop b).take (t - b) ++ (elementsOf N R).drop t := by
    have h := (take_append_drop (t - b) ((elementsOf N R).drop b)).symm
    rwa [drop_drop, Nat.add_sub_cancel' hbt] at h
  -- skip what was truncated, move the rest of `R` over, then take what follows
  have hnil : ∀ y ∈ ([] : List (RhEntry CRequest)), y.req = none := by simp
  obtain ⟨st, added, hst, hadded, hmap⟩ := foldl_rebuildStep_of_holds (N := N) store
    (forall₂_holds hR (N := N) (t := t)) hnil
    ((truncatedLog N l l.length t).rh.drop (R.length - t)) (ReqHistoryLog.empty N.M CRequest)
  rw [take_append_drop, nil_append] at hst
  obtain ⟨more, hmore, -⟩ := foldl_rebuildStep_appends (N := N) store rest st
  have hrh : (Chain.rebuild N (truncatedLog N l l.length t) store
      ((elementsOf N R).drop b ++ rest)).rh = added ++ more := by
    unfold Chain.rebuild
    rw [foldl_append, hsplit, foldl_append,
      foldl_rebuildStep_of_truncated hR hids hstore, hst, hmore, hadded]
    simp [ReqHistoryLog.empty]
  refine ⟨fun i e he => ?_, fun x hx => ?_⟩
  · obtain ⟨q, hq, rfl⟩ := getElem?_elementsOf.1 he
    obtain ⟨q', hq', hrep, hdig⟩ := getElem?_of_prefix (N := N) hR hq
    have hi : i < R.length - t := by
      have := (List.getElem?_eq_some_iff.1 hq).1
      omega
    have hx := congrArg (fun m => m[i]?) hmap
    simp only [getElem?_map, getElem?_take_of_lt hi, getElem?_logged hq',
      Option.map_some, Option.map_eq_some_iff] at hx
    obtain ⟨⟨req, seq, d⟩, hx, hxeq⟩ := hx
    obtain ⟨rfl, rfl⟩ := Prod.mk.inj hxeq
    refine ⟨{ q' with rep := { q'.rep with od := historyDigest N (l.take (t + i + 1)) } }, d, ?_, ?_⟩
    · rw [hrh, getElem?_append_left (List.getElem?_eq_some_iff.1 hx).1, hx, ← hnum _ _ hq']
      rfl
    · unfold CRequest.element
      simp only [hrep, hdig]
  · obtain ⟨all, hall, hallsome⟩ := foldl_rebuildStep_appends (N := N) store
      ((elementsOf N R).drop b ++ rest)
      ((truncatedLog N l l.length t).rh, ReqHistoryLog.empty N.M CRequest)
    refine hallsome x ?_
    unfold Chain.rebuild at hx
    rw [hall] at hx
    simpa [ReqHistoryLog.empty] using hx

end Rebuild

end AbstractBFT.Chain
