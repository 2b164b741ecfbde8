import AbstractBFT.Chain.Adopt
import AbstractBFT.Chain.Robust
/-!
# Chain — the history after a switch

When the abort set is complete a replica replaces its history by the
merged one: what it holds is moved over, the rest is fetched from the
other replicas with get-a-grips. `fetched_intact_iff` says what a
get-a-grip that is taken proves about the request inside, and
`adopted_history_iff` when the new history lists the merged elements.
A fetched request enters the history through `add_request`, which
overwrites its digest, so a history with fetched requests is not the
merged one.
-/

namespace AbstractBFT.Chain

open Machine List Option

variable {S : Type} {N : RNode S}

/-! ## A fetched request -/

/-- The bytes `comp_digest` hashes. -/
def CRequest.hashed (q : CRequest) : List UInt8 :=
  leBytes 2 (q.rep.cid % 2 ^ 16).toNat ++ leBytes 8 q.rep.rid ++ q.command.take q.rep.command_size

/-- The request is the one an element of the merged history stands
for. -/
structure Intact (md5 : Md5) (e : AbortHistoryElement) (q : CRequest) : Prop where
  cid : q.rep.cid = e.cid
  rid : q.rep.rid = e.rid
  digest : q.compDigest md5 = e.d

/-- MD5 does not collide on the two requests. -/
def NoCollision (md5 : Md5) (q q' : CRequest) : Prop :=
  md5 q.hashed = md5 q'.hashed → q.hashed = q'.hashed

variable {e : AbortHistoryElement} {q : CRequest} {x : RhEntry CRequest}
variable {store : List (CRequest × ℕ)}

/-- **No other command can stand for the same element.** -/
theorem Intact.command_eq {md5 : Md5} {q' : CRequest} (h : Intact md5 e q) (h' : Intact md5 e q')
    (hmd5 : NoCollision md5 q q') :
    q.command.take q.rep.command_size = q'.command.take q'.rep.command_size := by
  have hbytes : q.hashed = q'.hashed := hmd5 (h.digest.trans h'.digest.symm)
  unfold CRequest.hashed at hbytes
  rw [h.cid, h'.cid, h.rid, h'.rid] at hbytes
  exact append_cancel_left hbytes

namespace CReplica

variable {id : ℕ} {r : CReplica N}

/-- `handle(C_Get_a_grip)` marks the `i`-th missing element as
received. -/
def Marks (r : CReplica N) (m : CGetAGrip) (i : ℕ) : Prop :=
  r.cur_state = .miswaiting ∧ r.findMissing m = some i

/-- What is compared, for an element still to come: the identifiers on the
envelope, and the digest field of the request inside. -/
theorem findMissing_eq_some {m : CGetAGrip} {i : ℕ} (h : r.findMissing m = some i) :
    ∃ e, r.missing[i]? = some e ∧ r.missing_mask[i]? = some true ∧ e.cid = m.cid ∧
      e.rid = m.req_id ∧ e.d = m.stored_request.rep.od := by
  obtain ⟨hlt, hp, -⟩ := findIdx?_eq_some_iff_getElem.1 h
  rw [getElem_zip] at hp
  simp only [Bool.and_eq_true, beq_iff_eq] at hp
  obtain ⟨⟨⟨hmask, hcid⟩, hrid⟩, hd⟩ := hp
  rw [length_zip] at hlt
  refine ⟨_, getElem?_eq_getElem (by omega), ?_, hcid, hrid, hd⟩
  rw [getElem?_eq_getElem (by omega), hmask]

end CReplica

/-- **A fetched request is the missing one exactly if** the identifiers
inside the get-a-grip are those on its envelope and the request's digest
field is the digest of its contents; none of this is checked. -/
theorem fetched_intact_iff (N : RNode S) (r : CReplica N) (m : CGetAGrip) (i : ℕ)
    (e : AbortHistoryElement) (hmark : r.Marks m i) (he : r.missing[i]? = some e) :
    (Intact N.md5 e m.stored_request ∧
      ∀ q, Intact N.md5 e q → NoCollision N.md5 m.stored_request q →
        m.stored_request.command.take m.stored_request.rep.command_size =
          q.command.take q.rep.command_size) ↔
    (m.stored_request.rep.cid = m.cid ∧ m.stored_request.rep.rid = m.req_id ∧
      m.stored_request.compDigest N.md5 = m.stored_request.rep.od) := by
  obtain ⟨e', he', -, hcid, hrid, hd⟩ := CReplica.findMissing_eq_some hmark.2
  obtain rfl : e' = e := mem_unique he' he
  constructor
  · rintro ⟨h, -⟩
    exact ⟨h.cid.trans hcid, h.rid.trans hrid, h.digest.trans hd⟩
  · rintro ⟨hc, hr, hdig⟩
    have h : Intact N.md5 e' m.stored_request :=
      ⟨hc.trans hcid.symm, hr.trans hrid.symm, hdig.trans hd.symm⟩
    exact ⟨h, fun q hq hmd5 => h.command_eq hq hmd5⟩

/-! ## The rebuilt history -/

/-- The element names this request. -/
def named (cid : ℤ) (rid : ℕ) (e : AbortHistoryElement) : Bool := e.cid == cid && e.rid == rid

/-- The elements a history holds requests for. -/
def held (rh : List (RhEntry CRequest)) : AbortHistory :=
  rh.filterMap fun x => x.req.map CRequest.element

/-- The history lists exactly these elements: in each entry a request
with the client id, request id and digest. -/
def Lists (rh : List (RhEntry CRequest)) (H : AbortHistory) : Prop :=
  rh.map (fun x => x.req.map CRequest.element) = H.map some

/-- For every client and request id the history holds the elements of
`H` with these identifiers, in their order, before any other. -/
def HoldsAll (rh : List (RhEntry CRequest)) (H : AbortHistory) : Prop :=
  ∀ cid rid, H.filter (named cid rid) <+: (held rh).filter (named cid rid)

/-- No digest in the merged history is the history digest over the
elements before it and one more digest of the merged history. -/
def NoFixedDigest (N : RNode S) (H : AbortHistory) : Prop :=
  ∀ k e e', H[k]? = some e → e' ∈ H →
    N.md5 ((((H.take k).map AbortHistoryElement.d).foldl DSum.add (DSum.zero N.M)).add e'.d).bytes ≠
      e.d

theorem named_iff {cid : ℤ} {rid : ℕ} : named cid rid e = true ↔ e.cid = cid ∧ e.rid = rid := by
  simp [named]

theorem held_append (l l' : List (RhEntry CRequest)) : held (l ++ l') = held l ++ held l' :=
  filterMap_append

theorem held_cons_none (seq : ℕ) (d : Digest) (l : List (RhEntry CRequest)) :
    held (⟨none, seq, d⟩ :: l) = held l := rfl

theorem held_cons_some (hq : x.req = some q) (l : List (RhEntry CRequest)) :
    held (x :: l) = q.element :: held l := by
  unfold held
  rw [filterMap_cons, hq]
  rfl

/-- Entries that do not hold a request are not named by it. -/
theorem filter_held_eq_nil {l : List (RhEntry CRequest)} (h : ∀ y ∈ l, ¬ Holds e y) :
    (held l).filter (named e.cid e.rid) = [] := by
  refine filter_eq_nil_iff.2 fun a ha hnamed => ?_
  obtain ⟨y, hy, hya⟩ := mem_filterMap.1 ha
  obtain ⟨q, hq, rfl⟩ := map_eq_some_iff.1 hya
  exact h y hy ⟨q, hq, named_iff.1 hnamed⟩

theorem holds_iff {y : RhEntry CRequest} :
    Holds e y ↔ (match y.req with
      | none => false
      | some r => r.rep.cid == e.cid && r.rep.rid == e.rid) = true := by
  unfold Holds
  cases y.req with
  | none => simp
  | some q => simp

/-- **What one element of the merged history brings**: the first entry
that holds it moves over, or a fetched request is added under a new
digest, or nothing. -/
theorem rebuildStep_cases (store : List (CRequest × ℕ)) (old : List (RhEntry CRequest))
    (log : CLog N) (e : AbortHistoryElement) :
    (∃ pre x post q, old = pre ++ x :: post ∧ x.req = some q ∧ q.rep.cid = e.cid ∧
      q.rep.rid = e.rid ∧ (∀ y ∈ pre, ¬ Holds e y) ∧
      rebuildStep N store (old, log) e = (pre ++ ⟨none, x.seq, x.d_h⟩ :: post,
        (log.addRequest N.md5 (fun r => r.rep.od) q x.seq).1)) ∨
    ((∀ y ∈ old, ¬ Holds e y) ∧ ∃ p ∈ store, (p.1.rep.cid = e.cid ∧ p.1.rep.rid = e.rid) ∧
      rebuildStep N store (old, log) e = (old, logRequest N log p.1 p.2)) ∨
    ((∀ y ∈ old, ¬ Holds e y) ∧ (∀ p ∈ store, ¬ (p.1.rep.cid = e.cid ∧ p.1.rep.rid = e.rid)) ∧
      rebuildStep N store (old, log) e = (old, log)) := by
  cases hfind : findEntry old e.cid e.rid with
  | some i =>
    left
    obtain ⟨hi, hp, hmin⟩ := findIdx?_eq_some_iff_getElem.1 hfind
    obtain ⟨q, hq, hcid, hrid⟩ := holds_iff.2 hp
    have hsplit : old = old.take i ++ old[i] :: old.drop (i + 1) := by
      rw [← drop_eq_getElem_cons hi, take_append_drop]
    refine ⟨old.take i, old[i], old.drop (i + 1), q, hsplit, hq, hcid, hrid, fun y hy hy' => ?_, ?_⟩
    · obtain ⟨j, hj⟩ := getElem?_of_mem hy
      rw [getElem?_take] at hj
      split at hj
      · next hji =>
        obtain ⟨hjlt, rfl⟩ := List.getElem?_eq_some_iff.1 hj
        exact hmin j hji (holds_iff.1 hy')
      · cases hj
    · have hget : old[i]? = some ⟨some q, old[i].seq, old[i].d_h⟩ := by
        rw [getElem?_eq_getElem hi, ← hq]
      unfold rebuildStep
      simp only [hfind, hget]
      rw [set_eq_take_append_cons_drop, if_pos hi]
  | none =>
    right
    have hno : ∀ y ∈ old, ¬ Holds e y := by
      intro y hy hy'
      have hnot := findIdx?_eq_none_iff.1 hfind y hy
      exact Bool.false_ne_true (hnot.symm.trans (holds_iff.1 hy'))
    unfold rebuildStep
    simp only [hfind]
    split
    · next p hp =>
      exact .inl ⟨hno, p, mem_of_find?_eq_some hp, by simpa using find?_some hp, rfl⟩
    · next hp => exact .inr ⟨hno, fun p' hp' => by simpa using find?_eq_none.1 hp p' hp', rfl⟩

/-- The new history grows by at most one entry for each element. -/
theorem length_foldl_rebuildStep_le (store : List (CRequest × ℕ)) (es : AbortHistory)
    (old : List (RhEntry CRequest)) (log : CLog N) :
    (es.foldl (rebuildStep N store) (old, log)).2.rh.length ≤ log.rh.length + es.length := by
  induction es generalizing old log with
  | nil => exact le_rfl
  | cons e es ih =>
    rw [foldl_cons, length_cons]
    have hstep := rebuildStep_cases store old log e
    generalize rebuildStep N store (old, log) e = st at hstep
    obtain ⟨old', log'⟩ := st
    have hone : log'.rh.length ≤ log.rh.length + 1 := by
      rcases hstep with ⟨pre, x, post, q, -, -, -, -, -, heq⟩ | ⟨-, p, -, -, heq⟩ | ⟨-, -, heq⟩
      · obtain ⟨-, rfl⟩ := Prod.mk.inj heq
        simp [ReqHistoryLog.addRequest]
      · obtain ⟨-, rfl⟩ := Prod.mk.inj heq
        simp [logRequest]
      · obtain ⟨-, rfl⟩ := Prod.mk.inj heq
        omega
    have := ih old' log'
    omega

/-- The entry an element brings is not changed any more. -/
theorem eq_of_foldl_rebuildStep {es : AbortHistory} {old : List (RhEntry CRequest)}
    {log : CLog N} {A : List (RhEntry CRequest)}
    {H : List (Option AbortHistoryElement)} (hlog : log.rh = A ++ [x])
    (h : (es.foldl (rebuildStep N store) (old, log)).2.rh.map (fun y => y.req.map CRequest.element) =
      A.map (fun y => y.req.map CRequest.element) ++ some e :: H) :
    x.req.map CRequest.element = some e := by
  obtain ⟨added, hadded, -⟩ := foldl_rebuildStep_appends (N := N) store es (old, log)
  rw [hadded, hlog, append_assoc, map_append] at h
  have h' := append_cancel_left h
  exact (List.cons.inj h').1

/-! ## Taking an entry out of the old history -/

section Hole

variable {pre post : List (RhEntry CRequest)} {x : RhEntry CRequest} {q : CRequest}
variable {e : AbortHistoryElement} {es : AbortHistory}

theorem filter_held_hole_of_ne (hq : x.req = some q) {cid : ℤ} {rid : ℕ}
    (hne : named cid rid q.element = false) :
    (held (pre ++ x :: post)).filter (named cid rid) =
      (held (pre ++ ⟨none, x.seq, x.d_h⟩ :: post)).filter (named cid rid) := by
  rw [held_append, held_append, held_cons_some hq, held_cons_none, filter_append,
    filter_append, filter_cons_of_neg (by simp [hne])]

theorem filter_held_hole_self (hq : x.req = some q) (hcid : q.element.cid = e.cid)
    (hrid : q.element.rid = e.rid) (hpre : ∀ y ∈ pre, ¬ Holds e y) :
    (held (pre ++ x :: post)).filter (named e.cid e.rid) =
      q.element :: (held (pre ++ ⟨none, x.seq, x.d_h⟩ :: post)).filter (named e.cid e.rid) := by
  rw [held_append, held_append, held_cons_some hq, held_cons_none, filter_append,
    filter_append, filter_held_eq_nil hpre, filter_cons_of_pos (named_iff.2 ⟨hcid, hrid⟩)]
  rfl

/-- The first entry that holds the first element is the one it needs; the
other elements need the rest. -/
theorem holdsAll_cons_iff_hole (hq : x.req = some q) (hpre : ∀ y ∈ pre, ¬ Holds e y)
    (hd : q.element = e) :
    HoldsAll (pre ++ x :: post) (e :: es) ↔
      HoldsAll (pre ++ ⟨none, x.seq, x.d_h⟩ :: post) es := by
  have hself : named e.cid e.rid e = true := named_iff.2 ⟨rfl, rfl⟩
  have hown : (held (pre ++ x :: post)).filter (named e.cid e.rid) =
      e :: (held (pre ++ ⟨none, x.seq, x.d_h⟩ :: post)).filter (named e.cid e.rid) := by
    rw [filter_held_hole_self hq (by rw [hd]) (by rw [hd]) hpre, hd]
  refine forall_congr' fun cid => forall_congr' fun rid => ?_
  by_cases hn : named cid rid e = true
  · obtain ⟨rfl, rfl⟩ := named_iff.1 hn
    rw [hown, filter_cons_of_pos hself, cons_prefix_cons]
    exact and_iff_right rfl
  · rw [filter_held_hole_of_ne hq (by rw [hd]; simpa using hn), filter_cons_of_neg hn]

/-- The first entry for the request has another digest. -/
theorem not_holdsAll_cons_of_ne (hq : x.req = some q) (hcid : q.element.cid = e.cid)
    (hrid : q.element.rid = e.rid) (hpre : ∀ y ∈ pre, ¬ Holds e y) (hd : q.element ≠ e) :
    ¬ HoldsAll (pre ++ x :: post) (e :: es) := by
  intro h
  have hall := h e.cid e.rid
  rw [filter_held_hole_self hq hcid hrid hpre, filter_cons_of_pos (named_iff.2 ⟨rfl, rfl⟩)]
    at hall
  exact hd (cons_prefix_cons.1 hall).1.symm

theorem not_holdsAll_cons {old : List (RhEntry CRequest)} (hno : ∀ y ∈ old, ¬ Holds e y) :
    ¬ HoldsAll old (e :: es) := by
  intro h
  have hall := h e.cid e.rid
  rw [filter_held_eq_nil hno, filter_cons_of_pos (named_iff.2 ⟨rfl, rfl⟩)] at hall
  exact cons_ne_nil _ _ (prefix_nil.1 hall)

end Hole

/-- **When the elements end up in the new history**: exactly if the old
one holds them all. -/
theorem foldl_rebuildStep_lists_iff (store : List (CRequest × ℕ)) (es : AbortHistory)
    (old : List (RhEntry CRequest)) (log : CLog N)
    (hfix : ∀ k e p, es[k]? = some e → p ∈ store →
      N.md5 ((((es.take k).map AbortHistoryElement.d).foldl DSum.add log.rh_d).add
        p.1.rep.od).bytes ≠ e.d) :
    (es.foldl (rebuildStep N store) (old, log)).2.rh.map (fun y => y.req.map CRequest.element) =
        log.rh.map (fun y => y.req.map CRequest.element) ++ es.map some ↔
      HoldsAll old es := by
  induction es generalizing old log with
  | nil => simp [HoldsAll]
  | cons e es ih =>
    rw [foldl_cons, map_cons]
    rcases rebuildStep_cases store old log e with
      ⟨pre, x, post, q, rfl, hq, hcid, hrid, hpre, heq⟩ | ⟨hno, p, hp, -, heq⟩ | ⟨hno, -, heq⟩
    · rw [heq]
      by_cases hd : q.element = e
      · -- the entry that moves over is the element's
        have hod : q.rep.od = e.d := by rw [← hd]; rfl
        have hnext := ih (pre ++ ⟨none, x.seq, x.d_h⟩ :: post)
          (log.addRequest N.md5 (fun r => r.rep.od) q x.seq).1 (by
            intro k e' p he' hp
            have := hfix (k + 1) e' p (by rwa [getElem?_cons_succ]) hp
            show N.md5 ((((es.take k).map AbortHistoryElement.d).foldl DSum.add
              (log.rh_d.add q.rep.od)).add p.1.rep.od).bytes ≠ e'.d
            rwa [hod])
        have hrh : (log.addRequest N.md5 (fun r => r.rep.od) q x.seq).1.rh.map
            (fun y => y.req.map CRequest.element) ++ es.map some =
            log.rh.map (fun y => y.req.map CRequest.element) ++ some e :: es.map some := by
          rw [← hd]
          simp [ReqHistoryLog.addRequest]
        rw [hrh] at hnext
        rw [hnext, holdsAll_cons_iff_hole hq hpre hd]
      · -- a request with another digest moves over
        refine iff_of_false (fun h => ?_) (not_holdsAll_cons_of_ne hq hcid hrid hpre hd)
        exact hd (some.inj (eq_of_foldl_rebuildStep (x := ⟨some q, x.seq, _⟩)
          rfl h))
    · rw [heq]
      -- the digest of a fetched request is not the element's
      refine iff_of_false (fun h => ?_) (not_holdsAll_cons hno)
      have hnew := some.inj (eq_of_foldl_rebuildStep
        (x := ⟨some { p.1 with rep := { p.1.rep with od := _ } }, p.2, _⟩) rfl h)
      exact hfix 0 e p rfl hp (congrArg AbortHistoryElement.d hnew)
    · rw [heq]
      refine iff_of_false (fun h => ?_) (not_holdsAll_cons hno)
      have hlen := congrArg List.length h
      have hle := length_foldl_rebuildStep_le (N := N) store es old log
      simp only [length_map, length_append, length_cons] at hlen
      omega

theorem lists_rebuild_iff {rh : CLog N} {H : AbortHistory}
    (hfix : NoFixedDigest N H) (hstore : ∀ p ∈ store, ∃ e ∈ H, p.1.rep.od = e.d) :
    Lists (rebuild N rh store H).rh H ↔ HoldsAll rh.rh H := by
  refine Iff.trans ?_ (foldl_rebuildStep_lists_iff store H rh.rh (ReqHistoryLog.empty N.M CRequest)
    fun k e p he hp => ?_)
  · rfl
  · obtain ⟨e', he', hod⟩ := hstore p hp
    rw [hod]
    exact hfix k e e' he he'

/-! ## The way to the switch -/

/-- What a move can do on the way to the switch. -/
inductive SwitchMove (id : ℕ) (r r' : CReplica N) : Prop where
  | frame (h : r.SwitchFrame r')
  /-- the abort set is complete, and requests are missing -/
  | merge (aborts : ℕ → Option Abort) (missing : AbortHistory)
      (hproc : Smasher.process N.n N.f aborts id = some (r'.ah_2, missing))
      (hmerges : r'.merges = r.merges ++ [⟨aborts, r'.ah_2⟩]) (hmissing : r'.missing = missing)
      (hstore : ∀ q, some q ∉ r'.missing_store) (hswitched : r'.switched = r.switched)
  /-- the abort set is complete, and nothing is missing -/
  | mergeAdopt (aborts : ℕ → Option Abort) (ah_2 : AbortHistory)
      (hproc : Smasher.process N.n N.f aborts id = some (ah_2, []))
      (hmerges : r'.merges = r.merges ++ [⟨aborts, ah_2⟩])
      (hrh : r'.rh = rebuild N r.rh [] ah_2) (hstop : r'.cur_state = .stop)
  | fetch (m : CGetAGrip) (i : ℕ) (hmark : r.Marks m i) (hah : r'.ah_2 = r.ah_2)
      (hmissing : r'.missing = r.missing)
      (hstore : r'.missing_store = r.missing_store.set i (some m.stored_request))
      (hmerges : r'.merges = r.merges) (hswitched : r'.switched = r.switched)
  /-- the last missing request arrives -/
  | fetchAdopt (m : CGetAGrip) (i : ℕ) (hmark : r.Marks m i) (store : List (CRequest × ℕ))
      (hstore : ∀ p ∈ store, some p.1 ∈ r.missing_store.set i (some m.stored_request))
      (hmerges : r'.merges = r.merges) (hrh : r'.rh = rebuild N r.rh store r.ah_2)
      (hstop : r'.cur_state = .stop)

namespace CReplica

variable {id : ℕ} {r r' : CReplica N}

theorem switchMove_handleAbort (r : CReplica N) (id : ℕ) (m : Abort) :
    SwitchMove id r (r.handleAbort id m) := by
  have hmove := r.abortMove_handleAbort id m
  generalize r.handleAbort id m = r' at hmove ⊢
  cases hmove with
  | dropped => exact .frame (.refl r)
  | collect => exact .frame ⟨rfl, rfl, rfl, rfl, rfl, fun h => h⟩
  | adopt c ah_2 _ _ _ _ hproc => exact .mergeAdopt c.ac ah_2 hproc rfl rfl rfl
  | wait c ah_2 missing sent _ _ _ _ _ hproc =>
    refine .merge c.ac missing hproc rfl rfl (fun q hq => ?_) rfl
    obtain ⟨e, -, he⟩ := mem_map.1 hq
    cases he

theorem switchMove_handleGetAGrip (r : CReplica N) (id : ℕ) (m : CGetAGrip) :
    SwitchMove id r (r.handleGetAGrip m) := by
  have hmove := r.gripMove_handleGetAGrip m
  generalize r.handleGetAGrip m = r' at hmove ⊢
  cases hmove with
  | dropped => exact .frame (.refl r)
  | fetch i hs hi => exact .fetch m i ⟨hs, hi⟩ rfl rfl rfl rfl rfl
  | adopt i hs hi =>
    refine .fetchAdopt m i ⟨hs, hi⟩ _ (fun p hp => ?_) rfl rfl rfl
    obtain ⟨⟨o, seq⟩, ho, hop⟩ := mem_filterMap.1 hp
    obtain ⟨q, rfl, rfl⟩ := map_eq_some_iff.1 hop
    exact (of_mem_zip ho).1

/-- A handler that got its message off the queue. -/
theorem switchMove_of_queue {queue : List RMessage}
    (h : SwitchMove id (r.popped queue) r') : SwitchMove id r r' := by
  cases h with
  | frame h => exact .frame ⟨h.1, h.2, h.3, h.4, h.5, h.6⟩
  | merge aborts missing h₁ h₂ h₃ h₄ h₅ => exact .merge aborts missing h₁ h₂ h₃ h₄ h₅
  | mergeAdopt aborts ah_2 h₁ h₂ h₃ h₄ => exact .mergeAdopt aborts ah_2 h₁ h₂ h₃ h₄
  | fetch m i h₁ h₂ h₃ h₄ h₅ h₆ => exact .fetch m i h₁ h₂ h₃ h₄ h₅ h₆
  | fetchAdopt m i h₁ store h₂ h₃ h₄ h₅ => exact .fetchAdopt m i h₁ store h₂ h₃ h₄ h₅

/-- **Every move, on the way to the switch.** -/
theorem step_switch (r : CReplica N) (id : ℕ) (e : CEvent) : SwitchMove id r (r.step id e) := by
  cases step_robust r id e with
  | aside h => exact .frame h.toSwitchFrame
  | checkpoint queue c panics _ heq =>
    rw [heq]
    have h := switchFrame_handleCheckpoint (r.popped queue) id c panics
    exact .frame ⟨h.1, h.2, h.3, h.4, h.5, h.6⟩
  | own c panics _ _ heq =>
    rw [heq]
    have h := switchFrame_handleCheckpoint (r.sends c) id c panics
    exact .frame ⟨h.1, h.2, h.3, h.4, h.5, h.6⟩
  | abort queue m _ heq =>
    rw [heq]
    exact switchMove_of_queue (switchMove_handleAbort _ id m)
  | getAGrip queue m _ heq =>
    rw [heq]
    exact switchMove_of_queue (switchMove_handleGetAGrip _ id m)

end CReplica

/-- **What a replica that waits for requests knows**: `AH_2` is the last
history it merged, and what it got so far carries digests of `AH_2`. -/
structure FetchInv (r : CReplica N) : Prop where
  merged : r.cur_state = .miswaiting → ∃ m, r.merges.getLast? = some m ∧ m.merged = r.ah_2 ∧
    m.merged = Smasher.merged N.n N.f m.aborts
  missing : r.cur_state = .miswaiting → ∀ e ∈ r.missing, e ∈ r.ah_2
  fetched : r.cur_state = .miswaiting → ∀ q, some q ∈ r.missing_store →
    ∃ e ∈ r.ah_2, q.rep.od = e.d

namespace FetchInv

variable {id : ℕ} {r r' : CReplica N}

/-- A replica in any other state knows nothing. -/
theorem of_ne (h : r.cur_state ≠ .miswaiting) : FetchInv r :=
  ⟨fun h' => absurd h' h, fun h' => absurd h' h, fun h' => absurd h' h⟩

/-- What a get-a-grip brings carries the digest of a missing element. -/
theorem fetched_set (h : FetchInv r) {m : CGetAGrip} {i : ℕ} (hmark : r.Marks m i) {q : CRequest}
    (hq : some q ∈ r.missing_store.set i (some m.stored_request)) :
    ∃ e ∈ r.ah_2, q.rep.od = e.d := by
  rcases mem_or_eq_of_mem_set hq with hq | hq
  · exact h.fetched hmark.1 q hq
  · obtain ⟨e, he, -, -, -, hd⟩ := CReplica.findMissing_eq_some hmark.2
    rw [some.inj hq]
    exact ⟨e, h.missing hmark.1 e (mem_of_getElem? he), hd.symm⟩

theorem step (h : FetchInv r) (hmove : SwitchMove id r r') : FetchInv r' := by
  cases hmove with
  | frame hf =>
    refine ⟨fun hs => ?_, fun hs => ?_, fun hs => ?_⟩
    · rw [hf.merges, hf.ah_2]
      exact h.merged (hf.waits hs)
    · rw [hf.missing, hf.ah_2]
      exact h.missing (hf.waits hs)
    · rw [hf.missing_store, hf.ah_2]
      exact h.fetched (hf.waits hs)
  | merge aborts missing hproc hmerges hmissing hstore _ =>
    refine ⟨fun _ => ?_, fun _ e he => ?_, fun _ q hq => absurd hq (hstore q)⟩
    · rw [hmerges, getLast?_concat]
      exact ⟨_, rfl, rfl, Smasher.eq_merged_of_process hproc⟩
    · rw [hmissing] at he
      exact Smasher.mem_merged_of_missing hproc he
  | mergeAdopt aborts ah_2 _ _ _ hstop => exact .of_ne (by rw [hstop]; simp)
  | fetch m i hmark hah hmissing hstore hmerges _ =>
    refine ⟨fun _ => ?_, fun _ => ?_, fun _ q hq => ?_⟩
    · rw [hmerges, hah]
      exact h.merged hmark.1
    · rw [hmissing, hah]
      exact h.missing hmark.1
    · rw [hstore] at hq
      rw [hah]
      exact h.fetched_set hmark hq
  | fetchAdopt m i _ store _ _ _ hstop => exact .of_ne (by rw [hstop]; simp)

end FetchInv

/-- **When the history after a switch is the merged one**, for every run
of a replica and whichever way it leaves the abort phase: exactly if the
history it had holds all elements of the merged one. -/
theorem adopted_history_iff (N : RNode S) (id : ℕ) (s : CReplica N)
    (hs : s.cur_state ≠ .miswaiting) (es : List CReplica.CEvent) (e : CReplica.CEvent)
    (hleave : ((exec (CReplica.step id) s es).step id e).switched ≠
      (exec (CReplica.step id) s es).switched) :
    ∃ m, ((exec (CReplica.step id) s es).step id e).merges.getLast? = some m ∧
      m.merged = Smasher.merged N.n N.f m.aborts ∧
      (NoFixedDigest N m.merged →
        (Lists ((exec (CReplica.step id) s es).step id e).rh.rh m.merged ↔
          HoldsAll (exec (CReplica.step id) s es).rh.rh m.merged)) := by
  have hinv : FetchInv (exec (CReplica.step id) s es) :=
    exec_invariant (fun r e h => h.step (r.step_switch id e)) (.of_ne hs) es
  generalize exec (CReplica.step id) s es = r at hinv hleave ⊢
  have hmove := r.step_switch id e
  generalize r.step id e = r' at hmove hleave ⊢
  cases hmove with
  | frame hf => exact absurd hf.switched hleave
  | merge aborts missing _ _ _ _ hsw => exact absurd hsw hleave
  | mergeAdopt aborts ah_2 hproc hmerges hrh _ =>
    refine ⟨⟨aborts, ah_2⟩, by rw [hmerges, getLast?_concat],
      Smasher.eq_merged_of_process hproc, fun hfix => ?_⟩
    rw [hrh]
    exact lists_rebuild_iff hfix (by simp)
  | fetch m i _ _ _ _ _ hsw => exact absurd hsw hleave
  | fetchAdopt m i hmark store hstore hmerges hrh _ =>
    obtain ⟨mg, hlast, hah, hmerged⟩ := hinv.merged hmark.1
    refine ⟨mg, by rw [hmerges, hlast], hmerged, fun hfix => ?_⟩
    rw [hrh, ← hah]
    refine lists_rebuild_iff hfix fun p hp => ?_
    rw [hah]
    exact hinv.fetched_set hmark (hstore p hp)

section Sample

variable (N : RNode Unit)

/-- Client `4`'s first request. -/
def firstRequest : CRequest :=
  (CRequest.fresh N.md5 4 1 [7] false fun _ => 0).authenticate N.toCNode 4 (-1) 0 none 0

/-- The history of a replica that executed it. -/
def firstLog : CLog N := logOf N [(firstRequest N).setSeqno 1]

/-- What an abort lists for it. -/
def firstElement : AbortHistoryElement :=
  ⟨4, 1, historyDigest N [(firstRequest N).setSeqno 1]⟩

/-- Replica `k`'s abort, which lists the request. -/
def abortOf (k : ℕ) : CReplica.CEvent :=
  .incoming (.abort (CAbort.ofHistory N k 1 (firstLog N) fun _ => ⟨0, 0, 0⟩)) false

/-- A replica handles a panic and broadcasts its abort. -/
def panicsFirst : List CReplica.CEvent :=
  [.arrive (.panic 4 1), .robust false, .abort 0 fun _ => ⟨0, 0, 0⟩]

/-- Replica `0` executes and logs the request before the panic. -/
def headHolds : List CReplica.CEvent :=
  [.incoming (.request (firstRequest N)) false, .request 0, .request 0, .request 0, .robust false,
    .robust false] ++ panicsFirst ++ [abortOf N 1, abortOf N 2]

/-- Replica `3` learns of the request from the aborts of the others. -/
def tailMisses : List CReplica.CEvent :=
  panicsFirst ++ [abortOf N 0, abortOf N 1, abortOf N 2]

/-- A get-a-grip of replica `0` with this request inside. -/
def grip (q : CRequest) : CGetAGrip := ⟨1, 4, 0, 1, q⟩

/-- The request as replica `0`'s history holds it. -/
def loggedRequest : CRequest :=
  { (firstRequest N).setSeqno 1 with
    rep := { ((firstRequest N).setSeqno 1).rep with od := (firstElement N).d } }

/-- Another command under the same digest field. -/
def substituted : CRequest := { loggedRequest N with command := [8] }

/-- A command under which the missing element's digest is one of the
request's contents. -/
def intactRequest : CRequest :=
  { loggedRequest hashRNode with
    command := [86, 42, 28, 191, 39, 125, 99, 238, 119, 247, 94, 4, 17, 66, 10, 158]
    rep := { (loggedRequest hashRNode).rep with command_size := 16 } }

/-- A request whose contents have the missing digest is intact. -/
theorem fetched_intact_tail :
    (exec (CReplica.step 3) (CReplica.init hashRNode ())
        (tailMisses hashRNode)).cur_state = .miswaiting ∧
    Intact hashRNode.md5 (firstElement hashRNode) intactRequest := by
  refine ⟨by decide +kernel, ((fetched_intact_iff hashRNode (exec (CReplica.step 3)
    (CReplica.init hashRNode ()) (tailMisses hashRNode)) (grip intactRequest) 0
    (firstElement hashRNode) ⟨?_, ?_⟩ ?_).2 ⟨rfl, rfl, ?_⟩).1⟩
  · decide +kernel
  · decide +kernel
  · decide +kernel
  · decide +kernel

/-- **Another command is taken for the missing request**: its digest field
says what the merged history says, and nobody looks at the contents. -/
theorem substituted_command_marked :
    (exec (CReplica.step 3) (CReplica.init hashRNode ()) (tailMisses hashRNode)).Marks
      (grip (substituted hashRNode)) 0 ∧
    (exec (CReplica.step 3) (CReplica.init hashRNode ()) (tailMisses hashRNode)).missing
      = [firstElement hashRNode] ∧
    ¬ Intact hashRNode.md5 (firstElement hashRNode) (substituted hashRNode) := by
  refine ⟨⟨by decide +kernel, by decide +kernel⟩, by decide +kernel, fun h => ?_⟩
  exact absurd h.digest (by decide +kernel)

theorem noFixedDigest_first : NoFixedDigest hashRNode [firstElement hashRNode] := by
  intro k e e' he he'
  obtain rfl : e' = firstElement hashRNode := mem_singleton.1 he'
  cases k with
  | zero =>
    obtain rfl : firstElement hashRNode = e := some.inj he
    decide +kernel
  | succ k => simp at he

/-- Replica `0` held the request, and its history is the merged one. -/
theorem adopted_history_head :
    ((exec (CReplica.step 0) (CReplica.init hashRNode ()) (headHolds hashRNode)).step 0
      (abortOf hashRNode 3)).switched = 1 ∧
    Lists ((exec (CReplica.step 0) (CReplica.init hashRNode ()) (headHolds hashRNode)).step 0
      (abortOf hashRNode 3)).rh.rh [firstElement hashRNode] := by
  obtain ⟨m, hm, -, hiff⟩ := adopted_history_iff hashRNode 0 (CReplica.init hashRNode ())
    (by decide) (headHolds hashRNode) (abortOf hashRNode 3) (by decide +kernel)
  have hmerged : m.merged = [firstElement hashRNode] := by
    have hlast : ((exec (CReplica.step 0) (CReplica.init hashRNode ())
        (headHolds hashRNode)).step 0 (abortOf hashRNode 3)).merges.getLast?.map MergeRecord.merged =
        some [firstElement hashRNode] := by decide +kernel
    rw [hm] at hlast
    exact some.inj hlast
  rw [hmerged] at hiff
  refine ⟨by decide +kernel, (hiff noFixedDigest_first).2 fun cid rid => ?_⟩
  have hheld : held (exec (CReplica.step 0) (CReplica.init hashRNode ())
      (headHolds hashRNode)).rh.rh = [firstElement hashRNode] := by decide +kernel
  rw [hheld]

/-- **A history with a fetched request is not the merged one**: every
message is honest, and the request replica `3` fetched is listed under
another digest. -/
theorem adopted_history_differs :
    ((exec (CReplica.step 3) (CReplica.init hashRNode ()) (tailMisses hashRNode)).step 3
      (.incoming (.getAGrip (grip (loggedRequest hashRNode))) false)).switched = 1 ∧
    ((exec (CReplica.step 3) (CReplica.init hashRNode ()) (tailMisses hashRNode)).step 3
      (.incoming (.getAGrip (grip (loggedRequest hashRNode))) false)).merges.map MergeRecord.merged =
        [[firstElement hashRNode]] ∧
    NoFixedDigest hashRNode [firstElement hashRNode] ∧
    ¬ Lists ((exec (CReplica.step 3) (CReplica.init hashRNode ())
      (tailMisses hashRNode)).step 3
      (.incoming (.getAGrip (grip (loggedRequest hashRNode))) false)).rh.rh
      [firstElement hashRNode] := by
  refine ⟨by decide +kernel, by decide +kernel, noFixedDigest_first, ?_⟩
  unfold Lists
  decide +kernel

end Sample

end AbstractBFT.Chain
