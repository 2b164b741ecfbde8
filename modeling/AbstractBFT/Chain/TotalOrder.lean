import AbstractBFT.Chain.Commit
/-!
# Chain — total order in one activation

The replicas of a chain in state `NORMAL`, all correct, with FIFO links
between neighbours and any client messages at the head. The head numbers
the requests, and a replica executes the one with the next number, so
each replica should execute a prefix of what its predecessor executed.
`total_order` says under which condition on retransmissions it does: the
head gives a request it has seen the sequence number of its reply table,
whatever the request's contents and whenever the entry was made.
-/

namespace AbstractBFT.Chain

open Function List

variable {S : Type} {N : RNode S}

/-- What makes a request the same one wherever it is executed: the header
and the command. -/
structure Content where
  rep : CRequestRep
  command : List UInt8
  deriving DecidableEq

/-- The authenticator is left out: it changes from replica to replica. -/
def CRequest.content (q : CRequest) : Content := ⟨q.rep, q.command⟩

/-! ## Sequences of requests -/

/-- The `k`-th request carries the `k`-th sequence number. -/
def Consecutive (l : List Content) : Prop := ∀ i c, l[i]? = some c → c.rep.seq_num = i + 1

/-- The requests of one client come in the order of their identifiers. -/
def Increasing (l : List Content) : Prop :=
  l.Pairwise fun c d => c.rep.cid = d.rep.cid → c.rep.rid < d.rep.rid

variable {l l' : List Content} {c d : Content}

theorem Consecutive.concat (h : Consecutive l) (hc : c.rep.seq_num = l.length + 1) :
    Consecutive (l ++ [c]) := by
  intro i d hd
  rcases Nat.lt_trichotomy i l.length with hlt | rfl | hgt
  · rw [getElem?_append_left hlt] at hd
    exact h i d hd
  · rw [getElem?_concat_length] at hd
    rw [← Option.some.inj hd, hc]
  · rw [getElem?_eq_none (by simp; omega)] at hd
    cases hd

/-- The request with the next number is the next of the longer
sequence. -/
theorem Consecutive.concat_prefix (h : Consecutive l') (hl : l <+: l') (hc : c ∈ l')
    (hseq : c.rep.seq_num = l.length + 1) : l ++ [c] <+: l' := by
  obtain ⟨i, hi⟩ := mem_iff_getElem?.1 hc
  have hnum := h i c hi
  have hlen : i = l.length := by omega
  rw [hlen] at hi
  exact Chain.concat_prefix hl hi

theorem Increasing.concat (h : Increasing l)
    (hc : ∀ d ∈ l, d.rep.cid = c.rep.cid → d.rep.rid < c.rep.rid) : Increasing (l ++ [c]) := by
  refine pairwise_append.2 ⟨h, pairwise_singleton _ _, fun d hd c' hc' => ?_⟩
  rw [mem_singleton.1 hc']
  exact hc d hd

/-- No request of a client stands twice. -/
theorem Increasing.nodup (h : Increasing l) : (l.map fun c => (c.rep.cid, c.rep.rid)).Nodup := by
  refine pairwise_map.2 (h.imp fun hlt heq => ?_)
  obtain ⟨hcid, hrid⟩ := Prod.mk.inj heq
  omega

theorem Increasing.eq (h : Increasing l) (hc : c ∈ l) (hd : d ∈ l) (hcid : c.rep.cid = d.rep.cid)
    (hrid : c.rep.rid = d.rep.rid) : c = d := by
  exact inj_on_of_nodup_map h.nodup hc hd (Prod.ext hcid hrid)

/-- An earlier request of a client than one of the shorter sequence is in
the shorter sequence. -/
theorem Increasing.mem_of_le (h : Increasing l') (hl : l <+: l') (hc : c ∈ l') (hd : d ∈ l)
    (hcid : d.rep.cid = c.rep.cid) (hrid : c.rep.rid ≤ d.rep.rid) : c ∈ l := by
  obtain ⟨t, rfl⟩ := hl
  rcases mem_append.1 hc with hc | hc
  · exact hc
  · have hlt := (pairwise_append.1 h).2.2 d hd c hc hcid
    omega

namespace CReplica

variable {id : ℕ} {r r' : CReplica N} {req : CRequest}

/-! ## What a move does to the order -/

/-- The requests the request thread has not processed yet. -/
def inHands (r : CReplica N) : List CRequest :=
  (match r.requestThread with
    | .admitted q => [q]
    | .draining q => [q]
    | .processing q => [q]
    | _ => []) ++ r.pending_requests

/-- A move that orders nothing; `new` are the requests it takes up. -/
structure OrderFrame (new : List CRequest) (r r' : CReplica N) : Prop where
  executed : r'.executed = r.executed
  replies : r'.replies = r.replies
  seqno : r'.seqno = r.seqno
  last_seqno : r'.last_seqno = r.last_seqno
  forwarded : r'.forwarded = r.forwarded
  hands : ∀ q ∈ r'.inHands, q ∈ r.inHands ∨ q ∈ new

theorem OrderFrame.of_part {new : List CRequest} (h : r'.orderPart = r.orderPart) :
    OrderFrame new r r' := by
  simp only [orderPart, Prod.mk.injEq] at h
  obtain ⟨hexec, hrep, hseq, hlast, hfwd, hthread, hpending⟩ := h
  refine ⟨hexec, hrep, hseq, hlast, hfwd, fun q hq => .inl ?_⟩
  unfold inHands at hq ⊢
  rwa [hthread, hpending] at hq

/-- A request that is put off is the one that came or one already put
off. -/
theorem mem_putOff {pending : List CRequest} {q : CRequest} (h : q ∈ putOff id req pending) :
    q = req ∨ q ∈ pending := by
  unfold putOff at h
  split at h
  · rcases mem_concat_iff.1 h with h | rfl
    · exact .inr h
    · exact .inl rfl
  split at h
  · exact .inr h
  · rcases mem_append.1 h with h | h
    · exact .inr (takeWhile_subset _ h)
    · rcases mem_cons.1 h with h | h
      · exact .inl h
      · exact .inr (dropWhile_subset _ h)

/-- The requests a move takes up. -/
def takenUp : CEvent → List CRequest
  | .incoming (.request req) _ => [req]
  | _ => []

/-- **The request thread** changes the order by verifying a request, and
has no request in hand it did not have before. -/
theorem requestMove_normal (hs : r.cur_state = .normal) (id : ℕ) (unonce : Cell) :
    (∃ req ∈ r.processed (.request unonce),
      r.requestMove id unonce = { r.processRequest id req unonce with requestThread := .idle }) ∨
    OrderFrame [] r (r.requestMove id unonce) := by
  have hkeep : ∀ q ∈ r.pending_requests, q ∈ r.inHands := fun q hq => mem_append_right _ hq
  unfold requestMove
  split
  · exact .inr (.of_part rfl)
  · exact .inr (.of_part rfl)
  · next req hthread =>
    right
    have hreq : req ∈ r.inHands := by
      unfold inHands
      rw [hthread]
      exact mem_append_left _ (mem_singleton.2 rfl)
    have hcons : ∀ q ∈ req :: r.pending_requests, q ∈ r.inHands ∨ q ∈ ([] : List CRequest) := by
      intro q hq
      rcases mem_cons.1 hq with rfl | hq
      · exact .inl hreq
      · exact .inl (hkeep q hq)
    split
    · split
      · exact ⟨rfl, rfl, rfl, rfl, rfl, hcons⟩
      · refine ⟨rfl, rfl, rfl, rfl, rfl, fun q hq => .inl ?_⟩
        rcases mem_putOff hq with rfl | hq
        · exact hreq
        · exact hkeep q hq
    · exact ⟨rfl, rfl, rfl, rfl, rfl, hcons⟩
  · next req hthread =>
    right
    split
    · refine ⟨rfl, rfl, rfl, rfl, rfl, fun q hq => .inl ?_⟩
      unfold inHands
      rw [hthread]
      exact hq
    · rw [hs]
      exact ⟨rfl, rfl, rfl, rfl, rfl, fun q hq => .inl (hkeep q hq)⟩
  · next req hthread =>
    refine .inl ⟨req, ?_, rfl⟩
    unfold processed
    rw [hthread]
    exact rfl

/-- **In state `NORMAL` only the verification of a request changes the
order.** -/
theorem step_normal (hs : r.cur_state = .normal) (id : ℕ) (e : CEvent) :
    (∃ unonce, ∃ req ∈ r.processed e,
      r.step id e = { r.processRequest id req unonce with requestThread := .idle }) ∨
    OrderFrame (takenUp e) r (r.step id e) := by
  have hsorted := r.step_sorted id e
  generalize r.step id e = r' at hsorted ⊢
  cases hsorted with
  | quiet h => exact .inr (.of_part h.order)
  | forward req panics hstop => cases hs.symm.trans hstop
  | takeUp req =>
    refine .inr ⟨rfl, rfl, rfl, rfl, rfl, fun q hq => ?_⟩
    rcases mem_cons.1 hq with rfl | hq
    · exact .inr (mem_singleton.2 rfl)
    · exact .inl (mem_append_right _ hq)
  | request unonce =>
    exact (requestMove_normal hs id unonce).imp_left fun ⟨req, hreq, heq⟩ => ⟨unonce, req, hreq, heq⟩
  | abort queue m =>
    unfold handleAbort
    rw [if_pos (by rw [hs]; simp)]
    exact .inr (.of_part rfl)
  | getAGrip queue m =>
    unfold handleGetAGrip
    rw [if_pos (by rw [hs]; simp)]
    exact .inr (.of_part rfl)

theorem mem_inHands_of_processed {e : CEvent} (h : req ∈ r.processed e) : req ∈ r.inHands := by
  unfold processed at h
  split at h
  · next hthread =>
    unfold inHands
    rw [hthread, ← Option.some.inj h]
    exact mem_append_left _ (mem_singleton.2 rfl)
  · cases h

/-- **What the verification of a request leaves**: the request is
dropped; or executed under the next number and sent on; or sent on as a
repetition, by the head under the number of its reply table. -/
inductive Ordered (id : ℕ) (r : CReplica N) (req : CRequest) (r' : CReplica N) : Prop where
  | dropped (h : r'.orderPart = r.orderPart)
  | executed (q : CRequest) (hseen : r.isSeen req = false)
      (hcommand : q.command = req.command)
      (hhead : id = 0 → q.rep = { req.rep with seq_num := q.rep.seq_num })
      (hother : id ≠ 0 → q.rep = req.rep)
      (hseq : q.rep.seq_num = (if id = 0 then r.seqno else r.last_seqno) + 1)
      (hexec : r'.executed = r.executed ++ [q])
      (hseqno : r'.seqno = q.rep.seq_num) (hlast : r'.last_seqno = q.rep.seq_num)
      (hrid : (r'.replies q.rep.cid).rep.rid = q.rep.rid)
      (hsent : (r'.replies q.rep.cid).sent_seqno = q.rep.seq_num)
      (hreplies : ∀ cid ≠ q.rep.cid, r'.replies cid = r.replies cid)
      (hfwd : ∀ m ∈ r'.forwarded, m ∈ r.forwarded ∨ m.content = q.content)
      (hpending : r'.pending_requests = r.pending_requests)
  | repeated (m : CRequest) (hseen : r.isSeen req = true) (hver : (req.verify N.toCNode id).isSome)
      (hcommand : m.command = req.command)
      (hhead : id = 0 → r.isOld req = false ∧
        m.rep = { req.rep with seq_num := (r.replies req.rep.cid).sent_seqno })
      (hother : id ≠ 0 → m.rep = req.rep)
      (hexec : r'.executed = r.executed) (hreplies : r'.replies = r.replies)
      (hseqno : r'.seqno = r.seqno) (hlast : r'.last_seqno = r.last_seqno)
      (hfwd : ∀ m' ∈ r'.forwarded, m' ∈ r.forwarded ∨ m'.content = m.content)
      (hpending : r'.pending_requests = r.pending_requests)

/-- Sending a request on puts it on the link, or answers the client. -/
theorem send_order (r : CReplica N) (id : ℕ) (req : CRequest) (off : ℕ) (unonce : Cell) :
    let r' := r.send id req off unonce
    r'.executed = r.executed ∧ r'.replies = r.replies ∧ r'.seqno = r.seqno ∧
      r'.last_seqno = r.last_seqno ∧ r'.pending_requests = r.pending_requests ∧
      ∀ m ∈ r'.forwarded, m ∈ r.forwarded ∨ m.content = req.content := by
  dsimp only [send]
  split
  · refine ⟨rfl, rfl, rfl, rfl, rfl, fun m hm => ?_⟩
    rcases mem_concat_iff.1 hm with hm | rfl
    · exact .inl hm
    · exact .inr rfl
  · exact ⟨rfl, rfl, rfl, rfl, rfl, fun m hm => .inl hm⟩

theorem ordered_processRequest (hs : r.cur_state = .normal) (id : ℕ) (req : CRequest)
    (unonce : Cell) : Ordered id r req (r.processRequest id req unonce) := by
  rcases r.processRequest_cases id req unonce with heq | ⟨req₁, off, r₁, req', hver, hord, heq⟩
  · rw [heq]
    exact .dropped rfl
  rw [heq]
  obtain ⟨hrep, hcmd⟩ := CRequest.eq_of_verify hver
  obtain ⟨hexec, hreplies, hseqno, hlast, hpending, hfwd⟩ := r₁.send_order id req' off unonce
  have hseen_eq : r.isSeen req = r.isSeen req₁ := isSeen_congr hrep.symm
  rcases order_cases hord with
    ⟨hseen, seqno, ⟨hseq, hnum⟩, hcid, hrid, hhead, hother, hr₁⟩ | ⟨hseen, hr₁, hother, hhead⟩
  · have hexec₁ : r₁.executed = r.executed ++ [req'] := by
      rw [hr₁]
      unfold executeRequest
      rw [if_pos hs]
    have hreplies₁ : r₁.replies = (executeRequest { r with seqno } req').replies := by rw [hr₁]
    refine .executed req' (hseen_eq.trans hseen) ?_ (fun hid => ?_) (fun hid => ?_)
      (hnum.trans hseq) (hexec.trans hexec₁) ?_ ?_ ?_ ?_ (fun cid hne => ?_) (fun m hm => ?_) ?_
    · by_cases hid : id = 0
      · rw [hhead hid]
        exact hcmd
      · rw [hother hid, hcmd]
    · rw [hhead hid]
      show CRequestRep.mk _ _ _ _ _ _ = _
      rw [← hrep]
      rfl
    · rw [hother hid, hrep]
    · rw [hseqno, hr₁, hnum]
      rfl
    · rw [hlast, hr₁, hnum]
      rfl
    · rw [hreplies, hreplies₁]
      unfold executeRequest
      simp
    · rw [hreplies, hreplies₁, hnum]
      unfold executeRequest
      simp
    · rw [hreplies, hreplies₁]
      exact update_of_ne hne _ _
    · rcases hfwd m hm with hm | hm
      · rw [hr₁] at hm
        exact .inl hm
      · exact .inr hm
    · rw [hpending, hr₁]
      rfl
  · subst hr₁
    refine .repeated req' (hseen_eq.trans hseen) (by rw [hver]; rfl) ?_ (fun hid => ?_)
      (fun hid => ?_) hexec hreplies hseqno hlast hfwd hpending
    · by_cases hid : id = 0
      · rw [(hhead hid).2]
        exact hcmd
      · rw [hother hid, hcmd]
    · obtain ⟨hold, heq'⟩ := hhead hid
      rw [heq', ← hrep]
      refine ⟨?_, rfl⟩
      unfold isOld at hold ⊢
      rw [← hrep]
      exact hold
    · rw [hother hid, hrep]

/-! ## The order one replica keeps -/

/-- The sequence of requests the replica executed. -/
def contents (r : CReplica N) : List Content := r.executed.map CRequest.content

theorem contents_congr (h : r'.executed = r.executed) : r'.contents = r.contents := by
  unfold contents
  rw [h]

/-- `T` is the reply table the replica was enabled with. Every request
executed since is newer than its entry; the table holds the last request
of each client; what was sent on was executed. -/
structure OrderInv (T : ℤ → ℕ) (id : ℕ) (r : CReplica N) : Prop where
  normal : r.cur_state = .normal
  count : (if id = 0 then r.seqno else r.last_seqno) = r.contents.length
  consecutive : Consecutive r.contents
  increasing : Increasing r.contents
  above : ∀ c ∈ r.contents, T c.rep.cid < c.rep.rid
  le : ∀ c ∈ r.contents, c.rep.rid ≤ (r.replies c.rep.cid).rep.rid
  table : ∀ cid, (r.replies cid).rep.rid = T cid ∨
    ∃ c ∈ r.contents, c.rep.cid = cid ∧ c.rep.rid = (r.replies cid).rep.rid ∧
      c.rep.seq_num = (r.replies cid).sent_seqno
  forwarded : ∀ m ∈ r.forwarded, m.content ∈ r.contents

/-- What the replica has from its predecessor, which executed `up`. -/
structure Upstream (T : ℤ → ℕ) (up : List Content) (r : CReplica N) : Prop where
  consecutive : Consecutive up
  increasing : Increasing up
  above : ∀ c ∈ up, T c.rep.cid < c.rep.rid
  le : r.contents <+: up
  hands : ∀ q ∈ r.inHands, q.content ∈ up

/-- The head has a request it takes for a repetition: a request it
executed since it was enabled, whatever number it carries. -/
def Repeats (r : CReplica N) (req : CRequest) : Prop :=
  ∃ c ∈ r.contents, c.command = req.command ∧
    req.rep = { c.rep with seq_num := req.rep.seq_num }
  deriving Decidable

namespace OrderInv

variable {T : ℤ → ℕ} {up : List Content}

/-- The head sends a repetition on as what it executed: the reply table
holds the number of the client's last request. -/
theorem repeated_head (h : OrderInv T 0 r) {m : CRequest} (hseen : r.isSeen req = true)
    (hold : r.isOld req = false) (hcommand : m.command = req.command)
    (hrep : m.rep = { req.rep with seq_num := (r.replies req.rep.cid).sent_seqno })
    (hrpt : r.Repeats req) : m.content ∈ r.contents := by
  obtain ⟨c, hc, hcmd, hreq⟩ := hrpt
  have hcid : c.rep.cid = req.rep.cid := by rw [hreq]
  have hrid : c.rep.rid = req.rep.rid := by rw [hreq]
  have hle : req.rep.rid ≤ (r.replies req.rep.cid).rep.rid := by
    exact of_decide_eq_true hseen
  have hge : (r.replies req.rep.cid).rep.rid ≤ req.rep.rid := by
    exact not_lt.1 (of_decide_eq_false hold)
  rcases h.table req.rep.cid with heq | ⟨d, hd, hdcid, hdrid, hdseq⟩
  · have habove := h.above c hc
    rw [hcid] at habove
    omega
  · have heq : c = d := h.increasing.eq hc hd (hcid.trans hdcid.symm) (by omega)
    have hm : m.content = c := by
      show Content.mk m.rep m.command = c
      rw [hrep, hcommand, ← hdseq, ← heq, ← hcmd, hreq]
    rw [hm]
    exact hc

variable (h : OrderInv T id r)

include h

theorem table_ge (cid : ℤ) : T cid ≤ (r.replies cid).rep.rid := by
  rcases h.table cid with heq | ⟨c, hc, rfl, hrid, -⟩
  · exact heq.ge
  · rw [← hrid]
    exact (h.above c hc).le

/-- Nothing is executed, and what is sent on was. -/
theorem of_same (hn : r'.cur_state = .normal) (hexec : r'.executed = r.executed)
    (hreplies : r'.replies = r.replies) (hseqno : r'.seqno = r.seqno)
    (hlast : r'.last_seqno = r.last_seqno)
    (hfwd : ∀ m ∈ r'.forwarded, m ∈ r.forwarded ∨ m.content ∈ r.contents) : OrderInv T id r' := by
  have hcont : r'.contents = r.contents := contents_congr hexec
  refine ⟨hn, ?_, ?_, ?_, ?_, ?_, ?_, fun m hm => ?_⟩ <;> rw [hcont]
  · rw [hseqno, hlast]
    exact h.count
  · exact h.consecutive
  · exact h.increasing
  · exact h.above
  · rw [hreplies]
    exact h.le
  · rw [hreplies]
    exact h.table
  · exact (hfwd m hm).elim (h.forwarded m) fun hm => hm

theorem of_frame {new : List CRequest} (hf : OrderFrame new r r') (hn : r'.cur_state = .normal) :
    OrderInv T id r' := by
  refine h.of_same hn hf.executed hf.replies hf.seqno hf.last_seqno fun m hm => Or.inl ?_
  rwa [hf.forwarded] at hm

/-- **One more request is executed**: it has the next number and is new for
its client, and the table gets it. -/
theorem extend {q : CRequest} (hn : r'.cur_state = .normal)
    (hcont : r'.contents = r.contents ++ [q.content]) (hnum : q.rep.seq_num = r.contents.length + 1)
    (hnew : (r.replies q.rep.cid).rep.rid < q.rep.rid) (hseqno : r'.seqno = q.rep.seq_num)
    (hlast : r'.last_seqno = q.rep.seq_num) (hrid : (r'.replies q.rep.cid).rep.rid = q.rep.rid)
    (hsent : (r'.replies q.rep.cid).sent_seqno = q.rep.seq_num)
    (hreplies : ∀ cid ≠ q.rep.cid, r'.replies cid = r.replies cid)
    (hfwd : ∀ m ∈ r'.forwarded, m ∈ r.forwarded ∨ m.content = q.content) : OrderInv T id r' := by
  have hself : q.content ∈ r.contents ++ [q.content] :=
    mem_append_right _ (mem_singleton.2 rfl)
  refine ⟨hn, ?_, ?_, ?_, fun c hc => ?_, fun c hc => ?_, fun cid => ?_, fun m hm => ?_⟩
  · rw [hseqno, hlast, ite_self, hcont, length_append, hnum]
    rfl
  · rw [hcont]
    exact h.consecutive.concat hnum
  · rw [hcont]
    refine h.increasing.concat fun d hd hdcid => ?_
    have hdle := h.le d hd
    rw [hdcid] at hdle
    exact lt_of_le_of_lt hdle hnew
  · rw [hcont] at hc
    rcases mem_concat_iff.1 hc with hc | rfl
    · exact h.above c hc
    · exact lt_of_le_of_lt (h.table_ge q.rep.cid) hnew
  · rw [hcont] at hc
    rcases mem_concat_iff.1 hc with hc | rfl
    · have hcle := h.le c hc
      by_cases heq : c.rep.cid = q.rep.cid
      · rw [heq] at hcle ⊢
        rw [hrid]
        exact (lt_of_le_of_lt hcle hnew).le
      · rw [hreplies _ heq]
        exact hcle
    · exact hrid.ge
  · rw [hcont]
    by_cases heq : cid = q.rep.cid
    · subst heq
      exact .inr ⟨q.content, hself, rfl, hrid.symm, hsent.symm⟩
    · rw [hreplies cid heq]
      rcases h.table cid with htable | ⟨c, hc, hrest⟩
      · exact .inl htable
      · exact .inr ⟨c, mem_append_left _ hc, hrest⟩
  · rw [hcont]
    rcases hfwd m hm with hm | hm
    · exact mem_append_left _ (h.forwarded m hm)
    · rw [hm]
      exact hself

/-- Another replica takes only what it executed for a repetition. -/
theorem repeated_other (hup : Upstream T up r) (hreq : req.content ∈ up)
    (hseen : r.isSeen req = true) : req.content ∈ r.contents := by
  have hle : req.rep.rid ≤ (r.replies req.rep.cid).rep.rid := by
    exact of_decide_eq_true hseen
  rcases h.table req.rep.cid with heq | ⟨d, hd, hdcid, hdrid, -⟩
  · have habove : T req.rep.cid < req.rep.rid := hup.above _ hreq
    omega
  · exact hup.increasing.mem_of_le hup.le hreq hd hdcid (by rw [hdrid]; exact hle)

/-- The moves that meet the head's condition on repetitions keep the
order, at the head and at every other replica. -/
theorem ordered (hup : id ≠ 0 → Upstream T up r) (hreq : id ≠ 0 → req.content ∈ up)
    (hrpt : id = 0 → r.isSeen req = true → r.isOld req = false →
      (req.verify N.toCNode 0).isSome → r.Repeats req) (hord : Ordered id r req r')
    (hn : r'.cur_state = .normal) :
    OrderInv T id r' ∧ r.contents <+: r'.contents ∧ (id ≠ 0 → r'.contents <+: up) ∧
      r'.pending_requests = r.pending_requests := by
  cases hord with
  | dropped hpart =>
    have hf : OrderFrame [] r r' := .of_part hpart
    have hcont : r'.contents = r.contents := contents_congr hf.executed
    have hpending : r'.pending_requests = r.pending_requests := by
      simp only [orderPart, Prod.mk.injEq] at hpart
      exact hpart.2.2.2.2.2.2
    rw [hcont]
    exact ⟨h.of_frame hf hn, prefix_rfl, fun hid => (hup hid).le, hpending⟩
  | executed q hseen hcommand hhead hother hseq hexec hseqno hlast hrid hsent hreplies hfwd
      hpending =>
    have hcont : r'.contents = r.contents ++ [q.content] := by
      unfold contents
      rw [hexec, map_append]
      rfl
    obtain ⟨hcid, hqrid⟩ : q.rep.cid = req.rep.cid ∧ q.rep.rid = req.rep.rid := by
      by_cases hid : id = 0
      · rw [hhead hid]
        exact ⟨rfl, rfl⟩
      · rw [hother hid]
        exact ⟨rfl, rfl⟩
    have hnum : q.rep.seq_num = r.contents.length + 1 := by rw [hseq, h.count]
    have hnew : (r.replies q.rep.cid).rep.rid < q.rep.rid := by
      rw [hcid, hqrid]
      exact not_le.1 (of_decide_eq_false hseen)
    refine ⟨h.extend hn hcont hnum hnew hseqno hlast hrid hsent hreplies hfwd, ?_, fun hid => ?_,
      hpending⟩
    · rw [hcont]
      exact prefix_append _ _
    · rw [hcont]
      have hq : q.content = req.content := by
        show Content.mk q.rep q.command = Content.mk req.rep req.command
        rw [hother hid, hcommand]
      refine (hup hid).consecutive.concat_prefix (hup hid).le ?_ hnum
      rw [hq]
      exact hreq hid
  | repeated m hseen hver hcommand hhead hother hexec hreplies hseqno hlast hfwd hpending =>
    have hcont : r'.contents = r.contents := contents_congr hexec
    have hm : m.content ∈ r.contents := by
      by_cases hid : id = 0
      · subst hid
        obtain ⟨hold, hrep⟩ := hhead rfl
        exact h.repeated_head hseen hold hcommand hrep (hrpt rfl hseen hold hver)
      · have hmeq : m.content = req.content := by
          show Content.mk m.rep m.command = Content.mk req.rep req.command
          rw [hother hid, hcommand]
        rw [hmeq]
        exact h.repeated_other (hup hid) (hreq hid) hseen
    refine ⟨h.of_same hn hexec hreplies hseqno hlast fun m' hm' => ?_, ?_, fun hid => ?_, hpending⟩
    · refine (hfwd m' hm').imp_right fun heq => ?_
      rw [heq]
      exact hm
    · rw [hcont]
    · rw [hcont]
      exact (hup hid).le

theorem step {e : CEvent} (hup : id ≠ 0 → Upstream T up r)
    (htaken : id ≠ 0 → ∀ q ∈ takenUp e, q.content ∈ up)
    (hrpt : id = 0 → ∀ req ∈ r.processed e, r.isSeen req = true → r.isOld req = false →
      (req.verify N.toCNode 0).isSome → r.Repeats req) (hn : (r.step id e).cur_state = .normal) :
    OrderInv T id (r.step id e) ∧ r.contents <+: (r.step id e).contents ∧
      (id ≠ 0 → Upstream T up (r.step id e)) := by
  rcases r.step_normal h.normal id e with ⟨unonce, req, hproc, heq⟩ | hf
  · have hord := ordered_processRequest h.normal id req unonce
    rw [heq] at hn ⊢
    have hhand : req ∈ r.inHands := mem_inHands_of_processed hproc
    obtain ⟨hinv, hle, hle', hpending⟩ := h.ordered hup (fun hid => (hup hid).hands req hhand)
      (fun hid => hrpt hid req hproc) hord hn
    refine ⟨{ hinv with }, hle, fun hid => ?_⟩
    refine { hup hid with le := hle' hid, hands := fun q hq => (hup hid).hands q ?_ }
    have hq' : q ∈ (r.processRequest id req unonce).pending_requests := hq
    rw [hpending] at hq'
    exact mem_append_right _ hq'
  · have hcont : (r.step id e).contents = r.contents := contents_congr hf.executed
    refine ⟨h.of_frame hf hn, by rw [hcont], fun hid => ?_⟩
    refine { hup hid with le := ?_, hands := fun q hq => ?_ }
    · rw [hcont]
      exact (hup hid).le
    · rcases hf.hands q hq with hq | hq
      · exact (hup hid).hands q hq
      · exact htaken hid q hq

end OrderInv

end CReplica

theorem CReplica.enable_init (service : S) : (init N service).enable = init N service := rfl

/-! ## The chain -/

/-- The replicas, and how many messages of the link from `k` to `k + 1`
were delivered: `forwarded` is what was put on it. -/
structure Pipeline (N : RNode S) where
  replicas : ℕ → CReplica N
  delivered : ℕ → ℕ

/-- A client's message reaches the head, the next message of a link is
delivered, or some thread of a replica moves. -/
inductive PipeEvent where
  | client (req : CRequest)
  | link (k : ℕ)
  | move (k : ℕ) (e : CReplica.CEvent)

namespace Pipeline

open Machine

variable (s : Pipeline N)

/-- Replica `k` makes the move `e`. -/
def moves (k : ℕ) (e : CReplica.CEvent) : Pipeline N :=
  { s with replicas := update s.replicas k ((s.replicas k).step k e) }

/-- One event. The only requests are those of the clients at the head and
those of the links. -/
def step : PipeEvent → Pipeline N
  | .client req => s.moves 0 (.incoming (.request req) false)
  | .link k =>
    match (s.replicas k).forwarded[s.delivered k]?, (s.replicas (k + 1)).requestThread with
    | some m, .idle =>
      { s.moves (k + 1) (.incoming (.request m) false) with
        delivered := update s.delivered k (s.delivered k + 1) }
    | _, _ => s
  | .move _ (.incoming (.request _) _) => s
  | .move k e => s.moves k e

/-- Every replica comes out of `enable_replica` or the constructor, with
no request in hand and the links empty. -/
def FreshlyEnabled : Prop :=
  ∀ k, ∃ r : CReplica N, r.requestThread = .idle ∧ s.replicas k = r.enable

/-- The entry of `k`'s reply table for a client. -/
def table (k : ℕ) (cid : ℤ) : ℕ := ((s.replicas k).replies cid).rep.rid

/-- No replica has a later request of a client in its reply table than
its predecessor. -/
def Descending : Prop :=
  ∀ k cid, k + 1 < N.n → s.table (k + 1) cid ≤ s.table k cid

/-- No replica leaves state `NORMAL` with this event. -/
def StaysNormal (e : PipeEvent) : Prop :=
  ∀ k < N.n, ((s.step e).replicas k).cur_state = .normal

instance (e : PipeEvent) : Decidable (s.StaysNormal e) :=
  inferInstanceAs (Decidable (∀ k < N.n, _))

/-- **What a retransmission must meet.** A request that the head
verifies and finds in its reply table, as the last of its client, is one
that it executed since it was enabled, with this content. -/
def Retransmits : PipeEvent → Prop
  | .move 0 e =>
    ∀ req ∈ (s.replicas 0).processed e, (s.replicas 0).isSeen req = true →
      (s.replicas 0).isOld req = false → (req.verify N.toCNode 0).isSome →
      (s.replicas 0).Repeats req
  | _ => True

/-- Each replica executed a prefix of what its predecessor executed, the
`k`-th request under the `k`-th number, and no request of a client
twice. -/
structure TotalOrder : Prop where
  before : ∀ k, k + 1 < N.n → (s.replicas (k + 1)).contents <+: (s.replicas k).contents
  consecutive : ∀ k < N.n, Consecutive (s.replicas k).contents
  once : ∀ k < N.n, ((s.replicas k).contents.map fun c => (c.rep.cid, c.rep.rid)).Nodup

/-- The invariant of the chain that was enabled with the reply tables
`T`. -/
structure PipeInv (T : ℕ → ℤ → ℕ) (s : Pipeline N) : Prop where
  replica : ∀ k < N.n, CReplica.OrderInv (T k) k (s.replicas k)
  upstream : ∀ k, k + 1 < N.n →
    CReplica.Upstream (T (k + 1)) (s.replicas k).contents (s.replicas (k + 1))

variable {T : ℕ → ℤ → ℕ} {s}

theorem FreshlyEnabled.pipeInv (h : FreshlyEnabled s) : PipeInv s.table s := by
  have hcont : ∀ k, (s.replicas k).contents = [] := fun k => by
    obtain ⟨r, -, heq⟩ := h k
    rw [heq]
    rfl
  refine ⟨fun k _ => ?_, fun k _ => ?_⟩
  · obtain ⟨r, -, heq⟩ := h k
    have htable : s.table k = fun cid => (r.enable.replies cid).rep.rid := by
      unfold table
      rw [heq]
    rw [htable, heq]
    exact ⟨rfl, ite_self _, nofun, List.Pairwise.nil, nofun, nofun, fun _ => .inl rfl, nofun⟩
  · rw [hcont]
    refine ⟨nofun, List.Pairwise.nil, nofun, ?_, ?_⟩
    · rw [hcont]
    · obtain ⟨r, hidle, heq⟩ := h (k + 1)
      have hthread : r.enable.requestThread = .idle := hidle
      unfold CReplica.inHands
      rw [heq, hthread]
      nofun

namespace PipeInv

/-- The predecessor of a replica may execute more. -/
theorem upstream_mono {T' : ℤ → ℕ} {r₁ r₁' r₂ : CReplica N} {k : ℕ}
    (h : CReplica.OrderInv (T k) k r₁') (hT : ∀ cid, T' cid ≤ T k cid)
    (hup : CReplica.Upstream T' r₁.contents r₂) (hle : r₁.contents <+: r₁'.contents) :
    CReplica.Upstream T' r₁'.contents r₂ where
  consecutive := h.consecutive
  increasing := h.increasing
  above := fun c hc => lt_of_le_of_lt (hT _) (h.above c hc)
  le := hup.le.trans hle
  hands := fun q hq => hle.subset (hup.hands q hq)

variable (h : PipeInv T s) (hT : ∀ k cid, k + 1 < N.n → T (k + 1) cid ≤ T k cid)

include h

theorem totalOrder : s.TotalOrder where
  before := fun k hk => (h.upstream k hk).le
  consecutive := fun k hk => (h.replica k hk).consecutive
  once := fun k hk => (h.replica k hk).increasing.nodup

include hT

/-- A replica moves, and takes up no request but a client's, at the head,
or one that its predecessor executed. -/
theorem moves {k : ℕ} {e : CReplica.CEvent} (htaken : ∀ j, k = j + 1 → j + 1 < N.n →
      ∀ q ∈ CReplica.takenUp e, q.content ∈ (s.replicas j).contents)
    (hrpt : k = 0 → s.Retransmits (.move 0 e))
    (hn : ∀ j < N.n, ((s.moves k e).replicas j).cur_state = .normal) : PipeInv T (s.moves k e) := by
  by_cases hk : k < N.n
  swap
  · -- there is no such replica
    have hsame : ∀ j < N.n, (s.moves k e).replicas j = s.replicas j := fun j hj =>
      update_of_ne (by omega) _ _
    refine ⟨fun j hj => ?_, fun j hj => ?_⟩
    · rw [hsame j hj]
      exact h.replica j hj
    · rw [hsame j (by omega), hsame (j + 1) hj]
      exact h.upstream j hj
  have hself : (s.moves k e).replicas k = (s.replicas k).step k e := update_self ..
  have hother : ∀ j ≠ k, (s.moves k e).replicas j = s.replicas j := fun j hj =>
    update_of_ne hj _ _
  have hnk := hn k hk
  rw [hself] at hnk
  have hstep : CReplica.OrderInv (T k) k ((s.replicas k).step k e) ∧
      (s.replicas k).contents <+: ((s.replicas k).step k e).contents ∧
      ∀ j, k = j + 1 → CReplica.Upstream (T k) (s.replicas j).contents
        ((s.replicas k).step k e) := by
    cases k with
    | zero =>
      obtain ⟨hinv, hle, -⟩ := CReplica.OrderInv.step (h.replica 0 hk)
        (show 0 ≠ 0 → CReplica.Upstream (T 0) [] _ from fun hne => absurd rfl hne)
        (fun hne => absurd rfl hne) hrpt hnk
      exact ⟨hinv, hle, nofun⟩
    | succ j =>
      obtain ⟨hinv, hle, hup⟩ := (h.replica (j + 1) hk).step (fun _ => h.upstream j hk)
        (fun _ => htaken j rfl hk) (fun hz => absurd hz (Nat.succ_ne_zero j)) hnk
      refine ⟨hinv, hle, fun j' hj' => ?_⟩
      obtain rfl : j = j' := by omega
      exact hup (Nat.succ_ne_zero j)
  obtain ⟨hinv, hle, hup⟩ := hstep
  refine ⟨fun j hj => ?_, fun j hj => ?_⟩
  · by_cases hjk : j = k
    · rw [hjk, hself]
      exact hinv
    · rw [hother j hjk]
      exact h.replica j hj
  · -- the pair of neighbours: the mover is the second, the first, or neither
    by_cases hjk : j + 1 = k
    · rw [hother j (by omega), hjk, hself]
      exact hup j hjk.symm
    by_cases hjk' : j = k
    · rw [hother (j + 1) (by omega), hjk', hself]
      rw [hjk'] at hj
      exact upstream_mono hinv (fun cid => hT k cid hj) (h.upstream k hj) hle
    · rw [hother j hjk', hother (j + 1) hjk]
      exact h.upstream j hj

theorem step {e : PipeEvent} (hn : s.StaysNormal e) (hrpt : s.Retransmits e) :
    PipeInv T (s.step e) := by
  cases e with
  | client req =>
    exact h.moves hT (fun j hj => absurd hj.symm (Nat.succ_ne_zero j)) (fun _ => nofun) hn
  | link k =>
    unfold StaysNormal at hn
    unfold Pipeline.step at hn ⊢
    dsimp only at hn ⊢
    split at hn
    · next m hm _ =>
      have hmem : m ∈ (s.replicas k).forwarded := mem_of_getElem? hm
      obtain ⟨hrep, hup⟩ := h.moves (k := k + 1) (e := .incoming (.request m) false) hT
        (fun j hj hlt q hq => by
          obtain rfl : k = j := by omega
          rw [mem_singleton.1 hq]
          exact (h.replica k (by omega)).forwarded m hmem)
        (fun hz => absurd hz (Nat.succ_ne_zero k)) hn
      exact ⟨hrep, hup⟩
    · exact h
  | move k e =>
    have hhead : k = 0 → s.Retransmits (.move 0 e) := fun hk => hk ▸ hrpt
    by_cases hreq : ∃ req panics, e = .incoming (.request req) panics
    · obtain ⟨req, panics, rfl⟩ := hreq
      exact h
    have hstep : s.step (.move k e) = s.moves k e := by
      unfold Pipeline.step
      split
      · cases ‹PipeEvent.move k e = _›
      · cases ‹PipeEvent.move k e = _›
      · next heq =>
        cases heq
        exact absurd ⟨_, _, rfl⟩ hreq
      · next heq =>
        cases heq
        rfl
    have htaken : CReplica.takenUp e = [] := by
      unfold CReplica.takenUp
      split
      · exact absurd ⟨_, _, rfl⟩ hreq
      · rfl
    unfold StaysNormal at hn
    rw [hstep] at hn ⊢
    refine h.moves hT (fun j _ _ => ?_) hhead hn
    rw [htaken]
    nofun

end PipeInv

/-- **Total order within one activation**, in every run from freshly
enabled replicas that stay in state `NORMAL`, with the reply tables in
descending order along the chain, and in which the head takes for a
repetition only what it executed in this activation. -/
theorem total_order (hfresh : s.FreshlyEnabled) (hdesc : s.Descending) {es : List PipeEvent}
    (h : Guarded step (fun s e => s.StaysNormal e ∧ s.Retransmits e) s es) :
    (exec step s es).TotalOrder := by
  have hinv : PipeInv s.table (exec step s es) :=
    h.invariant (fun _ _ hs hok => hs.step hdesc hok.1 hok.2) hfresh.pipeInv
  exact hinv.totalOrder

instance (s : Pipeline N) : (e : PipeEvent) → Decidable (s.Retransmits e)
  | .move 0 e => inferInstanceAs (Decidable (∀ req ∈ (s.replicas 0).processed e, _))
  | .move (_ + 1) _ | .client _ | .link _ => .isTrue trivial

/-- The chain before the first request of all. -/
def fresh (N : RNode S) (service : S) : Pipeline N := ⟨fun _ => CReplica.init N service, fun _ => 0⟩

theorem freshlyEnabled_fresh (service : S) : (fresh N service).FreshlyEnabled :=
  fun _ => ⟨CReplica.init N service, rfl, (CReplica.enable_init service).symm⟩

/-- Client `4`'s first request, for the command `command`. -/
def requestFor (command : List UInt8) : CRequest :=
  (CRequest.fresh hashRNode.md5 4 1 command false fun _ => 0).authenticate hashRNode.toCNode 4 (-1)
    0 none 0

/-- The same with a wrong MAC for replica `1`. -/
def halfAuthenticated (command : List UInt8) : CRequest :=
  { requestFor command with auth := update (requestFor command).auth 2 0 }

/-- The request thread of replica `k` takes a request through. -/
def handles (k : ℕ) : List PipeEvent :=
  [.move k (.request 0), .move k (.request 0), .move k (.request 0)]

/-- The head gets a request, and replica `1` what the head sends on. -/
def sentToTwo (req : CRequest) : List PipeEvent :=
  .client req :: handles 0 ++ .link 0 :: handles 1

/-- The request and its retransmission reach the head, and the first two
replicas execute it once. -/
theorem total_order_retransmitted :
    Guarded step (fun s e => s.StaysNormal e ∧ s.Retransmits e) (fresh hashRNode ())
        (sentToTwo (requestFor [7]) ++ sentToTwo (requestFor [7])) ∧
      ((exec step (fresh hashRNode ())
        (sentToTwo (requestFor [7]) ++ sentToTwo (requestFor [7]))).replicas 1).contents.length
          = 1 ∧
      (exec step (fresh hashRNode ())
        (sentToTwo (requestFor [7]) ++ sentToTwo (requestFor [7]))).TotalOrder :=
  ⟨by decide +kernel, by decide +kernel,
    total_order (freshlyEnabled_fresh ()) (fun _ _ _ => le_rfl) (by decide +kernel)⟩

/-- The chain enabled again after the head, and no other replica,
executed client `4`'s request. -/
def enabledAgain : Pipeline hashRNode :=
  { fresh hashRNode () with
    replicas := fun k =>
      if k = 0 then
        ((exec step (fresh hashRNode ()) (.client (requestFor [7]) :: handles 0)).replicas 0).enable
      else CReplica.init hashRNode () }

/-- **Two runs in which replica `1` executes what the head did not.** A
client sends its first request with a wrong MAC for replica `1`, then
another command under the same identifier: the head executes the one and
replica `1` the other, both as number `1`. And when the chain was
enabled again, the head sends the retransmission of an old request on
without executing it, and replica `1` executes it. -/
theorem total_order_fails :
    ((fresh hashRNode ()).FreshlyEnabled ∧ (fresh hashRNode ()).Descending ∧
      Guarded step StaysNormal (fresh hashRNode ())
        (sentToTwo (halfAuthenticated [7]) ++ sentToTwo (requestFor [9])) ∧
      ¬ (exec step (fresh hashRNode ())
        (sentToTwo (halfAuthenticated [7]) ++ sentToTwo (requestFor [9]))).TotalOrder) ∧
    (enabledAgain.FreshlyEnabled ∧ enabledAgain.Descending ∧
      Guarded step StaysNormal enabledAgain (sentToTwo (requestFor [7])) ∧
      ¬ (exec step enabledAgain (sentToTwo (requestFor [7]))).TotalOrder) := by
  refine ⟨⟨freshlyEnabled_fresh (), fun _ _ _ => le_rfl, by decide +kernel, fun h => ?_⟩,
    fun k => ?_, fun k cid _ => ?_, by decide +kernel, fun h => ?_⟩
  · exact absurd (h.before 0 (by decide)) (by decide +kernel)
  · by_cases hk : k = 0
    · exact ⟨_, rfl, if_pos hk⟩
    · exact ⟨CReplica.init hashRNode (), rfl, if_neg hk⟩
  · exact Nat.zero_le _
  · exact absurd (h.before 0 (by decide)) (by decide +kernel)

end Pipeline

end AbstractBFT.Chain
