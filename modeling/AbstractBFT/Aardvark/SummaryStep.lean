import AbstractBFT.Aardvark.Summary
import AbstractBFT.Lib.Entries
/-!
# Aardvark — what the summaries of a new view count

A request may be marked complete for its positive proofs, and these are to
come from different replicas that vouched for it in messages that verify
(`Vouched`). The invariant of one request is `ReqSum.Backed`: the count is
that of the bitmap, and every bit was earned, unless the own log has the
request. `Good` says it of all of them, and every function of the source
keeps it as long as a view-change is summarized only while its sender's bit
is set nowhere: the source counts view-changes without a look at the bitmap.
-/

namespace AbstractBFT.Aardvark

open Function List

/-! ## Who vouches -/

/-- The view-change is taken for authentic: it verified when it came, or is
the replica's own. `verify` answers with the flag of the header. -/
def Attested (N : Node) (H : List NvEvent) (vc : ViewChange) : Prop :=
  (∃ auth, .viewChange vc auth ∈ H ∧ vc.verify N auth) ∨ vc.id = N.id ∧ .own vc ∈ H

/-- Replica `k` vouched for `d` as the request of `i`, in such a view-change
or in a prepare sent as a proof that verifies. -/
def Vouched (N : Node) (H : List NvEvent) (i : ℕ) (d : Digest) (k : ℕ) : Prop :=
  (∃ vc ri, Attested N H vc ∧ vc.id = k ∧ vc.proofs i = some ri ∧ ri.d = d) ∨
    ∃ p : Prepare, .prepare p ∈ H ∧ p.verify N ∧ p.extra ∧ p.id = k ∧ p.seqno = i ∧ p.digest = d

variable {N : Node} {H H' : List NvEvent}

theorem Attested.mono {vc : ViewChange} (h : Attested N H vc) (hH : H ⊆ H') : Attested N H' vc :=
  h.imp (fun ⟨auth, hmem, hver⟩ => ⟨auth, hH hmem, hver⟩) fun ⟨hid, hmem⟩ => ⟨hid, hH hmem⟩

theorem Vouched.mono {i k : ℕ} {d : Digest} (h : Vouched N H i d k) (hH : H ⊆ H') :
    Vouched N H' i d k :=
  h.imp (fun ⟨vc, ri, hvc, hrest⟩ => ⟨vc, ri, hvc.mono hH, hrest⟩)
    fun ⟨p, hmem, hrest⟩ => ⟨p, hH hmem, hrest⟩

/-! ## The counts of one request -/

namespace ReqSum

variable {N : Node} {H : List NvEvent} {L : List (ℕ × Digest)} {i : ℕ} {cur : ReqSum}
  {vc : ViewChange}

/-- The positive proofs are from replicas that vouched, each counted once,
unless the own log has the request. Null requests need none. -/
structure Backed (N : Node) (H : List NvEvent) (L : List (ℕ × Digest)) (i : ℕ) (cur : ReqSum) :
    Prop where
  vouched : 0 ≤ cur.v → ∀ k ∈ cur.r_pproofs, k < N.n ∧ Vouched N H i cur.d k
  count : cur.n_pproofs ≤ cur.r_pproofs.card ∨ cur.d = 0 ∨ (i, cur.d) ∈ L

theorem Backed.mono {H' : List NvEvent} {L' : List (ℕ × Digest)} (h : Backed N H L i cur)
    (hH : H ⊆ H') (hL : L ⊆ L') : Backed N H' L' i cur where
  vouched hv k hk := ⟨(h.vouched hv k hk).1, (h.vouched hv k hk).2.mono hH⟩
  count := h.count.imp (fun h => h) (Or.imp (fun h => h) fun hmem => hL hmem)

variable {cur' : ReqSum}

theorem Backed.of_eq (h : Backed N H L i cur) (hv : cur'.v = cur.v) (hd : cur'.d = cur.d)
    (hn : cur'.n_pproofs = cur.n_pproofs) (hr : cur'.r_pproofs = cur.r_pproofs) :
    Backed N H L i cur' where
  vouched hpos := by
    rw [hr, hd]
    exact h.vouched (hv ▸ hpos)
  count := by
    rw [hn, hr, hd]
    exact h.count

theorem Backed.pproof (h : Backed N H L i cur) {k : ℕ} (hfree : k ∉ cur.r_pproofs)
    (hk : 0 ≤ cur.v → k < N.n ∧ Vouched N H i cur.d k) : Backed N H L i (cur.pproof k) where
  vouched hpos k' hk' := by
    rcases Finset.mem_insert.1 hk' with rfl | hold
    · exact hk hpos
    · exact h.vouched hpos k' hold
  count := by
    refine h.count.imp (fun hcount => ?_) fun h => h
    change cur.n_pproofs + 1 ≤ (insert k cur.r_pproofs).card
    rw [Finset.card_insert_of_notMem hfree]
    exact Nat.succ_le_succ hcount

/-- What a view-change does to an entry: at most its sender's bit is set,
for a proof of the request. -/
structure Counts (vc : ViewChange) (i : ℕ) (cur cur' : ReqSum) : Prop where
  v : cur'.v = cur.v
  d : cur'.d = cur.d
  pproofs : cur'.n_pproofs = cur.n_pproofs ∧ cur'.r_pproofs = cur.r_pproofs ∨
    cur'.n_pproofs = cur.n_pproofs + 1 ∧ cur'.r_pproofs = insert vc.id cur.r_pproofs ∧
      (0 ≤ cur.v → ∃ ri, vc.proofs i = some ri ∧ ri.d = cur.d)

theorem Counts.grows (h : Counts vc i cur cur') :
    cur.n_pproofs ≤ cur'.n_pproofs ∧ cur'.r_pproofs ⊆ insert vc.id cur.r_pproofs := by
  obtain ⟨-, -, ⟨hn, hr⟩ | ⟨hn, hr, -⟩⟩ := h
  · rw [hn, hr]
    exact ⟨le_rfl, Finset.subset_insert _ _⟩
  · rw [hn, hr]
    exact ⟨Nat.le_succ _, subset_rfl⟩

theorem Backed.counts (h : Backed N H L i cur) (hcounts : Counts vc i cur cur')
    (hvc : Attested N H vc) (hlt : vc.id < N.n) (hfree : vc.id ∉ cur.r_pproofs) :
    Backed N H L i cur' := by
  obtain ⟨hv, hd, ⟨hn, hr⟩ | ⟨hn, hr, hproof⟩⟩ := hcounts
  · exact h.of_eq hv hd hn hr
  · refine (h.pproof hfree fun hpos => ⟨hlt, .inl ?_⟩).of_eq hv hd hn hr
    obtain ⟨ri, hri, hd⟩ := hproof hpos
    exact ⟨vc, ri, hvc, rfl, hri, hd⟩

theorem counts_getProofs (cur : ReqSum) (vc : ViewChange) (i : ℕ) :
    Counts vc i cur (cur.getProofs vc i) := by
  rw [getProofs]
  split
  · split <;> exact ⟨rfl, rfl, .inl ⟨rfl, rfl⟩⟩
  · next ri hri =>
    have hproof : ri.d = cur.d → Counts vc i cur (cur.proof.pproof vc.id) := fun hd =>
      ⟨rfl, rfl, .inr ⟨rfl, rfl, fun _ => ⟨ri, hri, hd⟩⟩⟩
    split_ifs with _ hd hd
    · exact hproof hd.2
    · exact ⟨rfl, rfl, .inl ⟨rfl, rfl⟩⟩
    · exact hproof hd.2
    · exact ⟨rfl, rfl, .inl ⟨rfl, rfl⟩⟩
    · exact ⟨rfl, rfl, .inl ⟨rfl, rfl⟩⟩

/-- A request a view-change reports prepared is among its proofs. -/
theorem exists_proofs_of_req (hpos : 0 ≤ (vc.req i).1) :
    ∃ ri, vc.proofs i = some ri ∧ ri.d = (vc.req i).2 := by
  rw [ViewChange.req] at hpos ⊢
  split at hpos
  · next ri hri =>
    split at hpos
    · next hprep =>
      refine ⟨ri, ?_, ?_⟩
      · rw [ViewChange.proofs, hri, Option.filter_some, decide_eq_true hpos]
        rfl
      · rw [if_pos hprep]
    · exact absurd hpos (by decide)
  · exact absurd hpos (by decide)

theorem counts_summarize (cur : ReqSum) : Counts vc i cur (cur.summarize vc i (vc.req i)) := by
  rw [ReqSum.summarize]
  split
  · next hmatch =>
    refine ⟨rfl, rfl, .inr ⟨rfl, rfl, fun hpos => ?_⟩⟩
    obtain ⟨ri, hri, hd⟩ := exists_proofs_of_req (hmatch.1 ▸ hpos)
    exact ⟨ri, hri, hd.trans hmatch.2.symm⟩
  · have h := counts_getProofs cur vc i
    dsimp only
    split
    · exact ⟨h.v, h.d, h.pproofs⟩
    · exact h

/-- A new entry counts each view-change once. -/
theorem backed_make {vcs : ℕ → Option ViewChange}
    (hvcs : ∀ k vc, vcs k = some vc → vc.id = k ∧ k < N.n ∧ Attested N H vc) (i : ℕ)
    (r : View × Digest) (n_le id : ℕ) :
    Backed N H L i (make N vcs i r n_le id) ∧
      ∀ b ∈ (make N vcs i r n_le id).r_pproofs, (vcs b).isSome := by
  -- after the first `m` view-changes only their bits are set
  have hgather : ∀ m, Backed N H L i (gather vcs i m ⟨r.1, r.2, n_le, 0, 0, ∅, .empty, id⟩) ∧
      ∀ b ∈ (gather vcs i m ⟨r.1, r.2, n_le, 0, 0, ∅, .empty, id⟩).r_pproofs,
        b < m ∧ (vcs b).isSome := by
    intro m
    induction m with
    | zero =>
      exact ⟨⟨fun _ k hk => absurd hk (Finset.notMem_empty k), .inl (Nat.zero_le _)⟩,
        fun b hb => absurd hb (Finset.notMem_empty b)⟩
    | succ m ih =>
      rw [gather, range_succ, foldl_append, foldl_cons, foldl_nil, ← gather]
      generalize gather vcs i m ⟨r.1, r.2, n_le, 0, 0, ∅, .empty, id⟩ = cur at ih
      obtain ⟨hback, hbits⟩ := ih
      cases hm : vcs m with
      | none => exact ⟨hback, fun b hb => ⟨Nat.lt_succ_of_lt (hbits b hb).1, (hbits b hb).2⟩⟩
      | some vc =>
        obtain ⟨hid, hlt, hheard⟩ := hvcs m vc hm
        have hfree : vc.id ∉ cur.r_pproofs := fun hb => by
          have := (hbits _ hb).1
          omega
        have hcounts := counts_getProofs cur vc i
        refine ⟨hback.counts hcounts hheard (hid ▸ hlt) hfree, fun b hb => ?_⟩
        rcases Finset.mem_insert.1 (hcounts.grows.2 hb) with rfl | hb
        · rw [hid, hm]
          exact ⟨Nat.lt_succ_self m, rfl⟩
        · exact ⟨Nat.lt_succ_of_lt (hbits b hb).1, (hbits b hb).2⟩
  obtain ⟨hback, hbits⟩ := hgather N.n
  exact ⟨hback, fun b hb => (hbits b hb).2⟩

end ReqSum

/-! ## The own log -/

namespace OpLog

/-- What the log says of its own requests is so. -/
def Owns (l : OpLog) : Prop :=
  ∀ i d, d ≠ 0 → (l.prePrepare i d).isSome ∨ l.prepare i d → (i, d) ∈ l.logged

/-- The last digest of each entry was logged for its sequence number. -/
def Kept (l : OpLog) : Prop :=
  ∀ n, l.InRange n → (l.fetch n).d ≠ 0 → (n, (l.fetch n).d) ∈ l.logged

/-- And so were the digests it remembers. -/
def Fresh (l : OpLog) : Prop :=
  ∀ n, l.InRange n → ∀ o ∈ (l.fetch n).ods, o.1 ≠ 0 → (n, o.1) ∈ l.logged

variable {l : OpLog}

theorem Kept.owns (h : l.Kept) (hfresh : l.Fresh) : l.Owns := by
  intro i d hd hown
  rcases hown with hpp | hprep
  · rw [prePrepare] at hpp
    split at hpp
    · next hin =>
      obtain ⟨pp, hpp⟩ := Option.isSome_iff_exists.1 hpp
      obtain rfl := beq_iff_eq.1 (Option.filter_eq_some_iff.1 hpp).2
      exact h i hin hd
    · cases hpp
  · rw [prepare, Bool.and_eq_true, Bool.or_eq_true, decide_eq_true_eq, beq_iff_eq,
      any_eq_true] at hprep
    obtain ⟨hin, rfl | ⟨o, ho, heq⟩⟩ := hprep
    · exact h i hin hd
    · obtain rfl := beq_iff_eq.1 heq
      exact hfresh i hin o ho hd

theorem kept_new (f : ℕ) : (OpLog.new f).Kept :=
  fun _ _ hd => absurd rfl hd

theorem logged_record (l : OpLog) (n : ℕ) (d : Digest) (ri : OReqInfo) :
    l.logged ⊆ (l.record n d ri).logged := by
  rw [record]
  split
  · exact subset_append_left _ _
  · exact List.Subset.refl _

theorem Kept.record (h : l.Kept) {n : ℕ} {d : Digest} {ri : OReqInfo} (hd : ri.d = d) :
    (l.record n d ri).Kept := by
  rw [OpLog.record]
  split
  case isFalse => exact h
  case isTrue hn =>
  intro m hm hne
  have hm : l.InRange m := hm
  change (m, (update l.elems (n % maxOut) ri (m % maxOut)).d) ∈ l.logged ++ [(n, d)]
  change (update l.elems (n % maxOut) ri (m % maxOut)).d ≠ 0 at hne
  by_cases hslot : m % maxOut = n % maxOut
  · -- one entry serves one sequence number of the window
    have hmn : m = n := by
      obtain ⟨hlo, hhi⟩ := hm
      obtain ⟨hlo', hhi'⟩ := hn
      rw [maxOut] at *
      omega
    rw [hslot, update_self, hd, hmn]
    exact mem_append_right _ (mem_singleton_self _)
  · rw [update_of_ne hslot] at hne ⊢
    exact mem_append_left _ (h m hm hne)

theorem d_addIncomplete (ri : OReqInfo) (v : View) (d : Digest) : (ri.addIncomplete v d).d = d := by
  rw [OReqInfo.addIncomplete]
  split
  · next heq => split <;> exact heq
  · rfl

theorem logged_truncate (l : OpLog) (new_head : ℕ) : (l.truncate new_head).logged = l.logged := by
  rw [truncate]
  split <;> rfl

theorem Kept.truncate (h : l.Kept) (new_head : ℕ) : (l.truncate new_head).Kept := by
  rw [OpLog.truncate]
  split
  case isTrue => exact h
  case isFalse hle =>
  rintro n ⟨hlo, hhi⟩ hne
  simp only [fetch] at hlo hhi hne ⊢
  split
  · next hclear =>
    rw [if_pos hclear] at hne
    exact absurd rfl hne
  · next hclear =>
    rw [if_neg hclear] at hne
    refine h n ⟨by omega, ?_⟩ hne
    -- entries whose sequence number moved up were cleared
    by_contra hge
    refine hclear (Or.inr (any_eq_true.2 ⟨n - maxOut, mem_range'_1.2 ⟨by omega, by omega⟩, ?_⟩))
    rw [beq_iff_eq, ← Nat.mod_eq_sub_mod (by omega)]

/-- What an event does to the log. -/
def handle (l : OpLog) : NvEvent → OpLog
  | .logComplete pp => l.addComplete pp
  | .logIncomplete n v d => l.addIncomplete n v d
  | .stable ls => l.truncate (ls + 1)
  | _ => l

theorem Kept.handle (h : l.Kept) (e : NvEvent) : (l.handle e).Kept := by
  cases e with
  | logComplete pp => exact h.record rfl
  | logIncomplete n v d => exact h.record (d_addIncomplete _ v d)
  | stable ls => exact h.truncate (ls + 1)
  | _ => exact h

end OpLog

/-! ## The summaries -/

namespace NVSummary

/-- What holds of the summaries, with the own log `l` and the view-changes
`V` at hand: every count is backed, what is marked complete has the proofs
it needs, and only replicas in `P` were summarized or set a bit. -/
structure Good (N : Node) (H : List NvEvent) (l : OpLog) (V : ℕ → Option ViewChange) (P : ℕ → Prop)
    (s : NVSummary) : Prop where
  heard : s.heard = H
  log : s.log = l
  vcs : s.vcs = V
  reqs : ∀ i, ∀ cur ∈ s.reqs i, cur.Backed N H l.logged i
  comp : ∀ i j, s.comp_reqs i = some j →
    ∃ cur, (s.reqs i)[j]? = some cur ∧ (cur.v < 0 ∨ N.f < cur.n_pproofs)
  summed : ∀ k, s.req_sum k = true → P k
  bits : ∀ i, ∀ cur ∈ s.reqs i, ∀ b ∈ cur.r_pproofs, P b
  unsummed : s.chosen_ckpt = none → ∀ k, s.req_sum k = false

variable {N : Node} {H : List NvEvent} {l : OpLog} {V : ℕ → Option ViewChange} {P : ℕ → Prop}
  {s : NVSummary} {vc : ViewChange} {j i : ℕ}

theorem mem_modify {α : Type} {l : List α} {f : α → α} {a : α} (h : a ∈ l.modify j f) :
    a ∈ l ∨ ∃ b, l[j]? = some b ∧ a = f b := by
  obtain ⟨k, hk⟩ := getElem?_of_mem h
  rw [getElem?_modify] at hk
  split at hk
  · next heq =>
    subst heq
    obtain ⟨b, hb, hab⟩ := Option.map_eq_some_iff.1 hk
    exact .inr ⟨b, hb, hab.symm⟩
  · rw [Option.map_eq_map, Option.map_id'] at hk
    exact .inl (mem_of_getElem? hk)

/-- Other counts and no new bits. -/
structure Recounted (N : Node) (cur cur' : ReqSum) : Prop where
  v : cur'.v = cur.v
  d : cur'.d = cur.d
  r_pproofs : cur'.r_pproofs = cur.r_pproofs
  n_pproofs : cur'.n_pproofs = cur.n_pproofs ∨ cur'.n_pproofs = N.n

theorem lt_n (N : Node) : N.f < N.n := by
  rw [Node.n]
  omega

theorem Recounted.lt {cur cur' : ReqSum} (h : Recounted N cur cur') (hlt : N.f < cur.n_pproofs) :
    N.f < cur'.n_pproofs := by
  rcases h.n_pproofs with heq | heq
  · rw [heq]
    exact hlt
  · rw [heq]
    exact lt_n N

/-- The own log gives all proofs for requests it has. -/
theorem recounted_own (hlog : s.log = l) (hl : l.Owns) (i : ℕ) (cur : ReqSum) :
    Recounted N cur (ownPrepare N s i (ownPrePrepare N s i cur).1) ∧
      ((ownPrepare N s i (ownPrePrepare N s i cur).1).n_pproofs = cur.n_pproofs ∨ cur.d = 0 ∨
        (i, cur.d) ∈ l.logged) := by
  have hpp : Recounted N cur (ownPrePrepare N s i cur).1 ∧
      ((ownPrePrepare N s i cur).1.n_pproofs = cur.n_pproofs ∨ cur.d = 0 ∨
        (i, cur.d) ∈ l.logged) := by
    rw [ownPrePrepare]
    split
    · next opp hopp =>
      refine ⟨⟨rfl, rfl, rfl, .inr rfl⟩, ?_⟩
      split at hopp
      · rw [hlog] at hopp
        refine .inr (or_iff_not_imp_left.2 fun hd => hl i cur.d hd (.inl ?_))
        rw [hopp]
        rfl
      · cases hopp
    · exact ⟨⟨rfl, rfl, rfl, .inl rfl⟩, .inl rfl⟩
  generalize (ownPrePrepare N s i cur).1 = mid at hpp
  obtain ⟨hmid, hcount⟩ := hpp
  rw [ownPrepare]
  split
  · next hprep =>
    refine ⟨⟨hmid.v, hmid.d, hmid.r_pproofs, .inr rfl⟩, .inr ?_⟩
    rw [hlog, hmid.d] at hprep
    exact or_iff_not_imp_left.2 fun hd => hl i cur.d hd (.inr hprep.2)
  · exact ⟨hmid, hcount⟩

/-- Only the `j`-th entry for `i` changed. -/
def Touched (i j : ℕ) (s s' : NVSummary) : Prop :=
  s'.chosen_ckpt = s.chosen_ckpt ∧
    ∃ f, s'.reqs = update s.reqs i ((s.reqs i).modify j f)

theorem touched_finish {s s' : NVSummary} (h : Touched i j s s') : Touched i j s s'.finish := by
  rw [finish]
  split
  · exact h
  · exact h

theorem touched_refl (i j : ℕ) (s : NVSummary) : Touched i j s s :=
  ⟨rfl, id, by rw [modify_id, update_eq_self]⟩

theorem touched_checkComp (N : Node) (s : NVSummary) (i j : ℕ) :
    Touched i j s (checkComp N s i j) := by
  rw [checkComp]
  split
  · exact touched_refl i j s
  split
  case isFalse => exact touched_finish (touched_refl i j s)
  case isTrue =>
  dsimp only
  split
  · exact touched_finish ⟨rfl, _, rfl⟩
  · exact ⟨rfl, _, rfl⟩

theorem touched_summarizeOld (N : Node) (vc : ViewChange) (i : ℕ) (s : NVSummary) (j : ℕ) :
    Touched i j s (summarizeOld N vc i s j) := by
  rw [summarizeOld]
  split
  · exact touched_refl i j s
  · obtain ⟨hchosen, f, hf⟩ := touched_checkComp N
      (s.onReq i j fun cur => cur.summarize vc i (vc.req i)) i j
    refine ⟨hchosen, f ∘ fun cur => cur.summarize vc i (vc.req i), hf.trans ?_⟩
    change update (update s.reqs i ((s.reqs i).modify j _)) i
      ((update s.reqs i ((s.reqs i).modify j _) i).modify j f) = _
    rw [update_self, update_idem, modify_modify_eq]

/-- The view-changes at hand are authentic, each under its sender. -/
def AllAttested (N : Node) (H : List NvEvent) (V : ℕ → Option ViewChange) : Prop :=
  ∀ k vc, V k = some vc → vc.id = k ∧ k < N.n ∧ Attested N H vc

section

variable (h : Good N H l V P s)
include h

/-- Nothing of it depends on the other fields. -/
theorem Good.frame {s' : NVSummary}
    (hsame : (s'.heard, s'.log, s'.vcs, s'.reqs, s'.comp_reqs, s'.req_sum, s'.chosen_ckpt) =
      (s.heard, s.log, s.vcs, s.reqs, s.comp_reqs, s.req_sum, s.chosen_ckpt)) :
    Good N H l V P s' := by
  simp only [Prod.mk.injEq] at hsame
  obtain ⟨hheard, hlog, hvcs, hreqs, hcomp, hsum, hchosen⟩ := hsame
  refine ⟨hheard ▸ h.heard, hlog ▸ h.log, hvcs ▸ h.vcs, ?_, ?_, ?_, ?_, ?_⟩
  · rw [hreqs]
    exact h.reqs
  · rw [hreqs, hcomp]
    exact h.comp
  · rw [hsum]
    exact h.summed
  · rw [hreqs]
    exact h.bits
  · rw [hsum, hchosen]
    exact h.unsummed

theorem Good.finish : Good N H l V P s.finish := by
  rw [NVSummary.finish]
  split
  · exact h.frame rfl
  · exact h

/-- The entries for a sequence number may change to ones that are backed and
lost no proof. -/
theorem Good.setReqs {cs : List ReqSum}
    (hcs : ∀ cur ∈ cs, cur.Backed N H l.logged i ∧ ∀ b ∈ cur.r_pproofs, P b)
    (hcomp : ∀ (j : ℕ) (cur : ReqSum), (s.reqs i)[j]? = some cur →
      ∃ cur', cs[j]? = some cur' ∧ cur'.v = cur.v ∧ (N.f < cur.n_pproofs → N.f < cur'.n_pproofs)) :
    Good N H l V P { s with reqs := update s.reqs i cs } := by
  refine { h with
    reqs := (forall_update_iff s.reqs fun i cs => ∀ cur ∈ cs, cur.Backed N H l.logged i).2
      ⟨fun cur hcur => (hcs cur hcur).1, fun i _ => h.reqs i⟩
    comp := (forall_update_iff s.reqs fun i cs => ∀ j, s.comp_reqs i = some j →
      ∃ cur, cs[j]? = some cur ∧ (cur.v < 0 ∨ N.f < cur.n_pproofs)).2
      ⟨fun j hj => ?_, fun i _ => h.comp i⟩
    bits := (forall_update_iff s.reqs fun _ cs => ∀ cur ∈ cs, ∀ b ∈ cur.r_pproofs, P b).2
      ⟨fun cur hcur => (hcs cur hcur).2, fun i _ => h.bits i⟩ }
  obtain ⟨cur, hcur, hdone⟩ := h.comp i j hj
  obtain ⟨cur', hcur', hv, hn⟩ := hcomp j cur hcur
  exact ⟨cur', hcur', hv ▸ hdone.imp_right hn⟩

theorem Good.onReq {f : ReqSum → ReqSum}
    (hf : ∀ cur, (s.reqs i)[j]? = some cur → (f cur).Backed N H l.logged i ∧ (f cur).v = cur.v ∧
      (N.f < cur.n_pproofs → N.f < (f cur).n_pproofs) ∧ ∀ b ∈ (f cur).r_pproofs, P b) :
    Good N H l V P (s.onReq i j f) := by
  refine h.setReqs (fun cur hcur => ?_) fun j' cur hcur => ?_
  · rcases mem_modify hcur with hcur | ⟨old, hold, rfl⟩
    · exact ⟨h.reqs i cur hcur, h.bits i cur hcur⟩
    · exact ⟨(hf old hold).1, (hf old hold).2.2.2⟩
  · rw [getElem?_modify, hcur]
    by_cases hj : j = j'
    · subst hj
      obtain ⟨-, hv, hn, -⟩ := hf cur hcur
      exact ⟨f cur, by simp, hv, hn⟩
    · exact ⟨cur, by simp [hj], rfl, id⟩

/-- And a backed entry may be added. -/
theorem Good.addReq {cur : ReqSum} (hcur : cur.Backed N H l.logged i)
    (hbits : ∀ b ∈ cur.r_pproofs, P b) : Good N H l V P (s.addReq i cur) := by
  refine h.setReqs (fun c hc => ?_) fun j c hc => ⟨c, ?_, rfl, id⟩
  · rcases mem_append.1 hc with hc | hc
    · exact ⟨h.reqs i c hc, h.bits i c hc⟩
    · exact List.mem_singleton.1 hc ▸ ⟨hcur, hbits⟩
  · rw [getElem?_append_left (List.getElem?_eq_some_iff.1 hc).1, hc]

theorem Good.weaken {Q : ℕ → Prop} (hPQ : ∀ k, P k → Q k) : Good N H l V Q s :=
  { h with
    summed := fun k hk => hPQ k (h.summed k hk)
    bits := fun i cur hcur b hb => hPQ b (h.bits i cur hcur b hb) }

theorem Good.withInfo (i j : ℕ) (g : ReqSum → PrePrepareInfo) :
    Good N H l V P (s.onReq i j fun cur => { cur with pi := g cur }) := by
  refine h.onReq fun cur hcur => ?_
  have hmem := mem_of_getElem? hcur
  exact ⟨(h.reqs i cur hmem).of_eq rfl rfl rfl rfl, rfl, fun hlt => hlt, h.bits i cur hmem⟩

/-! ### `check_comp` -/

variable (hl : l.Owns)
include hl

theorem Good.checkComp (i j : ℕ) : Good N H l V P (checkComp N s i j) := by
  rw [NVSummary.checkComp]
  split
  · exact h
  next cur hcur =>
  split
  case isFalse => exact h.finish
  case isTrue hcheck =>
  obtain ⟨hre, hown⟩ := recounted_own (N := N) h.log hl i cur
  generalize hcur' : ownPrepare N s i (ownPrePrepare N s i cur).1 = cur' at hre hown
  have hback := h.reqs i cur (mem_of_getElem? hcur)
  have hback' : cur'.Backed N H l.logged i := by
    refine ⟨fun hpos => ?_, ?_⟩
    · rw [hre.r_pproofs, hre.d]
      exact hback.vouched (hre.v ▸ hpos)
    · rw [hre.r_pproofs, hre.d]
      rcases hown with heq | hown
      · rw [heq]
        exact hback.count
      · exact .inr hown
  have hset : Good N H l V P (s.onReq i j fun _ => cur') := by
    refine h.onReq fun c hc => ?_
    obtain rfl := Option.mem_unique hcur hc
    refine ⟨hback', hre.v, hre.lt, fun b hb => ?_⟩
    rw [hre.r_pproofs] at hb
    exact h.bits i cur (mem_of_getElem? hcur) b hb
  have hget : ((s.onReq i j fun _ => cur').reqs i)[j]? = some cur' := by
    change (update s.reqs i ((s.reqs i).modify j fun _ => cur') i)[j]? = some cur'
    rw [update_self, getElem?_modify_eq, hcur]
    rfl
  simp only [hcur']
  generalize hs' : s.onReq i j (fun _ => cur') = s' at hset hget
  split
  · next hdone =>
    exact Good.finish { hset with
      comp := Entries.forall_write hset.comp ⟨cur', hget, hdone.imp id And.right⟩ }
  · exact hset.frame rfl

/-! ### `summarize_reqs` -/

section

variable (hvc : Attested N H vc) (hlt : vc.id < N.n) (hP : P vc.id)
include hvc hlt hP

theorem Good.summarizeOld (hfree : ∀ cur, (s.reqs i)[j]? = some cur → vc.id ∉ cur.r_pproofs) :
    Good N H l V P (summarizeOld N vc i s j) := by
  rw [NVSummary.summarizeOld]
  split
  · exact h
  refine Good.checkComp (h.onReq fun cur hcur => ?_) hl i j
  have hmem := mem_of_getElem? hcur
  have hcounts : ReqSum.Counts vc i cur (cur.summarize vc i (vc.req i)) :=
    ReqSum.counts_summarize cur
  refine ⟨(h.reqs i cur hmem).counts hcounts hvc hlt (hfree cur hcur), hcounts.v,
    fun hlt => lt_of_lt_of_le hlt hcounts.grows.1, fun b hb => ?_⟩
  rcases Finset.mem_insert.1 (hcounts.grows.2 hb) with rfl | hb
  · exact hP
  · exact h.bits i cur hmem b hb

/-- The loop over the entries takes each one as it was. -/
theorem Good.foldl_summarizeOld (hfree : ∀ cur ∈ s.reqs i, vc.id ∉ cur.r_pproofs) (m : ℕ) :
    let s' := (List.range m).foldl (NVSummary.summarizeOld N vc i) s
    Good N H l V P s' ∧ s'.chosen_ckpt = s.chosen_ckpt ∧
      (∀ i', i' ≠ i → s'.reqs i' = s.reqs i') ∧ ∀ j, m ≤ j → (s'.reqs i)[j]? = (s.reqs i)[j]? := by
  induction m with
  | zero => exact ⟨h, rfl, fun _ _ => rfl, fun _ _ => rfl⟩
  | succ m ih =>
    rw [range_succ, foldl_append, foldl_cons, foldl_nil]
    generalize (List.range m).foldl (NVSummary.summarizeOld N vc i) s = t at ih
    obtain ⟨hgood, hchosen, hother, hrest⟩ := ih
    obtain ⟨hsame, f, hf⟩ := touched_summarizeOld N vc i t m
    refine ⟨hgood.summarizeOld hl hvc hlt hP fun cur hcur => ?_, hsame.trans hchosen,
      fun i' hi' => ?_, fun j hj => ?_⟩
    · rw [hrest m le_rfl] at hcur
      exact hfree cur (mem_of_getElem? hcur)
    · rw [hf, update_of_ne hi', hother i' hi']
    · rw [hf, update_self, getElem?_modify_ne _ _ (by omega), hrest j (by omega)]

variable (hV : AllAttested N H V)
include hV

theorem Good.summarizeAt (hfree : ∀ cur ∈ s.reqs i, vc.id ∉ cur.r_pproofs) :
    let s' := NVSummary.summarizeAt N vc s i
    Good N H l V P s' ∧ s'.chosen_ckpt = s.chosen_ckpt ∧ ∀ i', i' ≠ i → s'.reqs i' = s.reqs i' := by
  rw [NVSummary.summarizeAt]
  obtain ⟨hgood, hchosen, hother, -⟩ :=
    h.foldl_summarizeOld hl hvc hlt hP hfree (s.reqs i).length
  dsimp only at hgood hchosen hother ⊢
  generalize (List.range (s.reqs i).length).foldl (NVSummary.summarizeOld N vc i) s = t at *
  split
  · exact ⟨hgood, hchosen, hother⟩
  -- the new entry takes its proofs from what was summarized before, and this
  have hknown : AllAttested N H fun k => if t.req_sum k then t.vcs k else none := by
    intro k o ho
    dsimp only at ho
    split at ho
    · rw [hgood.vcs] at ho
      exact hV k o ho
    · cases ho
  obtain ⟨hback, hbits⟩ := ReqSum.backed_make (L := l.logged) hknown i (vc.req i)
    ((s.reqs i).countP (fun cur => decide (cur.v < (vc.req i).1)) + 1) vc.id
  have hadd := hgood.addReq hback fun b hb => hgood.summed b (by
    have hsome := hbits b hb
    by_contra hno
    rw [if_neg hno] at hsome
    cases hsome)
  obtain ⟨hsame, f, hf⟩ := touched_checkComp N (t.addReq i _) i (s.reqs i).length
  refine ⟨hadd.checkComp hl i _, hsame.trans hchosen, fun i' hi' => ?_⟩
  rw [hf, update_of_ne hi']
  exact (update_of_ne hi' _ _).trans (hother i' hi')

theorem Good.foldl_summarizeAt {is : List ℕ} (hnodup : is.Nodup)
    (hfree : ∀ i ∈ is, ∀ cur ∈ s.reqs i, vc.id ∉ cur.r_pproofs) :
    let s' := is.foldl (NVSummary.summarizeAt N vc) s
    Good N H l V P s' ∧ s'.chosen_ckpt = s.chosen_ckpt := by
  induction is generalizing s with
  | nil => exact ⟨h, rfl⟩
  | cons i is ih =>
    rw [nodup_cons] at hnodup
    obtain ⟨hgood, hchosen, hother⟩ := h.summarizeAt hl hvc hlt hP hV
      (hfree i mem_cons_self)
    refine (ih hgood hnodup.2 fun i' hi' => ?_).imp_right fun heq => heq.trans hchosen
    have hne : i' ≠ i := fun heq => hnodup.1 (heq ▸ hi')
    rw [hother i' hne]
    exact hfree i' (mem_cons_of_mem i hi')

end

/-- **A view-change is summarized** where its sender was not counted yet. -/
theorem Good.summarizeReqs (hV : AllAttested N H V) (hvc : V vc.id = some vc) (hP : P vc.id)
    (hchosen : s.chosen_ckpt.isSome) (hfree : ∀ i, ∀ cur ∈ s.reqs i, vc.id ∉ cur.r_pproofs) :
    let s' := NVSummary.summarizeReqs N s vc
    Good N H l V P s' ∧ s'.chosen_ckpt = s.chosen_ckpt := by
  obtain ⟨-, hlt, hheard⟩ := hV _ vc hvc
  rw [NVSummary.summarizeReqs]
  refine Good.foldl_summarizeAt (s := { s with req_sum := update s.req_sum vc.id true })
    { h with summed := fun k hk => ?_, unsummed := fun hnone => ?_ } hl hheard hlt hP hV
    nodup_range' fun i _ => hfree i
  · by_cases hk' : k = vc.id
    · rw [hk']
      exact hP
    · refine h.summed k ?_
      change update s.req_sum vc.id true k = true at hk
      rwa [update_of_ne hk'] at hk
  · rw [show s.chosen_ckpt = none from hnone] at hchosen
    cases hchosen

end

/-- `P` is of no concern from here on. -/
abbrev Sound (N : Node) (H : List NvEvent) (l : OpLog) (V : ℕ → Option ViewChange) (s : NVSummary) :
    Prop :=
  Good N H l V (fun _ => True) s

/-- The checkpoints changed: the summaries are sound as before, and if a
checkpoint was chosen the requests are as they were. -/
structure Rechosen (N : Node) (H : List NvEvent) (l : OpLog) (V : ℕ → Option ViewChange)
    (s s' : NVSummary) : Prop where
  sound : Sound N H l V s → Sound N H l V s'
  settled : s.chosen_ckpt.isSome → s'.chosen_ckpt.isSome ∧ s'.reqs = s.reqs

variable {s' : NVSummary}

theorem Rechosen.trans {s'' : NVSummary} (h : Rechosen N H l V s s')
    (h' : Rechosen N H l V s' s'') : Rechosen N H l V s s'' where
  sound hs := h'.sound (h.sound hs)
  settled hs := (h'.settled (h.settled hs).1).imp_right fun heq => heq.trans (h.settled hs).2

theorem rechosen_ckpts (s : NVSummary) (cs : List CkptSum) :
    Rechosen N H l V s { s with ckpts := cs } :=
  ⟨fun hs => hs.frame rfl, fun hs => ⟨hs, rfl⟩⟩

theorem Rechosen.finish (h : Rechosen N H l V s s') : Rechosen N H l V s s'.finish := by
  refine ⟨fun hs => (h.sound hs).finish, ?_⟩
  rw [NVSummary.finish]
  split <;> exact h.settled

section

variable (hl : l.Owns) (hV : AllAttested N H V)
include hl hV

/-- When the checkpoint is chosen, the view-changes are summarized in the
order of their senders. -/
theorem Good.foldl_summarizeNamed (h : Good N H l V (· < 0) s) (hchosen : s.chosen_ckpt.isSome)
    (m : ℕ) :
    Good N H l V (· < m) ((List.range m).foldl (summarizeNamed N) s) ∧
      ((List.range m).foldl (NVSummary.summarizeNamed N) s).chosen_ckpt.isSome := by
  induction m with
  | zero => exact ⟨h, hchosen⟩
  | succ m ih =>
    rw [range_succ, foldl_append, foldl_cons, foldl_nil]
    generalize (List.range m).foldl (NVSummary.summarizeNamed N) s = t at ih
    obtain ⟨hgood, hchosen⟩ := ih
    have hgood' := hgood.weaken (Q := (· < m + 1)) fun k hk => Nat.lt_succ_of_lt hk
    rw [NVSummary.summarizeNamed]
    split
    · exact ⟨hgood', hchosen⟩
    cases hm : t.vcs m with
    | none => exact ⟨hgood', hchosen⟩
    | some vc =>
      rw [hgood.vcs] at hm
      obtain ⟨hid, -, -⟩ := hV m vc hm
      obtain ⟨hnext, hsame⟩ := hgood'.summarizeReqs hl hV (hid ▸ hm) (by omega) hchosen
        fun i cur hcur hb => by
          have := hgood.bits i cur hcur vc.id hb
          omega
      exact ⟨hnext, hsame ▸ hchosen⟩

theorem rechosen_chooseCkpt (s : NVSummary) (k : ℕ) : Rechosen N H l V s (chooseCkpt N s k) := by
  rw [chooseCkpt]
  split
  · exact rechosen_ckpts s s.ckpts
  next cur _ =>
  split
  · next hnone =>
    refine ⟨fun h => ?_, fun hsome => absurd hsome (by rw [hnone]; decide)⟩
    have hstart : Good N H l V (· < 0)
        { s with
          chosen_ckpt := some k, min := cur.n, max := cur.max_seqno + 1
          reqs := fun _ => [], comp_reqs := fun _ => none } := by
      refine { h with
        reqs := nofun, comp := nofun, summed := fun b hb => ?_, bits := nofun, unsummed := nofun }
      have hset : s.req_sum b = true := hb
      rw [h.unsummed hnone b] at hset
      cases hset
    obtain ⟨hgood, -⟩ := Good.foldl_summarizeNamed hl hV hstart rfl N.n
    have hsound := hgood.weaken (Q := fun _ => True) fun _ _ => trivial
    dsimp only
    split
    · exact hsound
    · exact hsound.finish
  · split
    · exact Rechosen.finish ⟨fun h => { h with unsummed := nofun }, fun _ => ⟨rfl, rfl⟩⟩
    · exact (rechosen_ckpts s s.ckpts).finish

theorem rechosen_summarizeCkpt (vc : ViewChange) (s : NVSummary) (k : ℕ) :
    Rechosen N H l V s (summarizeCkpt N vc s k) := by
  rw [summarizeCkpt]
  split
  · exact (rechosen_ckpts s _).trans (rechosen_chooseCkpt hl hV _ k)
  · exact rechosen_ckpts s _

theorem rechosen_newCkpt (vc : ViewChange) (s : NVSummary) (old : List CkptSum) :
    Rechosen N H l V s (newCkpt N vc s old) := by
  rw [newCkpt]
  split
  · exact rechosen_ckpts s s.ckpts
  split
  · exact rechosen_ckpts s s.ckpts
  dsimp only
  split
  · exact (rechosen_ckpts s _).trans (rechosen_chooseCkpt hl hV _ _)
  · exact rechosen_ckpts s _

/-- The replica's bit is not set for any request. -/
def Uncounted (s : NVSummary) (k : ℕ) : Prop :=
  ∀ i, ∀ cur ∈ s.reqs i, k ∉ cur.r_pproofs

theorem Good.summarize (h : Sound N H l V s) (hvc : V vc.id = some vc) (hfree : s.Uncounted vc.id) :
    Sound N H l V (summarize N s vc) := by
  have hfold : ∀ (ks : List ℕ) (t : NVSummary),
      Rechosen N H l V t (ks.foldl (NVSummary.summarizeCkpt N vc) t) := by
    intro ks
    induction ks with
    | nil => exact fun t => rechosen_ckpts t t.ckpts
    | cons k ks ih => exact fun t => (rechosen_summarizeCkpt hl hV vc t k).trans (ih _)
  have hnew := (hfold (List.range s.ckpts.length) s).trans
    (rechosen_newCkpt hl hV vc _ s.ckpts)
  rw [NVSummary.summarize]
  split
  · next hchosen =>
    obtain ⟨hsome, hreqs⟩ := hnew.settled hchosen.1
    refine ((hnew.sound h).summarizeReqs hl hV hvc trivial hsome ?_).1
    rw [hreqs]
    exact hfree
  · exact hnew.sound h

/-! ### `check_new_view` -/

theorem Good.checkPicked (nv : NewView) (is : List ℕ) (h : Sound N H l V s) :
    Sound N H l V (checkPicked N nv s is) := by
  induction is generalizing s with
  | nil => exact h
  | cons i is ih =>
    rw [NVSummary.checkPicked]
    split
    · exact h
    next vc _ =>
    split
    · exact h
    dsimp only
    obtain ⟨hback, -⟩ := ReqSum.backed_make (L := l.logged) hV i (vc.req i)
      (countVcs N s.vcs fun o => decide ((o.req i).1 ≤ (vc.req i).1)) vc.id
    rw [← h.vcs] at hback
    have hadd := h.addReq hback fun _ _ => trivial
    split
    · exact hadd
    · exact ih (hadd.checkComp hl i 0)

theorem Good.checkNewView (h : Sound N H l V s) (nv : NewView) :
    Sound N H l V (checkNewView N nv s) := by
  rw [NVSummary.checkNewView]
  split
  case isFalse => exact h
  case isTrue =>
  dsimp only
  split
  · have hstart : Sound N H l V
        { s with
          chosen_ckpt := some 0, min := nv.min, max := nv.max
          reqs := fun _ => [], comp_reqs := fun _ => none } :=
      { h with reqs := nofun, comp := nofun, bits := nofun, unsummed := nofun }
    split
    · exact hstart.frame rfl
    · exact hstart.checkPicked hl hV nv _
  · refine ⟨h.heard, h.log, h.vcs, h.reqs, h.comp, h.summed, h.bits, fun hsome => ?_⟩
    cases hsome

end

/-! ### Missing pieces -/

theorem countsPrepare_some {p : Prepare} (h : countsPrepare N s p = some j) :
    p.extra ∧ ∃ cur, (s.reqs p.seqno)[j]? = some cur ∧ cur.d = p.digest ∧
      p.id ∉ cur.r_pproofs := by
  rw [countsPrepare] at h
  split at h
  case isFalse => cases h
  case isTrue hextra =>
  obtain ⟨hj, hany⟩ := Option.filter_eq_some_iff.1 h
  obtain ⟨hlt, hd, -⟩ := findIdx?_eq_some_iff_getElem.1 hj
  rw [getElem?_eq_getElem hlt, Option.any_some, decide_eq_true_eq] at hany
  exact ⟨hextra.1, _, getElem?_eq_getElem hlt, beq_iff_eq.1 hd, hany.2⟩

variable (h : Good N H l V P s) (hl : l.Owns)
include h hl

theorem Good.addPrePrepare (pp : PrePrepare) : Good N H l V P (addPrePrepare N s pp) := by
  rw [NVSummary.addPrePrepare]
  split
  case isFalse => exact h
  split
  · exact h
  next j _ =>
  split
  · refine Good.checkComp ?_ hl pp.seqno j
    exact (h.withInfo pp.seqno j _).frame rfl
  · exact h

theorem Good.addBigRequest (rd : Digest) (n k : ℕ) : Good N H l V P (addBigRequest N s rd n k) := by
  rw [NVSummary.addBigRequest]
  split
  case isFalse => exact h
  case isTrue hmissing =>
  clear hmissing
  generalize List.range (s.reqs n).length = js
  induction js generalizing s with
  | nil => exact h
  | cons j js ih =>
    rw [foldl_cons]
    refine ih ?_
    split
    · exact h
    · exact (h.withInfo n j _).checkComp hl n j

theorem Good.addPrepare (p : Prepare) (hp : ∀ j, countsPrepare N s p = some j →
      P p.id ∧ p.id < N.n ∧ Vouched N H p.seqno p.digest p.id) :
    Good N H l V P (addPrepare N s p) := by
  rw [NVSummary.addPrepare]
  split
  · exact h
  next j hj =>
  obtain ⟨-, cur, hcur, hd, hfree⟩ := countsPrepare_some hj
  obtain ⟨hP, hlt, hvouch⟩ := hp j hj
  refine Good.checkComp (h.onReq fun c hc => ?_) hl _ _
  obtain rfl := Option.mem_unique hcur hc
  have hmem := mem_of_getElem? hcur
  refine ⟨(h.reqs _ cur hmem).pproof hfree fun _ => ⟨hlt, hd ▸ hvouch⟩, rfl,
    fun hlt => Nat.lt_succ_of_lt hlt, fun b hb => ?_⟩
  rcases Finset.mem_insert.1 hb with rfl | hb
  · exact hP
  · exact h.bits _ cur hmem b hb

end NVSummary

end AbstractBFT.Aardvark
