import AbstractBFT.Lib.Quorum
import AbstractBFT.Common.History
import AbstractBFT.Common.SCSet
import Mathlib.Data.Finset.Range
import Mathlib.Data.Nat.Find
/-!
# Abort histories and the smasher

When an instance panics, every replica broadcasts the request history it
holds in an abort message, and the smasher merges a set of those
messages into one history: position by position, the element that more
than `t` of the messages report there. `C_Abort`, `Q_Abort` and
`zl_Abort` have one layout and the three smashers one text, so they are
modelled once.
-/

namespace AbstractBFT

open List

/-- `AbortHistoryElement`. -/
structure AbortHistoryElement where
  cid : ℤ
  rid : ℕ
  d : Digest
  deriving DecidableEq

/-- `AbortHistory`. -/
abbrev AbortHistory := List AbortHistoryElement

/-- The bytes of an element inside an abort message. -/
def AbortHistoryElement.bytes (e : AbortHistoryElement) : List UInt8 :=
  leBytes 4 (e.cid % 2 ^ 32).toNat ++ leBytes 8 e.rid ++ leBytes 16 e.d.toNat

/-- `C_Abort_rep`, without the digest of the aborted request, which no
code sets. The history's size is a `short` that `hist_size()` reads as
unsigned. -/
structure AbortRep where
  replica : ℤ
  rid : ℕ
  digest : Digest
  hist_size : ℕ
  deriving DecidableEq

/-- `C_Abort`: the header, the elements read from the bytes after it,
going on past the message's end, and the signature. -/
structure Abort where
  rep : AbortRep
  elems : ℕ → AbortHistoryElement
  sig : List UInt8

/-- The elements an abort message lists. -/
def Abort.history (a : Abort) : AbortHistory :=
  (List.range a.rep.hist_size).map a.elems

namespace Smasher

section Model

variable (n t : ℕ) (aborts : ℕ → Option Abort)

/-- What is put into `seeder` for position `j`: the element at `j` of
every abort, unless `hist_size() < j`. -/
def reports (j : ℕ) : AbortHistory :=
  (List.range n).filterMap fun i =>
    (aborts i).bind fun a => if a.rep.hist_size < j then none else some (a.elems j)

/-- The first element of `seeder` that `t + 1` aborts report at `j`. -/
def vote (j : ℕ) : Option AbortHistoryElement :=
  ((SCSet.empty n).storeAll (reports n aborts j)).fetchMajority (t + 1)

/-- Phase 1, from position `j` on, with `k` positions left: stop at the
first one no element wins. -/
def ah1From : (k j : ℕ) → AbortHistory
  | 0, _ => []
  | k + 1, j =>
    match vote n t aborts j with
    | none => []
    | some e => e :: ah1From k (j + 1)

/-- One element of phase 2: append it to `AH_2` unless it was seen. -/
def ah2Step (st : AbortHistory × SCSet AbortHistoryElement) (e : AbortHistoryElement) :
    AbortHistory × SCSet AbortHistoryElement :=
  if st.2.has e then st else (st.1 ++ [e], st.2.store e)

/-- Phase 2: `AH_2`, and the set of what was seen. -/
def ah2 (AH_1 : AbortHistory) : AbortHistory × SCSet AbortHistoryElement :=
  AH_1.foldl ah2Step ([], SCSet.empty AH_1.length)

/-- `seen` after the replica's own history was stored once again, where
it is in the set. -/
def restore (seen : SCSet AbortHistoryElement) (own : AbortHistory) : SCSet AbortHistoryElement :=
  own.foldl (fun seen e => if seen.has e then seen.store e else seen) seen

/-- The elements that were stored once: those the own history lacks. -/
def missing (seen : SCSet AbortHistoryElement) (own : AbortHistory) : AbortHistory :=
  ((restore seen own).elems.filter fun p => p.2 == 1).map Prod.fst

/-- The length of the longest history in the set, as `handle(Abort)`
computes it. -/
def maxSize : ℕ :=
  ((List.range n).filterMap aborts).foldl
    (fun m a => if m < a.rep.hist_size then a.rep.hist_size else m) 0

/-- The merged history `AH_2`. -/
def merged : AbortHistory := (ah2 (ah1From n t aborts (maxSize n aborts) 0)).1

/-- `process` at replica `id`: the merged history and what the replica
misses of it; `none` where the assertion that the replica's own abort is
in the set fails. -/
def process (id : ℕ) : Option (AbortHistory × AbortHistory) :=
  match aborts id with
  | none => none
  | some own =>
    let AH_2 := ah2 (ah1From n t aborts (maxSize n aborts) 0)
    some (AH_2.1, missing AH_2.2 own.history)

end Model

variable {n t : ℕ} {aborts : ℕ → Option Abort}

/-! ## The vote on one position -/

theorem length_reports_le (j : ℕ) : (reports n aborts j).length ≤ n := by
  have h := length_filterMap_le (fun i => (aborts i).bind fun a =>
    if a.rep.hist_size < j then none else some (a.elems j)) (List.range n)
  rwa [length_range] at h

theorem counts_reports (j : ℕ) :
    ((SCSet.empty n).storeAll (reports n aborts j)).Counts (reports n aborts j) :=
  (SCSet.Counts.empty n).storeAll (by simpa [SCSet.empty] using length_reports_le j)

/-- The replicas whose abort reports `e` at position `j`. -/
def reporters (n : ℕ) (aborts : ℕ → Option Abort) (j : ℕ) (e : AbortHistoryElement) : Finset ℕ :=
  (Finset.range n).filter fun i => ∃ a, aborts i = some a ∧ j ≤ a.rep.hist_size ∧ a.elems j = e

variable {j id : ℕ} {e : AbortHistoryElement}
variable {i k : ℕ} {st : AbortHistory × SCSet AbortHistoryElement}

theorem mem_reporters :
    i ∈ reporters n aborts j e ↔
      i < n ∧ ∃ a, aborts i = some a ∧ j ≤ a.rep.hist_size ∧ a.elems j = e := by
  simp [reporters]

/-- An element is counted once for each replica that reports it. -/
theorem count_reports (j : ℕ) (e : AbortHistoryElement) :
    (reports n aborts j).count e = (reporters n aborts j e).card := by
  unfold reports reporters
  rw [count_filterMap, countP_eq_length_filter]
  show _ = (List.filter _ (List.range n)).length
  refine congrArg List.length (filter_congr fun i _ => ?_)
  rw [Bool.eq_iff_iff]
  cases h : aborts i with
  | none => simp [h]
  | some a => simp [h]

/-- **A position more than `t` replicas agree on**, and for which no
other element has more than `t` reporters, is won. -/
theorem vote_eq_some (he : t < (reporters n aborts j e).card)
    (huniq : ∀ a, t < (reporters n aborts j a).card → a = e) : vote n t aborts j = some e := by
  refine SCSet.fetchMajority_eq_some (counts_reports j) ?_ (Nat.succ_pos t) fun a ha => huniq a ?_
  · rw [count_reports]; exact he
  · rw [count_reports] at ha; exact ha

/-- **Which element wins a position**: the one reported by the first
replica whose report more than `t` replicas share. -/
theorem vote_eq_some_iff :
    vote n t aborts j = some e ↔ ∃ i ∈ reporters n aborts j e,
      t < (reporters n aborts j e).card ∧
      ∀ i' < i, ∀ e', i' ∈ reporters n aborts j e' → (reporters n aborts j e').card ≤ t := by
  have hread : ∀ i e, ((aborts i).bind fun a =>
      if a.rep.hist_size < j then none else some (a.elems j)) = some e ↔
        ∃ a, aborts i = some a ∧ j ≤ a.rep.hist_size ∧ a.elems j = e := by
    intro i e
    simp [Option.bind_eq_some_iff]
  have hkeys : ((SCSet.empty n).storeAll (reports n aborts j)).elems.map Prod.fst =
      (reports n aborts j).eraseDups :=
    (SCSet.Counts.empty n).keys_storeAll rfl (by simpa [SCSet.empty] using length_reports_le j)
  unfold vote
  rw [SCSet.fetchMajority_eq_find? (counts_reports j) hkeys]
  simp only [count_reports]
  unfold reports
  rw [find?_filterMap, Option.bind_eq_some_iff]
  constructor
  · rintro ⟨i, hi, he⟩
    obtain ⟨hany, hin, hbefore⟩ := find?_range_eq_some.1 hi
    have hmem : i ∈ reporters n aborts j e :=
      mem_reporters.2 ⟨mem_range.1 hin, (hread i e).1 he⟩
    rw [he, Option.any_some, decide_eq_true_eq] at hany
    refine ⟨i, hmem, hany, fun i' hi' e' he' => ?_⟩
    have hnot := hbefore i' hi'
    rw [(hread i' e').2 (mem_reporters.1 he').2] at hnot
    simpa [Nat.lt_succ_iff] using hnot
  · rintro ⟨i, hi, hcard, hbefore⟩
    obtain ⟨hin, ha⟩ := mem_reporters.1 hi
    have he := (hread i e).2 ha
    refine ⟨i, find?_range_eq_some.2 ⟨?_, mem_range.2 hin, fun i' hi' => ?_⟩, he⟩
    · rw [he, Option.any_some, decide_eq_true_eq]
      exact hcard
    · cases hr : (aborts i').bind fun a =>
          if a.rep.hist_size < j then none else some (a.elems j) with
      | none => rfl
      | some e' =>
        have hle := hbefore i' hi' e' (mem_reporters.2 ⟨hi'.trans hin, (hread i' e').1 hr⟩)
        simpa [Nat.lt_succ_iff] using hle

/-- A position is won as soon as some element has more than `t`
reporters. -/
theorem exists_vote (he : t < (reporters n aborts j e).card) :
    ∃ e', vote n t aborts j = some e' := by
  classical
  have hex : ∃ i, ∃ e', i ∈ reporters n aborts j e' ∧ t < (reporters n aborts j e').card := by
    obtain ⟨i, hi⟩ := Finset.card_pos.1 (Nat.zero_lt_of_lt he)
    exact ⟨i, e, hi, he⟩
  obtain ⟨e', hmem, hcard⟩ := Nat.find_spec hex
  refine ⟨e', vote_eq_some_iff.2 ⟨_, hmem, hcard, fun i' hi' a ha => ?_⟩⟩
  have hnot := Nat.find_min hex hi'
  by_contra hlt
  exact hnot ⟨a, ha, by omega⟩

/-- What wins a position has more than `t` reporters there. -/
theorem lt_card_of_vote (h : vote n t aborts j = some e) : t < (reporters n aborts j e).card := by
  have hcount := SCSet.le_count_of_fetchMajority (counts_reports j) h
  rw [count_reports] at hcount
  exact hcount

/-! ## Phase 1 -/

variable {P l AH_2 : AbortHistory}

/-- Phase 1 starts with every run of positions that are won. -/
theorem prefix_ah1From (hk : P.length ≤ k)
    (hP : ∀ i e, P[i]? = some e → vote n t aborts (j + i) = some e) :
    P <+: ah1From n t aborts k j := by
  induction P generalizing k j with
  | nil => exact nil_prefix
  | cons e P ih =>
    obtain ⟨k, rfl⟩ : ∃ k', k = k' + 1 := ⟨k - 1, by rw [length_cons] at hk; omega⟩
    have h0 : vote n t aborts j = some e := hP 0 e rfl
    rw [ah1From, h0]
    refine cons_prefix_cons.2 ⟨rfl, ih (by simpa using hk) fun i e' he' => ?_⟩
    have := hP (i + 1) e' (by rw [getElem?_cons_succ]; exact he')
    rwa [Nat.add_right_comm, Nat.add_assoc]

/-! ## Phase 2 -/

/-- What phase 2 keeps: `AH_2` lists the set's elements, each once and
counted once, and the set has room for the `k` elements to come. -/
structure Seen (st : AbortHistory × SCSet AbortHistoryElement) (k : ℕ) : Prop where
  nodup : st.1.Nodup
  counts : st.2.Counts st.1
  room : st.2.elems.length + k ≤ st.2.max_size

theorem Seen.step (h : Seen st (k + 1)) (e : AbortHistoryElement) : Seen (ah2Step st e) k := by
  have hroom := h.room
  unfold ah2Step
  by_cases he : st.2.has e
  · rw [if_pos he]
    exact ⟨h.nodup, h.counts, by omega⟩
  · rw [if_neg he]
    have hnot : e ∉ st.1 := fun h' => he (SCSet.has_iff.2 (h.counts.mem_keys.2 h'))
    refine ⟨?_, h.counts.store (.inr (by omega)), ?_⟩
    · exact nodup_append.2 ⟨h.nodup, by simp, by rintro a ha b hb rfl; simp_all⟩
    · have hlen := @SCSet.length_store_le _ _ st.2 e
      show (st.2.store e).elems.length + k ≤ (st.2.store e).max_size
      rw [SCSet.max_size_store]
      omega

theorem Seen.foldl (h : Seen st l.length) : Seen (l.foldl ah2Step st) 0 := by
  induction l generalizing st with
  | nil => exact h
  | cons e l ih => exact ih (h.step e)

/-- After phase 2, whatever phase 1 found. -/
theorem seen_ah2 (l : AbortHistory) : Seen (ah2 l) 0 :=
  Seen.foldl ⟨nodup_nil, SCSet.Counts.empty _, by simp [SCSet.empty]⟩

/-- **`AH_2` is `AH_1`** with the first occurrence of each element kept. -/
theorem ah2_eq (l : AbortHistory) : (ah2 l).1 = l.eraseDups := by
  have hgen : ∀ (l l₀ : AbortHistory) st, Seen st l.length → st.1 = l₀.eraseDups →
      (l.foldl ah2Step st).1 = (l₀ ++ l).eraseDups := by
    intro l
    induction l with
    | nil => simp
    | cons e l ih =>
      intro l₀ st h hst
      have hmem : st.2.has e ↔ e ∈ l₀ := by
        rw [SCSet.has_iff, h.counts.mem_keys, hst, mem_eraseDups]
      have hstep : (ah2Step st e).1 = (l₀ ++ [e]).eraseDups := by
        rw [eraseDups_concat, ← hst]
        unfold ah2Step
        by_cases he : st.2.has e
        · rw [if_pos he, if_pos (hmem.1 he)]
        · rw [if_neg he, if_neg fun h' => he (hmem.2 h')]
      have hnext := ih (l₀ ++ [e]) _ (h.step e) hstep
      rwa [append_assoc] at hnext
  exact hgen l [] _ ⟨nodup_nil, SCSet.Counts.empty _, by simp [SCSet.empty]⟩ rfl

/-- Phase 2 keeps the elements of phase 1 and no others. -/
theorem mem_ah2 : e ∈ (ah2 l).1 ↔ e ∈ l := by
  rw [ah2_eq, mem_eraseDups]

/-- **A run of won positions without repetitions starts the merged
history.** -/
theorem prefix_ah2 (hP : P.Nodup) (h : P <+: l) : P <+: (ah2 l).1 := by
  obtain ⟨l', rfl⟩ := h
  rw [ah2_eq, eraseDups_append, eraseDups_eq_self hP]
  exact prefix_append ..

/-! ## The merged history -/

/-- The longest history is no shorter than any. -/
theorem hist_size_le_maxSize {a : Abort} (hi : i < n) (ha : aborts i = some a) :
    a.rep.hist_size ≤ maxSize n aborts := by
  have hgen : ∀ (l : List Abort) (m : ℕ),
      m ≤ l.foldl (fun m a => if m < a.rep.hist_size then a.rep.hist_size else m) m ∧
      ∀ a ∈ l, a.rep.hist_size ≤
        l.foldl (fun m a => if m < a.rep.hist_size then a.rep.hist_size else m) m := by
    intro l
    induction l with
    | nil => simp
    | cons b l ih =>
      intro m
      obtain ⟨hm, hl⟩ := ih (if m < b.rep.hist_size then b.rep.hist_size else m)
      refine ⟨?_, fun a ha => ?_⟩
      · refine le_trans ?_ hm
        split <;> omega
      · rcases mem_cons.1 ha with rfl | ha
        · refine le_trans ?_ hm
          split <;> omega
        · exact hl a ha
  exact (hgen _ 0).2 a (mem_filterMap.2 ⟨i, mem_range.2 hi, ha⟩)

section

variable (good bad : Finset ℕ)
  (hgood : ∀ i ∈ good, i < n ∧ ∃ a, aborts i = some a ∧ P.length ≤ a.rep.hist_size ∧
    ∀ j e, P[j]? = some e → a.elems j = e)
  (hcard : t < good.card) (hbad : ∀ i < n, (aborts i).isSome → i ∉ good → i ∈ bad)
  (hbadcard : bad.card ≤ t)

include hgood hcard hbad hbadcard

/-- What more than `t` aborts start with, phase 1 finds, if at most `t`
of the others are in the set. -/
theorem prefix_ah1 : P <+: ah1From n t aborts (maxSize n aborts) 0 := by
  refine prefix_ah1From ?_ fun j e he => ?_
  · obtain ⟨i, hi⟩ := Finset.card_pos.1 (Nat.zero_lt_of_lt hcard)
    obtain ⟨hin, a, ha, hlen, -⟩ := hgood i hi
    exact hlen.trans (hist_size_le_maxSize hin ha)
  · have hj : j < P.length := (List.getElem?_eq_some_iff.1 he).1
    rw [Nat.zero_add]
    have hreport : ∀ i ∈ good, i ∈ reporters n aborts j e := by
      intro i hi
      obtain ⟨hin, a, ha, hlen, helems⟩ := hgood i hi
      exact mem_reporters.2 ⟨hin, a, ha, by omega, helems j e he⟩
    refine vote_eq_some (lt_of_lt_of_le hcard (Finset.card_le_card hreport)) fun e' he' => ?_
    -- one of the reporters of `e'` is good
    obtain ⟨i, hi, hib⟩ := Quorum.exists_correct_of_card hbadcard he'
    obtain ⟨hin, a, ha, -, helem⟩ := mem_reporters.1 hi
    have hig : i ∈ good := by_contra fun hig => hib (hbad i hin (by rw [ha]; rfl) hig)
    obtain ⟨-, a', ha', -, helems⟩ := hgood i hig
    obtain rfl := Option.mem_unique ha ha'
    rw [← helem, helems j e he]

/-- **And the merged history starts with it.** -/
theorem prefix_merged (hP : P.Nodup) : P <+: merged n t aborts :=
  prefix_ah2 hP (prefix_ah1 good bad hgood hcard hbad hbadcard)

end

theorem eq_merged_of_process {missing : AbortHistory}
    (h : process n t aborts id = some (AH_2, missing)) : AH_2 = merged n t aborts := by
  unfold process at h
  split at h
  · cases h
  · exact (Prod.mk.inj (Option.some.inj h)).1.symm

/-- The assertion of `process` holds if it returns. -/
theorem isSome_own_of_process {out : AbortHistory × AbortHistory}
    (h : process n t aborts id = some out) : ∃ own, aborts id = some own := by
  unfold process at h
  split at h
  · cases h
  · next own hown => exact ⟨own, hown⟩

/-! ## The missing requests -/

/-- Storing the own history again counts the elements the set has. -/
theorem counts_restore {seen : SCSet AbortHistoryElement} (own : AbortHistory)
    (h : seen.Counts l) : (restore seen own).Counts (l ++ own.filter fun e => decide (e ∈ l)) := by
  unfold restore
  induction own generalizing seen l with
  | nil => simpa using h
  | cons e own ih =>
    rw [foldl_cons]
    by_cases he : e ∈ l
    · rw [if_pos (SCSet.has_iff.2 (h.mem_keys.2 he))]
      have hnext := ih (h.store (.inl he))
      have hmem : ∀ a, a ∈ l ++ [e] ↔ a ∈ l := fun a => by
        simp only [mem_append, mem_singleton]
        exact ⟨fun h' => h'.elim id fun h'' => h'' ▸ he, .inl⟩
      rw [filter_cons_of_pos (by simpa using he)]
      simpa [hmem] using hnext
    · rw [if_neg fun h' => he (h.mem_keys.1 (SCSet.has_iff.1 h')),
        filter_cons_of_neg (by simpa using he)]
      exact ih h

/-- **What a replica misses**: the elements of the merged history its own
abort does not list. -/
theorem mem_missing {own : AbortHistory} : e ∈ missing (ah2 l).2 own ↔ e ∈ (ah2 l).1 ∧ e ∉ own := by
  have hseen := seen_ah2 l
  have hcounts := counts_restore own hseen.counts
  have hone : ∀ a ∈ (ah2 l).1, (ah2 l).1.count a = 1 := fun a ha =>
    count_eq_one_of_mem hseen.nodup ha
  unfold missing
  rw [mem_map]
  constructor
  · rintro ⟨p, hp, rfl⟩
    rw [mem_filter] at hp
    obtain ⟨hcount, hmem⟩ := (hcounts.mem_iff p).1 hp.1
    have hp1 : p.2 = 1 := by simpa using hp.2
    have hin : p.1 ∈ (ah2 l).1 := by
      rcases mem_append.1 hmem with h | h
      · exact h
      · simpa using (mem_filter.1 h).2
    refine ⟨hin, fun hown => ?_⟩
    have hpos : 0 < (own.filter fun e => decide (e ∈ (ah2 l).1)).count p.1 :=
      count_pos_iff.2 (mem_filter.2 ⟨hown, by simpa using hin⟩)
    rw [count_append, hone p.1 hin] at hcount
    omega
  · rintro ⟨hin, hown⟩
    refine ⟨(e, 1), mem_filter.2 ⟨(hcounts.mem_iff _).2 ⟨?_, ?_⟩, rfl⟩, rfl⟩
    · have hzero : (own.filter fun e => decide (e ∈ (ah2 l).1)).count e = 0 :=
        count_eq_zero.2 fun h => hown (mem_filter.1 h).1
      rw [count_append, hone e hin, hzero]
    · exact mem_append_left _ hin

/-- What `process` finds missing is in the merged history. -/
theorem mem_merged_of_missing {missing : AbortHistory}
    (h : process n t aborts id = some (AH_2, missing)) (he : e ∈ missing) : e ∈ AH_2 := by
  unfold process at h
  split at h
  · cases h
  · obtain ⟨rfl, rfl⟩ := Prod.mk.inj (Option.some.inj h)
    exact (mem_missing.1 he).1

/-- What `process` does not find missing is in the own history. -/
theorem mem_own_of_process {missing : AbortHistory}
    (h : process n t aborts id = some (AH_2, missing)) (he : e ∈ AH_2)
    (hnot : e ∉ missing) : ∃ own ∈ aborts id, e ∈ own.history := by
  unfold process at h
  split at h
  · cases h
  next own hown =>
  obtain ⟨rfl, rfl⟩ := Prod.mk.inj (Option.some.inj h)
  refine ⟨own, hown, ?_⟩
  by_contra hlacks
  exact hnot (mem_missing.2 ⟨he, hlacks⟩)

/-- **The missing list is exact**: with the own abort in the set,
`process` returns a merged history without repetitions and lists what the
own history lacks of it, each element once. -/
theorem process_exact {id : ℕ} {own : Abort} (hown : aborts id = some own) :
    ∃ missing, process n t aborts id = some (merged n t aborts, missing) ∧
      (merged n t aborts).Nodup ∧ missing.Nodup ∧
      ∀ e, e ∈ missing ↔ e ∈ merged n t aborts ∧ e ∉ own.history := by
  have hseen := seen_ah2 (ah1From n t aborts (maxSize n aborts) 0)
  refine ⟨_, by rw [process, hown]; rfl, hseen.nodup, ?_, fun e => mem_missing⟩
  have hkeys := (counts_restore own.history hseen.counts).nodup
  exact hkeys.sublist (filter_sublist.map _)

/-- Two aborts; replica 1 lists one element twice. -/
def sampleAborts (i : ℕ) : Option Abort := some ⟨⟨i, 0, 0, 2⟩, fun j => ⟨max i j, 0, 0⟩, []⟩

theorem process_exact_sample :
    ∃ own missing, sampleAborts 1 = some own ∧
      process 2 0 sampleAborts 1 = some (merged 2 0 sampleAborts, missing) ∧
      (merged 2 0 sampleAborts).Nodup ∧ missing.Nodup ∧
      ∀ e, e ∈ missing ↔ e ∈ merged 2 0 sampleAborts ∧ e ∉ own.history := by
  obtain ⟨missing, h⟩ := @process_exact 2 0 sampleAborts 1 _ rfl
  exact ⟨_, missing, rfl, h⟩

end Smasher

end AbstractBFT
