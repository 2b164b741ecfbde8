import AbstractBFT.Common.Smasher
import Mathlib.Tactic.IntervalCases
/-!
# What the merged history should be

The smasher is meant to find the longest history such that the element
at each position is listed there by `t + 1` of the aborts, and to keep
the first occurrence of what comes twice. `process` skips an abort at
position `j` if `hist_size() < j`, so an abort of exactly `j` entries is
still read, past its end: what it *reports* at `j` is not what it
*lists* there. `mergesLongest_iff` says for which aborts the merged
history is the intended one in spite of this.
-/

namespace AbstractBFT.Smasher

open Finset

/-- The replicas whose abort lists `e` at position `j`: its history has
more than `j` entries. -/
def listers (n : ℕ) (aborts : ℕ → Option Abort) (j : ℕ) (e : AbortHistoryElement) : Finset ℕ :=
  (Finset.range n).filter fun i => ∃ a, aborts i = some a ∧ j < a.rep.hist_size ∧ a.elems j = e

section Spec

variable (n t : ℕ) (aborts : ℕ → Option Abort)

/-- The element at each position is listed there by more than `t` of the
aborts. -/
def Supported (H : AbortHistory) : Prop :=
  ∀ j e, H[j]? = some e → t < (listers n aborts j e).card

/-- There is no longer such history. -/
def Longest (H : AbortHistory) : Prop :=
  Supported n t aborts H ∧ ∀ H', Supported n t aborts H' → H'.length ≤ H.length

/-- Every abort of a replica that is not faulty starts with `P`. -/
def Common (faulty : Finset ℕ) (P : AbortHistory) : Prop :=
  ∀ i < n, i ∉ faulty → ∀ a, aborts i = some a →
    P.length ≤ a.rep.hist_size ∧ ∀ j e, P[j]? = some e → a.elems j = e

/-- What the merge is for: phase 1 finds a longest history, phase 2 keeps
first occurrences; what is found was listed by a correct replica, and
what the correct replicas have in common is kept. -/
structure MergesLongest (faulty : Finset ℕ) : Prop where
  longest : Longest n t aborts (ah1From n t aborts (maxSize n aborts) 0)
  first : merged n t aborts = (ah1From n t aborts (maxSize n aborts) 0).eraseDups
  correct : ∀ j e, (ah1From n t aborts (maxSize n aborts) 0)[j]? = some e →
    ∃ i ∈ listers n aborts j e, i ∉ faulty
  complete : ∀ P, Common n aborts faulty P → ∀ e ∈ P, e ∈ merged n t aborts

/-- At each position that is reached, the report of the first replica
whose report more than `t` replicas share is an element more than `t` of
them list there. -/
def OnlyListed : Prop :=
  ∀ j, (∃ i < n, ∃ a, aborts i = some a ∧ j < a.rep.hist_size) →
    (∀ k < j, ∃ e, t < (reporters n aborts k e).card) →
    ∀ i e, i ∈ reporters n aborts j e → t < (reporters n aborts j e).card →
      (∀ i' < i, ∀ e', i' ∈ reporters n aborts j e' → (reporters n aborts j e').card ≤ t) →
      t < (listers n aborts j e).card

end Spec

variable {n t : ℕ} {aborts : ℕ → Option Abort}
variable {i j : ℕ} {e : AbortHistoryElement} {faulty : Finset ℕ}

theorem mem_listers :
    i ∈ listers n aborts j e ↔
      i < n ∧ ∃ a, aborts i = some a ∧ j < a.rep.hist_size ∧ a.elems j = e := by
  simp [listers]

/-- What an abort lists it also reports. -/
theorem listers_subset_reporters (j : ℕ) (e : AbortHistoryElement) :
    listers n aborts j e ⊆ reporters n aborts j e := by
  intro i hi
  obtain ⟨hin, a, ha, hlt, helem⟩ := mem_listers.1 hi
  exact mem_reporters.2 ⟨hin, a, ha, hlt.le, helem⟩

/-! ## Phase 1 -/

/-- What phase 1 finds at a position: the winner, if every position
before was won. -/
theorem getElem?_ah1From {k : ℕ} :
    (ah1From n t aborts k j)[i]? = some e ↔
      i < k ∧ vote n t aborts (j + i) = some e ∧ ∀ i' < i, ∃ e', vote n t aborts (j + i') = some e' := by
  induction k generalizing j i with
  | zero => simp [ah1From]
  | succ k ih =>
    rw [ah1From]
    cases hv : vote n t aborts j with
    | none =>
      constructor
      · intro h
        simp at h
      · rintro ⟨-, he, hbefore⟩
        cases i with
        | zero =>
          rw [Nat.add_zero, hv] at he
          cases he
        | succ i =>
          obtain ⟨e', he'⟩ := hbefore 0 (Nat.succ_pos i)
          rw [Nat.add_zero, hv] at he'
          cases he'
    | some e₀ =>
      cases i with
      | zero => simp [hv]
      | succ i =>
        have hshift : ∀ i', j + 1 + i' = j + (i' + 1) := fun i' => by omega
        rw [List.getElem?_cons_succ, ih]
        simp only [hshift]
        constructor
        · rintro ⟨hi, he, hbefore⟩
          refine ⟨by omega, he, fun i' hi' => ?_⟩
          cases i' with
          | zero => exact ⟨e₀, hv⟩
          | succ i' => exact hbefore i' (by omega)
        · rintro ⟨hi, he, hbefore⟩
          exact ⟨by omega, he, fun i' hi' => hbefore (i' + 1) (by omega)⟩

/-- The loop runs over the positions some abort lists. -/
theorem lt_maxSize_iff :
    j < maxSize n aborts ↔ ∃ i < n, ∃ a, aborts i = some a ∧ j < a.rep.hist_size := by
  have hgen : ∀ (l : List Abort) (m : ℕ),
      j < l.foldl (fun m a => if m < a.rep.hist_size then a.rep.hist_size else m) m →
        j < m ∨ ∃ a ∈ l, j < a.rep.hist_size := by
    intro l
    induction l with
    | nil => exact fun m h => .inl h
    | cons b l ih =>
      intro m h
      rw [List.foldl_cons] at h
      rcases ih _ h with h | ⟨a, ha, hlt⟩
      · split at h
        · exact .inr ⟨b, by simp, h⟩
        · exact .inl h
      · exact .inr ⟨a, List.mem_cons_of_mem _ ha, hlt⟩
  constructor
  · intro h
    rcases hgen _ 0 h with h | ⟨a, ha, hlt⟩
    · omega
    · obtain ⟨i, hi, hia⟩ := List.mem_filterMap.1 ha
      exact ⟨i, List.mem_range.1 hi, a, hia, hlt⟩
  · rintro ⟨i, hi, a, ha, hlt⟩
    exact hlt.trans_le (hist_size_le_maxSize hi ha)

/-- **No supported history is longer than what phase 1 finds**, whatever
is read past the end of the others. -/
theorem length_le_of_supported {H : AbortHistory} (hH : Supported n t aborts H) :
    H.length ≤ (ah1From n t aborts (maxSize n aborts) 0).length := by
  -- the first position phase 1 does not reach would have been won
  by_contra hlt
  have hm : (ah1From n t aborts (maxSize n aborts) 0).length < H.length := by omega
  generalize hlen : (ah1From n t aborts (maxSize n aborts) 0).length = m at hm
  have hlisted : t < (listers n aborts m (H[m])).card := hH m _ (List.getElem?_eq_getElem hm)
  obtain ⟨i, hi⟩ := card_pos.1 (Nat.zero_lt_of_lt hlisted)
  obtain ⟨hin, a, ha, hma, -⟩ := mem_listers.1 hi
  obtain ⟨e', he'⟩ :=
    exists_vote (hlisted.trans_le (card_le_card (listers_subset_reporters m _)))
  have hfound : (ah1From n t aborts (maxSize n aborts) 0)[m]? = some e' := by
    refine getElem?_ah1From.2 ⟨lt_maxSize_iff.2 ⟨i, hin, a, ha, hma⟩, ?_, fun k hk => ?_⟩
    · rwa [Nat.zero_add]
    · have hk' : k < (ah1From n t aborts (maxSize n aborts) 0).length := by omega
      exact ⟨_, (getElem?_ah1From.1 (List.getElem?_eq_getElem hk')).2.1⟩
  have := (List.getElem?_eq_some_iff.1 hfound).1
  omega

/-- **Phase 1 finds a longest history exactly if reports decide no
position differently from what is listed.** -/
theorem longest_iff :
    Longest n t aborts (ah1From n t aborts (maxSize n aborts) 0) ↔ OnlyListed n t aborts := by
  constructor
  · rintro ⟨hsup, -⟩ j hj hbefore i e hi hcard hfirst
    refine hsup j e (getElem?_ah1From.2 ⟨lt_maxSize_iff.2 hj, ?_, fun k hk => ?_⟩)
    · rw [Nat.zero_add]
      exact vote_eq_some_iff.2 ⟨i, hi, hcard, hfirst⟩
    · obtain ⟨e', he'⟩ := hbefore k hk
      rw [Nat.zero_add]
      exact exists_vote he'
  · intro h
    refine ⟨fun j e he => ?_, fun H hH => length_le_of_supported hH⟩
    obtain ⟨hj, hvote, hbefore⟩ := getElem?_ah1From.1 he
    rw [Nat.zero_add] at hvote
    obtain ⟨i, hi, hcard, hfirst⟩ := vote_eq_some_iff.1 hvote
    refine h j (lt_maxSize_iff.1 hj) (fun k hk => ?_) i e hi hcard hfirst
    obtain ⟨e', he'⟩ := hbefore k hk
    rw [Nat.zero_add] at he'
    exact ⟨e', lt_card_of_vote he'⟩

/-! ## The merged history -/

/-- **What the correct replicas have in common is kept.** -/
theorem mem_merged_of_common {f : ℕ} (hf : faulty.card ≤ f)
    (hcount : 2 * f + 1 ≤ ((Finset.range n).filter fun i => (aborts i).isSome).card)
    {P : AbortHistory} (hP : Common n aborts faulty P) (he : e ∈ P) : e ∈ merged n f aborts := by
  refine mem_ah2.2 (List.IsPrefix.mem he (prefix_ah1
    (((Finset.range n).filter fun i => (aborts i).isSome) \ faulty) faulty
    (fun i hi => ?_) ?_ (fun i hi ha hnot => ?_) hf))
  · rw [mem_sdiff, mem_filter, mem_range] at hi
    obtain ⟨⟨hin, hsome⟩, hcorrect⟩ := hi
    obtain ⟨a, ha⟩ := Option.isSome_iff_exists.1 hsome
    exact ⟨hin, a, ha, hP i hin hcorrect a ha⟩
  · have := le_card_sdiff faulty ((Finset.range n).filter fun i => (aborts i).isSome)
    omega
  · by_contra hcorrect
    exact hnot (mem_sdiff.2
      ⟨mem_filter.2 ⟨mem_range.2 hi, ha⟩, hcorrect⟩)

/-- **The merge is the intended one exactly if** no element reported past
the end of an abort decides a position. -/
theorem mergesLongest_iff (f : ℕ) (aborts : ℕ → Option Abort) (faulty : Finset ℕ)
    (hf : faulty.card ≤ f)
    (hcount : 2 * f + 1 ≤ ((Finset.range (3 * f + 1)).filter fun i => (aborts i).isSome).card) :
    MergesLongest (3 * f + 1) f aborts faulty ↔ OnlyListed (3 * f + 1) f aborts := by
  constructor
  · exact fun h => longest_iff.1 h.longest
  · intro h
    have hlongest := longest_iff.2 h
    exact
      { longest := hlongest
        first := ah2_eq _
        correct := fun j e he => Quorum.exists_correct_of_card hf (hlongest.1 j e he)
        complete := fun P hP e he => mem_merged_of_common hf hcount hP he }

/-- An abort that lists `l`, with `past` in the first bytes of its
signature. -/
def listing (i : ℕ) (l : AbortHistory) (past : AbortHistoryElement) : Abort where
  rep := ⟨i, 0, 0, l.length⟩
  elems j := l.getD j past
  sig := past.bytes

/-- Three of four replicas' aborts, the third with the shorter history
`[x]`. -/
def shorterThird (x y past : AbortHistoryElement) : ℕ → Option Abort
  | 0 => some (listing 0 [x, y] past)
  | 1 => some (listing 1 [x, y] past)
  | 2 => some (listing 2 [x] past)
  | _ => none

theorem mergesLongest_shorterThird :
    (∅ : Finset ℕ).card ≤ 1 ∧ MergesLongest 4 1 (shorterThird ⟨7, 1, 1⟩ ⟨8, 1, 2⟩ ⟨0, 0, 3⟩) ∅ := by
  refine ⟨by decide, (mergesLongest_iff 1 _ ∅ (by decide) (by decide)).2 ?_⟩
  rintro j hj - i e hi hcard -
  have hj2 : j < 2 := lt_maxSize_iff.2 hj
  obtain ⟨hin, a, ha, -, rfl⟩ := mem_reporters.1 hi
  -- what only the third replica reports is not shared
  interval_cases j <;> interval_cases i <;> cases ha <;>
    first | decide | exact absurd hcard (by decide)

/-- The aborts of replicas 0, 1 and 2 of four; the faulty replica 0 lists
what is found in the signature of replica 1, behind its history. -/
def copiedSignature (x past : AbortHistoryElement) : ℕ → Option Abort
  | 0 => some (listing 0 [x, past] past)
  | 1 => some (listing 1 [x] past)
  | 2 => some (listing 2 [x] ⟨0, 0, 4⟩)
  | _ => none

/-- A single replica's element gets into the merged history: a second
abort is read past its end. -/
theorem merged_copiedSignature :
    (({0} : Finset ℕ).card ≤ 1 ∧
      2 * 1 + 1 ≤ ((Finset.range 4).filter fun i =>
        (copiedSignature ⟨7, 1, 1⟩ ⟨9, 1, 3⟩ i).isSome).card) ∧
    merged 4 1 (copiedSignature ⟨7, 1, 1⟩ ⟨9, 1, 3⟩) = [⟨7, 1, 1⟩, ⟨9, 1, 3⟩] ∧
    listers 4 (copiedSignature ⟨7, 1, 1⟩ ⟨9, 1, 3⟩) 1 ⟨9, 1, 3⟩ = {0} ∧
    ¬ MergesLongest 4 1 (copiedSignature ⟨7, 1, 1⟩ ⟨9, 1, 3⟩) {0} := by
  refine ⟨by decide, by decide, by decide, fun h => ?_⟩
  exact absurd (h.longest.1 1 ⟨9, 1, 3⟩ (by decide)) (by decide)

end AbstractBFT.Smasher
