import Mathlib.Data.Finset.Max
import Mathlib.Tactic.Common
/-!
# `K_max`

Each turn of the loop finds the next smaller value and counts it. The first
turn starts below every value, at -1, but the later ones start at 0: values
of -1, which callers use for silent replicas, are found by the first turn or
never. So the loop returns the `k`-th largest value if there are `k` values
from 0 on, or none at all, and otherwise it returns 0 or runs on
(`kMaxReturns_iff`).
-/

namespace AbstractBFT

open List

/-- `Seqno_max` and `View_max`. -/
def seqnoMax : ℤ := 9223372036854775807

/-- One turn of the loop: the largest value below `last_max`, and how often it
is there. -/
def kMaxPass (vector : List ℤ) (last_max cur_max : ℤ) : ℤ × ℕ :=
  vector.foldl
    (fun cur cv =>
      if cv = cur.1 then (cur.1, cur.2 + 1)
      else if cur.1 < cv ∧ cv < last_max then (cv, 1)
      else cur)
    (cur_max, 0)

/-- The loop of `K_max`, if it returns within so many turns. -/
def kMaxWithin (k : ℕ) (vector : List ℤ) : ℕ → ℤ → ℤ → ℕ → Option ℤ
  | 0, last_max, _, last_count => if last_count < k then none else some last_max
  | turns + 1, last_max, cur_max, last_count =>
    if last_count < k then
      let cur := kMaxPass vector last_max cur_max
      kMaxWithin k vector turns cur.1 0 (last_count + cur.2)
    else some last_max

/-- `K_max`, where `k + 1` turns are enough (`kMax_kth`). -/
def kMax (k : ℕ) (vector : List ℤ) (tmax : ℤ) : Option ℤ :=
  kMaxWithin k vector (k + 1) tmax (-1) 0

/-- `K_max` returns `r`. -/
def KMaxReturns (k : ℕ) (vector : List ℤ) (tmax r : ℤ) : Prop :=
  ∃ turns, kMaxWithin k vector turns tmax (-1) 0 = some r

/-- The number of values at or above `r`. -/
def atLeast (vector : List ℤ) (r : ℤ) : ℕ := vector.countP fun x => decide (r ≤ x)

/-- The `k`-th largest value, counted with multiplicity. -/
def KthLargest (k : ℕ) (vector : List ℤ) (r : ℤ) : Prop :=
  r ∈ vector ∧ (vector.countP fun x => decide (r < x)) < k ∧ k ≤ atLeast vector r
  deriving Decidable

/-! ## One turn -/

variable {vector : List ℤ} {last a m : ℤ}

/-- There is no value in between. -/
theorem kMaxPass_from {c : ℕ} (h : ∀ x ∈ vector, a < x → last ≤ x) :
    vector.foldl (fun cur cv => if cv = cur.1 then (cur.1, cur.2 + 1)
      else if cur.1 < cv ∧ cv < last then (cv, 1) else cur) (a, c) = (a, c + vector.count a) := by
  induction vector generalizing c with
  | nil => rfl
  | cons x l ih =>
    have hrest : ∀ y ∈ l, a < y → last ≤ y := fun y hy => h y (mem_cons_of_mem x hy)
    rw [foldl_cons]
    by_cases hx : x = a
    · rw [if_pos hx, ih hrest, hx, count_cons_self]
      simp only [Prod.mk.injEq, true_and]
      omega
    · have hout : ¬ (a < x ∧ x < last) := fun hin =>
        absurd (h x mem_cons_self hin.1) (not_le.2 hin.2)
      rw [if_neg hx, if_neg hout, ih hrest, count_cons_of_ne hx]

theorem kMaxPass_none (h : ∀ x ∈ vector, a < x → last ≤ x) :
    kMaxPass vector last a = (a, vector.count a) := by
  rw [kMaxPass, kMaxPass_from h, Nat.zero_add]

/-- The largest value below `last_max` is found. -/
theorem kMaxPass_some (hm : m ∈ vector) (ha : a < m) (hlast : m < last)
    (hmax : ∀ x ∈ vector, x < last → x ≤ m) : kMaxPass vector last a = (m, vector.count m) := by
  have hfold : ∀ (l : List ℤ) (a : ℤ) (c : ℕ), m ∈ l → a < m → (∀ x ∈ l, x < last → x ≤ m) →
      l.foldl (fun cur cv => if cv = cur.1 then (cur.1, cur.2 + 1)
        else if cur.1 < cv ∧ cv < last then (cv, 1) else cur) (a, c) = (m, l.count m) := by
    intro l
    induction l with
    | nil => exact fun a c hm => absurd hm not_mem_nil
    | cons x l ih =>
      intro a c hm ha hmax
      have hmax' : ∀ y ∈ l, y < last → y ≤ m := fun y hy => hmax y (mem_cons_of_mem x hy)
      rw [foldl_cons]
      by_cases hxm : x = m
      · -- from here on `m` is counted
        subst hxm
        rw [if_neg ha.ne', if_pos ⟨ha, hlast⟩, count_cons_self]
        have hnone := kMaxPass_from (c := 1) fun y hy hlt => not_lt.1 fun hy' =>
          absurd (hmax' y hy hy') (not_le.2 hlt)
        rw [hnone, Nat.add_comm]
      · have hm : m ∈ l := (mem_cons.1 hm).resolve_left (Ne.symm hxm)
        rw [count_cons_of_ne hxm]
        by_cases hxa : x = a
        · rw [if_pos hxa]
          exact ih a _ hm ha hmax'
        · rw [if_neg hxa]
          split
          · next hin =>
            have hlt : x < m := lt_of_le_of_ne (hmax x mem_cons_self hin.2) hxm
            exact ih x 1 hm hlt hmax'
          · exact ih a c hm ha hmax'
  exact hfold vector a 0 hm ha hmax

/-- If there is a value to be found, the turn finds the largest. -/
theorem kMaxPass_next (h : ∃ x ∈ vector, a ≤ x ∧ x < last) :
    ∃ m ∈ vector, a ≤ m ∧ m < last ∧ (∀ x ∈ vector, x < last → x ≤ m) ∧
      kMaxPass vector last a = (m, vector.count m) := by
  obtain ⟨x, hx, hax, hxlast⟩ := h
  obtain ⟨m, hm, hmax⟩ := (vector.toFinset.filter (· < last)).exists_max_image id
    ⟨x, Finset.mem_filter.2 ⟨mem_toFinset.2 hx, hxlast⟩⟩
  obtain ⟨hm, hmlast⟩ := Finset.mem_filter.1 hm
  have hm := mem_toFinset.1 hm
  have hmax : ∀ y ∈ vector, y < last → y ≤ m := fun y hy hlt =>
    hmax y (Finset.mem_filter.2 ⟨mem_toFinset.2 hy, hlt⟩)
  have ham : a ≤ m := hax.trans (hmax x hx hxlast)
  refine ⟨m, hm, ham, hmlast, hmax, ?_⟩
  rcases ham.lt_or_eq with hlt | rfl
  · exact kMaxPass_some hm hlt hmlast hmax
  · exact kMaxPass_none fun y hy hlt => not_lt.1 fun hy' => absurd (hmax y hy hy') (not_le.2 hlt)

theorem le_kMaxPass (vector : List ℤ) (last a : ℤ) : a ≤ (kMaxPass vector last a).1 := by
  by_cases h : ∃ x ∈ vector, a ≤ x ∧ x < last
  · obtain ⟨m, -, ham, -, -, heq⟩ := kMaxPass_next h
    rw [heq]
    exact ham
  · have hnone : ∀ x ∈ vector, a < x → last ≤ x := fun x hx hlt =>
      not_lt.1 fun hx' => h ⟨x, hx, hlt.le, hx'⟩
    rw [kMaxPass_none hnone]

/-! ## The loop -/

/-- The values counted after a turn. -/
theorem atLeast_next (hlast : m < last) (hmax : ∀ x ∈ vector, x < last → x ≤ m) :
    atLeast vector m = atLeast vector last + vector.count m ∧
      (vector.countP fun x => decide (m < x)) = atLeast vector last := by
  induction vector with
  | nil => exact ⟨rfl, rfl⟩
  | cons x l ih =>
    obtain ⟨hle, hlt⟩ := ih fun y hy => hmax y (mem_cons_of_mem x hy)
    have hx := hmax x mem_cons_self
    unfold atLeast at hle hlt ⊢
    simp only [countP_cons, count_cons, decide_eq_true_eq, beq_iff_eq]
    rcases lt_trichotomy x m with h | h | h
    · rw [if_neg (by omega), if_neg (by omega), if_neg (by omega), if_neg (by omega)]
      omega
    · rw [if_pos (by omega), if_neg (by omega), if_pos h, if_neg (by omega)]
      omega
    · rw [if_pos (by omega), if_pos (by omega), if_neg (by omega), if_pos h]
      omega

variable {k : ℕ}
variable {count : ℕ} {r tmax : ℤ}

theorem kMaxWithin_later (d : ℕ) {last : ℤ} (hmem : last ∈ vector)
    (hcount : count = atLeast vector last) (habove : (vector.countP fun x => decide (last < x)) < k)
    (hturns : k ≤ count + d) (hk : k ≤ atLeast vector 0 ∨ k ≤ count) :
    ∃ r, kMaxWithin k vector d last 0 count = some r ∧ KthLargest k vector r := by
  induction d generalizing last count with
  | zero =>
    refine ⟨last, ?_, hmem, habove, hcount ▸ hturns⟩
    rw [kMaxWithin, if_neg (by omega)]
  | succ d ih =>
    rw [kMaxWithin]
    by_cases hlt : count < k
    swap
    · exact ⟨last, if_neg hlt, hmem, habove, hcount ▸ not_lt.1 hlt⟩
    rw [if_pos hlt]
    have hzero : k ≤ atLeast vector 0 := hk.resolve_right (by omega)
    -- the values from 0 on were not all counted
    have hex : ∃ x ∈ vector, 0 ≤ x ∧ x < last := by
      by_contra hnone
      have hle : atLeast vector 0 ≤ atLeast vector last := by
        refine countP_mono_left fun x hx hpos => decide_eq_true (not_lt.1 fun hx' => ?_)
        exact hnone ⟨x, hx, of_decide_eq_true hpos, hx'⟩
      omega
    obtain ⟨m, hm, -, hml, hmax, hpass⟩ := kMaxPass_next hex
    obtain ⟨hge, hgt⟩ := atLeast_next hml hmax
    rw [hpass]
    have hpos : 0 < vector.count m := count_pos_iff.2 hm
    dsimp only
    exact ih hm (by omega) (by omega) (by omega) (.inl hzero)

theorem nonneg_of_kMaxWithin (turns : ℕ) {last : ℤ} (ha : 0 ≤ last)
    (h : kMaxWithin k vector turns last 0 count = some r) : 0 ≤ r := by
  induction turns generalizing last count with
  | zero =>
    rw [kMaxWithin] at h
    split at h
    · cases h
    · exact Option.some.inj h ▸ ha
  | succ turns ih =>
    rw [kMaxWithin] at h
    split at h
    · exact ih (le_kMaxPass vector last 0) h
    · exact Option.some.inj h ▸ ha

/-- With enough values from 0 on, or none, the loop returns the `k`-th
largest. -/
theorem kMax_kth (hrange : ∀ x ∈ vector, -1 ≤ x ∧ x < tmax) (hpos : 1 ≤ k)
    (hlen : k ≤ vector.length) (hk : k ≤ atLeast vector 0 ∨ ∀ x ∈ vector, x = -1) :
    ∃ r, kMax k vector tmax = some r ∧ KthLargest k vector r := by
  have hex : ∃ x ∈ vector, -1 ≤ x ∧ x < tmax := by
    obtain ⟨x, hx⟩ := exists_mem_of_length_pos (show 0 < vector.length by omega)
    exact ⟨x, hx, hrange x hx⟩
  obtain ⟨m, hm, -, hml, hmax, hpass⟩ := kMaxPass_next hex
  obtain ⟨hge, hgt⟩ := atLeast_next hml hmax
  have hnone : atLeast vector tmax = 0 :=
    countP_eq_zero.2 fun x hx => by simpa using (hrange x hx).2
  have hk : k ≤ atLeast vector 0 ∨ k ≤ vector.count m := by
    refine hk.imp_right fun hall => ?_
    have hm' := hall m hm
    rw [count_eq_length.2 fun x hx => hm'.trans (hall x hx).symm]
    exact hlen
  have hcount' : 0 + vector.count m = atLeast vector m := by omega
  obtain ⟨r, hr, hkth⟩ := kMaxWithin_later (k := k) k hm hcount' (by omega) (by omega)
    (hk.imp_right fun h => by omega)
  refine ⟨r, ?_, hkth⟩
  rw [kMax, kMaxWithin, if_pos (by omega)]
  rw [hpass]
  exact hr

/-- If there are fewer values from 0 on, whatever the loop returns is at
least 0. -/
theorem nonneg_of_kMaxReturns {x : ℤ} (hrange : ∀ x ∈ vector, -1 ≤ x ∧ x < tmax) (hpos : 1 ≤ k)
    (hx : x ∈ vector) (hx0 : 0 ≤ x) (h : KMaxReturns k vector tmax r) : 0 ≤ r := by
  obtain ⟨turns, h⟩ := h
  cases turns with
  | zero =>
    rw [kMaxWithin, if_pos (by omega)] at h
    cases h
  | succ turns =>
    rw [kMaxWithin, if_pos (by omega)] at h
    obtain ⟨m, -, -, -, hmax, hpass⟩ := kMaxPass_next ⟨x, hx, hrange x hx⟩
    rw [hpass] at h
    exact nonneg_of_kMaxWithin turns (hx0.trans (hmax x hx (hrange x hx).2)) h

theorem atLeast_anti {r' : ℤ} (h : r ≤ r') : atLeast vector r' ≤ atLeast vector r :=
  countP_mono_left fun _ _ hx => decide_eq_true (h.trans (of_decide_eq_true hx))

/-- A value that is reached `k` times is returned under the same
condition. -/
theorem kMaxReturns_iff (hrange : ∀ x ∈ vector, -1 ≤ x ∧ x < tmax) (hpos : 1 ≤ k)
    (hlen : k ≤ vector.length) :
    (∃ r, KMaxReturns k vector tmax r ∧ k ≤ atLeast vector r) ↔
      k ≤ atLeast vector 0 ∨ ∀ x ∈ vector, x = -1 := by
  constructor
  · rintro ⟨r, hret, hr⟩
    by_contra hnot
    obtain ⟨hfew, hsome⟩ := not_or.1 hnot
    simp only [not_forall] at hsome
    obtain ⟨x, hx, hne⟩ := hsome
    have hr0 := nonneg_of_kMaxReturns hrange hpos hx (by have := (hrange x hx).1; omega) hret
    exact hfew (hr.trans (atLeast_anti hr0))
  · intro hk
    obtain ⟨r, hret, -, -, hr⟩ := kMax_kth hrange hpos hlen hk
    exact ⟨r, ⟨k + 1, hret⟩, hr⟩

end AbstractBFT
