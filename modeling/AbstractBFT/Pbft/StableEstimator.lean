import AbstractBFT.Common.KMax
import AbstractBFT.Pbft.BigRequests
import AbstractBFT.Pbft.State
/-!
# PBFT — estimating the stable checkpoint

A recovering replica asks the others for their last checkpoint and their
last prepared number, and `PBFT_R_Stable_estimator` counts the answers. For
each replica `lec` is to be the number of replicas with a checkpoint at or
below its own, and `gep` of those that prepared its checkpoint. Three slips
break the counts. A message that reports no lower checkpoint than before is
counted again. The test `lc <= v.lp` raises `v.gep` where `val.gep` is
meant. And the numbers are read into an `int`.

`lec` is right as long as each message lowers its replica's checkpoint, and
then `gep` does not matter if every reported checkpoint is at or below every
reported prepared number (`Improves`, `estimate_supported`).
-/

namespace AbstractBFT.Pbft

open Machine Function List

/-- `const int x = ...` from a `Seqno`. -/
def toInt (x : ℤ) : ℤ := x.bmod (2 ^ 32)

/-- `PBFT_R_Reply_stable`. `sized` says that there is room for the MAC, and
`auth` that it verifies. -/
structure ReplyStable where
  id : ℕ
  lc : ℤ
  lp : ℤ
  sized : Bool
  auth : Bool
  deriving DecidableEq

/-- `verify`. -/
def ReplyStable.verify (N : Node) (m : ReplyStable) : Bool :=
  N.isReplica m.id && decide (m.lc % checkpointInterval = 0 ∧ m.lc ≤ m.lp) && m.sized && m.auth

/-- `Val`. -/
structure StableVal where
  lc : ℤ
  lec : ℕ
  gep : ℕ
  lp : ℤ

/-- `PBFT_R_Stable_estimator`. -/
structure StableEstimator where
  vals : ℕ → StableVal
  est : ℤ

/-- What a message of another replica adds to an entry, where `oc` and `op`
are what that replica reported before. -/
def StableVal.bump (lc lp oc op : ℤ) (v : StableVal) : StableVal :=
  { v with
    lec := v.lec + if v.lc < oc ∧ lc ≤ v.lc then 1 else 0
    gep := v.gep + (if op < v.lc ∧ v.lc ≤ lp then 1 else 0) + if lc ≤ v.lp then 1 else 0 }

namespace StableEstimator

/-- `PBFT_R_Stable_estimator()`. -/
def init : StableEstimator := ⟨fun _ => ⟨seqnoMax, 0, 0, -1⟩, -1⟩

/-- A round of the loop of `add`, for replica `i` and a message of `id`. -/
def visit (id : ℕ) (lc lp oc op : ℤ) (e : StableEstimator) (i : ℕ) : StableEstimator :=
  let v := (e.vals i).bump lc lp oc op
  let e := { e with vals := update e.vals i v }
  if v.lc ≤ lc then
    { e with vals := update e.vals id { e.vals id with lec := (e.vals id).lec + 1 } }
  else e

/-- The loop of `add` over the other replicas. -/
def scan (N : Node) (id : ℕ) (lc lp oc op : ℤ) : List ℕ → StableEstimator → StableEstimator
  | [], e => e
  | i :: is, e =>
    if i = id then scan N id lc lp oc op is e
    else
      let e := visit id lc lp oc op e i
      let v := e.vals i
      if 2 * N.f + 1 ≤ v.lec ∧ N.f + 1 ≤ v.gep then { e with est := v.lc }
      else scan N id lc lp oc op is e

/-- `add`, and what it returns. -/
def add (N : Node) (e : StableEstimator) (m : ReplyStable) (mine : Bool) : StableEstimator × Bool :=
  if mine || m.verify N then
    let lc := toInt m.lc
    let lp := toInt m.lp
    let val := e.vals m.id
    let oc := if lc < val.lc then val.lc else seqnoMax
    let op := if val.lp < lp then val.lp else -1
    let val := if lc < val.lc then { val with lc := lc, lec := 1, gep := 1 } else val
    let val := if val.lp < lp then { val with lp := lp } else val
    let e := { e with vals := update e.vals m.id val }
    let e := scan N m.id lc lp oc op (List.range N.n) e
    let val := e.vals m.id
    let e :=
      if e.est < 0 ∧ 2 * N.f + 1 ≤ val.lec ∧ N.f + 1 ≤ val.gep then { e with est := val.lc } else e
    (e, decide (0 ≤ e.est))
  else (e, decide (0 ≤ e.est))

/-- The numbers `low_estimate` gives to `K_max`. -/
def lps (N : Node) (e : StableEstimator) : List ℤ := (List.range N.n).map fun i => (e.vals i).lp

/-- `low_estimate` returns `r`, derived from the number `mlp` that `K_max`
returns. -/
def LowEstimates (N : Node) (e : StableEstimator) (mlp r : ℤ) : Prop :=
  KMaxReturns (N.f + 1) (e.lps N) seqnoMax mlp ∧
    r = (mlp - maxOut + checkpointInterval - 2).tdiv checkpointInterval * checkpointInterval

/-! ## The low estimate -/

end StableEstimator

/-- **`K_max` finds the `k`-th largest value** if and only if there are `k`
values from 0 on or all are -1; and the number `low_estimate` is derived
from was reached by `f+1` replicas under the same condition. -/
theorem kMax_correct_iff (N : Node) (e : StableEstimator) (vector : List ℤ) (tmax : ℤ) (k : ℕ)
    (hrange : ∀ x ∈ vector, -1 ≤ x ∧ x < tmax) (hpos : 1 ≤ k) (hlen : k ≤ vector.length)
    (hlps : ∀ i < N.n, -1 ≤ (e.vals i).lp ∧ (e.vals i).lp < seqnoMax) :
    ((∃ r, KMaxReturns k vector tmax r ∧ KthLargest k vector r) ↔
      k ≤ atLeast vector 0 ∨ ∀ x ∈ vector, x = -1) ∧
    ((∃ mlp r, e.LowEstimates N mlp r ∧ N.f + 1 ≤ atLeast (e.lps N) mlp) ↔
      N.f + 1 ≤ atLeast (e.lps N) 0 ∨ ∀ i < N.n, (e.vals i).lp = -1) := by
  constructor
  · constructor
    · rintro ⟨r, hret, -, -, hr⟩
      exact (kMaxReturns_iff hrange hpos hlen).1 ⟨r, hret, hr⟩
    · intro hk
      obtain ⟨r, hret, hkth⟩ := kMax_kth hrange hpos hlen hk
      exact ⟨r, ⟨k + 1, hret⟩, hkth⟩
  · have hvec : ∀ x ∈ e.lps N, -1 ≤ x ∧ x < seqnoMax := by
      intro x hx
      obtain ⟨i, hi, rfl⟩ := mem_map.1 hx
      exact hlps i (mem_range.1 hi)
    have hlen : N.f + 1 ≤ (e.lps N).length := by
      rw [StableEstimator.lps, length_map, length_range, Node.n]
      omega
    have hsilent : (∀ x ∈ e.lps N, x = -1) ↔ ∀ i < N.n, (e.vals i).lp = -1 := by
      simp only [StableEstimator.lps, forall_mem_map, mem_range]
    rw [← hsilent, ← kMaxReturns_iff hvec (Nat.succ_pos _) hlen]
    constructor
    · rintro ⟨mlp, r, ⟨hret, -⟩, hmlp⟩
      exact ⟨mlp, hret, hmlp⟩
    · rintro ⟨mlp, hret, hmlp⟩
      exact ⟨mlp, _, ⟨hret, rfl⟩, hmlp⟩

/-- Two replicas of four have prepared batch 5, and the others are silent. -/
def twoReports : StableEstimator :=
  ⟨fun i => if i < 2 then ⟨0, 1, 1, 5⟩ else ⟨seqnoMax, 0, 0, -1⟩, -1⟩

/-- Three values, two of them from 0 on, and the two reports. -/
theorem kMax_correct_two :
    (∃ r, KMaxReturns 2 [7, -1, 3] seqnoMax r ∧ KthLargest 2 [7, -1, 3] r) ∧
    ∃ mlp r, twoReports.LowEstimates ⟨1, 1, 5, fun _ => 0, false⟩ mlp r ∧
      2 ≤ atLeast (twoReports.lps ⟨1, 1, 5, fun _ => 0, false⟩) mlp := by
  obtain ⟨hmax, hlow⟩ := kMax_correct_iff ⟨1, 1, 5, fun _ => 0, false⟩ twoReports [7, -1, 3]
    seqnoMax 2 (by decide) (by decide) (by decide) (by decide)
  exact ⟨hmax.2 (.inl (by decide)), hlow.2 (.inl (by decide))⟩

/-- One replica of four has prepared batch 5, and the others are silent. -/
def oneReport : StableEstimator :=
  ⟨fun i => if i = 0 then ⟨0, 1, 1, 5⟩ else ⟨seqnoMax, 0, 0, -1⟩, -1⟩

/-- The third turn on such values is that of all later ones. -/
theorem kMaxWithin_stuck (turns : ℕ) : kMaxWithin 2 [5, -1, -1, -1] turns 0 0 1 = none := by
  induction turns with
  | zero => rfl
  | succ turns ih => exact ih

/-- A lone prepared number is looked for without end, and 0 is returned in
place of -1. -/
theorem kMax_runs_on :
    (∀ r, ¬ KMaxReturns 2 [5, -1, -1, -1] seqnoMax r) ∧
      (∀ mlp r, ¬ oneReport.LowEstimates ⟨1, 1, 5, fun _ => 0, false⟩ mlp r) ∧
      KMaxReturns 2 [0, -1, -1, -1] seqnoMax 0 ∧ ¬ KthLargest 2 [0, -1, -1, -1] 0 := by
  have hnever : ∀ r, ¬ KMaxReturns 2 [5, -1, -1, -1] seqnoMax r := by
    rintro r ⟨turns, hr⟩
    match turns with
    | 0 => cases hr
    | 1 => cases hr
    | turns + 2 => cases (kMaxWithin_stuck turns).symm.trans hr
  exact ⟨hnever, fun mlp r hlow => hnever mlp hlow.1, ⟨2, by decide⟩, by decide⟩

/-! ## The estimate -/

namespace StableEstimator

variable {N : Node} {id i : ℕ} {lc lp oc op : ℤ} {e : StableEstimator} {B : ℕ → ℕ} {is : List ℕ}

/-- A round changes the counts of the replica it visits, and that of the
sender. -/
theorem lec_visit (hi : i ≠ id) (j : ℕ) :
    ((visit id lc lp oc op e i).vals j).lec =
      if j = i then ((e.vals i).bump lc lp oc op).lec
      else if j = id ∧ (e.vals i).lc ≤ lc then (e.vals id).lec + 1 else (e.vals j).lec := by
  rw [visit]
  by_cases hle : (e.vals i).lc ≤ lc
  · rw [if_pos (show ((e.vals i).bump lc lp oc op).lc ≤ lc from hle)]
    by_cases hj : j = id
    · subst hj
      simp [Ne.symm hi, hle]
    · by_cases hji : j = i
      · subst hji
        simp [update_of_ne hj]
      · simp [hj, hji]
  · rw [if_neg (show ¬ ((e.vals i).bump lc lp oc op).lc ≤ lc from hle)]
    by_cases hji : j = i
    · subst hji
      simp
    · simp [hji, hle]

theorem same_visit (j : ℕ) :
    ((visit id lc lp oc op e i).vals j).lc = (e.vals j).lc ∧
      ((visit id lc lp oc op e i).vals j).lp = (e.vals j).lp := by
  rw [visit]
  split <;> by_cases hj : j = id <;> by_cases hji : j = i <;>
    simp_all [update_apply, StableVal.bump]

theorem est_visit : (visit id lc lp oc op e i).est = e.est := by
  rw [visit]
  split <;> rfl

/-- What the loop may still count for the sender. -/
def pending (id : ℕ) (lc : ℤ) (e : StableEstimator) (is : List ℕ) : ℕ :=
  is.countP fun i => decide (i ≠ id ∧ (e.vals i).lc ≤ lc)

/-- Each count is within its bound, also after what the rest of the loop may
add to it. -/
structure Bounded (id : ℕ) (lc lp oc op : ℤ) (B : ℕ → ℕ) (is : List ℕ) (e : StableEstimator) :
    Prop where
  le : ∀ j, (e.vals j).lec ≤ B j
  bump : ∀ j ∈ is, j ≠ id → ((e.vals j).bump lc lp oc op).lec ≤ B j
  sender : (e.vals id).lec + pending id lc e is ≤ B id

theorem Bounded.skip (h : Bounded id lc lp oc op B (id :: is) e) :
    Bounded id lc lp oc op B is e := by
  refine ⟨h.le, fun j hj => h.bump j (mem_cons_of_mem id hj), ?_⟩
  have hid := h.sender
  rw [pending, countP_cons_of_neg (by simp)] at hid
  exact hid

theorem Bounded.visit (h : Bounded id lc lp oc op B (i :: is) e) (hi : i ≠ id) (hmem : i ∉ is) :
    Bounded id lc lp oc op B is (visit id lc lp oc op e i) := by
  have hid := h.sender
  rw [pending, countP_cons] at hid
  have hcount : pending id lc (StableEstimator.visit id lc lp oc op e i) is =
      pending id lc e is := by
    refine countP_congr fun k _ => ?_
    rw [(same_visit k).1]
  refine ⟨fun j => ?_, fun j hj hne => ?_, ?_⟩
  · rw [lec_visit hi]
    split
    · next hj => exact hj ▸ h.bump i mem_cons_self hi
    split
    · next hj =>
      rw [if_pos (by simp [hi, hj.2])] at hid
      rw [hj.1]
      omega
    · exact h.le j
  · have hold := h.bump j (mem_cons_of_mem i hj) hne
    unfold StableVal.bump at hold ⊢
    dsimp only at hold ⊢
    rw [lec_visit hi, if_neg (ne_of_mem_of_not_mem hj hmem), if_neg fun h => hne h.1,
      (same_visit j).1]
    exact hold
  · rw [hcount, lec_visit hi, if_neg (Ne.symm hi)]
    unfold pending
    by_cases hlc : (e.vals i).lc ≤ lc
    · rw [if_pos ⟨rfl, hlc⟩]
      rw [if_pos (by simp [hi, hlc])] at hid
      omega
    · rw [if_neg fun h => hlc h.2]
      rw [if_neg (by simp [hlc])] at hid
      omega

/-- **The loop keeps bounds on the counts**, and an estimate comes from an
entry whose bound allows it. -/
theorem Bounded.scan (h : Bounded id lc lp oc op B is e) (hnodup : is.Nodup) :
    (∀ j, ((scan N id lc lp oc op is e).vals j).lec ≤ B j ∧
      ((scan N id lc lp oc op is e).vals j).lc = (e.vals j).lc ∧
      ((scan N id lc lp oc op is e).vals j).lp = (e.vals j).lp) ∧
    ((scan N id lc lp oc op is e).est = e.est ∨
      ∃ i ∈ is, (scan N id lc lp oc op is e).est = (e.vals i).lc ∧ 2 * N.f + 1 ≤ B i) := by
  induction is generalizing e with
  | nil => exact ⟨fun j => ⟨h.le j, rfl, rfl⟩, .inl rfl⟩
  | cons i is ih =>
    obtain ⟨hmem, hnodup⟩ := nodup_cons.1 hnodup
    rw [StableEstimator.scan]
    by_cases heq : i = id
    · subst heq
      rw [if_pos rfl]
      obtain ⟨hvals, hest⟩ := ih h.skip hnodup
      exact ⟨hvals, hest.imp_right fun ⟨k, hk, hrest⟩ => ⟨k, mem_cons_of_mem i hk, hrest⟩⟩
    rw [if_neg heq]
    have hnext := h.visit heq hmem
    dsimp only
    split
    · next hdone =>
      exact ⟨fun j => ⟨hnext.le j, same_visit j⟩,
        .inr ⟨i, mem_cons_self, (same_visit i).1, hdone.1.trans (hnext.le i)⟩⟩
    · obtain ⟨hvals, hest⟩ := ih hnext hnodup
      refine ⟨fun j => ⟨(hvals j).1, (hvals j).2.1.trans (same_visit j).1,
        (hvals j).2.2.trans (same_visit j).2⟩, ?_⟩
      rcases hest with hsame | ⟨k, hk, hkest, hkB⟩
      · exact .inl (hsame.trans est_visit)
      · exact .inr ⟨k, mem_cons_of_mem i hk, hkest.trans (same_visit k).1, hkB⟩

/-! ### What the counts mean -/

/-- The number of replicas whose checkpoint is at or below `x`. -/
def below (N : Node) (e : StableEstimator) (x : ℤ) : ℕ :=
  (List.range N.n).countP fun j => decide ((e.vals j).lc ≤ x)

/-- What holds while each message lowers its sender's checkpoint, for the
counted messages `H`. -/
structure Fair (N : Node) (e : StableEstimator) (H : List ReplyStable) : Prop where
  top : ∀ i, (e.vals i).lc ≤ seqnoMax
  silent : ∀ i, (e.vals i).lc = seqnoMax → (e.vals i).lec = 0
  lec : ∀ i, (e.vals i).lc ≠ seqnoMax → (e.vals i).lec ≤ below N e (e.vals i).lc
  lc : ∀ i, (e.vals i).lc ≠ seqnoMax → ∃ m ∈ H, m.id = i ∧ m.lc = (e.vals i).lc
  lp : ∀ i, 0 ≤ (e.vals i).lp → ∃ m ∈ H, m.id = i ∧ m.lp = (e.vals i).lp
  cross : ∀ i < N.n, ∀ j < N.n, (e.vals i).lc ≠ seqnoMax → (e.vals j).lc ≠ seqnoMax →
    (e.vals i).lc ≤ (e.vals j).lp

theorem Fair.init (N : Node) : Fair N init [] where
  top _ := le_rfl
  silent _ _ := rfl
  lec _ h := absurd rfl h
  lc _ h := absurd rfl h
  lp _ h := absurd (show (0 : ℤ) ≤ -1 from h) (by decide)
  cross _ _ _ _ h := absurd rfl h

/-- The message can be read into an `int`, it lowers its sender's
checkpoint, and no checkpoint is above a prepared number. -/
def Improves (N : Node) (e : StableEstimator) (m : ReplyStable) : Prop :=
  (toInt m.lc = m.lc ∧ toInt m.lp = m.lp) ∧ m.lc < (e.vals m.id).lc ∧ m.lc ≤ m.lp ∧
    ∀ i < N.n, i ≠ m.id → (e.vals i).lc ≠ seqnoMax → (e.vals i).lc ≤ m.lp ∧ m.lc ≤ (e.vals i).lp

instance (N : Node) (e : StableEstimator) (m : ReplyStable) : Decidable (e.Improves N m) :=
  inferInstanceAs (Decidable (_ ∧ _))

/-- The entry of the sender, with nothing counted but itself. -/
def report (e : StableEstimator) (m : ReplyStable) : StableEstimator :=
  { e with
    vals := update e.vals m.id ⟨m.lc, 1, 1, max (e.vals m.id).lp m.lp⟩ }

variable {m : ReplyStable} {H : List ReplyStable}

@[simp] theorem report_self (e : StableEstimator) (m : ReplyStable) :
    (e.report m).vals m.id = ⟨m.lc, 1, 1, max (e.vals m.id).lp m.lp⟩ := update_self ..

theorem report_of_ne (e : StableEstimator) {j : ℕ} (hj : j ≠ m.id) :
    (e.report m).vals j = e.vals j := update_of_ne hj ..

theorem countP_split {p : ℕ → Bool} {l : List ℕ} (hl : l.Nodup) (hid : id ∈ l) :
    l.countP p = (l.countP fun i => decide (i ≠ id) && p i) + if p id then 1 else 0 := by
  induction l with
  | nil => cases hid
  | cons i l ih =>
    obtain ⟨hi, hl⟩ := nodup_cons.1 hl
    rw [countP_cons, countP_cons]
    by_cases heq : i = id
    · subst heq
      have hrest : (l.countP fun k => decide (k ≠ i) && p k) = l.countP p := by
        refine countP_congr fun k hk => ?_
        simp [ne_of_mem_of_not_mem hk hi]
      rw [hrest]
      simp
    · rw [ih hl ((mem_cons.1 hid).resolve_left (Ne.symm heq))]
      simp only [heq, ne_eq, not_false_eq_true, decide_true, Bool.true_and]
      omega

theorem below_eq (hid : m.id < N.n) (e : StableEstimator) (x : ℤ) :
    below N e x = pending m.id x e (List.range N.n) + if (e.vals m.id).lc ≤ x then 1 else 0 := by
  rw [below, countP_split nodup_range (mem_range.2 hid), pending]
  simp only [Bool.decide_and, decide_eq_true_eq]

theorem pending_report (e : StableEstimator) (m : ReplyStable) (x : ℤ) (l : List ℕ) :
    pending m.id x (e.report m) l = pending m.id x e l := by
  refine countP_congr fun i _ => ?_
  by_cases hi : i = m.id
  · simp [hi]
  · rw [report_of_ne e hi]

/-- What each entry may count after the message. -/
def allowed (N : Node) (e : StableEstimator) (j : ℕ) : ℕ :=
  if (e.vals j).lc = seqnoMax then 0 else below N e (e.vals j).lc

theorem Fair.bounded (h : Fair N e H) (hid : m.id < N.n) (hm : e.Improves N m) (op : ℤ) :
    Bounded m.id m.lc m.lp (e.vals m.id).lc op (allowed N (e.report m)) (List.range N.n)
      (e.report m) := by
  obtain ⟨-, hlow, -, -⟩ := hm
  have hne : m.lc ≠ seqnoMax := (hlow.trans_le (h.top m.id)).ne
  have hself : allowed N (e.report m) m.id = below N (e.report m) m.lc := by
    rw [allowed, report_self, if_neg hne]
  -- an entry of another replica, with what the message adds
  have hother : ∀ j, j ≠ m.id →
      (e.vals j).lec + (if (e.vals j).lc < (e.vals m.id).lc ∧ m.lc ≤ (e.vals j).lc then 1 else 0) ≤
        allowed N (e.report m) j := by
    intro j hj
    rw [allowed, report_of_ne e hj]
    by_cases hsil : (e.vals j).lc = seqnoMax
    · rw [if_pos hsil, h.silent j hsil, hsil, if_neg fun hlt => not_lt.2 (h.top m.id) hlt.1]
    · rw [if_neg hsil]
      have hold := h.lec j hsil
      rw [below_eq hid] at hold
      rw [below_eq hid, pending_report, report_self]
      dsimp only
      split_ifs at hold ⊢ <;> omega
  refine ⟨fun j => ?_, fun j _ hj => ?_, ?_⟩
  · by_cases hj : j = m.id
    · rw [hj, hself, report_self, below_eq hid, report_self, if_pos le_rfl]
      exact Nat.le_add_left _ _
    · have := hother j hj
      rw [report_of_ne e hj]
      omega
  · have := hother j hj
    rw [StableVal.bump, report_of_ne e hj]
    exact this
  · rw [hself, report_self, below_eq hid, report_self, if_pos le_rfl, Nat.add_comm]

/-- The checkpoints and prepared numbers after the message are reported. -/
theorem Fair.report (h : Fair N e H) (hm : e.Improves N m) {e' : StableEstimator}
    (hlec : ∀ j, (e'.vals j).lec ≤ allowed N (e.report m) j)
    (hsame : ∀ j, (e'.vals j).lc = ((e.report m).vals j).lc ∧
      (e'.vals j).lp = ((e.report m).vals j).lp) : Fair N e' (H ++ [m]) := by
  obtain ⟨-, hlow, hself, hcross⟩ := hm
  have hbelow : ∀ x, below N e' x = below N (e.report m) x := fun x =>
    countP_congr fun j _ => by rw [(hsame j).1]
  refine ⟨fun i => ?_, fun i hi => ?_, fun i hi => ?_, fun i hi => ?_, fun i hi => ?_,
    fun i hi j hj hri hrj => ?_⟩
  · rw [(hsame i).1]
    by_cases heq : i = m.id
    · rw [heq, report_self]
      exact (hlow.trans_le (h.top m.id)).le
    · rw [report_of_ne e heq]
      exact h.top i
  · have hle := hlec i
    rw [allowed, if_pos ((hsame i).1 ▸ hi)] at hle
    exact Nat.le_zero.1 hle
  · have hle := hlec i
    rw [allowed, if_neg ((hsame i).1 ▸ hi)] at hle
    rw [hbelow, (hsame i).1]
    exact hle
  · rw [(hsame i).1] at hi ⊢
    by_cases heq : i = m.id
    · exact ⟨m, by simp, heq.symm, by rw [heq, report_self]⟩
    · rw [report_of_ne e heq] at hi ⊢
      obtain ⟨o, ho, hrest⟩ := h.lc i hi
      exact ⟨o, mem_append_left _ ho, hrest⟩
  · rw [(hsame i).2] at hi ⊢
    by_cases heq : i = m.id
    · rw [heq, report_self] at hi ⊢
      rcases le_total (e.vals m.id).lp m.lp with hle | hle
      · exact ⟨m, by simp, rfl, (max_eq_right hle).symm⟩
      · rw [max_eq_left hle] at hi ⊢
        obtain ⟨o, ho, hrest⟩ := h.lp m.id hi
        exact ⟨o, mem_append_left _ ho, hrest⟩
    · rw [report_of_ne e heq] at hi ⊢
      obtain ⟨o, ho, hrest⟩ := h.lp i hi
      exact ⟨o, mem_append_left _ ho, hrest⟩
  · rw [(hsame i).1] at hri ⊢
    rw [(hsame j).1] at hrj
    rw [(hsame j).2]
    by_cases hi' : i = m.id <;> by_cases hj' : j = m.id
    · rw [hi', hj', report_self]
      exact hself.trans (le_max_right _ _)
    · rw [report_of_ne e hj'] at hrj ⊢
      rw [hi', report_self]
      exact (hcross j hj hj' hrj).2
    · rw [report_of_ne e hi'] at hri ⊢
      rw [hj', report_self]
      exact (hcross i hi hi' hri).1.trans (le_max_right _ _)
    · rw [report_of_ne e hi'] at hri ⊢
      rw [report_of_ne e hj'] at hrj ⊢
      exact h.cross i hi j hj hri hrj

variable {mine : Bool} {r : Run} {x : ReplyStable × Bool}

/-- What `add` does with a message that improves. -/
theorem add_eq (hm : e.Improves N m) (hcounts : (mine || m.verify N) = true) :
    ∃ op, add N e m mine =
      let e := scan N m.id m.lc m.lp (e.vals m.id).lc op (List.range N.n) (e.report m)
      let e :=
        if e.est < 0 ∧ 2 * N.f + 1 ≤ (e.vals m.id).lec ∧ N.f + 1 ≤ (e.vals m.id).gep then
          { e with est := (e.vals m.id).lc }
        else e
      (e, decide (0 ≤ e.est)) := by
  obtain ⟨⟨hlc, hlp⟩, hlow, -⟩ := hm
  refine ⟨if (e.vals m.id).lp < m.lp then (e.vals m.id).lp else -1, ?_⟩
  have hval : (if (e.vals m.id).lp < m.lp then
      ({ (e.vals m.id) with lc := m.lc, lec := 1, gep := 1, lp := m.lp } : StableVal)
      else { (e.vals m.id) with lc := m.lc, lec := 1, gep := 1 }) =
      ⟨m.lc, 1, 1, max (e.vals m.id).lp m.lp⟩ := by
    split
    · next hlt => rw [max_eq_right hlt.le]
    · next hlt => rw [max_eq_left (not_lt.1 hlt)]
  rw [add, if_pos hcounts]
  dsimp only
  rw [hlc, hlp, if_pos hlow, if_pos hlow]
  rw [hval]
  rfl

/-- **One message more.** The counts stay fair, and a new estimate is the
checkpoint of a replica that enough are at or below. -/
theorem Fair.add (h : Fair N e H) (hid : m.id < N.n) (hm : e.Improves N m)
    (hcounts : (mine || m.verify N) = true) :
    let e' := (add N e m mine).1
    Fair N e' (H ++ [m]) ∧ (e'.est = e.est ∨ ∃ i < N.n, e'.est = (e'.vals i).lc ∧
      (e'.vals i).lc ≠ seqnoMax ∧ 2 * N.f + 1 ≤ below N e' (e'.vals i).lc) := by
  obtain ⟨op, heq⟩ := add_eq hm hcounts
  obtain ⟨hvals, hest⟩ := (h.bounded hid hm op).scan (N := N) nodup_range
  dsimp only at heq ⊢
  rw [heq]
  dsimp only
  generalize scan N m.id m.lc m.lp (e.vals m.id).lc op (List.range N.n) (e.report m) = e₁
    at hvals hest
  have hfair : Fair N e₁ (H ++ [m]) := h.report hm (fun j => (hvals j).1) fun j => (hvals j).2
  have hbelow : ∀ x, below N (e.report m) x = below N e₁ x := fun x =>
    countP_congr fun j _ => by rw [(hvals j).2.1]
  -- a positive bound is that of a replica that reported
  have hallowed : ∀ i, 2 * N.f + 1 ≤ allowed N (e.report m) i → (e₁.vals i).lc ≠ seqnoMax ∧
      2 * N.f + 1 ≤ below N e₁ (e₁.vals i).lc := by
    intro i hi
    rw [allowed] at hi
    split at hi
    · omega
    · next hne => exact ⟨(hvals i).2.1 ▸ hne, (hvals i).2.1 ▸ hbelow _ ▸ hi⟩
  split
  · next hdone =>
    refine ⟨⟨hfair.top, hfair.silent, hfair.lec, hfair.lc, hfair.lp, hfair.cross⟩,
      .inr ⟨m.id, hid, rfl, hallowed m.id (hdone.2.1.trans (hvals m.id).1)⟩⟩
  · refine ⟨hfair, ?_⟩
    rcases hest with hsame | ⟨i, hi, hiest, hiB⟩
    · exact .inl hsame
    · exact .inr ⟨i, mem_range.1 hi, hiest.trans (hvals i).2.1.symm, hallowed i hiB⟩

/-- An estimator with the messages it counted. -/
structure Run where
  e : StableEstimator
  seen : List ReplyStable

/-- A call of `add`, with the argument `mine`. -/
def Run.step (N : Node) (r : Run) (x : ReplyStable × Bool) : Run where
  e := (add N r.e x.1 x.2).1
  seen := if x.2 || x.1.verify N then r.seen ++ [x.1] else r.seen

/-- The condition on a call: a message that is counted improves. -/
def Run.Ok (N : Node) (r : Run) (x : ReplyStable × Bool) : Prop :=
  (x.2 → x.1.id = N.id) ∧ ((x.2 || x.1.verify N) = true → r.e.Improves N x.1)

instance (N : Node) (r : Run) (x : ReplyStable × Bool) : Decidable (r.Ok N x) :=
  inferInstanceAs (Decidable (_ ∧ _))

theorem id_lt_of_verify (h : m.verify N = true) : m.id < N.n := by
  simp only [ReplyStable.verify, Node.isReplica, Bool.and_eq_true, decide_eq_true_eq] at h
  exact_mod_cast h.1.1.1.2

theorem id_lt_of_ok (hN : N.id < N.n) (hx : r.Ok N x) (hcounts : (x.2 || x.1.verify N) = true) :
    x.1.id < N.n := by
  rcases Bool.or_eq_true _ _ ▸ hcounts with hmine | hver
  · exact hx.1 hmine ▸ hN
  · exact id_lt_of_verify hver

theorem Fair.step (hN : N.id < N.n) (h : Fair N r.e r.seen) (hx : r.Ok N x) :
    Fair N (r.step N x).e (r.step N x).seen := by
  by_cases hcounts : (x.2 || x.1.verify N) = true
  · rw [Run.step, if_pos hcounts]
    exact (h.add (id_lt_of_ok hN hx hcounts) (hx.2 hcounts) hcounts).1
  · rw [Run.step, if_neg hcounts]
    rw [StableEstimator.add, if_neg hcounts]
    exact h

/-- The replicas whose checkpoint is at or below the estimate. -/
theorem Fair.supporters (h : Fair N e H) {i : ℕ} (hi : i < N.n) (hne : (e.vals i).lc ≠ seqnoMax)
    (hpos : 0 ≤ (e.vals i).lc) (hcount : 2 * N.f + 1 ≤ below N e (e.vals i).lc) :
    ∃ A ⊆ Finset.range N.n, 2 * N.f + 1 ≤ A.card ∧ ∀ j ∈ A,
      (∃ m ∈ H, m.id = j ∧ m.lc ≤ (e.vals i).lc) ∧ ∃ m ∈ H, m.id = j ∧ (e.vals i).lc ≤ m.lp := by
  refine ⟨(Finset.range N.n).filter fun j => (e.vals j).lc ≤ (e.vals i).lc,
    Finset.filter_subset _ _, ?_, fun j hj => ?_⟩
  · rw [below, countP_eq_length_filter] at hcount
    rw [← toFinset_card_of_nodup (nodup_range.filter _)] at hcount
    refine hcount.trans (Finset.card_le_card fun j hj => ?_)
    simpa using hj
  · obtain ⟨hj, hle⟩ := Finset.mem_filter.1 hj
    have hjne : (e.vals j).lc ≠ seqnoMax := fun heq => hne (le_antisymm (h.top i) (heq ▸ hle))
    have hlp := h.cross i hi j (Finset.mem_range.1 hj) hne hjne
    obtain ⟨m, hm, hid, hlc⟩ := h.lc j hjne
    obtain ⟨o, ho, hoid, holp⟩ := h.lp j (hpos.trans hlp)
    exact ⟨⟨m, hm, hid, hlc ▸ hle⟩, o, ho, hoid, holp ▸ hlp⟩

/-- No message was counted. -/
def Run.init : Run := ⟨StableEstimator.init, []⟩

/-- At least `2f+1` different replicas reported a checkpoint at or below the
estimate, and at least `f+1` a prepared number at or above it. -/
def Run.Supported (N : Node) (r : Run) : Prop :=
  (∃ A ⊆ Finset.range N.n, 2 * N.f + 1 ≤ A.card ∧
      ∀ j ∈ A, ∃ m ∈ r.seen, m.id = j ∧ m.lc ≤ r.e.est) ∧
    ∃ A ⊆ Finset.range N.n, N.f + 1 ≤ A.card ∧ ∀ j ∈ A, ∃ m ∈ r.seen, m.id = j ∧ r.e.est ≤ m.lp

end StableEstimator

open StableEstimator in
/-- **An estimate is supported** when `add` first returns true, if every
counted message improves. -/
theorem estimate_supported (N : Node) (hN : N.id < N.n) (xs : List (ReplyStable × Bool))
    (x : ReplyStable × Bool) (hok : Guarded (Run.step N) (Run.Ok N) Run.init (xs ++ [x]))
    (hbefore : ∀ l, l <+: xs → (exec (Run.step N) Run.init l).e.est < 0)
    (htrue : (add N (exec (Run.step N) Run.init xs).e x.1 x.2).2 = true) :
    (exec (Run.step N) Run.init (xs ++ [x])).Supported N := by
  obtain ⟨hruns, hx, -⟩ := guarded_append.1 hok
  have hfair : Fair N (exec (Run.step N) Run.init xs).e (exec (Run.step N) Run.init xs).seen :=
    hruns.invariant (I := fun r => Fair N r.e r.seen) (fun r y h hy => h.step hN hy) (.init N)
  have hneg := hbefore xs (prefix_refl xs)
  rw [exec_append]
  generalize exec (Run.step N) Run.init xs = r at hfair hx hneg htrue
  by_cases hcounts : (x.2 || x.1.verify N) = true
  swap
  · rw [add, if_neg hcounts] at htrue
    exact absurd (of_decide_eq_true htrue) (not_le.2 hneg)
  obtain ⟨hnext, hest⟩ := hfair.add (id_lt_of_ok hN hx hcounts) (hx.2 hcounts) hcounts
  have hpos : 0 ≤ (add N r.e x.1 x.2).1.est := by
    rw [add, if_pos hcounts] at htrue ⊢
    exact of_decide_eq_true htrue
  obtain ⟨i, hi, hiest, hne, hcount⟩ := hest.resolve_left fun h => absurd (h ▸ hpos) (not_le.2 hneg)
  obtain ⟨A, hA, hcard, hsupp⟩ := hnext.supporters hi hne (hiest ▸ hpos) hcount
  have hseen : (exec (Run.step N) r [x]).seen = r.seen ++ [x.1] := if_pos hcounts
  rw [← hiest] at hsupp
  refine ⟨⟨A, hA, hcard, fun j hj => ?_⟩, A, hA, by omega, fun j hj => ?_⟩
  · rw [hseen]
    exact (hsupp j hj).1
  · rw [hseen]
    exact (hsupp j hj).2

/-- Replica 3 of four. -/
def recoveringNode : Node := ⟨1, 3, 5, fun _ => 0, false⟩

/-- A verified message of replica `i`. -/
def stableReply (i : ℕ) (lc lp : ℤ) : ReplyStable × Bool := (⟨i, lc, lp, true, true⟩, false)

open StableEstimator in
theorem estimate_supported_three :
    (exec (Run.step recoveringNode) Run.init [stableReply 0 128 130, stableReply 1 128 140,
      stableReply 2 0 128]).Supported recoveringNode :=
  estimate_supported recoveringNode (by decide) [stableReply 0 128 130, stableReply 1 128 140]
    (stableReply 2 0 128) (by decide)
    (by
      intro l hl
      have hall : ∀ l ∈ [stableReply 0 128 130, stableReply 1 128 140].inits,
          (exec (Run.step recoveringNode) Run.init l).e.est < 0 := by decide
      exact hall l ((mem_inits l _).2 hl))
    (by decide)

open StableEstimator in
/-- Replica 1 repeats its message, and is counted twice; and replica 0
alone has prepared 128, which the checkpoints of the others are added to. -/
theorem estimate_unsupported :
    let twice := exec (Run.step recoveringNode) Run.init
      [stableReply 0 128 128, stableReply 1 0 0, stableReply 1 0 0]
    let once := exec (Run.step recoveringNode) Run.init
      [stableReply 0 128 128, stableReply 1 0 0, stableReply 2 0 0]
    (twice.e.est = 128 ∧ ¬ twice.Supported recoveringNode) ∧
      once.e.est = 128 ∧ ¬ once.Supported recoveringNode := by
  refine ⟨⟨by decide, ?_⟩, by decide, ?_⟩
  · rintro ⟨⟨A, -, hcard, hA⟩, -⟩
    have hsub : A ⊆ {0, 1} := by
      intro j hj
      obtain ⟨m, hm, rfl, -⟩ := hA j hj
      clear hj
      revert m
      decide
    exact absurd (hcard.trans (Finset.card_le_card hsub)) (by decide)
  · rintro ⟨-, A, -, hcard, hA⟩
    have hsub : A ⊆ {0} := by
      intro j hj
      obtain ⟨m, hm, rfl, hlp⟩ := hA j hj
      clear hj
      revert m
      decide
    exact absurd (hcard.trans (Finset.card_le_card hsub)) (by decide)

end AbstractBFT.Pbft
