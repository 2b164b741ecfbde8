import AbstractBFT.Common.History
import Mathlib.Logic.Function.Basic
/-!
# The table of big requests

A pre-prepare carries the digests of its big requests, and a replica keeps
the requests themselves under the digests they carry.
`PBFT_R_Big_req_table` and `A_Big_req_table` are one code over the requests
of two protocols; here the digest and the client of a request are
parameters of the table.
-/

namespace AbstractBFT

open Function Option

/-- `Waiting_pp` and `A_Waiting_pp`: the `i`-th big request of pre-prepare
`n` is missing. -/
structure WaitingPp where
  n : ℕ
  i : ℕ
  deriving DecidableEq

variable {R C : Type}

/-- `BPBFT_R_entry` and `A_BR_entry` for the digest `rd`; the request it
holds carries that digest. -/
structure BREntry (od : R → Digest) (rd : Digest) where
  r : Option { r : R // od r = rd }
  waiting : List WaitingPp
  maxn : ℤ
  maxv : ℤ

/-- The table, for requests with the digest `od` and the client `cid`. -/
structure BigReqTable (od : R → Digest) (cid : R → C) where
  breqs : (rd : Digest) → Option (BREntry od rd)
  unmatched : C → Option R

namespace BigReqTable

variable {od : R → Digest} {cid : R → C}

def empty : BigReqTable od cid := ⟨fun _ => none, fun _ => none⟩

variable (brt : BigReqTable od cid)

/-- `lookup`. -/
def lookup (rd : Digest) : Option R := (brt.breqs rd).bind fun bre => bre.r.map (·.1)

/-- `breqs` with the entry `bre` for `rd`. -/
def set (rd : Digest) (bre : Option (BREntry od rd)) : BigReqTable od cid :=
  { brt with breqs := update brt.breqs rd bre }

theorem od_of_lookup {brt : BigReqTable od cid} {rd : Digest} {r : R} (h : brt.lookup rd = some r) :
    od r = rd := by
  simp only [lookup, bind_eq_some_iff, map_eq_some_iff] at h
  obtain ⟨bre, -, s, -, rfl⟩ := h
  exact s.2

theorem lookup_set (rd : Digest) (bre : Option (BREntry od rd)) (rd' : Digest) :
    (brt.set rd bre).lookup rd' =
      if rd' = rd then bre.bind fun b => b.r.map (·.1) else brt.lookup rd' := by
  change (update brt.breqs rd bre rd').bind (fun b => b.r.map (·.1)) = _
  by_cases h : rd' = rd
  · subst h
    rw [if_pos rfl, update_self]
  · rw [if_neg h, update_of_ne h, lookup]

theorem lookup_of_filter {brt : BigReqTable od cid} {rd : Digest} {q : R}
    {p : (rd : Digest) → BREntry od rd → Bool} {un : C → Option R}
    (h : (⟨fun rd => (brt.breqs rd).filter (p rd), un⟩ : BigReqTable od cid).lookup rd = some q) :
    brt.lookup rd = some q := by
  rw [lookup, bind_eq_some_iff] at h
  obtain ⟨bre, hbre, hq⟩ := h
  rw [filter_eq_some_iff] at hbre
  rw [lookup, hbre.1]
  exact hq

variable [DecidableEq C]

/-- The request, as an entry under its own digest. -/
def entryOf (r : R) : { q : R // od q = od r } := ⟨r, rfl⟩

/-- `remove_unmatched`. -/
def removeUnmatched {rd : Digest} (bre : BREntry od rd) : BigReqTable od cid :=
  match bre.r with
  | some r =>
    if bre.maxn < 0 then { brt with unmatched := update brt.unmatched (cid r.1) none }
    else brt
  | none => brt

/-- `add_pre_prepare(rd, i, n, v)`: is the request here? If not, note that
pre-prepare `n` waits for it. -/
def addPrePrepare (rd : Digest) (i n : ℕ) (v : ℤ) : BigReqTable od cid × Bool :=
  match brt.breqs rd with
  | some bre =>
    ((brt.removeUnmatched bre).set rd (some
      { r := bre.r
        waiting := if bre.r.isSome then bre.waiting else bre.waiting ++ [⟨n, i⟩]
        maxn := max n bre.maxn
        maxv := max v bre.maxv }), bre.r.isSome)
  | none => (brt.set rd (some ⟨none, [⟨n, i⟩], n, v⟩), false)

/-- `add_pre_prepare(r, n, v)`: the primary puts a request of its own
pre-prepare into the table. -/
def addOwn (r : R) (n : ℕ) (v : ℤ) : BigReqTable od cid :=
  match brt.breqs (od r) with
  | some bre =>
    (brt.removeUnmatched bre).set (od r) (some
      { r := some (bre.r.getD (entryOf r))
        waiting := bre.waiting
        maxn := max n bre.maxn
        maxv := max v bre.maxv })
  | none => brt.set (od r) (some ⟨some (entryOf r), [], n, v⟩)

/-- `add_request`, with the pre-prepares that waited for the request, the
last one first; `none` where it returns false. `unverifiedOk` is what it
asks of an unverified request that some pre-prepares wait for: the replica
has no new view, or `check_pcerts` finds one of them that `f` prepares
match. A verified request that nobody waits for replaces its client's
last one. -/
def addRequest {I : Type} [LT I] [DecidableLT I] (rid : R → I) (r : R) (verified : Bool)
    (unverifiedOk : List WaitingPp → Bool) : Option (BigReqTable od cid × List WaitingPp) :=
  match brt.breqs (od r) with
  | some bre =>
    if bre.r.isNone && (verified || unverifiedOk bre.waiting) then
      some (brt.set (od r) (some { bre with r := some (entryOf r), waiting := [] }), bre.waiting.reverse)
    else none
  | none =>
    if verified && (brt.unmatched (cid r)).all fun old => decide (rid old < rid r) then
      let t := brt.set (od r) (some ⟨some (entryOf r), [], -1, -1⟩)
      let t := match brt.unmatched (cid r) with
        | some old => t.set (od old) none
        | none => t
      some ({ t with unmatched := update t.unmatched (cid r) (some r) }, [])
    else none

/-- `mark_stable`: entries of pre-prepares up to `ls` go. Unmatched
requests stay: their entries were never marked useful in a view. -/
def markStable (ls : ℕ) : BigReqTable od cid :=
  { brt with
    breqs := fun rd =>
      (brt.breqs rd).filter fun bre => !decide (bre.maxn ≤ (ls : ℤ) ∧ 0 ≤ bre.maxv) }

/-- `view_change`: entries not marked useful in the new view go, with the
unmatched requests among them. -/
def viewChange (v : ℤ) : BigReqTable od cid :=
  { brt with
    breqs := fun rd => (brt.breqs rd).filter fun bre => !decide (bre.maxv < v)
    unmatched := fun c => (brt.unmatched c).filter fun r =>
      !(brt.breqs (od r)).any fun bre => decide (bre.maxn < 0 ∧ bre.maxv < v) }

/-! ## What is stored -/

variable {brt} {rd : Digest} {q r : R}

@[simp] theorem lookup_removeUnmatched {rd : Digest} (brt : BigReqTable od cid) (bre : BREntry od rd) :
    (brt.removeUnmatched bre).lookup = brt.lookup := by
  rw [removeUnmatched]
  split
  · split <;> rfl
  · rfl

/-- A pre-prepare that names a digest stores nothing under it. -/
@[simp] theorem lookup_addPrePrepare (brt : BigReqTable od cid) (rd : Digest) (i n : ℕ) (v : ℤ) :
    (brt.addPrePrepare rd i n v).1.lookup = brt.lookup := by
  funext rd'
  rw [addPrePrepare]
  split
  · next bre hbre =>
    rw [lookup_set, lookup_removeUnmatched]
    split
    · next heq =>
      subst heq
      rw [lookup, hbre]
      rfl
    · rfl
  · next hnone =>
    rw [lookup_set]
    split
    · next heq =>
      subst heq
      rw [lookup, hnone]
      rfl
    · rfl

theorem lookup_addOwn {n : ℕ} {v : ℤ} (h : (brt.addOwn r n v).lookup rd = some q) :
    brt.lookup rd = some q ∨ rd = od r ∧ q = r := by
  rw [addOwn] at h
  split at h
  · next bre hbre =>
    rw [lookup_set, lookup_removeUnmatched] at h
    split at h
    · next heq =>
      subst heq
      rw [lookup, hbre]
      cases hr : bre.r with
      | none =>
        rw [hr] at h
        exact .inr ⟨rfl, (some.inj h).symm⟩
      | some s =>
        rw [hr] at h
        left
        rw [bind_some, hr]
        exact h
    · exact .inl h
  · rw [lookup_set] at h
    split at h
    · next heq => exact .inr ⟨heq, (some.inj h).symm⟩
    · exact .inl h

/-- What `add_request` stores is the request, under its digest field. -/
theorem lookup_addRequest {I : Type} [LT I] [DecidableLT I] {rid : R → I} {verified : Bool} {ok : List WaitingPp → Bool}
    {t : BigReqTable od cid × List WaitingPp} (ht : brt.addRequest rid r verified ok = some t)
    (h : t.1.lookup rd = some q) : brt.lookup rd = some q ∨ rd = od r ∧ q = r := by
  rw [addRequest] at ht
  split at ht
  · split at ht
    case isFalse => cases ht
    case isTrue =>
    obtain rfl := some.inj ht
    rw [lookup_set] at h
    split at h
    · next heq => exact .inr ⟨heq, (some.inj h).symm⟩
    · exact .inl h
  · split at ht
    case isFalse => cases ht
    case isTrue =>
    obtain rfl := some.inj ht
    have hset : ∀ rd', (brt.set (od r) (some ⟨some (entryOf r), [], -1, -1⟩)).lookup rd' = some q →
        brt.lookup rd' = some q ∨ rd' = od r ∧ q = r := by
      intro rd' hq
      rw [lookup_set] at hq
      split at hq
      · next heq => exact .inr ⟨heq, (some.inj hq).symm⟩
      · exact .inl hq
    cases hold : brt.unmatched (cid r) with
    | none =>
      rw [hold] at h
      exact hset rd h
    | some old =>
      rw [hold] at h
      change ((brt.set (od r) _).set (od old) none).lookup rd = some q at h
      rw [lookup_set] at h
      split at h
      · cases h
      · exact hset rd h

/-- Only pre-prepares that the entry of the request names wait for it. -/
theorem waiting_of_addRequest {I : Type} [LT I] [DecidableLT I] {rid : R → I} {verified : Bool}
    {ok : List WaitingPp → Bool} {t : BigReqTable od cid × List WaitingPp}
    (ht : brt.addRequest rid r verified ok = some t) :
    t.2 = [] ∨ ∃ bre, brt.breqs (od r) = some bre ∧ t.2 = bre.waiting.reverse := by
  rw [addRequest] at ht
  split at ht
  · next bre hbre =>
    split at ht
    · obtain rfl := some.inj ht
      exact .inr ⟨bre, hbre, rfl⟩
    · cases ht
  · split at ht
    · obtain rfl := some.inj ht
      exact .inl rfl
    · cases ht

end BigReqTable

end AbstractBFT
