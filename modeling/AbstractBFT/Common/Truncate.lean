import AbstractBFT.Common.History
/-!
# Truncating the request history in its array

`truncate_history` and its overload with a callback, on the array the log
keeps its entries in: the entries up to the one found are released, the
others move down, and the array gets smaller. What is left in the slots
past the end is never read.
-/

namespace AbstractBFT

open Function List

/-- `Array<Rh_entry>`: the slots, and how many of them are in use. -/
structure RhArray (AReq : Type*) where
  store : ℕ → RhEntry AReq
  size : ℕ

namespace RhArray

variable {AReq : Type*}

/-- The entries in use. -/
def entries (a : RhArray AReq) : List (RhEntry AReq) := (List.range a.size).map a.store

/-- The loop that looks for the first entry numbered `seq`. -/
def find (a : RhArray AReq) (seq : ℕ) : Option ℕ := a.entries.findIdx? fun e => e.seq == seq

/-- The first `k` turns of the loop over the removed slots: those that
`deletes` selects have their request released, in this order, and each is
left as `clear` says. -/
def release (deletes : RhEntry AReq → Bool) (clear : RhEntry AReq → RhEntry AReq)
    (store : ℕ → RhEntry AReq) : ℕ → (ℕ → RhEntry AReq) × List AReq
  | 0 => (store, [])
  | k + 1 =>
    let st := release deletes clear store k
    (update st.1 k (clear (st.1 k)),
      st.2 ++ (if deletes (st.1 k) then (st.1 k).req else none).toList)

/-- The first `k` turns of `for (i=p; i<size; i++) rh[i-p] = rh[i]`. -/
def moveDown {α : Type*} (p : ℕ) (store : ℕ → α) : ℕ → ℕ → α
  | 0 => store
  | k + 1 =>
    let st := moveDown p store k
    update st k (st (p + k))

/-- The first `k` turns of the loop that nullifies the slots from `lo`
on. -/
def nullify (lo : ℕ) (store : ℕ → RhEntry AReq) : ℕ → ℕ → RhEntry AReq
  | 0 => store
  | k + 1 =>
    let st := nullify lo store k
    update st (lo + k) { st (lo + k) with req := none, seq := 0 }

/-- What both overloads do from the position found on: the array and the
requests that were released. -/
def removeTo (deletes : RhEntry AReq → Bool) (clear : RhEntry AReq → RhEntry AReq)
    (a : RhArray AReq) (pos : ℕ) : RhArray AReq × List AReq :=
  let r := release deletes clear a.store (pos + 1)
  (⟨moveDown (pos + 1) r.1 (a.size - (pos + 1)), a.size - (pos + 1)⟩, r.2)

/-- `truncate_history(seq)`: the result, the array and the requests that
were deleted. The slots are nullified from one past the new end on. -/
def truncateHistory (a : RhArray AReq) (seq : ℕ) : Bool × RhArray AReq × List AReq :=
  match a.find seq with
  | none => (false, a, [])
  | some pos =>
    let r := removeTo (fun e => e.seq != 0) (fun e => { e with req := none, seq := 0 }) a pos
    (true, { r.1 with store := nullify (a.size - pos) r.1.store pos }, r.2)

/-- `truncate_history(seq, request_callback)`: every request goes to the
callback, and the slots past the end are left as they are. -/
def truncateHistoryCallback (a : RhArray AReq) (seq : ℕ) : Bool × RhArray AReq × List AReq :=
  match a.find seq with
  | none => (false, a, [])
  | some pos => (true, removeTo (fun _ => true) (fun e => { e with req := none }) a pos)

/-! ## The loops -/

variable {deletes : RhEntry AReq → Bool} {clear : RhEntry AReq → RhEntry AReq}
variable {store : ℕ → RhEntry AReq}

/-- The slots that are still to come are as they were, and what was
released are the requests of the slots passed. -/
theorem release_spec (k : ℕ) :
    (∀ j, k ≤ j → (release deletes clear store k).1 j = store j) ∧
    (release deletes clear store k).2 =
      ((List.range k).map store).filterMap fun e => if deletes e then e.req else none := by
  induction k with
  | zero => exact ⟨fun j _ => rfl, rfl⟩
  | succ k ih =>
    obtain ⟨hstore, hout⟩ := ih
    refine ⟨fun j hj => ?_, ?_⟩
    · exact (update_of_ne (by omega) ..).trans (hstore j (by omega))
    · rw [release, hstore k le_rfl, hout, range_succ, map_append, filterMap_append]
      cases h : (if deletes (store k) then (store k).req else none) <;> simp [h]

variable {p j pos : ℕ}

theorem moveDown_apply {α : Type*} {store : ℕ → α} (hp : 0 < p) (k j : ℕ) :
    moveDown p store k j = if j < k then store (p + j) else store j := by
  induction k generalizing j with
  | zero => rfl
  | succ k ih =>
    rw [moveDown]
    rcases eq_or_ne j k with rfl | hne
    · rw [update_self, ih, if_neg (by omega), if_pos (by omega)]
    · rw [update_of_ne hne, ih]
      split <;> split <;> first | rfl | omega

theorem nullify_of_lt {lo : ℕ} (hj : j < lo) (k : ℕ) : nullify lo store k j = store j := by
  induction k with
  | zero => rfl
  | succ k ih => rw [nullify, update_of_ne (by omega), ih]

/-! ## The two overloads -/

variable {a : RhArray AReq}

/-- The entries that are kept reach their new places untouched. -/
theorem store_removeTo (hj : j < a.size - (pos + 1)) :
    (removeTo deletes clear a pos).1.store j = a.store (pos + 1 + j) := by
  show moveDown _ _ _ j = _
  rw [moveDown_apply (by omega), if_pos hj, (release_spec _).1 _ (by omega)]

/-- Slots that hold what was `p` places up spell the rest of the
entries. -/
theorem entries_eq_drop {b : RhArray AReq} (hsize : b.size = a.size - p)
    (h : ∀ j < a.size - p, b.store j = a.store (p + j)) : b.entries = a.entries.drop p := by
  unfold entries
  refine ext_getElem (by simp [hsize]) fun j hj _ => ?_
  have hj' : j < a.size - p := by simpa [hsize] using hj
  simp [h j hj']

/-- What the loop over the removed slots releases. -/
theorem released_removeTo (hpos : pos < a.size) (hdel : ∀ e ∈ a.entries, deletes e = true) :
    (removeTo deletes clear a pos).2 = (a.entries.take (pos + 1)).filterMap (·.req) := by
  have htake : (List.range (pos + 1)).map a.store = a.entries.take (pos + 1) := by
    rw [entries, ← map_take, take_range, Nat.min_eq_left (by omega)]
  show (release ..).2 = _
  rw [(release_spec _).2, htake]
  refine filterMap_congr fun e he => ?_
  rw [if_pos (hdel e (mem_of_mem_take he))]

theorem entries_of_find {seq : ℕ} (h : a.find seq = some pos) :
    (a.truncateHistory seq).2.1.entries = a.entries.drop (pos + 1) ∧
    (a.truncateHistoryCallback seq).2.1.entries = a.entries.drop (pos + 1) := by
  unfold truncateHistory truncateHistoryCallback
  rw [h]
  refine ⟨entries_eq_drop rfl fun j hj => ?_, entries_eq_drop rfl fun j hj => store_removeTo hj⟩
  exact (nullify_of_lt (by omega) _).trans (store_removeTo hj)

/-- The list model of the log is what the array holds. -/
theorem entries_truncateHistory {M : Modulus} {log : ReqHistoryLog M AReq}
    (hlog : log.rh = a.entries) (seq : ℕ) :
    (a.truncateHistory seq).2.1.entries = ((log.truncateHistory seq).getD log).rh := by
  unfold ReqHistoryLog.truncateHistory
  rw [hlog]
  split
  · next h => rw [truncateHistory, find, h]; exact hlog.symm
  · next pos h => exact (entries_of_find h).1

/-- **Truncation**: without an entry numbered `seq` nothing happens;
otherwise the entries after it remain, as they were, and the request of
every entry up to it is released once. Both overloads do the same. -/
theorem truncateHistory_exact (a : RhArray AReq) (hinc : a.entries.Pairwise (·.seq < ·.seq))
    (hpos : ∀ e ∈ a.entries, 0 < e.seq) (seq : ℕ) :
    ((∀ e ∈ a.entries, e.seq ≠ seq) →
      a.truncateHistory seq = (false, a, []) ∧ a.truncateHistoryCallback seq = (false, a, [])) ∧
    ∀ l x r, a.entries = l ++ x :: r → x.seq = seq →
      ∀ out ∈ [a.truncateHistory seq, a.truncateHistoryCallback seq],
        out.1 = true ∧ out.2.1.entries = r ∧ out.2.2 = (l ++ [x]).filterMap (·.req) := by
  constructor
  · intro hno
    have hnone : a.find seq = none :=
      findIdx?_eq_none_iff.2 fun e he => by simpa using hno e he
    simp [truncateHistory, truncateHistoryCallback, hnone]
  · intro l x r hsplit hx
    -- the numbers before the entry are smaller
    have hfind : a.find seq = some l.length := by
      rw [hsplit, pairwise_append] at hinc
      have hbefore : l.findIdx? (fun e => e.seq == seq) = none :=
        findIdx?_eq_none_iff.2 fun e he => by simp [← hx, (hinc.2.2 e he x (by simp)).ne]
      simp [find, hsplit, findIdx?_append, hbefore, findIdx?_cons, hx]
    have hlen : l.length < a.size := by
      have hlen := congrArg List.length hsplit
      simp only [entries, length_map, length_range, length_append,
        length_cons] at hlen
      omega
    have hdrop : a.entries.drop (l.length + 1) = r := by simp [hsplit]
    have htake : a.entries.take (l.length + 1) = l ++ [x] := by
      rw [hsplit, take_length_add_append]
      rfl
    obtain ⟨hleft, hleft'⟩ := entries_of_find hfind
    rw [hdrop] at hleft hleft'
    intro out hout
    rw [← htake]
    rcases mem_pair.1 hout with rfl | rfl
    · refine ⟨by rw [truncateHistory, hfind], hleft, ?_⟩
      rw [truncateHistory, hfind]
      exact released_removeTo hlen fun e he => by simpa using (hpos e he).ne'
    · refine ⟨by rw [truncateHistoryCallback, hfind], hleft', ?_⟩
      rw [truncateHistoryCallback, hfind]
      exact released_removeTo hlen fun _ _ => rfl

/-- Three requests under the numbers 1, 2 and 3. -/
def sample : RhArray ℕ := ⟨fun i => ⟨some i, i + 1, 0⟩, 3⟩

theorem truncateHistory_exact_sample :
    let out := sample.truncateHistoryCallback 2
    out.1 = true ∧ out.2.1.entries = [⟨some 2, 3, 0⟩] ∧ out.2.2 = [0, 1] :=
  (truncateHistory_exact sample (by decide) (by decide) 2).2 [⟨some 0, 1, 0⟩] ⟨some 1, 2, 0⟩
    [⟨some 2, 3, 0⟩] rfl rfl _ (.tail _ (.head _))

end RhArray

end AbstractBFT
