import AbstractBFT.Common.Truncate
import AbstractBFT.Lib.Run
import Mathlib.Data.List.TakeWhile
/-!
# Ring — the checkpoint store

`R_Checkpoint_Store` keeps the checkpoint sets in two parallel arrays and
removes them by moving a lower cursor; only when the cursor has passed
`TRUNCATE_SIZE` the arrays are moved down. `store_refines` says that it is
a list in the order of `add`. The sets that an earlier `remove` dropped
without moving the arrays are never deleted, those that are, once.
-/

namespace AbstractBFT.Ring

open Machine Function

/-- `R_Checkpoint_Store`: the arrays with their size `used`, and what was
deleted so far. -/
structure CheckpointStore (P : Type) where
  by_chk_id : ℕ → ℤ
  by_set : ℕ → Option P
  used : ℕ
  size : ℕ
  lower : ℕ
  upper : ℕ
  last_removed : ℤ
  deleted : List P

/-- The calls that change the store. -/
inductive StoreCall (P : Type) where
  | add (seq : ℤ) (set : Option P)
  | remove (seq : ℤ)

/-- `TRUNCATE_SIZE`. -/
def truncateSize : ℕ := 16

namespace CheckpointStore

variable {P : Type}

/-- The constructor, on whatever the memory holds. -/
def new (ids : ℕ → ℤ) (sets : ℕ → Option P) : CheckpointStore P := ⟨ids, sets, 0, 0, 0, 0, 0, []⟩

variable (s : CheckpointStore P)

/-- The loop over the positions from `lower` on. -/
def position (seq : ℤ) : Option ℕ :=
  (List.range' s.lower (s.upper - s.lower)).find? fun pos => s.by_chk_id pos == seq

/-- `find`: the set, if there is one. -/
def find (seq : ℤ) : Option (Option P) := (s.position seq).map s.by_set

/-- `add`. -/
def add (seq : ℤ) (set : Option P) : CheckpointStore P :=
  { s with
    by_chk_id := update s.by_chk_id s.used seq
    by_set := update s.by_set s.used set
    used := s.used + 1
    size := s.size + 1
    upper := s.upper + 1 }

/-- `remove`. -/
def remove (seq : ℤ) : CheckpointStore P :=
  match s.position seq with
  | none => s
  | some pos =>
    let size := s.size - (pos - s.lower + 1)
    let lower := pos + 1
    if truncateSize < lower then
      { by_chk_id := RhArray.moveDown lower s.by_chk_id size
        by_set := RhArray.moveDown lower s.by_set size
        used := size
        size
        lower := 0
        upper := s.upper - lower
        last_removed := seq
        deleted := s.deleted ++ (List.range' s.lower (lower - s.lower)).filterMap s.by_set }
    else { s with size, lower, last_removed := seq }

def step : StoreCall P → CheckpointStore P
  | .add seq set => s.add seq set
  | .remove seq => s.remove seq

/-! ## What the store is for -/

/-- The entries in the order they were added, the number removed last, and
every set that was ever added. -/
structure Entries (P : Type) where
  kept : List (ℤ × Option P)
  last : ℤ
  added : List P

/-- A call: `remove` drops the entry with the ones added before. -/
def Entries.step (a : Entries P) : StoreCall P → Entries P
  | .add seq set => ⟨a.kept ++ [(seq, set)], a.last, a.added ++ set.toList⟩
  | .remove seq =>
    match a.kept.dropWhile (·.1 != seq) with
    | [] => a
    | _ :: rest => ⟨rest, seq, a.added⟩

/-- The entry at a position. -/
def entry (pos : ℕ) : ℤ × Option P := (s.by_chk_id pos, s.by_set pos)

/-- The store holds the entries from `lower` on, and what was deleted came
before them. -/
structure Holds (s : CheckpointStore P) (a : Entries P) : Prop where
  kept : a.kept = (List.range' s.lower s.size).map s.entry
  upper : s.upper = s.lower + s.size
  used : s.used = s.upper
  last : s.last_removed = a.last
  deleted : List.Sublist (s.deleted ++ a.kept.filterMap Prod.snd) a.added

variable {s : CheckpointStore P} {a : Entries P}

theorem Holds.position (h : Holds s a) (seq : ℤ) :
    s.position seq = (List.range' s.lower s.size).find? fun pos => s.by_chk_id pos == seq := by
  rw [CheckpointStore.position, h.upper, Nat.add_sub_cancel_left]

/-- The entry that is found, and the ones behind it. -/
theorem Holds.dropWhile_eq (h : Holds s a) {seq : ℤ} {pos : ℕ}
    (hfind : s.position seq = some pos) : ∃ k < s.size, pos = s.lower + k ∧
      a.kept.dropWhile (·.1 != seq) =
        s.entry pos :: (List.range' (pos + 1) (s.size - (k + 1))).map s.entry := by
  rw [h.position] at hfind
  obtain ⟨hpos, as, bs, hrange, hbefore⟩ := List.find?_eq_some_iff_append.1 hfind
  obtain ⟨k, -, rfl, hcons⟩ := List.range'_eq_append_iff.1 hrange
  rw [Nat.mul_one] at hcons
  obtain ⟨rfl, hlt, rfl⟩ := List.range'_eq_cons_iff.1 hcons.symm
  refine ⟨k, by omega, rfl, ?_⟩
  rw [h.kept, hrange, List.map_append, List.map_cons, List.dropWhile_append_of_pos,
    List.dropWhile_cons_of_neg, Nat.sub_sub]
  · simpa [entry] using hpos
  · intro x hx
    obtain ⟨p, hp, rfl⟩ := List.mem_map.1 hx
    simpa [entry] using hbefore p hp

theorem Holds.add (h : Holds s a) (seq : ℤ) (set : Option P) :
    Holds (s.add seq set) (a.step (.add seq set)) := by
  have hused : s.used = s.lower + s.size := h.used.trans h.upper
  have hself : (s.add seq set).entry s.used = (seq, set) :=
    Prod.ext (update_self ..) (update_self ..)
  have hold : ∀ pos ∈ List.range' s.lower s.size, s.entry pos = (s.add seq set).entry pos := by
    intro pos hpos
    have hne : pos ≠ s.used := by
      have := (List.mem_range'_1.1 hpos).2
      omega
    exact Prod.ext (update_of_ne hne ..).symm (update_of_ne hne ..).symm
  refine ⟨?_, ?_, congrArg (· + 1) h.used, h.last, ?_⟩
  · show a.kept ++ _ = (List.range' s.lower (s.size + 1)).map (s.add seq set).entry
    rw [List.range'_concat, List.map_append, h.kept, Nat.one_mul, ← hused,
      List.map_congr_left hold, List.map_singleton, hself]
  · show s.upper + 1 = s.lower + (s.size + 1)
    rw [h.upper, Nat.add_assoc]
  · show List.Sublist (s.deleted ++ (a.kept ++ [(seq, set)]).filterMap Prod.snd) (a.added ++ _)
    rw [List.filterMap_append, ← List.append_assoc]
    refine h.deleted.append ?_
    cases set <;> exact List.Sublist.refl _

theorem Holds.remove (h : Holds s a) (seq : ℤ) : Holds (s.remove seq) (a.step (.remove seq)) := by
  rw [CheckpointStore.remove, Entries.step]
  cases hfind : s.position seq with
  | none =>
    have hnone : a.kept.dropWhile (·.1 != seq) = [] := by
      rw [h.position] at hfind
      rw [h.kept, List.dropWhile_eq_nil_iff]
      intro x hx
      obtain ⟨pos, hpos, rfl⟩ := List.mem_map.1 hx
      simpa [entry] using List.find?_eq_none.1 hfind pos hpos
    rw [hnone]
    exact h
  | some pos =>
    obtain ⟨k, hk, rfl, hdrop⟩ := h.dropWhile_eq hfind
    have hupper := h.upper
    -- the sets up to the position, and those that are kept
    have hdel : List.Sublist (s.deleted ++ ((List.range' s.lower (k + 1)).filterMap s.by_set ++
        ((List.range' (s.lower + k + 1) (s.size - (k + 1))).map s.entry).filterMap Prod.snd))
        a.added := by
      have hdel := h.deleted
      rw [h.kept, ← Nat.add_sub_cancel' hk, ← List.range'_append_1, List.map_append,
        List.filterMap_append, List.filterMap_map] at hdel
      exact hdel
    rw [hdrop]
    simp only [Nat.add_sub_cancel_left]
    split
    · have hmoved : ∀ {α : Type} (f : ℕ → α), ∀ j < s.size - (k + 1),
          f (s.lower + k + 1 + j) = RhArray.moveDown (s.lower + k + 1) f (s.size - (k + 1)) j :=
        fun f j hj => ((RhArray.moveDown_apply (by omega) _ _).trans (if_pos hj)).symm
      refine ⟨?_, by dsimp only; omega, by dsimp only; omega, rfl, ?_⟩
      · dsimp only
        rw [List.range'_eq_map_range, List.map_map, ← List.range_eq_range']
        exact List.map_congr_left fun j hj =>
          Prod.ext (hmoved _ j (List.mem_range.1 hj)) (hmoved _ j (List.mem_range.1 hj))
      · dsimp only
        rw [List.append_assoc, show s.lower + k + 1 - s.lower = k + 1 by omega]
        exact hdel
    · refine ⟨rfl, by dsimp only; omega, h.used, rfl, ?_⟩
      exact ((List.Sublist.refl _).append (List.sublist_append_right ..)).trans hdel

/-- **The store is a list.** -/
theorem store_refines (ids : ℕ → ℤ) (sets : ℕ → Option P) (calls : List (StoreCall P)) :
    let s := exec step (new ids sets) calls
    let a := exec Entries.step ⟨[], 0, []⟩ calls
    (∀ seq, s.find seq = (a.kept.find? (·.1 == seq)).map Prod.snd) ∧ s.last_removed = a.last ∧
      List.Sublist (s.deleted ++ a.kept.filterMap Prod.snd) a.added := by
  have hstep : ∀ (s : CheckpointStore P) (a : Entries P) c, Holds s a →
      Holds (s.step c) (a.step c) := by
    intro s a c h
    cases c with
    | add seq set => exact h.add seq set
    | remove seq => exact h.remove seq
  have h := exec_simulation hstep (s := new ids sets) (t := ⟨[], 0, []⟩)
    ⟨rfl, rfl, rfl, rfl, List.Sublist.refl _⟩ calls
  refine ⟨fun seq => ?_, h.last, h.deleted⟩
  rw [find, h.position, h.kept, List.find?_map, Option.map_map]
  rfl

end CheckpointStore

end AbstractBFT.Ring
