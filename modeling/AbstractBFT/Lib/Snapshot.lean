import Mathlib.Data.Finset.Basic
/-!
# Copy-on-write snapshots

A memory of pages with one snapshot. Taking the snapshot copies nothing;
the first write to a page after it saves the page as it was, and a bitmap
marks the pages saved. Going back copies the saved pages into the memory
again, and what comes out is the memory the snapshot was taken of, however
many writes there were in between.
-/

namespace Snapshot

variable {P B : Type*} [DecidableEq P]

/-- The memory, the bitmap of the pages written since the snapshot, and
the copies of those pages. -/
structure Store (P B : Type*) where
  mem : P → B
  written : Finset P
  saved : P → Option B

/-- A snapshot of the memory as it is. -/
def Store.mark (s : Store P B) : Store P B := { s with written := ∅, saved := fun _ => none }

/-- The memory becomes `m`, after the pages `ps` are saved where they
were not yet. -/
def Store.write (s : Store P B) (ps : Finset P) (m : P → B) : Store P B where
  mem := m
  written := s.written ∪ ps
  saved := fun p => if p ∈ ps ∧ p ∉ s.written then some (s.mem p) else s.saved p

/-- Back to the snapshot. -/
def Store.restore (s : Store P B) : Store P B where
  mem := fun p => if p ∈ s.written then (s.saved p).getD (s.mem p) else s.mem p
  written := ∅
  saved := fun _ => none

/-- The snapshot is one of the memory `m`. -/
structure Holds (m : P → B) (s : Store P B) : Prop where
  saved : ∀ p ∈ s.written, s.saved p = some (m p)
  same : ∀ p ∉ s.written, s.mem p = m p

omit [DecidableEq P] in
theorem holds_mark (s : Store P B) : Holds s.mem s.mark where
  saved p hp := absurd hp (Finset.notMem_empty p)
  same _ _ := rfl

variable {m : P → B} {s : Store P B}

/-- Writes that save the pages they touch keep the snapshot. -/
theorem Holds.write {m' : P → B} (h : Holds m s) {ps : Finset P} (hframe : ∀ p ∉ ps, m' p = s.mem p) :
    Holds m (s.write ps m') := by
  refine ⟨fun p hp => ?_, fun p hp => ?_⟩
  · show (if p ∈ ps ∧ p ∉ s.written then some (s.mem p) else s.saved p) = some (m p)
    by_cases hw : p ∈ s.written
    · rw [if_neg fun hnot => hnot.2 hw]
      exact h.saved p hw
    · have hps : p ∈ ps := (Finset.mem_union.1 hp).resolve_left hw
      rw [if_pos ⟨hps, hw⟩, h.same p hw]
  · obtain ⟨hw, hps⟩ := Finset.notMem_union.1 hp
    exact (hframe p hps).trans (h.same p hw)

/-- **Going back gives the memory of the snapshot.** -/
theorem Holds.restore (h : Holds m s) : s.restore.mem = m := by
  funext p
  show (if p ∈ s.written then (s.saved p).getD (s.mem p) else s.mem p) = m p
  by_cases hw : p ∈ s.written
  · rw [if_pos hw, h.saved p hw]
    rfl
  · rw [if_neg hw]
    exact h.same p hw

theorem Holds.of_restore (h : Holds m s) : Holds m s.restore := by
  have hmark := holds_mark s.restore
  rw [h.restore] at hmark
  exact hmark

end Snapshot
