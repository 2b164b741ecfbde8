import Mathlib.Logic.Function.Basic
/-!
# Entries of a partial map

What is in a map after one entry was written or erased.
-/

namespace Entries

open Function

variable {K V : Type*} [DecidableEq K] {f : K → Option V} {k k' : K} {v v' : V}

/-- An entry is the one that was written, or was there before. -/
theorem of_write (h : update f k (some v) k' = some v') :
    k' = k ∧ v' = v ∨ k' ≠ k ∧ f k' = some v' := by
  by_cases hk : k' = k
  · subst hk
    rw [update_self] at h
    exact .inl ⟨rfl, (Option.some.inj h).symm⟩
  · rw [update_of_ne hk] at h
    exact .inr ⟨hk, h⟩

/-- What is left after one was erased was there before. -/
theorem of_erase (h : update f k none k' = some v) : f k' = some v := by
  by_cases hk : k' = k
  · subst hk
    rw [update_self] at h
    cases h
  · rwa [update_of_ne hk] at h

/-- What all entries have, they have after one is written that has it. -/
theorem forall_write {Q : K → V → Prop} (h : ∀ k v, f k = some v → Q k v) (hnew : Q k v) (k' : K)
    (v' : V) (hk' : update f k (some v) k' = some v') : Q k' v' := by
  rcases of_write hk' with ⟨rfl, rfl⟩ | ⟨-, hold⟩
  · exact hnew
  · exact h k' v' hold

end Entries
