import Mathlib.Data.List.Pairwise
import Mathlib.Logic.Function.Basic
import Mathlib.Tactic.Common
/-!
# Logs without repetition

A server that must not do a thing twice keeps, for each client, the number
of the last thing it did for it, and does only what has a higher number.
`Once.Tracks` says what the table is to the log of what was done; `concat`
is the step, and `nodup` what comes of it.
-/

namespace Once

variable {α K : Type*} {key : α → K} {num : α → ℕ}

/-- The table `last` belongs to the log: the numbers of each key go up, and
`last` has the highest, `0` where there is none. -/
structure Tracks (key : α → K) (num : α → ℕ) (last : K → ℕ) (log : List α) : Prop where
  up : log.Pairwise fun a b => key a = key b → num a < num b
  le : ∀ a ∈ log, num a ≤ last (key a)
  source : ∀ k, last k = 0 ∨ ∃ a ∈ log, key a = k ∧ num a = last k

variable {last : K → ℕ} {log : List α}

theorem Tracks.nil (key : α → K) (num : α → ℕ) : Tracks key num (fun _ => 0) [] :=
  ⟨.nil, nofun, fun _ => Or.inl rfl⟩

/-- **One more thing is done**, with a number that is new for its key. -/
theorem Tracks.concat [DecidableEq K] (h : Tracks key num last log) {a : α}
    (ha : last (key a) < num a) :
    Tracks key num (Function.update last (key a) (num a)) (log ++ [a]) := by
  refine ⟨?_, fun b hb => ?_, fun k => ?_⟩
  · refine List.pairwise_append.2 ⟨h.up, List.pairwise_singleton _ _, fun b hb c hc hkey => ?_⟩
    obtain rfl := List.mem_singleton.1 hc
    have := h.le b hb
    rw [hkey] at this
    omega
  · rcases List.mem_append.1 hb with hb | hb
    · have hle := h.le b hb
      by_cases hkey : key b = key a
      · rw [hkey, Function.update_self]
        rw [hkey] at hle
        omega
      · rwa [Function.update_of_ne hkey]
    · obtain rfl := List.mem_singleton.1 hb
      exact Nat.le_of_eq (Function.update_self (key b) (num b) last).symm
  · by_cases hk : k = key a
    · subst hk
      exact Or.inr ⟨a, by simp, rfl, by rw [Function.update_self]⟩
    · rw [Function.update_of_ne hk]
      refine (h.source k).imp_right ?_
      rintro ⟨b, hb, hkey, hnum⟩
      exact ⟨b, List.mem_append_left _ hb, hkey, hnum⟩

/-- **Nothing is done twice.** -/
theorem Tracks.nodup (h : Tracks key num last log) : (log.map fun a => (key a, num a)).Nodup := by
  refine (List.pairwise_map).2 (h.up.imp ?_)
  intro a b hab heq
  obtain ⟨hkey, hnum⟩ := Prod.mk.inj heq
  have := hab hkey
  omega

end Once
