import Mathlib.Data.Finset.Card
import Mathlib.Tactic.Common
/-!
# Quorums against a bounded set of faulty nodes

Counting facts about finite sets of nodes of which at most `f` are
faulty: more than `f` nodes hold a correct one, and two sets that
together count more than the universe and the faults share a correct
node.
-/

namespace Quorum

open Finset

variable {ι : Type*} [DecidableEq ι] {faulty S T U : Finset ι} {f : ℕ}

/-- More nodes than there are faults hold a correct one. -/
theorem exists_correct_of_card (hf : faulty.card ≤ f) (hS : f < S.card) : ∃ i ∈ S, i ∉ faulty := by
  by_contra hc
  push Not at hc
  have := card_le_card (show S ⊆ faulty from hc)
  omega

/-- **Quorum intersection.** Two sets of nodes that count more than the
universe and the faults together share a correct node. -/
theorem exists_correct_inter (hf : faulty.card ≤ f) (hS : S ⊆ U) (hT : T ⊆ U)
    (hcard : U.card + f < S.card + T.card) : ∃ i, i ∈ S ∧ i ∈ T ∧ i ∉ faulty := by
  have hunion : (S ∪ T).card ≤ U.card := card_le_card (union_subset hS hT)
  have hsum := card_union_add_card_inter S T
  obtain ⟨i, hi, hic⟩ := exists_correct_of_card (S := S ∩ T) hf (by omega)
  exact ⟨i, (mem_inter.1 hi).1, (mem_inter.1 hi).2, hic⟩

end Quorum
