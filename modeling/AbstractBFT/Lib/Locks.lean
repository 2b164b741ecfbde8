import Mathlib.Data.Finset.Insert
import Mathlib.Data.Finset.Basic
import Mathlib.Tactic.Common
/-!
# Mutexes that are not recursive

A thread locks and unlocks mutexes one after another. `performAll` runs a
list of such operations from the set of mutexes the thread holds, and
fails where the thread locks one that it holds already, which would block
it forever, or unlocks one that it does not hold. A call is `Disciplined`
if it does neither and, if it returns, holds nothing then.
-/

namespace Locks

/-- An operation on a mutex. -/
inductive Op (μ : Type*) where
  | lock (m : μ)
  | unlock (m : μ)
  deriving DecidableEq

variable {μ : Type*} [DecidableEq μ] {held held' : Finset μ} {m : μ}

/-- What the thread holds after an operation; `none` if it is stuck, or the
operation is undefined. -/
def Op.perform (held : Finset μ) : Op μ → Option (Finset μ)
  | .lock m => if m ∈ held then none else some (insert m held)
  | .unlock m => if m ∈ held then some (held.erase m) else none

/-- What the thread holds after the operations. -/
def performAll (held : Finset μ) : List (Op μ) → Option (Finset μ)
  | [] => some held
  | op :: ops => (op.perform held).bind fun held => performAll held ops

theorem performAll_append (ops ops' : List (Op μ)) :
    performAll held (ops ++ ops') =
      (performAll held ops).bind fun held => performAll held ops' := by
  induction ops generalizing held with
  | nil => rfl
  | cons op ops ih =>
    rw [List.cons_append, performAll, performAll]
    cases op.perform held with
    | none => rfl
    | some held => exact ih

/-- **A critical section.** A mutex locked and unlocked leaves what the
thread holds. -/
theorem performAll_section (h : m ∉ held) (ops : List (Op μ)) :
    performAll held (.lock m :: .unlock m :: ops) = performAll held ops := by
  rw [performAll, Op.perform, if_neg h, Option.bind_some, performAll, Op.perform,
    if_pos (Finset.mem_insert_self m held), Option.bind_some, Finset.erase_insert h]

/-- A call: the operations it performs, and whether it returns. -/
structure Call (μ : Type*) where
  ops : List (Op μ)
  returns : Bool

/-- A call made with nothing held locks nothing twice and returns with
nothing held. -/
def Call.Disciplined (c : Call μ) : Prop :=
  ∃ held, performAll ∅ c.ops = some held ∧ (c.returns = true → held = ∅)

theorem Call.Disciplined.of_performAll {c : Call μ} (h : performAll ∅ c.ops = some ∅) :
    c.Disciplined :=
  ⟨∅, h, fun _ => rfl⟩

/-- A call that gets stuck. -/
theorem Call.not_disciplined_of_none {c : Call μ} (h : performAll ∅ c.ops = none) :
    ¬ c.Disciplined := by
  rintro ⟨held, hheld, -⟩
  rw [h] at hheld
  cases hheld

/-- A call that returns with a mutex held. -/
theorem Call.not_disciplined_of_mem {c : Call μ} (h : performAll ∅ c.ops = some held)
    (hm : m ∈ held) (hret : c.returns = true) : ¬ c.Disciplined := by
  rintro ⟨held', hheld', hempty⟩
  obtain rfl := Option.mem_unique h hheld'
  rw [hempty hret] at hm
  exact absurd hm (Finset.notMem_empty m)

end Locks
