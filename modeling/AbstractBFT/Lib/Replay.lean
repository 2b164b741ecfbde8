import Mathlib.Data.List.Infix
import Mathlib.Tactic.Common
/-!
# Replaying a numbered log

The entries of a log carry numbers, and whoever follows the log applies
them in the order of these. `replay` is the state after the entries up to
a number. It depends on no entry behind that number, so followers that see
the log grow agree as far as both of them have come.
-/

namespace Replay

variable {α τ : Type*} {num : α → ℕ} {app : τ → α → τ} {log log' : List α} {t : τ} {n n' : ℕ}

/-- The state after the entries numbered `1` to `n`, from `t` on; a number
without an entry is passed over. -/
def replay (num : α → ℕ) (app : τ → α → τ) (log : List α) (t : τ) : ℕ → τ
  | 0 => t
  | n + 1 =>
    match log.find? fun a => num a == n + 1 with
    | some a => app (replay num app log t n) a
    | none => replay num app log t n

/-- The log has an entry for every number up to `n`. -/
def Covers (num : α → ℕ) (log : List α) (n : ℕ) : Prop :=
  ∀ k, 0 < k → k ≤ n → ∃ a ∈ log, num a = k

theorem Covers.mono (h : Covers num log n) (hlog : log <+: log') : Covers num log' n := by
  intro k hpos hk
  obtain ⟨a, ha, hnum⟩ := h k hpos hk
  exact ⟨a, hlog.subset ha, hnum⟩

theorem Covers.succ (h : Covers num log n) {a : α} (ha : a ∈ log) (hnum : num a = n + 1) :
    Covers num log (n + 1) := by
  intro k hpos hk
  rcases Nat.lt_or_ge n k with hlt | hge
  · exact ⟨a, ha, by omega⟩
  · exact h k hpos hge

/-- In a log with increasing numbers an entry is found by its number. -/
theorem find?_of_increasing (h : log.Pairwise fun a b => num a < num b) {a : α} (ha : a ∈ log) :
    log.find? (fun b => num b == num a) = some a := by
  induction log with
  | nil => cases ha
  | cons b log ih =>
    obtain ⟨hlt, hrest⟩ := List.pairwise_cons.1 h
    rcases List.mem_cons.1 ha with rfl | hmem
    · exact List.find?_cons_of_pos (beq_self_eq_true _)
    · have hne : (num b == num a) = false := beq_false_of_ne (hlt a hmem).ne
      rw [List.find?_cons, hne]
      exact ih hrest hmem

theorem replay_succ (h : log.Pairwise fun a b => num a < num b) {a : α} (ha : a ∈ log)
    (hnum : num a = n + 1) : replay num app log t (n + 1) = app (replay num app log t n) a := by
  have hfind := find?_of_increasing h ha
  rw [hnum] at hfind
  rw [replay, hfind]

/-- What comes behind in the log changes nothing. -/
theorem replay_extend (hlog : log <+: log') (hcov : Covers num log n) :
    replay num app log' t n = replay num app log t n := by
  induction n with
  | zero => rfl
  | succ n ih =>
    have hprev := ih fun k hpos hk => hcov k hpos (by omega)
    obtain ⟨a, ha, hnum⟩ := hcov (n + 1) (Nat.succ_pos n) le_rfl
    have hsome : (log.find? fun a => num a == n + 1).isSome := by
      rw [List.find?_isSome]
      exact ⟨a, ha, beq_iff_eq.2 hnum⟩
    obtain ⟨b, hb⟩ := Option.isSome_iff_exists.1 hsome
    obtain ⟨rest, rfl⟩ := hlog
    rw [replay, replay, List.find?_append, hb, hprev]
    rfl

/-- A record that entries only add to grows with the number. -/
theorem replay_grows {β : Type*} {rec : τ → List β} (happ : ∀ t a, rec t <+: rec (app t a))
    (h : n ≤ n') : rec (replay num app log t n) <+: rec (replay num app log t n') := by
  induction n', h using Nat.le_induction with
  | base => exact List.prefix_rfl
  | succ k _ ih =>
    refine ih.trans ?_
    rw [replay]
    split
    · exact happ _ _
    · exact List.prefix_rfl

end Replay
