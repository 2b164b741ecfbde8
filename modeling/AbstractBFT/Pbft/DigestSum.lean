import AbstractBFT.Lib.Run
import AbstractBFT.Pbft.Partition
import Mathlib.Algebra.Ring.Int.Defs
/-!
# Adding and subtracting digests in any order

`DSum::add` and `DSum::sub` as operations on the number the limbs hold,
for every modulus the constructor may be given. `add` is addition modulo
`M`. `sub` compares the digest with the limbs from the digest's last one on,
which are 32 bits wide in the `-m32` build, and so adds `M` to sums that are
larger than the digest but not `2 ^ 96` times larger; there the result is
not reduced.
-/

namespace AbstractBFT

open Machine

/-- A call on a sum. -/
inductive SumOp where
  | add (d : Digest)
  | sub (d : Digest)
  deriving DecidableEq

namespace SumOp

def apply (M : Modulus) (s : ℕ) : SumOp → ℕ
  | .add d => if M.val ≤ s + d.toNat then s + d.toNat - M.val else s + d.toNat
  | .sub d => subSum M s d

/-- What the call is to add. -/
def value : SumOp → ℤ
  | .add d => d.toNat
  | .sub d => -d.toNat

/-- `sub` decides rightly whether to add the modulus. -/
def Fits (s : ℕ) : SumOp → Prop
  | .add _ => True
  | .sub d => s < d.toNat ∨ 2 ^ 128 ≤ s ∨ d.toNat ≤ s / 2 ^ 96

theorem apply_add {M : Modulus} (s : DSum M) (d : Digest) :
    apply M s.sum (.add d) = (s.add d).sum := rfl

variable {M : Modulus} {s : ℕ}

/-- **A call is right** exactly where it fits. -/
theorem apply_eq_iff (hM : 2 ^ 129 ≤ M.val) (hs : s < M.val) (o : SumOp) :
    (apply M s o : ℤ) = (s + o.value) % M.val ↔ o.Fits s := by
  cases o with
  | add d =>
    have hsum := DSum.add_sum ⟨s, hs⟩ d
    rw [← apply_add] at hsum
    refine iff_of_true ?_ trivial
    rw [hsum, value]
    push_cast
    rfl
  | sub d =>
    have hd := d.isLt
    rw [value, Fits, apply, subSum]
    -- the representative of the difference
    have hmod : ((s : ℤ) + -(d.toNat : ℤ)) % M.val =
        if s < d.toNat then (s : ℤ) - d.toNat + M.val else (s : ℤ) - d.toNat := by
      split
      · rw [← Int.add_emod_right, Int.emod_eq_of_lt (by omega) (by omega)]
        omega
      · rw [Int.emod_eq_of_lt (by omega) (by omega)]
        omega
    rw [hmod]
    split <;> split <;> omega

theorem apply_lt (hM : 2 ^ 129 ≤ M.val) (hs : s < M.val) {o : SumOp} (ho : o.Fits s) :
    apply M s o < M.val := by
  have hlt := Int.emod_lt_of_pos ((s : ℤ) + o.value) (by omega : (0 : ℤ) < M.val)
  rw [← (apply_eq_iff hM hs o).2 ho] at hlt
  omega

/-- What calls that fit leave, in whatever order they come. -/
theorem exec_apply (hM : 2 ^ 129 ≤ M.val) (hs : s < M.val) {ops : List SumOp}
    (h : Guarded (apply M) (fun s o => o.Fits s) s ops) :
    ((exec (apply M) s ops : ℕ) : ℤ) = (s + (ops.map value).sum) % M.val := by
  induction ops generalizing s with
  | nil => simp [Int.emod_eq_of_lt (Int.natCast_nonneg s) (Int.ofNat_lt.2 hs)]
  | cons o ops ih =>
    rw [exec_cons, ih (apply_lt hM hs h.1) h.2, (apply_eq_iff hM hs o).2 h.1, Int.emod_add_emod,
      List.map_cons, List.sum_cons, add_assoc]

/-- **Which calls are modular arithmetic.** Every `add` is, `sub` is
exactly where it fits, and two interleavings of the same calls that all
fit leave the same bytes. -/
theorem canonical_iff (M : Modulus) (hM : 2 ^ 129 ≤ M.val) (s : DSum M) (d : Digest) :
    apply M s.sum (.add d) = (s.sum + d.toNat) % M.val ∧
    ((apply M s.sum (.sub d) : ℤ) = ((s.sum : ℤ) - d.toNat) % M.val ↔
      s.sum < d.toNat ∨ 2 ^ 128 ≤ s.sum ∨ d.toNat ≤ s.sum / 2 ^ 96) ∧
    ∀ ops ops' : List SumOp, ops.Perm ops' →
      Guarded (apply M) (fun s o => o.Fits s) s.sum ops →
      Guarded (apply M) (fun s o => o.Fits s) s.sum ops' →
      leBytes 32 (exec (apply M) s.sum ops) = leBytes 32 (exec (apply M) s.sum ops') := by
  refine ⟨DSum.add_sum s d, apply_eq_iff hM s.lt (.sub d), fun ops ops' hperm h h' => ?_⟩
  have hsum := exec_apply hM s.lt h
  rw [(hperm.map value).sum_eq, ← exec_apply hM s.lt h'] at hsum
  rw [Int.ofNat_inj.1 hsum]

theorem canonical_iff_five :
    apply modulus 5 (.add 3) = (5 + 3) % modulus.val ∧
    ((apply modulus 5 (.sub 3) : ℤ) = (5 - 3) % modulus.val ↔
      5 < 3 ∨ 2 ^ 128 ≤ 5 ∨ 3 ≤ 5 / 2 ^ 96) ∧
    leBytes 32 (exec (apply modulus) 5 [.add 3, .sub 9]) =
      leBytes 32 (exec (apply modulus) 5 [.sub 9, .add 3]) :=
  have h := canonical_iff modulus two_pow_le_modulus ⟨5, by decide +kernel⟩ 3
  ⟨h.1, h.2.1, h.2.2 [.add 3, .sub 9] [.sub 9, .add 3] (.swap _ _ _)
    ⟨trivial, .inl (by decide +kernel), trivial⟩ ⟨.inl (by decide +kernel), trivial, trivial⟩⟩

/-- Taking 3 from 5 leaves `M + 2`, and not 2. -/
theorem sub_not_canonical :
    apply modulus 5 (.sub 3) = modulus.val + 2 ∧
    (apply modulus 5 (.sub 3) : ℤ) ≠ (5 - 3) % modulus.val := by
  decide +kernel

end SumOp

end AbstractBFT
