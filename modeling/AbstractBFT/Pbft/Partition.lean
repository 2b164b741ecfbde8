import AbstractBFT.Common.History
import Mathlib.Algebra.BigOperators.Group.Finset.Basic
import Mathlib.Data.Nat.ModEq
import Mathlib.Logic.Function.Basic
/-!
# PBFT — the partition tree

The service state is an array of blocks, and `PBFT_R_Partition.h` groups the
blocks into a tree of four levels: block `i` is leaf `i`, and a partition of
a level has 256 partitions of the next one below it. For each partition the
replica keeps the last checkpoint that modified it and an MD5 digest over
index, that checkpoint and contents; what counts as the contents of an inner
partition is the AdHash sum of the digests below it. When a digest changes,
the sum is changed with it by a subtraction and an addition.

`Tree.Summed` says that the sums are what they are for, and `Tree.Exact`
that the digest of a partition is one of its current contents. A tree that
is exact throughout has the digests that a computation from the blocks and
the last modifications alone gives (`Tree.eq_recompute`).
-/

namespace AbstractBFT

open Finset

/-! ## Sums of digests -/

/-- `mpn_set_str` for base 16 on the limbs of the `-m32` build. From the last byte on,
each one is or'ed in four bits further up, and where a limb is full the next
one starts with what is left of the byte. -/
def mpnSetStr (str : List ℕ) : ℕ :=
  let r := str.reverse.foldl (fun (r : ℕ × ℕ × ℕ × ℕ) b =>
    -- the limbs that are full, their size in bits, and the next one with its size
    let limb := (r.2.2.1 ||| b <<< r.2.2.2) % 2 ^ 32
    if r.2.2.2 + 4 = 32 then (r.1 + limb <<< r.2.1, r.2.1 + 32, b >>> 4, 0)
    else (r.1, r.2.1, limb, r.2.2.2 + 4)) (0, 0, 0, 0)
  r.1 + r.2.2.1 <<< r.2.1

/-- The characters `DSum::M` is set from: the first `nbytes` of the string.
They are handed over as they are, and not as digits. -/
def modulusStr : List ℕ := "d2a10a09a80bc599b4d60bbec06c05d5".toList.map Char.toNat

/-- `DSum::M`. -/
@[irreducible] def modulus : Modulus := ⟨mpnSetStr modulusStr, by decide +kernel, by decide +kernel⟩

/-- The characters leave more room over a digest than digits would. -/
theorem two_pow_le_modulus : 2 ^ 129 ≤ modulus.val := by
  decide +kernel

/-- `DSum::sub` on the number the limbs hold. Where the sum has no bits
above a digest's, the digest is compared with the sum from the digest's last
limb on (`&sum[dlimbs-1]`, limb 3 of 32 bits), so that the modulus is also
added to sums that do not need it; the result may reach the modulus. -/
def subSum (M : Modulus) (s : ℕ) (d : Digest) : ℕ :=
  (if s < 2 ^ 128 ∧ s / 2 ^ 96 < d.toNat then s + M.val else s) - d.toNat

@[inherit_doc subSum]
def DSum.sub (s : DSum modulus) (d : Digest) : ℕ := subSum modulus s.sum d

/-- "sum and d should be such that there is no borrow". -/
theorem DSum.no_borrow (s : DSum modulus) (d : Digest) :
    s.sub d + d.toNat =
      if s.sum < 2 ^ 128 ∧ s.sum / 2 ^ 96 < d.toNat then s.sum + modulus.val else s.sum := by
  have hM := two_pow_le_modulus
  rw [DSum.sub, subSum]
  split
  · omega
  · omega

/-- `sub` of the old digest and `add` of the new one, which every caller has
in this order. -/
def DSum.exchange (s : DSum modulus) (d d' : Digest) : DSum modulus where
  sum := if modulus.val ≤ s.sub d + d'.toNat then s.sub d + d'.toNat - modulus.val
    else s.sub d + d'.toNat
  lt := by
    have hM := two_pow_le_modulus
    have hs := s.lt
    have hd := d.isLt
    have hd' := d'.isLt
    have hsub := s.no_borrow d
    split at hsub <;> split <;> omega

theorem DSum.exchange_modEq (s : DSum modulus) (d d' : Digest) :
    (s.exchange d d').sum + d.toNat ≡ s.sum + d'.toNat [MOD modulus.val] := by
  have hsub := s.no_borrow d
  -- up to the modulus the difference is the difference
  have hdiff : s.sub d + d.toNat ≡ s.sum [MOD modulus.val] := by
    rw [hsub]
    split
    · exact Nat.add_modEq_right
    · exact Nat.ModEq.rfl
  have hsum : (s.exchange d d').sum ≡ s.sub d + d'.toNat [MOD modulus.val] := by
    change (if _ then _ else _) ≡ _ [MOD modulus.val]
    split
    · next hle =>
      have heq := Nat.sub_add_cancel hle
      conv_rhs => rw [← heq]
      exact Nat.add_modEq_right.symm
    · exact Nat.ModEq.rfl
  calc (s.exchange d d').sum + d.toNat
      ≡ s.sub d + d'.toNat + d.toNat [MOD modulus.val] := hsum.add_right _
    _ = s.sub d + d.toNat + d'.toNat := by omega
    _ ≡ s.sum + d'.toNat [MOD modulus.val] := hdiff.add_right _

/-- **The exchange is exact**, canonical form included. -/
theorem DSum.exchange_sum {s : DSum modulus} {d d' : Digest} {T T' : ℕ}
    (hs : s.sum = T % modulus.val) (hT : T' + d.toNat = T + d'.toNat) :
    (s.exchange d d').sum = T' % modulus.val := by
  have hmod : (s.exchange d d').sum + d.toNat ≡ T' + d.toNat [MOD modulus.val] :=
    calc (s.exchange d d').sum + d.toNat
        ≡ s.sum + d'.toNat [MOD modulus.val] := s.exchange_modEq d d'
      _ ≡ T + d'.toNat [MOD modulus.val] := by
        rw [hs]
        exact (Nat.mod_modEq T _).add_right _
      _ = T' + d.toNat := hT.symm
  have hcancel := Nat.ModEq.add_right_cancel' _ hmod
  rw [← Nat.mod_eq_of_lt (s.exchange d d').lt]
  exact hcancel

namespace Pbft

/-! ## The tree -/

/-- The contents of a block. -/
abbrev Block := List UInt8

/-- `PLevels - 1`, the level of the leaves. -/
def leafLevel : ℕ := 3

/-- `PChildren`. -/
def pChildren : ℕ := 256

/-- `PLevelSize`. -/
def pLevelSize (l : ℕ) : ℕ := pChildren ^ l

/-- `Part`: the last checkpoint that modified the partition, and its digest.
Sequence numbers are integers here, -1 stands for none. -/
structure Part where
  lm : ℤ
  d : Digest
  deriving DecidableEq

/-- `(np+PSize[l]-1)/PSize[l]`. -/
def parentCount (np : ℕ) : ℕ := (np + pChildren - 1) / pChildren

/-- The number of partitions of a level that have blocks. -/
def partCount (nb : ℕ) : ℕ → ℕ
  | 0 => 1
  | 1 => parentCount (parentCount nb)
  | 2 => parentCount nb
  | _ => nb

/-- The partitions right below partition `i` of level `l`. -/
def children (nb l i : ℕ) : Finset ℕ :=
  (Finset.range (partCount nb (l + 1))).filter fun c => c / pChildren = i

variable {l i : ℕ} {α : Type}

theorem mem_children {nb c : ℕ} :
    c ∈ children nb l i ↔ c < partCount nb (l + 1) ∧ c / pChildren = i := by
  rw [children, mem_filter, mem_range]

/-- `mem`, `ptree` and `stree`. -/
structure Tree where
  mem : ℕ → Block
  ptree : ℕ → ℕ → Part
  stree : ℕ → ℕ → DSum modulus

/-- A value at one partition. -/
def setAt {α : Type} (f : ℕ → ℕ → α) (l i : ℕ) (a : α) : ℕ → ℕ → α :=
  fun l' i' => if l' = l ∧ i' = i then a else f l' i'

@[simp] theorem setAt_self (f : ℕ → ℕ → α) (l i : ℕ) (a : α) : setAt f l i a l i = a :=
  if_pos ⟨rfl, rfl⟩

theorem setAt_of_ne {f : ℕ → ℕ → α} {l' i' : ℕ} {a : α} (h : ¬ (l' = l ∧ i' = i)) :
    setAt f l i a l' i' = f l' i' := if_neg h

/-- `digest(d, i, lm, data, size)`. -/
def partDigest (md5 : Md5) (i : ℕ) (lm : ℤ) (data : List UInt8) : Digest :=
  md5 (leBytes 4 i ++ leBytes 8 (lm % 2 ^ 64).toNat ++ data)

namespace Tree

variable (md5 : Md5)

/-- What the digest of a partition is over. -/
def data (t : Tree) (l i : ℕ) : List UInt8 :=
  if l = leafLevel then t.mem i else (t.stree l i).bytes

/-- `digest(d, l, i)`. -/
def digest (t : Tree) (l i : ℕ) : Digest := partDigest md5 i (t.ptree l i).lm (t.data l i)

/-- Change the information on a partition, and the sum it is part of. -/
def replace (t : Tree) (l i : ℕ) (p : Part) : Tree :=
  { t with
    ptree := setAt t.ptree l i p
    stree :=
      if l = 0 then t.stree
      else
        setAt t.stree (l - 1) (i / pChildren)
          ((t.stree (l - 1) (i / pChildren)).exchange (t.ptree l i).d p.d) }

/-- The sums are those of the digests below. -/
def Summed (nb : ℕ) (t : Tree) : Prop :=
  ∀ l < leafLevel, ∀ i,
    (t.stree l i).sum = (∑ c ∈ children nb l i, (t.ptree (l + 1) c).d.toNat) % modulus.val

/-- The digest of the partition is that of its contents. -/
def Exact (t : Tree) (l i : ℕ) : Prop := (t.ptree l i).d = t.digest md5 l i

variable {md5}

@[simp] theorem mem_replace (t : Tree) (l i : ℕ) (p : Part) : (t.replace l i p).mem = t.mem := rfl

@[simp] theorem ptree_replace (t : Tree) (l i : ℕ) (p : Part) :
    (t.replace l i p).ptree = setAt t.ptree l i p := rfl

variable {t : Tree} {l i l' i' nb : ℕ}
variable {p : Part} {h : ℕ}

/-- The sum of one partition changes. -/
theorem stree_replace (h : ¬ (l' + 1 = l ∧ i' = i / pChildren)) :
    (t.replace l i p).stree l' i' = t.stree l' i' := by
  change (if l = 0 then t.stree else _) l' i' = _
  split
  · rfl
  · exact setAt_of_ne fun heq => h ⟨by omega, heq.2⟩

theorem data_replace (h : ¬ (l' + 1 = l ∧ i' = i / pChildren)) :
    (t.replace l i p).data l' i' = t.data l' i' := by
  rw [data, data, stree_replace h, mem_replace]

/-- A change of a digest keeps the sums. -/
theorem Summed.replace (h : t.Summed nb) (hi : i < partCount nb l)
    (p : Part) : (t.replace l i p).Summed nb := by
  intro l' hl' i'
  by_cases hparent : l' + 1 = l ∧ i' = i / pChildren
  · obtain ⟨rfl, rfl⟩ := hparent
    have hmem : i ∈ children nb l' (i / pChildren) := mem_children.2 ⟨hi, rfl⟩
    have hstree : (t.replace (l' + 1) i p).stree l' (i / pChildren) =
        (t.stree l' (i / pChildren)).exchange (t.ptree (l' + 1) i).d p.d := by
      exact setAt_self _ _ _ _
    rw [hstree]
    refine DSum.exchange_sum (h l' hl' (i / pChildren)) ?_
    -- the other digests below are as they were
    have hothers : ∑ c ∈ (children nb l' (i / pChildren)).erase i,
          ((t.replace (l' + 1) i p).ptree (l' + 1) c).d.toNat =
        ∑ c ∈ (children nb l' (i / pChildren)).erase i, (t.ptree (l' + 1) c).d.toNat := by
      refine sum_congr rfl fun c hc => ?_
      rw [ptree_replace, setAt_of_ne fun heq => ne_of_mem_erase hc heq.2]
    rw [← add_sum_erase _ _ hmem, ← add_sum_erase _ _ hmem, hothers, ptree_replace,
      setAt_self]
    omega
  · rw [stree_replace hparent, h l' hl' i']
    refine congrArg (· % modulus.val) (sum_congr rfl fun c hc => ?_)
    rw [ptree_replace, setAt_of_ne fun heq => hparent ⟨heq.1, ?_⟩]
    rw [← (mem_children.1 hc).2, heq.2]

/-- What else is exact stays so, the partition above apart. -/
theorem Exact.replace (h : t.Exact md5 l' i') (hself : ¬ (l' = l ∧ i' = i))
    (habove : ¬ (l' + 1 = l ∧ i' = i / pChildren)) : (t.replace l i p).Exact md5 l' i' := by
  rw [Exact, Tree.digest, data_replace habove, ptree_replace, setAt_of_ne hself]
  exact h

/-- And so is a partition that gets the digest of its contents. -/
theorem exact_replace_self (hp : p.d = partDigest md5 i p.lm (t.data l i)) :
    (t.replace l i p).Exact md5 l i := by
  rw [Exact, Tree.digest, data_replace fun heq => by omega, ptree_replace, setAt_self]
  exact hp

/-! ## Computing from scratch -/

/-- The digest of partition `i`, `h` levels above the leaves, computed from
the blocks and the last modifications. -/
def recompute (md5 : Md5) (nb : ℕ) (mem : ℕ → Block) (lm : ℕ → ℕ → ℤ) : ℕ → ℕ → Digest
  | 0, i => partDigest md5 i (lm leafLevel i) (mem i)
  | h + 1, i =>
    partDigest md5 i (lm (2 - h) i)
      (leBytes 32
        ((∑ c ∈ children nb (2 - h) i, (recompute md5 nb mem lm h c).toNat) % modulus.val))

/-- Blocks and last modifications of the tree alone matter. -/
theorem recompute_congr {mem mem' : ℕ → Block} {lm lm' : ℕ → ℕ → ℤ}
    (hmem : ∀ i < nb, mem i = mem' i)
    (hlm : ∀ l ≤ leafLevel, ∀ i < partCount nb l, lm l i = lm' l i) (hh : h ≤ leafLevel)
    (hi : i < partCount nb (leafLevel - h)) :
    recompute md5 nb mem lm h i = recompute md5 nb mem' lm' h i := by
  induction h generalizing i with
  | zero => rw [recompute, recompute, hmem i hi, hlm leafLevel le_rfl i hi]
  | succ h ih =>
    have hlevel : leafLevel - (h + 1) = 2 - h := by
      rw [leafLevel]
      omega
    have hbelow : 2 - h + 1 = leafLevel - h := by
      omega
    rw [hlevel] at hi
    rw [recompute, recompute, hlm (2 - h) (by rw [leafLevel]; omega) i hi]
    congr 3
    refine sum_congr rfl fun c hc => ?_
    obtain ⟨hc, -⟩ := mem_children.1 hc
    rw [hbelow] at hc
    rw [ih (Nat.le_of_succ_le hh) hc]

/-- **The digests of an exact tree** are those computed from scratch. -/
theorem eq_recompute (hsum : t.Summed nb)
    (hexact : ∀ l ≤ leafLevel, ∀ i < partCount nb l, t.Exact md5 l i) (hh : h ≤ leafLevel)
    (hi : i < partCount nb (leafLevel - h)) :
    (t.ptree (leafLevel - h) i).d = recompute md5 nb t.mem (fun l i => (t.ptree l i).lm) h i := by
  induction h generalizing i with
  | zero => exact hexact leafLevel le_rfl i hi
  | succ h ih =>
    have hlevel : leafLevel - (h + 1) = 2 - h := by
      rw [leafLevel]
      omega
    have hle : h ≤ 2 := Nat.le_of_succ_le_succ hh
    rw [hlevel] at hi ⊢
    have hbelow : 2 - h + 1 = leafLevel - h := by
      omega
    have hinner : 2 - h ≠ leafLevel := by
      omega
    rw [hexact (2 - h) (by rw [leafLevel]; omega) i hi, Tree.digest, data, if_neg hinner,
      DSum.bytes, hsum (2 - h) (by rw [leafLevel]; omega) i, recompute]
    congr 3
    refine sum_congr rfl fun c hc => ?_
    obtain ⟨hc, -⟩ := mem_children.1 hc
    rw [hbelow] at hc ⊢
    rw [ih (Nat.le_of_succ_le hh) hc]

end Tree

end Pbft

end AbstractBFT
