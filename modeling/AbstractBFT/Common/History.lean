import Mathlib.Algebra.BigOperators.Group.List.Basic
import Mathlib.Algebra.GroupWithZero.Nat
import Mathlib.Data.Set.Function
import Mathlib.Tactic.Common
/-!
# Digests and the request history

`Digest` and `DSum` of `protocols/common`, and the request history log
`Req_history_log` every protocol instance keeps. The log's digest is the
MD5 of an AdHash sum of the request digests: `addRequests_sum` says what
the sum is after any sequence of `add_request` calls, and from it which
pairs of histories the digest tells apart.

Here and in all other modules sizes and layouts are those of the `-m32` build:
`long` and pointers have 32 bits, and a `long long` in a structure is aligned
to four bytes.
-/

namespace AbstractBFT

open Function List

/-- A digest: 128 bits, compared bit by bit. -/
abbrev Digest := BitVec 128

/-- `Digest::is_zero`, which looks at the first of the four words. -/
def digestIsZero (d : Digest) : Bool := d.toNat % 2 ^ 32 == 0

/-- MD5, over the bytes it is fed. -/
abbrev Md5 := List UInt8 → Digest

/-- The `k` low bytes of a number, least significant first. -/
def leBytes (k x : ℕ) : List UInt8 := (List.range k).map fun i => UInt8.ofNat (x / 2 ^ (8 * i))

@[simp] theorem length_leBytes (k x : ℕ) : (leBytes k x).length = k := by simp [leBytes]

/-- The number that stands in these bytes. -/
def readLe (bs : List UInt8) : ℕ := bs.foldr (fun b n => b.toNat + 256 * n) 0

theorem readLe_leBytes (k x : ℕ) : readLe (leBytes k x) = x % 256 ^ k := by
  induction k generalizing x with
  | zero => simp [readLe, leBytes, Nat.mod_one]
  | succ k ih =>
    have hcons : leBytes (k + 1) x = UInt8.ofNat x :: leBytes k (x / 256) := by
      unfold leBytes
      rw [range_succ_eq_map, map_cons, map_map, Nat.mul_zero, pow_zero, Nat.div_one]
      refine congrArg _ (map_congr_left fun i _ => ?_)
      rw [Nat.div_div_eq_div_mul, comp_apply, Nat.mul_succ, Nat.add_comm, pow_add]
      rfl
    rw [hcons]
    show (UInt8.ofNat x).toNat + 256 * readLe (leBytes k (x / 256)) = _
    rw [ih, pow_succ', Nat.mod_mul]
    simp

/-- The low bytes of a number determine it up to the bytes left out. -/
theorem mod_eq_of_leBytes_eq {k x y : ℕ} (h : leBytes k x = leBytes k y) :
    x % 2 ^ (8 * k) = y % 2 ^ (8 * k) := by
  have hread := congrArg readLe h
  rw [readLe_leBytes, readLe_leBytes] at hread
  rw [pow_mul]
  exact hread

theorem toNat_inj_of_leBytes_eq {k w : ℕ} (hw : w = 8 * k) {x y : BitVec w}
    (h : leBytes k x.toNat = leBytes k y.toNat) : x = y := by
  have hmod := mod_eq_of_leBytes_eq h
  subst hw
  rw [Nat.mod_eq_of_lt x.isLt, Nat.mod_eq_of_lt y.isLt] at hmod
  exact BitVec.eq_of_toNat_eq hmod

/-- The AdHash modulus `DSum::M`. "Modulus for sums must be at most
nbits-1 long", and `add` subtracts it at most once, so it is no shorter
than a digest. -/
structure Modulus where
  val : ℕ
  digest_le : 2 ^ 128 ≤ val
  lt_nbits : val < 2 ^ 255

/-- An AdHash sum, kept below the modulus. -/
structure DSum (M : Modulus) where
  sum : ℕ
  lt : sum < M.val

namespace DSum

variable {M : Modulus}

theorem ext_sum {a b : DSum M} (h : a.sum = b.sum) : a = b := by
  cases a; cases b; cases h; rfl

/-- `DSum()`. -/
def zero (M : Modulus) : DSum M := ⟨0, lt_of_lt_of_le (by decide) M.digest_le⟩

/-- `DSum::add`: add the digest, and subtract the modulus once if the
result reaches it. -/
def add (s : DSum M) (d : Digest) : DSum M where
  sum := if M.val ≤ s.sum + d.toNat then s.sum + d.toNat - M.val else s.sum + d.toNat
  lt := by
    have hs := s.lt
    have hM := M.digest_le
    have hd := d.isLt
    split <;> omega

/-- One conditional subtraction is the whole reduction. -/
theorem add_sum (s : DSum M) (d : Digest) : (s.add d).sum = (s.sum + d.toNat) % M.val := by
  have hs := s.lt
  have hM := M.digest_le
  rw [add]
  split
  · next h => rw [Nat.mod_eq_sub_mod h, Nat.mod_eq_of_lt (by omega)]
  · next h => rw [Nat.mod_eq_of_lt (by omega)]

/-- The 32 bytes of the sum. -/
def bytes (s : DSum M) : List UInt8 := leBytes 32 s.sum

end DSum

/-- `Rh_entry`. The request is `none` where the code holds a null pointer
for a request it only knows by name. -/
structure RhEntry (AReq : Type*) where
  req : Option AReq
  seq : ℕ
  d_h : Digest
  deriving DecidableEq

/-- `Req_history_log`: the entries, and the AdHash sum of every request
that was ever added. -/
structure ReqHistoryLog (M : Modulus) (AReq : Type*) where
  rh : List (RhEntry AReq)
  rh_d : DSum M

namespace ReqHistoryLog

variable {M : Modulus} {AReq : Type*} (md5 : Md5) (digest : AReq → Digest)

def empty (M : Modulus) (AReq : Type*) : ReqHistoryLog M AReq := ⟨[], DSum.zero M⟩

variable (log : ReqHistoryLog M AReq)

/-- `rh_digest`: MD5 of the sum. -/
def rhDigest : Digest := md5 log.rh_d.bytes

/-- `add_request`: the digest it returns through its reference argument
is the history digest after the request, which the entry also stores. -/
def addRequest (req : AReq) (seq : ℕ) : ReqHistoryLog M AReq × Digest :=
  let rh_d := log.rh_d.add (digest req)
  let d := md5 rh_d.bytes
  (⟨log.rh ++ [⟨some req, seq, d⟩], rh_d⟩, d)

/-- `truncate_history`: drop every entry up to the first one numbered
`seq`; `none` where there is none and the log stays as it is. The sum is
left alone. -/
def truncateHistory (seq : ℕ) : Option (ReqHistoryLog M AReq) :=
  match log.rh.findIdx? (fun e => e.seq == seq) with
  | none => none
  | some pos => some { log with rh := log.rh.drop (pos + 1) }

/-- Truncation only takes entries from the front. -/
theorem truncateHistory_getD_suffix (seq : ℕ) :
    ((log.truncateHistory seq).getD log).rh <:+ log.rh := by
  unfold truncateHistory
  split
  · exact suffix_rfl
  · exact drop_suffix _ _

/-- `TRUNCATE_SIZE`. -/
def truncateSize : ℕ := 1024

/-- `should_checkpoint`. -/
def shouldCheckpoint : Bool :=
  log.rh.length != 0 && log.rh.length % truncateSize == 0

/-- `get_top_seqno`. -/
def getTopSeqno : ℕ :=
  match log.rh.getLast? with
  | none => 0
  | some e => e.seq

/-- A sequence of `add_request` calls, each with its sequence number. -/
def addRequests (l : List (AReq × ℕ)) : ReqHistoryLog M AReq :=
  l.foldl (fun log p => (log.addRequest md5 digest p.1 p.2).1) log

/-- The requests the log lists, in its order. -/
def requests : List (Option AReq) := log.rh.map (·.req)

variable {md5 digest} {log : ReqHistoryLog M AReq}

@[simp] theorem addRequests_nil : log.addRequests md5 digest [] = log := rfl

@[simp] theorem addRequests_cons (p : AReq × ℕ) (l : List (AReq × ℕ)) :
    log.addRequests md5 digest (p :: l) =
      (log.addRequest md5 digest p.1 p.2).1.addRequests md5 digest l := rfl

/-- The log lists what was added, in order, after what it had. -/
theorem requests_addRequests (l : List (AReq × ℕ)) :
    (log.addRequests md5 digest l).requests = log.requests ++ l.map fun p => some p.1 := by
  induction l generalizing log with
  | nil => simp
  | cons p l ih => rw [addRequests_cons, ih]; simp [requests, addRequest]

/-- **The sum after any sequence of calls** is the sum of the digests,
reduced. -/
theorem addRequests_sum (l : List (AReq × ℕ)) :
    (log.addRequests md5 digest l).rh_d.sum =
      (log.rh_d.sum + (l.map fun p => (digest p.1).toNat).sum) % M.val := by
  induction l generalizing log with
  | nil => simp [Nat.mod_eq_of_lt log.rh_d.lt]
  | cons p l ih =>
    rw [addRequests_cons, ih]
    simp only [addRequest, DSum.add_sum, Nat.mod_add_mod, map_cons, sum_cons]
    rw [Nat.add_assoc]

/-- **Reordering the requests does not move the history digest.** -/
theorem rhDigest_addRequests_perm {l₁ l₂ : List (AReq × ℕ)}
    (h : (l₁.map Prod.fst).Perm (l₂.map Prod.fst)) :
    (log.addRequests md5 digest l₁).rhDigest md5 =
      (log.addRequests md5 digest l₂).rhDigest md5 := by
  have hsum : (l₁.map fun p => (digest p.1).toNat).sum =
      (l₂.map fun p => (digest p.1).toNat).sum := by
    have := (h.map fun r => (digest r).toNat).sum_eq
    simpa [comp_def] using this
  have hd : (log.addRequests md5 digest l₁).rh_d = (log.addRequests md5 digest l₂).rh_d :=
    DSum.ext_sum (by rw [addRequests_sum, addRequests_sum, hsum])
  rw [rhDigest, rhDigest, hd]

/-- **Reading a multiset of digests back.** Where the request digest is
injective on what two sequences hold, equal multisets of digests are
reorderings of one another. -/
theorem perm_of_digests {l₁ l₂ : List AReq} (hreq : Set.InjOn digest {r | r ∈ l₁ ∨ r ∈ l₂})
    (h : (l₁.map digest).Perm (l₂.map digest)) : l₁.Perm l₂ := by
  induction l₁ generalizing l₂ with
  | nil => simpa using h
  | cons a l ih =>
    have hmem : digest a ∈ l₂.map digest := h.subset (by simp)
    obtain ⟨b, hb, hab⟩ := mem_map.1 hmem
    obtain rfl : b = a := hreq (Or.inr hb) (by simp) hab
    obtain ⟨s, t, rfl⟩ := append_of_mem hb
    refine List.Perm.trans (.cons b (@ih (s ++ t) ?_ ?_)) perm_middle.symm
    · refine hreq.mono fun r hr => ?_
      simp only [Set.mem_ofPred_eq, mem_append, mem_cons] at hr ⊢
      tauto
    · have := h.trans ((@perm_middle _ b s t).map digest)
      simpa using this.cons_inv

/-! ## What the history digest identifies

The assumptions are the two the digest rests on, taken over the
sequences of calls `L` under comparison: MD5 does not collide on their
requests, and two of them with the same history digest added the same
multiset of request digests. -/

section Identify

variable (md5 digest log)

/-- MD5 does not collide on the requests the sequences hold. -/
def RequestsDistinct (L : Set (List (AReq × ℕ))) : Prop :=
  Set.InjOn digest {r | ∃ l ∈ L, r ∈ l.map Prod.fst}

/-- No accidental collision of distinct multisets of digests. -/
def SumsDistinct (L : Set (List (AReq × ℕ))) : Prop :=
  ∀ l₁ ∈ L, ∀ l₂ ∈ L,
    (log.addRequests md5 digest l₁).rhDigest md5 =
        (log.addRequests md5 digest l₂).rhDigest md5 →
      (l₁.map fun p => digest p.1).Perm (l₂.map fun p => digest p.1)

variable {md5 digest log} {L : Set (List (AReq × ℕ))}
variable {l₁ l₂ : List (AReq × ℕ)}

/-- **The history digest identifies the requests, not their order.** -/
theorem rhDigest_eq_iff_perm (hreq : RequestsDistinct digest L)
    (hsum : SumsDistinct md5 digest log L) (h₁ : l₁ ∈ L) (h₂ : l₂ ∈ L) :
    (log.addRequests md5 digest l₁).rhDigest md5 =
        (log.addRequests md5 digest l₂).rhDigest md5 ↔
      (l₁.map Prod.fst).Perm (l₂.map Prod.fst) := by
  refine ⟨fun h => ?_, rhDigest_addRequests_perm⟩
  refine perm_of_digests (hreq.mono ?_) (by simpa [comp_def] using hsum l₁ h₁ l₂ h₂ h)
  rintro r (hr | hr)
  exacts [⟨l₁, h₁, hr⟩, ⟨l₂, h₂, hr⟩]

/-- Two logs grown from one list the same requests exactly if the same
requests were added. -/
theorem requests_addRequests_inj :
    (log.addRequests md5 digest l₁).requests = (log.addRequests md5 digest l₂).requests ↔
      l₁.map Prod.fst = l₂.map Prod.fst := by
  rw [requests_addRequests, requests_addRequests, append_cancel_left_eq,
    ← (Option.some_injective AReq).list_map.eq_iff]
  simp [comp_def]

/-- **When equal history digests mean equal ordered histories**: for two
sequences of calls, and for `3f+1` replicas whose replies carry them,
exactly when the sequences are not different orderings of the same
requests. -/
theorem rhDigest_identifies_iff (hreq : RequestsDistinct digest L)
    (hsum : SumsDistinct md5 digest log L) :
    (∀ l₁ ∈ L, ∀ l₂ ∈ L,
      (((log.addRequests md5 digest l₁).rhDigest md5 =
          (log.addRequests md5 digest l₂).rhDigest md5 →
        (log.addRequests md5 digest l₁).requests = (log.addRequests md5 digest l₂).requests) ↔
      ((l₁.map Prod.fst).Perm (l₂.map Prod.fst) → l₁.map Prod.fst = l₂.map Prod.fst))) ∧
    ∀ (f : ℕ) (executed : Fin (3 * f + 1) → List (AReq × ℕ)), (∀ i, executed i ∈ L) →
      (((∀ i j, (log.addRequests md5 digest (executed i)).rhDigest md5 =
          (log.addRequests md5 digest (executed j)).rhDigest md5) →
        ∀ i j, (log.addRequests md5 digest (executed i)).requests =
          (log.addRequests md5 digest (executed j)).requests) ↔
      ((∀ i j, ((executed i).map Prod.fst).Perm ((executed j).map Prod.fst)) →
        ∀ i j, (executed i).map Prod.fst = (executed j).map Prod.fst)) := by
  refine ⟨fun l₁ h₁ l₂ h₂ => ?_, fun f executed hL => ?_⟩
  · rw [rhDigest_eq_iff_perm hreq hsum h₁ h₂, requests_addRequests_inj]
  · have hdig : ∀ i j, (log.addRequests md5 digest (executed i)).rhDigest md5 =
        (log.addRequests md5 digest (executed j)).rhDigest md5 ↔
        ((executed i).map Prod.fst).Perm ((executed j).map Prod.fst) :=
      fun i j => rhDigest_eq_iff_perm hreq hsum (hL i) (hL j)
    simp only [hdig, requests_addRequests_inj]

end Identify

/-! A concrete instance: requests are numbers and their own digests, and
MD5 reads its first 16 bytes back as a number. -/

section Sample

/-- A modulus of the required length. -/
def sampleModulus : Modulus := ⟨2 ^ 254, by decide, by decide⟩

/-- The first 16 bytes, as a number. -/
def sampleMd5 : Md5 := fun bs =>
  BitVec.ofNat 128 ((bs.take 16).foldr (fun b n => b.toNat + 256 * n) 0)

/-- Two sequences that begin with the same request. -/
def sampleSequences : Set (List (ℕ × ℕ)) := {[(1, 0), (2, 1)], [(1, 0), (3, 1)]}

/-- The two assumptions hold of the two sequences, so there the digest
tells the histories apart. -/
theorem rhDigest_identifies_sample :
    RequestsDistinct (BitVec.ofNat 128) sampleSequences ∧
    SumsDistinct sampleMd5 (BitVec.ofNat 128) (empty sampleModulus ℕ) sampleSequences ∧
    ((empty sampleModulus ℕ).addRequests sampleMd5 (BitVec.ofNat 128) [(1, 0), (2, 1)]).rhDigest
        sampleMd5 ≠
      ((empty sampleModulus ℕ).addRequests sampleMd5 (BitVec.ofNat 128) [(1, 0), (3, 1)]).rhDigest
        sampleMd5 := by
  have hreq : RequestsDistinct (BitVec.ofNat 128) sampleSequences := by
    rintro a ⟨l, rfl | rfl, ha⟩ b ⟨l', rfl | rfl, hb⟩ <;>
      simp only [map_cons, map_nil, mem_cons, not_mem_nil, or_false] at ha hb <;>
      rcases ha with rfl | rfl <;> rcases hb with rfl | rfl <;> decide
  have hsum : SumsDistinct sampleMd5 (BitVec.ofNat 128) (empty sampleModulus ℕ)
      sampleSequences := by
    rintro l (rfl | rfl) l' (rfl | rfl) <;> decide +kernel
  have htell := ((rhDigest_identifies_iff hreq hsum).1 [(1, 0), (2, 1)] (.inl rfl)
    [(1, 0), (3, 1)] (.inr rfl)).2 (by decide)
  exact ⟨hreq, hsum, fun h => absurd (htell h) (by decide +kernel)⟩

/-- Requests `1` and `2`, executed in either order. -/
def sampleOrders : Set (List (ℕ × ℕ)) := {[(1, 0), (2, 1)], [(2, 0), (1, 1)]}

/-- **Two orders, one digest.** Both assumptions hold of the two orders
of requests `1` and `2`; the history digests are equal and the histories
are not. -/
theorem rhDigest_same_for_reordered :
    RequestsDistinct (BitVec.ofNat 128) sampleOrders ∧
    SumsDistinct sampleMd5 (BitVec.ofNat 128) (empty sampleModulus ℕ) sampleOrders ∧
    ((empty sampleModulus ℕ).addRequests sampleMd5 (BitVec.ofNat 128)
        [(1, 0), (2, 1)]).rhDigest sampleMd5 =
      ((empty sampleModulus ℕ).addRequests sampleMd5 (BitVec.ofNat 128)
        [(2, 0), (1, 1)]).rhDigest sampleMd5 ∧
    ((empty sampleModulus ℕ).addRequests sampleMd5 (BitVec.ofNat 128)
        [(1, 0), (2, 1)]).requests ≠
      ((empty sampleModulus ℕ).addRequests sampleMd5 (BitVec.ofNat 128)
        [(2, 0), (1, 1)]).requests := by
  refine ⟨?_, ?_, by decide, by decide⟩
  · rintro a ⟨l, rfl | rfl, ha⟩ b ⟨l', rfl | rfl, hb⟩ <;>
      simp only [map_cons, map_nil, mem_cons, not_mem_nil, or_false] at ha hb <;>
      rcases ha with rfl | rfl <;> rcases hb with rfl | rfl <;> decide
  · rintro l (rfl | rfl) l' (rfl | rfl) <;> decide

end Sample

end ReqHistoryLog

end AbstractBFT
