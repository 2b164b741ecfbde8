import Mathlib.Data.Finset.Card
import Mathlib.Data.Finset.Insert
import Mathlib.Tactic.Common
/-!
# Aardvark — certificates

`A_Certificate<T>` collects matching messages from different replicas. It
keeps up to `f+1` distinct values with a count each; the value that
reaches `f+1` messages, or the owner's own message, becomes the correct
value `c`, and the certificate is complete once `c` counts `complete`
messages. `Backed` is what the counts mean: a value counted `k` times was
sent by `k` different replicas. It says nothing about one protocol, so the
prepare, commit and checkpoint certificates share it.
-/

namespace AbstractBFT.Aardvark

open List Option Finset

/-- What `A_Certificate` asks of its messages: `id`, `match` and `full`.
`verify` depends on the receiver and is passed to `add` as its answer. -/
class CertMessage (T : Type*) where
  id : T → ℕ
  agrees : T → T → Bool
  full : T → Bool

/-- `Message_val`: a value and the number of messages that match it. -/
structure MessageVal (T : Type*) where
  m : T
  count : ℕ
  deriving DecidableEq

/-- `A_Certificate<T>`. `vals` is the used part of the array (`cur_size`
entries), `c` the index of the correct value. -/
structure Certificate (T : Type*) where
  bmap : Finset ℕ
  vals : List (MessageVal T)
  max_size : ℕ
  correct : ℕ
  c : Option ℕ
  complete : ℕ
  mym : Option T
  c_lt : ∀ i ∈ c, i < vals.length
  c_isSome : mym.isSome → c.isSome

namespace MessageVal

variable {T : Type*} [CertMessage T]

/-- One more message for a value; a full message replaces one that is not. -/
def bump (val : MessageVal T) (m : T) : MessageVal T where
  m := if !CertMessage.full val.m && CertMessage.full m then m else val.m
  count := val.count + 1

@[simp] theorem bump_count (val : MessageVal T) (m : T) : (val.bump m).count = val.count + 1 := rfl

/-- The value after a message that matches it is one of the two. -/
theorem bump_m (val : MessageVal T) (m : T) : (val.bump m).m = m ∨ (val.bump m).m = val.m := by
  rw [bump]
  split
  · exact .inl rfl
  · exact .inr rfl

end MessageVal

namespace Certificate

variable {T : Type*}

/-- `A_Certificate(comp)`: complete at `comp` messages, at `2f+1` if that
is zero. -/
def new (f comp : ℕ) : Certificate T where
  bmap := ∅
  vals := []
  max_size := f + 1
  correct := f + 1
  c := none
  complete := if comp = 0 then 2 * f + 1 else comp
  mym := none
  c_lt := by simp
  c_isSome := by simp

variable (cert : Certificate T)

/-- The correct value with its count. -/
def cval : Option (MessageVal T) := cert.c.bind fun i => cert.vals[i]?

/-- `cvalue`. -/
def cvalue : Option T := cert.cval.map (·.m)

/-- `num_correct`. -/
def numCorrect : ℕ := (cert.cval.map (·.count)).getD 0

/-- `is_complete`. -/
def isComplete : Bool := cert.complete ≤ cert.numCorrect

/-- `clear`. -/
def clear : Certificate T :=
  { cert with bmap := ∅, vals := [], c := none, mym := none, c_lt := by simp, c_isSome := by simp }

/-- `mark_stale`: an incomplete certificate keeps the owner's message only. -/
def markStale : Certificate T :=
  if cert.isComplete then cert
  else
    match cert.mym with
    | some p =>
      { cert with
        bmap := ∅, vals := [⟨p, 1⟩], c := some 0, mym := some p
        c_lt := by simp, c_isSome := by simp }
    | none => { cert with bmap := ∅, vals := [], c := none, c_lt := by simp, mym := none, c_isSome := by simp }

section Add

variable [CertMessage T]

/-- `bmap.set`. -/
def mark (id : ℕ) : Certificate T :=
  { cert with bmap := insert id cert.bmap }

/-- Count `m` for the `i`-th value. -/
def tally (i : ℕ) (m : T) : Certificate T :=
  { cert with
    bmap := insert (CertMessage.id m) cert.bmap
    vals := cert.vals.modify i (·.bump m)
    c_lt := by simpa using cert.c_lt }

/-- Make the `i`-th value the correct one if enough messages match it. -/
def settle (i : ℕ) : Certificate T :=
  if h : ∃ val ∈ cert.vals[i]?, cert.correct ≤ val.count then
    { cert with
      c := some i
      c_lt := by
        obtain ⟨val, hval, -⟩ := h
        simpa using (List.getElem?_eq_some_iff.1 hval).1
      c_isSome := by simp }
  else cert

def append (m : T) : Certificate T :=
  { cert with
    bmap := insert (CertMessage.id m) cert.bmap
    vals := cert.vals ++ [⟨m, 1⟩]
    c_lt := fun i hi => by
      have := cert.c_lt i hi
      rw [length_append]
      omega }

/-- The test of `add` on the correct value: there is none yet, or it is
short of complete and matches. -/
def admits (m : T) : Bool :=
  match cert.cval with
  | none => true
  | some val => val.count < cert.complete && CertMessage.agrees val.m m

/-- `add`, with `ok` the answer of `m->verify()`. The second component is
the value it returns. -/
def add (n : ℕ) (ok : Bool) (cert : Certificate T) (m : T) : Certificate T × Bool :=
  if CertMessage.id m < n ∧ CertMessage.id m ∉ cert.bmap then
    if cert.admits m && ok then
      match cert.c with
      | some i => (cert.tally i m, true)
      | none =>
        match cert.vals.findIdx? fun val => CertMessage.agrees val.m m with
        | some i => ((cert.tally i m).settle i, true)
        | none =>
          if cert.vals.length < cert.max_size then (cert.append m, true)
          else (cert.clear, false)
    else if ok then (cert.mark (CertMessage.id m), false)
    else (cert, false)
  else (cert, false)

/-- Put the owner's message at the `i`-th value and make that the correct
one. -/
def own (i : ℕ) (hi : i < cert.vals.length) (m : T) : Certificate T :=
  { cert with
    vals := cert.vals.modify i fun val => ⟨m, val.count + 1⟩
    c := some i
    mym := some m
    c_lt := by simpa using hi
    c_isSome := by simp }

/-- The owner's message where no value matches it: it takes the place of
the first value, whose count is forgotten. -/
def ownFirst (m : T) : Certificate T :=
  { cert with
    vals := ⟨m, 1⟩ :: cert.vals.tail
    c := some 0
    mym := some m
    c_lt := by simp
    c_isSome := by simp }

/-- `add_mine`. -/
def addMine (m : T) : Certificate T × Bool :=
  match hc : cert.c with
  | some i =>
    if (cert.vals[i]?).any fun val => CertMessage.agrees val.m m then
      (cert.own i (cert.c_lt i hc) m, true)
    else (cert, false)
  | none =>
    match hi : cert.vals.findIdx? fun val => CertMessage.agrees val.m m with
    | some i => (cert.own i (findIdx?_eq_some_iff_getElem.1 hi).1 m, true)
    | none => (cert.ownFirst m, true)

end Add

/-! ## What the operations keep -/

@[simp] theorem mym_markStale : cert.markStale.mym = cert.mym := by
  rw [markStale]
  split
  · rfl
  · split <;> simp_all

theorem thresholds_markStale :
    cert.markStale.correct = cert.correct ∧ cert.markStale.complete = cert.complete := by
  rw [markStale]
  split
  · exact ⟨rfl, rfl⟩
  · split <;> exact ⟨rfl, rfl⟩

@[simp] theorem complete_markStale :
    cert.markStale.complete = cert.complete := (thresholds_markStale cert).2

variable {cert} {val : MessageVal T}

theorem numCorrect_of_cval (h : cert.cval = some val) : cert.numCorrect = val.count := by
  rw [numCorrect, h]
  rfl

theorem isComplete_iff (h : cert.cval = some val) :
    cert.isComplete ↔ cert.complete ≤ val.count := by
  rw [isComplete, numCorrect_of_cval h, decide_eq_true_eq]

/-- A certificate with a threshold above zero is not complete before it
has a correct value. -/
theorem exists_cval_of_isComplete (hpos : 0 < cert.complete)
    (h : cert.isComplete) : ∃ val, cert.cval = some val ∧ cert.complete ≤ val.count := by
  cases hc : cert.cval with
  | some val => exact ⟨val, rfl, (isComplete_iff hc).1 h⟩
  | none =>
    rw [isComplete, numCorrect, hc, decide_eq_true_eq] at h
    exact absurd h (by simpa using hpos.ne')

theorem cval_of_c {i : ℕ} (h : cert.c = some i) :
    ∃ val, cert.vals[i]? = some val ∧ cert.cval = some val := by
  have hlt := cert.c_lt i h
  exact ⟨cert.vals[i], getElem?_eq_getElem hlt, by simp [cval, h, hlt]⟩

theorem cval_eq_none (h : cert.c = none) : cert.cval = none := by
  rw [cval, h]
  rfl

theorem exists_c_of_cval (h : cert.cval = some val) :
    ∃ i, cert.c = some i ∧ cert.vals[i]? = some val := by
  rw [cval, bind_eq_some_iff] at h
  exact h

/-- The owner's message is counted in the correct value. -/
theorem exists_cval_of_mym {p : T} (h : cert.mym = some p) : ∃ val, cert.cval = some val := by
  have hc := cert.c_isSome (by rw [h]; rfl)
  obtain ⟨i, hi⟩ := isSome_iff_exists.1 hc
  obtain ⟨val, -, hval⟩ := cval_of_c hi
  exact ⟨val, hval⟩

theorem mym_eq_none_of_c (h : cert.c = none) : cert.mym = none := by
  cases hm : cert.mym with
  | none => rfl
  | some p =>
    obtain ⟨val, hval⟩ := exists_cval_of_mym hm
    rw [cval_eq_none h] at hval
    cases hval

@[simp] theorem mym_settle (i : ℕ) : (cert.settle i).mym = cert.mym := by
  rw [settle]
  split <;> rfl

@[simp] theorem complete_settle (i : ℕ) : (cert.settle i).complete = cert.complete := by
  rw [settle]
  split <;> rfl

@[simp] theorem vals_settle (i : ℕ) : (cert.settle i).vals = cert.vals := by
  rw [settle]
  split <;> rfl

@[simp] theorem bmap_settle (i : ℕ) : (cert.settle i).bmap = cert.bmap := by
  rw [settle]
  split <;> rfl

section Add

variable [CertMessage T] {n : ℕ} {ok : Bool} {m : T}

/-- **What `add` can do to a certificate.** It counts a verified message
of a new sender for the correct value, for the first value it matches
(which it may make correct) or as a new value; it drops everything when
there are too many values; or it only notes the sender, or nothing. -/
inductive Added (n : ℕ) (ok : Bool) (cert : Certificate T) (m : T) : Certificate T × Bool → Prop
  | correct {i val} (hn : CertMessage.id m < n) (hnew : CertMessage.id m ∉ cert.bmap) (hok : ok)
      (hc : cert.c = some i) (hval : cert.vals[i]? = some val) (hlt : val.count < cert.complete)
      (hag : CertMessage.agrees val.m m) : Added n ok cert m (cert.tally i m, true)
  | other {i val} (hn : CertMessage.id m < n) (hnew : CertMessage.id m ∉ cert.bmap) (hok : ok)
      (hc : cert.c = none) (hval : cert.vals[i]? = some val) (hag : CertMessage.agrees val.m m) :
      Added n ok cert m ((cert.tally i m).settle i, true)
  | fresh (hn : CertMessage.id m < n) (hnew : CertMessage.id m ∉ cert.bmap) (hok : ok)
      (hc : cert.c = none) : Added n ok cert m (cert.append m, true)
  | overflow (hc : cert.c = none) : Added n ok cert m (cert.clear, false)
  | mismatch (hok : ok) : Added n ok cert m (cert.mark (CertMessage.id m), false)
  | refused : Added n ok cert m (cert, false)

theorem added_add (n : ℕ) (ok : Bool) (cert : Certificate T) (m : T) :
    Added n ok cert m (cert.add n ok m) := by
  rw [add]
  split
  case isFalse => exact .refused
  case isTrue hnew =>
  split
  case isFalse =>
    split
    · next hok => exact .mismatch hok
    · exact .refused
  case isTrue hok =>
  rw [Bool.and_eq_true] at hok
  split
  · next i hc =>
    obtain ⟨val, hval, hcval⟩ := cval_of_c hc
    have had := hok.1
    rw [admits, hcval, Bool.and_eq_true, decide_eq_true_eq] at had
    exact .correct hnew.1 hnew.2 hok.2 hc hval had.1 had.2
  · next hc =>
    split
    · next i hi =>
      obtain ⟨hlt, hag, -⟩ := findIdx?_eq_some_iff_getElem.1 hi
      exact .other hnew.1 hnew.2 hok.2 hc (getElem?_eq_getElem hlt) hag
    · split
      · exact .fresh hnew.1 hnew.2 hok.2 hc
      · exact .overflow hc

/-- `add` never touches the owner's message: where it clears the
certificate there is none. -/
@[simp] theorem mym_add : (cert.add n ok m).1.mym = cert.mym := by
  have h := added_add n ok cert m
  generalize cert.add n ok m = r at h ⊢
  cases h with
  | overflow hc => exact (mym_eq_none_of_c hc).symm
  | other => rw [mym_settle]; rfl
  | _ => rfl

@[simp] theorem complete_add : (cert.add n ok m).1.complete = cert.complete := by
  have h := added_add n ok cert m
  generalize cert.add n ok m = r at h ⊢
  cases h with
  | other => rw [complete_settle]; rfl
  | _ => rfl

/-- Once there is a correct value, `add` only counts up for it. -/
theorem cval_add (n : ℕ) (ok : Bool) (m : T) {val : MessageVal T} (h : cert.cval = some val) :
    (cert.add n ok m).1.cval = some val ∨
      (cert.add n ok m).1.cval = some (val.bump m) ∧ CertMessage.agrees val.m m := by
  obtain ⟨i, hi, hval⟩ := exists_c_of_cval h
  have hadd := added_add n ok cert m
  generalize cert.add n ok m = r at hadd ⊢
  cases hadd with
  | @correct j val' hn hnew hok hc hval' hlt hag =>
    obtain rfl : i = j := mem_unique hi hc
    obtain rfl : val = val' := mem_unique hval hval'
    refine .inr ⟨?_, hag⟩
    simp [cval, tally, hc, getElem?_modify, hval]
  | other hn hnew hok hc => exact absurd (hi.symm.trans hc) (by simp)
  | fresh hn hnew hok hc => exact absurd (hi.symm.trans hc) (by simp)
  | overflow hc => exact absurd (hi.symm.trans hc) (by simp)
  | mismatch hok => exact .inl h
  | refused => exact .inl h

theorem isComplete_add (hpos : 0 < cert.complete) (h : cert.isComplete) :
    (cert.add n ok m).1.isComplete := by
  obtain ⟨val, hval, hle⟩ := exists_cval_of_isComplete hpos h
  rcases cval_add n ok m hval with h' | ⟨h', -⟩
  · rw [isComplete_iff h', complete_add]
    exact hle
  · rw [isComplete_iff h', complete_add, MessageVal.bump_count]
    omega

/-- `add` returns true for a message that was counted, which a complete
certificate does not do any more. -/
theorem not_isComplete_of_add (hpos : 0 < cert.complete) (h : (cert.add n ok m).2 = true) :
    ¬ cert.isComplete := by
  intro hcomp
  obtain ⟨val, hval, hle⟩ := exists_cval_of_isComplete hpos hcomp
  obtain ⟨i, hi, hvi⟩ := exists_c_of_cval hval
  have hadd := added_add n ok cert m
  generalize cert.add n ok m = r at h hadd
  cases hadd with
  | @correct j val' hn hnew hok hc hval' hlt hag =>
    obtain rfl : i = j := mem_unique hi hc
    obtain rfl : val = val' := mem_unique hvi hval'
    omega
  | other hn hnew hok hc => exact absurd (hi.symm.trans hc) (by simp)
  | fresh hn hnew hok hc => exact absurd (hi.symm.trans hc) (by simp)
  | _ => cases h

/-- **What `add_mine` can do.** -/
inductive OwnAdded (cert : Certificate T) (m : T) : Certificate T × Bool → Prop
  | own {i} {val : _} (hc : cert.c = none ∨ cert.c = some i) (hi : i < cert.vals.length)
      (hval : cert.vals[i]? = some val)
      (hag : CertMessage.agrees val.m m) : OwnAdded cert m (cert.own i hi m, true)
  | first (hc : cert.c = none) : OwnAdded cert m (cert.ownFirst m, true)
  | refused {val : _} (hcval : cert.cval = some val) (hag : ¬ CertMessage.agrees val.m m) :
      OwnAdded cert m (cert, false)

theorem ownAdded_addMine (cert : Certificate T) (m : T) : OwnAdded cert m (cert.addMine m) := by
  rw [addMine]
  split
  · next i hc =>
    obtain ⟨val, hval, hcval⟩ := cval_of_c hc
    split
    · next hag => exact .own (.inr hc) _ hval (by simpa [hval] using hag)
    · next hag => exact .refused hcval (by simpa [hval] using hag)
  · next hc =>
    split
    · next i hi =>
      obtain ⟨hlt, hag, -⟩ := findIdx?_eq_some_iff_getElem.1 hi
      exact .own (.inl hc) hlt (getElem?_eq_getElem hlt) hag
    · exact .first hc

@[simp] theorem complete_addMine : (cert.addMine m).1.complete = cert.complete := by
  have h := ownAdded_addMine cert m
  generalize cert.addMine m = r at h ⊢
  cases h <;> rfl

/-- Either the owner's message is logged, or the correct value differs
from it and nothing changes. -/
theorem addMine_cases (cert : Certificate T) (m : T) :
    (cert.addMine m).1.mym = some m ∨
      (cert.addMine m).1 = cert ∧ ∃ val, cert.cval = some val ∧ ¬ CertMessage.agrees val.m m := by
  have h := ownAdded_addMine cert m
  generalize cert.addMine m = r at h ⊢
  cases h with
  | refused hcval hag => exact .inr ⟨rfl, _, hcval, hag⟩
  | _ => exact .inl rfl

end Add

/-! ## What the counts mean -/

section Backed

variable {Sent Sent' : ℕ → T → Prop} {me : ℕ}

/-- **The counts are backed.** Every value was sent by as many different
replicas as it counts: by replicas in the bitmap and, once its own message
is in, by the owner `me`. The owner is never in the bitmap, since it
does not verify its own messages. -/
structure Backed (Sent : ℕ → T → Prop) (me : ℕ) (cert : Certificate T) : Prop where
  me_notMem : me ∉ cert.bmap
  senders : ∀ (i : ℕ) (val : MessageVal T), cert.vals[i]? = some val → ∃ A : Finset ℕ,
    A ⊆ insert me cert.bmap ∧ (me ∈ A → cert.mym.isSome) ∧
      (∀ j ∈ A, Sent j val.m) ∧ val.count ≤ A.card
  mine : ∀ p, cert.mym = some p → Sent me p

namespace Backed

theorem new (f comp : ℕ) : Backed Sent me (Certificate.new f comp) where
  me_notMem := by simp [Certificate.new]
  senders := by simp [Certificate.new]
  mine := by simp [Certificate.new]

variable {cert : Certificate T}

theorem clear (cert : Certificate T) : Backed Sent me cert.clear where
  me_notMem := by simp [Certificate.clear]
  senders := by simp [Certificate.clear]
  mine := by simp [Certificate.clear]

/-- A marking that finds the certificate incomplete leaves the owner's
message with one vote. -/
theorem marked (hinc : ¬ cert.isComplete) (hmine : ∀ p, cert.mym = some p → Sent me p) :
    Backed Sent me cert.markStale := by
  rw [Certificate.markStale, if_neg hinc]
  split
  · next p hp =>
    refine ⟨by simp, ?_, fun q hq => hmine q (hp.trans hq)⟩
    intro i val hval
    obtain rfl : i = 0 := by
      have := (List.getElem?_eq_some_iff.1 hval).1
      simpa using this
    obtain rfl : ⟨p, 1⟩ = val := by simpa using hval
    exact ⟨{me}, by simp, by simp, by simpa using hmine p hp, by simp⟩
  · exact ⟨by simp, by simp, by simp⟩

variable (h : Backed Sent me cert)
include h

theorem mono (hle : ∀ j m, Sent j m → Sent' j m) : Backed Sent' me cert where
  me_notMem := h.me_notMem
  senders i val hval := by
    obtain ⟨A, hA, hme, hsent, hcard⟩ := h.senders i val hval
    exact ⟨A, hA, hme, fun j hj => hle j _ (hsent j hj), hcard⟩
  mine p hp := hle me p (h.mine p hp)

theorem markStale : Backed Sent me cert.markStale := by
  by_cases hcomp : cert.isComplete
  · rw [Certificate.markStale, if_pos hcomp]
    exact h
  · exact marked hcomp h.mine

/-- A complete certificate names as many senders of its value as its
threshold asks for. -/
theorem exists_senders (hpos : 0 < cert.complete) (hcomp : cert.isComplete) :
    ∃ val, cert.cval = some val ∧
      ∃ A : Finset ℕ, (∀ j ∈ A, Sent j val.m) ∧ cert.complete ≤ A.card := by
  obtain ⟨val, hval, hle⟩ := exists_cval_of_isComplete hpos hcomp
  obtain ⟨i, -, hvi⟩ := exists_c_of_cval hval
  obtain ⟨A, -, -, hsent, hcard⟩ := h.senders i val hvi
  exact ⟨val, hval, A, hsent, hle.trans hcard⟩

theorem mark {id : ℕ} (hne : id ≠ me) : Backed Sent me (cert.mark id) where
  me_notMem := by
    rw [Certificate.mark, mem_insert, not_or]
    exact ⟨hne.symm, h.me_notMem⟩
  senders i val hval := by
    obtain ⟨A, hA, hme, hsent, hcard⟩ := h.senders i val hval
    exact ⟨A, hA.trans (insert_subset_insert _ (subset_insert _ _)), hme, hsent, hcard⟩
  mine := h.mine

theorem settle (i : ℕ) : Backed Sent me (cert.settle i) where
  me_notMem := by simpa using h.me_notMem
  senders := by simpa using h.senders
  mine := by simpa using h.mine

variable [CertMessage T]
variable {m : T} {n : ℕ} {ok : Bool}

theorem append (hne : CertMessage.id m ≠ me) (hm : Sent (CertMessage.id m) m) :
    Backed Sent me (cert.append m) where
  me_notMem := (h.mark hne).me_notMem
  senders i val hval := by
    rcases lt_or_ge i cert.vals.length with hi | hi
    · rw [Certificate.append, getElem?_append_left hi] at hval
      exact (h.mark hne).senders i val hval
    · rw [Certificate.append, getElem?_append_right hi] at hval
      obtain ⟨-, rfl⟩ : i - cert.vals.length = 0 ∧ val = ⟨m, 1⟩ := by
        cases hk : i - cert.vals.length <;> simp_all
      refine ⟨{CertMessage.id m}, ?_, fun hme => ?_, by simpa using hm, by simp⟩
      · simp [Certificate.append]
      · exact absurd (Finset.mem_singleton.1 hme).symm hne
  mine := h.mine

/-- A new sender's message backs one more count of the value it matches. -/
theorem tally {i : ℕ} {val : MessageVal T} (hne : CertMessage.id m ≠ me)
    (hnew : CertMessage.id m ∉ cert.bmap) (hm : Sent (CertMessage.id m) m)
    (hval : cert.vals[i]? = some val) (hcongr : ∀ j, Sent j val.m ↔ Sent j m) :
    Backed Sent me (cert.tally i m) where
  me_notMem := (h.mark hne).me_notMem
  senders k val' hval' := by
    rw [Certificate.tally, getElem?_modify] at hval'
    by_cases hk : i = k
    · subst hk
      obtain rfl : val.bump m = val' := by simpa [hval] using hval'
      obtain ⟨A, hA, hme, hsent, hcard⟩ := h.senders i val hval
      have hsentm : ∀ j, Sent j val.m → Sent j (val.bump m).m := by
        intro j hj
        rcases val.bump_m m with hb | hb <;> rw [hb]
        · exact (hcongr j).1 hj
        · exact hj
      have hidA : CertMessage.id m ∉ A := by
        intro hid
        rcases mem_insert.1 (hA hid) with heq | hmem
        · exact hne heq
        · exact hnew hmem
      refine ⟨insert (CertMessage.id m) A, ?_, ?_, ?_, ?_⟩
      · refine insert_subset (by simp [Certificate.tally]) (hA.trans ?_)
        exact insert_subset_insert _ (subset_insert _ _)
      · intro hmem
        rcases mem_insert.1 hmem with heq | hmem
        · exact absurd heq.symm hne
        · exact hme hmem
      · intro j hj
        rcases mem_insert.1 hj with rfl | hj
        · exact hsentm _ ((hcongr _).2 hm)
        · exact hsentm j (hsent j hj)
      · rw [card_insert_of_notMem hidA, MessageVal.bump_count]
        omega
    · exact (h.mark hne).senders k val' (by simpa [hk, Certificate.mark] using hval')
  mine := h.mine

/-- **`add` keeps the counts backed**, for messages whose verification
says that the replica they name sent them, where a message that is
counted for a value was sent by whoever sent the value. -/
theorem add_of_vals
    (hcongr : ok → ∀ val ∈ cert.vals, CertMessage.agrees val.m m → ∀ j, Sent j val.m ↔ Sent j m)
    (hm : ok → CertMessage.id m ≠ me ∧ Sent (CertMessage.id m) m) :
    Backed Sent me (cert.add n ok m).1 := by
  have hadd := added_add n ok cert m
  generalize cert.add n ok m = r at hadd ⊢
  cases hadd with
  | correct _ hnew hok _ hval _ hag =>
    exact h.tally (hm hok).1 hnew (hm hok).2 hval
      (hcongr hok _ (mem_of_getElem? hval) hag)
  | other _ hnew hok _ hval hag =>
    exact (h.tally (hm hok).1 hnew (hm hok).2 hval
      (hcongr hok _ (mem_of_getElem? hval) hag)).settle _
  | fresh _ hnew hok _ => exact h.append (hm hok).1 (hm hok).2
  | overflow _ => exact .clear cert
  | mismatch hok => exact h.mark (hm hok).1
  | refused => exact h

/-- The same where matching messages were sent by the same replicas. -/
theorem add (hcongr : ∀ a b, CertMessage.agrees a b → ∀ j, Sent j a ↔ Sent j b)
    (hm : ok → CertMessage.id m ≠ me ∧ Sent (CertMessage.id m) m) :
    Backed Sent me (cert.add n ok m).1 :=
  h.add_of_vals (fun _ val _ hag => hcongr val.m m hag) hm

/-- **`add_mine` keeps the counts backed** if the owner has no message in
the certificate yet. -/
theorem addMine (hcongr : ∀ a b, CertMessage.agrees a b → ∀ j, Sent j a ↔ Sent j b)
    (hnone : cert.mym = none) (hm : Sent me m) : Backed Sent me (cert.addMine m).1 := by
  have hnot : ∀ A : Finset ℕ, (me ∈ A → cert.mym.isSome) → me ∉ A := by
    intro A hA hmem
    have := hA hmem
    rw [hnone] at this
    cases this
  have hadd := ownAdded_addMine cert m
  generalize cert.addMine m = r at hadd ⊢
  cases hadd with
  | @own i val _ hi hval hag =>
    refine ⟨h.me_notMem, fun k val' hval' => ?_, fun p hp => by cases hp; exact hm⟩
    rw [Certificate.own, getElem?_modify] at hval'
    by_cases hk : i = k
    · subst hk
      obtain rfl : (⟨m, val.count + 1⟩ : MessageVal T) = val' := by simpa [hval] using hval'
      obtain ⟨A, hA, hme, hsent, hcard⟩ := h.senders i val hval
      refine ⟨insert me A, ?_, fun _ => rfl, ?_, ?_⟩
      · exact insert_subset (mem_insert_self _ _) hA
      · intro j hj
        rcases mem_insert.1 hj with rfl | hj
        · exact hm
        · exact (hcongr _ _ hag j).1 (hsent j hj)
      · rw [card_insert_of_notMem (hnot A hme)]
        exact Nat.succ_le_succ hcard
    · obtain ⟨A, hA, -, hsent, hcard⟩ := h.senders k val' (by simpa [hk] using hval')
      exact ⟨A, hA, fun _ => rfl, hsent, hcard⟩
  | first _ =>
    refine ⟨h.me_notMem, fun k val' hval' => ?_, fun p hp => by cases hp; exact hm⟩
    cases k with
    | zero =>
      obtain rfl : (⟨m, 1⟩ : MessageVal T) = val' := by simpa [ownFirst] using hval'
      exact ⟨{me}, by simp, fun _ => rfl, by simpa using hm, by simp⟩
    | succ k =>
      have hval : cert.vals[k + 1]? = some val' := by simpa [ownFirst] using hval'
      obtain ⟨A, hA, -, hsent, hcard⟩ := h.senders (k + 1) val' hval
      exact ⟨A, hA, fun _ => rfl, hsent, hcard⟩
  | refused _ _ => exact h

end Backed

end Backed

end Certificate

end AbstractBFT.Aardvark
