import AbstractBFT.Chain.Fetch
/-!
# Chain — the messages of the abort phase as they are built and read

An abort counts the entries of the history and lists those that hold a
request, so the two agree only where no request was released
(`abort_roundtrip_iff`). A missing message is written with elements of
12 bytes and hashed by its reader as if they had 28 (`missing_roundtrip_iff`).
-/

namespace AbstractBFT.Chain

open List

variable {S : Type}

/-! ## Aborts -/

/-- `sizeof(C_Abort_rep)` and its elements: `size_wo_MAC`. -/
def CAbort.sizeWoMac (a : Abort) : ℕ := 68 + 28 * a.rep.hist_size

/-- The size `sign` gives the message. -/
def CAbort.signedSize (sig_size : ℕ) (a : Abort) : ℕ := (CAbort.sizeWoMac a + sig_size + 7) / 8 * 8

/-- `C_Abort::verify` for a message of `size` bytes: the room for the
signature is the difference of unsigned numbers. -/
def CAbort.verifySized (N : RNode S) (sig_size size : ℕ) (a : Abort) : Bool :=
  CAbort.verify N a &&
    decide ((sig_size : ℤ) ≤ ((size : ℤ) - CAbort.sizeWoMac a) % 2 ^ 32)

/-- An abort of any length whose elements are all zero, as `replica` would
sign it. -/
def CAbort.zeros (N : RNode S) (replica : ℤ) (hist_size : ℕ) : Abort :=
  let elems := List.replicate hist_size (⟨0, 0, 0⟩ : AbortHistoryElement)
  let rep : AbortRep :=
    { replica, rid := 0, digest := N.md5 (elems.flatMap AbortHistoryElement.bytes), hist_size }
  { rep, elems := fun _ => ⟨0, 0, 0⟩, sig := N.gen_signature replica (.abort rep) }

/-- Where the message is too short for its elements, the difference of
unsigned numbers leaves room for any signature. -/
theorem CAbort.verifySized_zeros {N : RNode S} {sig_size : ℕ} (hsize : sig_size < 2 ^ 31)
    {replica : ℤ} (hreplica : N.isReplica replica = true)
    (hsig : ∀ p, N.verify_signature replica p (N.gen_signature replica p) = true)
    {size hist_size : ℕ} (hhist : hist_size < 2 ^ 15) (hshort : size < 68 + 28 * hist_size) :
    CAbort.verifySized N sig_size size (CAbort.zeros N replica hist_size) = true := by
  have hhistory : (CAbort.zeros N replica hist_size).history =
      List.replicate hist_size ⟨0, 0, 0⟩ := by
    simp [Abort.history, CAbort.zeros]
  have hroom : (sig_size : ℤ) ≤
      ((size : ℤ) - CAbort.sizeWoMac (CAbort.zeros N replica hist_size)) % 2 ^ 32 := by
    have : CAbort.sizeWoMac (CAbort.zeros N replica hist_size) = 68 + 28 * hist_size := rfl
    omega
  simp only [CAbort.verifySized, CAbort.verify, Bool.and_eq_true, decide_eq_true_eq, hhistory]
  exact ⟨⟨⟨⟨hreplica, hhist⟩, beq_self_eq_true _⟩, hsig _⟩, hroom⟩

/-- **Which histories survive the way through an abort**, and which
received aborts are accepted only as a whole: those that are long enough
for their elements, and those `verify` does not get through since their
number is negative. -/
theorem abort_roundtrip_iff (N : RNode S) (sig_size : ℕ) (hsize : sig_size < 2 ^ 31) (replica : ℤ)
    (hreplica : N.isReplica replica = true)
    (hsig : ∀ p, N.verify_signature replica p (N.gen_signature replica p) = true) :
    (∀ (rid : ℕ) (log : CLog N) (buffer : ℕ → AbortHistoryElement),
      let a := CAbort.ofHistory N replica rid log buffer
      CAbort.verifySized N sig_size (CAbort.signedSize sig_size a) a = true ∧
          a.history = held log.rh ↔
        log.rh.length % 2 ^ 16 = (held log.rh).length ∧ (held log.rh).length < 2 ^ 15) ∧
    ∀ size hist_size : ℕ, size < 2 ^ 31 →
      ((∀ a : Abort, a.rep.hist_size = hist_size →
          CAbort.verifySized N sig_size size a = true → CAbort.sizeWoMac a + sig_size ≤ size) ↔
        68 + 28 * hist_size ≤ size ∨ 2 ^ 15 ≤ hist_size) := by
  refine ⟨fun rid log buffer => ?_, fun size hist_size hlt => ?_⟩
  · have hroom : (sig_size : ℤ) ≤
        ((CAbort.signedSize sig_size (CAbort.ofHistory N replica rid log buffer) : ℤ) -
          CAbort.sizeWoMac (CAbort.ofHistory N replica rid log buffer)) % 2 ^ 32 := by
      unfold CAbort.signedSize
      omega
    simp only [CAbort.verifySized, CAbort.verify, Bool.and_eq_true, decide_eq_true_eq]
    constructor
    · rintro ⟨⟨⟨⟨⟨-, hshort⟩, -⟩, -⟩, -⟩, hhist⟩
      have hlen : (log.rh.length % 2 ^ 16) = (held log.rh).length := by
        rw [← hhist]
        simp [Abort.history, CAbort.ofHistory]
      exact ⟨hlen, hlen ▸ hshort⟩
    · rintro ⟨hlen, hshort⟩
      have hhist : (CAbort.ofHistory N replica rid log buffer).history = held log.rh := by
        refine ext_getElem (by simpa [Abort.history, CAbort.ofHistory] using hlen) ?_
        intro j _ hj
        simp [Abort.history, CAbort.ofHistory, held] at hj ⊢
        simp [hj]
      refine ⟨⟨⟨⟨⟨hreplica, hlen.trans_lt hshort⟩, ?_⟩, hsig _⟩, hroom⟩, hhist⟩
      rw [hhist]
      exact beq_self_eq_true _
  · constructor
    · intro h
      by_contra hcon
      obtain ⟨hshort, hhist⟩ := not_or.1 hcon
      have hle : 68 + 28 * hist_size + sig_size ≤ size := h (CAbort.zeros N replica hist_size) rfl
        (CAbort.verifySized_zeros hsize hreplica hsig (by omega) (by omega))
      omega
    · rintro hlong a rfl hv
      simp only [CAbort.verifySized, CAbort.verify, Bool.and_eq_true, decide_eq_true_eq] at hv
      obtain ⟨⟨⟨⟨-, hhist⟩, -⟩, -⟩, hroom⟩ := hv
      unfold CAbort.sizeWoMac at hroom ⊢
      omega

/-- One request was released and one is held: the message counts two
elements. -/
def releasedLog : CLog hashRNode :=
  ⟨[⟨none, 1, 0⟩, ⟨some (CRequest.fresh hashRNode.md5 4 1 [7] false fun _ => 0), 2, 0⟩],
    DSum.zero hashRNode.M⟩

theorem abort_roundtrip_iff_released :
    (let a := CAbort.ofHistory hashRNode 0 1 releasedLog fun _ => ⟨0, 0, 0⟩
    CAbort.verifySized hashRNode 16 (CAbort.signedSize 16 a) a = true ∧
        a.history = held releasedLog.rh ↔
      releasedLog.rh.length % 2 ^ 16 = (held releasedLog.rh).length ∧
        (held releasedLog.rh).length < 2 ^ 15) ∧
    ((∀ a : Abort, a.rep.hist_size = 1 →
        CAbort.verifySized hashRNode 16 68 a = true → CAbort.sizeWoMac a + 16 ≤ 68) ↔
      68 + 28 * 1 ≤ 68 ∨ 2 ^ 15 ≤ 1) :=
  have h := abort_roundtrip_iff hashRNode 16 (by decide) 0 rfl fun _ => rfl
  ⟨h.1 1 releasedLog _, h.2 68 1 (by decide)⟩

/-- The abort of the history is refused, and an abort that is cut off
behind its header is accepted. -/
theorem abort_not_roundtrip :
    CAbort.verify hashRNode (CAbort.ofHistory hashRNode 0 1 releasedLog fun _ => ⟨0, 0, 0⟩) =
      false ∧
    (let a := CAbort.ofHistory hashRNode 0 1
      ⟨releasedLog.rh.drop 1, releasedLog.rh_d⟩ fun _ => ⟨0, 0, 0⟩
    CAbort.verifySized hashRNode 16 68 a = true ∧ 68 < CAbort.sizeWoMac a) := by
  decide +kernel

/-! ## Missing messages -/

/-- The bytes of an element of `C_Missing`. -/
def pairBytes (p : ℤ × ℕ) : List UInt8 := leBytes 4 (p.1 % 2 ^ 32).toNat ++ leBytes 8 p.2

/-- What `handle(C_Missing)` reads, and looks up, for `k` elements. -/
def readPairs : ℕ → List UInt8 → List (ℤ × ℕ)
  | 0, _ => []
  | k + 1, bs =>
    (Int.bmod (readLe (bs.take 4)) (2 ^ 32), readLe ((bs.drop 4).take 8)) ::
      readPairs k (bs.drop 12)

/-- `C_Max_message_size`. -/
def cMaxMessageSize : ℕ := 60000

/-- `rep().size *= 2; trim()`: the size is an `int`, `realloc` fails for
one that is negative and frees the buffer for zero. The state is the size
and how many bytes the buffer has. -/
def enlarge (b : ℤ × ℕ) : ℤ × ℕ :=
  let size := Int.bmod (2 * b.1) (2 ^ 32)
  (size, if size < 0 then b.2 else size.toNat)

/-- The loop of the constructor, for `k` more elements; `none` where it
writes past the buffer. -/
def reserve (sig_size : ℕ) : ℕ → ℕ → ℤ × ℕ → Option (ℤ × ℕ)
  | 0, _, b => some b
  | k + 1, offset, b =>
    let b := if cMaxMessageSize < offset + 12 + sig_size then enlarge b else b
    if offset + 12 ≤ b.2 then reserve sig_size k (offset + 12) b else none

/-- `C_Missing` as it is sent: `body` are the bytes behind the header. -/
structure MissingMessage where
  replica : ℤ
  digest : Digest
  hist_size : ℕ
  body : List UInt8

/-- The constructor and `sign`, with `behind` the bytes that lie behind
the elements in the buffer. `none` where the constructor writes past the
buffer or `sign` does not find room. -/
def MissingMessage.build (md5 : Md5) (sig_size : ℕ) (replica : ℤ) (missing : List (ℤ × ℕ))
    (behind : List UInt8) : Option MissingMessage :=
  (reserve sig_size missing.length 44 (cMaxMessageSize, cMaxMessageSize)).bind fun b =>
    let bytes := missing.flatMap pairBytes
    if (44 + 28 * missing.length + sig_size + 7) / 8 * 8 ≤ b.2 then
      some ⟨replica, md5 bytes, missing.length % 2 ^ 16, bytes ++ behind⟩
    else none

/-- `C_Missing::verify`, for a message with a valid signature in its
place: the elements are taken to be as long as an abort's. -/
def MissingMessage.verify (N : CNode) (m : MissingMessage) : Bool :=
  N.isReplica m.replica && N.md5 (m.body.take (28 * m.hist_size)) == m.digest

/-- The identifiers fit the code's types. -/
def Fitting (p : ℤ × ℕ) : Prop := -2 ^ 31 ≤ p.1 ∧ p.1 < 2 ^ 31 ∧ p.2 < 2 ^ 64

theorem readPairs_pairBytes {l : List (ℤ × ℕ)} (h : ∀ p ∈ l, Fitting p) (rest : List UInt8) :
    readPairs l.length (l.flatMap pairBytes ++ rest) = l := by
  induction l with
  | nil => rfl
  | cons p l ih =>
    obtain ⟨hlo, hhi, hrid⟩ := h p (by simp)
    have h12 : (pairBytes p).length = 12 := by simp [pairBytes]
    have htail := ih fun q hq => h q (by simp [hq])
    rw [flatMap_cons, length_cons, readPairs, append_assoc, drop_left' h12,
      htail]
    have hcid : Int.bmod ((p.1 % 2 ^ 32).toNat % 256 ^ 4 : ℕ) (2 ^ 32) = p.1 := by
      rw [Int.bmod_def]
      omega
    have hrid' : p.2 % 256 ^ 8 = p.2 := Nat.mod_eq_of_lt hrid
    rw [pairBytes, append_assoc, take_left' (length_leBytes ..),
      drop_left' (length_leBytes ..), take_left' (length_leBytes ..), readLe_leBytes,
      readLe_leBytes, hcid, hrid']

/-- The elements the first buffer has room for. -/
def inPlace (sig_size : ℕ) : ℕ := (cMaxMessageSize - 44 - sig_size) / 12

/-- The buffer after it was enlarged `g` times. -/
def enlarged (g : ℕ) : ℤ × ℕ := enlarge^[g] (cMaxMessageSize, cMaxMessageSize)

theorem le_enlarged : ∀ g < 27, cMaxMessageSize + 12 * g ≤ (enlarged g).2 := by
  decide

theorem enlarged_freed : (enlarged 27).2 = 0 := by
  decide +kernel

theorem inPlace_le (sig_size : ℕ) : 44 + 12 * inPlace sig_size ≤ cMaxMessageSize := by
  unfold inPlace cMaxMessageSize
  omega

/-- The buffer is enlarged once for each element that is too many. -/
theorem enlarged_succ (sig_size i : ℕ) :
    (if cMaxMessageSize < 44 + 12 * i + 12 + sig_size then
        enlarge (enlarged (i - inPlace sig_size)) else enlarged (i - inPlace sig_size)) =
      enlarged (i + 1 - inPlace sig_size) := by
  have hiff : cMaxMessageSize < 44 + 12 * i + 12 + sig_size ↔ inPlace sig_size ≤ i := by
    unfold inPlace cMaxMessageSize
    omega
  by_cases hi : inPlace sig_size ≤ i
  · rw [if_pos (hiff.2 hi), Nat.succ_sub hi]
    exact (Function.iterate_succ_apply' ..).symm
  · rw [if_neg fun h => hi (hiff.1 h), Nat.sub_eq_zero_of_le (by omega),
      Nat.sub_eq_zero_of_le (by omega)]

theorem reserve_eq (sig_size k i : ℕ) (hi : i ≤ inPlace sig_size + 26) :
    reserve sig_size k (44 + 12 * i) (enlarged (i - inPlace sig_size)) =
      if i + k ≤ inPlace sig_size + 26 then some (enlarged (i + k - inPlace sig_size))
      else none := by
  induction k generalizing i with
  | zero => rw [reserve, if_pos (by omega)]; rfl
  | succ k ih =>
    rw [reserve, enlarged_succ]
    rcases Nat.lt_or_eq_of_le hi with hlt | rfl
    · have hle := inPlace_le sig_size
      have hcap := le_enlarged (i + 1 - inPlace sig_size) (by omega)
      have hsucc : i + (k + 1) = i + 1 + k := by omega
      rw [if_pos (by omega), hsucc, ← ih (i + 1) hlt]
      rfl
    · have h27 : inPlace sig_size + 26 + 1 - inPlace sig_size = 27 := by omega
      rw [h27, enlarged_freed, if_neg (by omega), if_neg (by omega)]

/-- **Which lists survive the way through a missing message**: those for
which the buffer has room, if MD5 does not tell the elements from what
lies behind them; the empty list is one. -/
theorem missing_roundtrip_iff (N : CNode) (sig_size : ℕ) (replica : ℤ)
    (hreplica : N.isReplica replica = true) (missing : List (ℤ × ℕ))
    (hfit : ∀ p ∈ missing, Fitting p) (behind : List UInt8) :
    (∃ m, MissingMessage.build N.md5 sig_size replica missing behind = some m ∧
        m.verify N = true ∧ readPairs m.hist_size m.body = missing) ↔
      (missing.length ≤ inPlace sig_size + 26 ∧
        (44 + 28 * missing.length + sig_size + 7) / 8 * 8 ≤
          (enlarged (missing.length - inPlace sig_size)).2) ∧
      N.md5 ((missing.flatMap pairBytes ++ behind).take (28 * missing.length)) =
        N.md5 (missing.flatMap pairBytes) := by
  have hreserve := reserve_eq sig_size missing.length 0 (Nat.zero_le _)
  rw [Nat.zero_add, Nat.zero_sub, Nat.mul_zero] at hreserve
  unfold MissingMessage.build
  rw [show reserve sig_size missing.length 44 (cMaxMessageSize, cMaxMessageSize) = _ from hreserve]
  by_cases hlen : missing.length ≤ inPlace sig_size + 26
  · rw [if_pos hlen, Option.bind_some]
    have hin := inPlace_le sig_size
    have hhist : missing.length % 2 ^ 16 = missing.length := by
      unfold cMaxMessageSize at hin
      omega
    by_cases hroom : (44 + 28 * missing.length + sig_size + 7) / 8 * 8 ≤
        (enlarged (missing.length - inPlace sig_size)).2
    · simp only [hroom, if_true, hhist, Option.some.injEq, exists_eq_left', MissingMessage.verify,
        hreplica, Bool.true_and, beq_iff_eq, readPairs_pairBytes hfit, and_true, hlen, true_and]
    · simp [hroom]
  · simp [hlen]

/-- Bytes that the hash does not see behind the element of request 1 of
client 4. -/
def unseen : List UInt8 :=
  [144, 116, 2, 67, 93, 193, 197, 250, 225, 222, 181, 167, 180, 148, 95, 8]

theorem missing_roundtrip_iff_one :
    ∃ m, MissingMessage.build hashRNode.md5 16 0 [(4, 1)] unseen = some m ∧
      m.verify hashRNode.toCNode = true ∧ readPairs m.hist_size m.body = [(4, 1)] :=
  (missing_roundtrip_iff hashRNode.toCNode 16 0 rfl [(4, 1)] (by simp [Fitting]) unseen).2
    ⟨by decide +kernel, by decide +kernel⟩

/-- A message with one element is refused, and for 6000 elements the
constructor writes into a buffer that was freed. -/
theorem missing_not_roundtrip :
    (∀ m ∈ MissingMessage.build hashRNode.md5 16 0 [(4, 1)] (List.replicate 16 0),
      m.verify hashRNode.toCNode = false) ∧
    reserve 16 6000 44 (cMaxMessageSize, cMaxMessageSize) = none := by
  refine ⟨by decide +kernel, (reserve_eq 16 6000 0 (Nat.zero_le _)).trans (if_neg ?_)⟩
  decide +kernel

end AbstractBFT.Chain
