import AbstractBFT.Common.History
/-!
# The stream between two monitors

`RobustMonitor::send_message` writes the instance and then the message to
the socket of a replica, and the loop of the receiver reads an instance
and hands the socket to its handler, which reads the message by the size
in its header. Nothing is read for an instance without a handler, so the
bytes of such a message are taken for the next frames: the receiver stays
in step exactly as long as it has a handler for every message
(`in_step_iff`).
-/

namespace AbstractBFT.Monitor

open List

/-- A call of `send_message` for the replica. -/
structure Sent where
  protocol : ℕ
  msg : List UInt8
  deriving DecidableEq

/-- What the call writes. -/
def Sent.frame (m : Sent) : List UInt8 := leBytes 4 m.protocol ++ m.msg

/-- `size` of a message, which every header has after its first four bytes. -/
def sizeField (bs : List UInt8) : ℕ := readLe ((bs.drop 4).take 4)

section

-- the length of the header, by instance: 16 bytes in Chain, 8 in the others
variable (header : ℕ → ℕ)

/-- The instance is an `int`, and the message has a header with its size. -/
def Sent.WellFormed (m : Sent) : Prop :=
  m.protocol < 2 ^ 32 ∧ 8 ≤ header m.protocol ∧ header m.protocol ≤ m.msg.length ∧
    sizeField m.msg = m.msg.length
  deriving Decidable

/-- The receiver of a connection: what it did not read yet, and what the
handlers got. -/
structure Receiver where
  unread : List UInt8
  delivered : List Sent

namespace Receiver

/-- One turn of `run` for the socket, with a handler for the `registered`
instances: `current_protocol_LE` or what `find` returns. A read waits
where there are not as many bytes as it asks for, and so it does where the
size is below that of the header, since the rest is then a negative
number of bytes. -/
def turn (registered : ℕ → Bool) (s : Receiver) : Receiver :=
  let protocol := readLe (s.unread.take 4)
  let rest := s.unread.drop 4
  if s.unread.length < 4 then s
  else if registered protocol then
    if header protocol ≤ sizeField rest ∧ sizeField rest ≤ rest.length then
      ⟨rest.drop (sizeField rest), s.delivered ++ [⟨protocol, rest.take (sizeField rest)⟩]⟩
    else s
  else { s with unread := rest }

/-- The first `k` turns. Handlers are registered and deregistered between
them. -/
def turns (registered : ℕ → ℕ → Bool) (s : Receiver) : ℕ → Receiver
  | 0 => s
  | k + 1 => (turns registered s k).turn header (registered k)

end Receiver

end

/-- The bytes of these calls. -/
def stream (ms : List Sent) : List UInt8 := ms.flatMap Sent.frame

/-- What is to be delivered of the first `k` messages: those with a handler. -/
def due (registered : ℕ → ℕ → Bool) (ms : List Sent) : ℕ → List Sent
  | 0 => []
  | k + 1 => due registered ms k ++ (ms[k]?.filter fun m => registered k m.protocol).toList

variable {header : ℕ → ℕ}

theorem sizeField_append {m : Sent} (h : m.WellFormed header) (bs : List UInt8) :
    sizeField (m.msg ++ bs) = m.msg.length := by
  obtain ⟨-, h8, hle, hsize⟩ := h
  rw [← hsize, sizeField, sizeField, drop_append_of_le_length (by omega),
    take_append_of_le_length (by rw [length_drop]; omega)]

/-- **One frame**: the message is read if it has a handler, and otherwise
only the instance is. -/
theorem turn_frame {m : Sent} (h : m.WellFormed header) (registered : ℕ → Bool) (bs : List UInt8)
    (out : List Sent) :
    Receiver.turn header registered ⟨m.frame ++ bs, out⟩ =
      if registered m.protocol then ⟨bs, out ++ [m]⟩ else ⟨m.msg ++ bs, out⟩ := by
  have hread : readLe ((m.frame ++ bs).take 4) = m.protocol := by
    rw [Sent.frame, append_assoc, take_left' (length_leBytes ..), readLe_leBytes]
    exact Nat.mod_eq_of_lt h.1
  have hrest : (m.frame ++ bs).drop 4 = m.msg ++ bs := by
    rw [Sent.frame, append_assoc, drop_left' (length_leBytes ..)]
  have hlen : ¬ (m.frame ++ bs).length < 4 := by simp [Sent.frame]
  simp only [Receiver.turn, hread, hrest, if_neg hlen, sizeField_append h, take_left',
    drop_left']
  have hfit : header m.protocol ≤ m.msg.length ∧ m.msg.length ≤ (m.msg ++ bs).length :=
    ⟨h.2.2.1, by simp⟩
  rw [if_pos hfit]

/-- **When the receiver stays in step** with well-formed messages: after
each turn it is at the next message and has delivered those it has a
handler for. -/
theorem in_step_iff (header : ℕ → ℕ) (registered : ℕ → ℕ → Bool) (ms : List Sent)
    (h : ∀ m ∈ ms, m.WellFormed header) :
    (∀ k ≤ ms.length, Receiver.turns header registered ⟨stream ms, []⟩ k =
        ⟨stream (ms.drop k), due registered ms k⟩) ↔
      ∀ k m, ms[k]? = some m → registered k m.protocol = true := by
  have hframe : ∀ k m, ms[k]? = some m →
      stream (ms.drop k) = m.frame ++ stream (ms.drop (k + 1)) := by
    intro k m hm
    rw [drop_eq_getElem?_toList_append, hm]
    rfl
  constructor
  · intro hstep k m hm
    have hlt := (List.getElem?_eq_some_iff.1 hm).1
    have hnext := hstep (k + 1) hlt
    rw [Receiver.turns, hstep k hlt.le, hframe k m hm,
      turn_frame (h m (mem_of_getElem? hm))] at hnext
    by_contra hno
    rw [if_neg hno, Receiver.mk.injEq, append_left_eq_self] at hnext
    -- the message was not read
    obtain ⟨-, h8, hle, -⟩ := h m (mem_of_getElem? hm)
    rw [hnext.1] at hle
    exact absurd (h8.trans hle) (by decide)
  · intro hall k
    induction k with
    | zero => exact fun _ => rfl
    | succ k ih =>
      intro hk
      have hm : ms[k]? = some ms[k] := getElem?_eq_getElem hk
      rw [Receiver.turns, ih (Nat.le_of_succ_le hk), hframe k _ hm,
        turn_frame (h _ (getElem_mem hk)), if_pos (hall k _ hm), due, hm, Option.filter_some,
        if_pos (hall k _ hm)]
      rfl

/-- A message of eight bytes with the tag. -/
def sampleSent (protocol : ℕ) (tag : UInt8) : Sent := ⟨protocol, [tag, 0, 0, 0, 8, 0, 0, 0]⟩

/-- Two messages for the instance that has a handler. -/
def samplePair : List Sent := [sampleSent 1 3, sampleSent 1 1]

theorem in_step_iff_two :
    (∀ k ≤ 2, Receiver.turns (fun _ => 8) (fun _ p => p == 1) ⟨stream samplePair, []⟩ k =
        ⟨stream (samplePair.drop k), due (fun _ p => p == 1) samplePair k⟩) ↔
      ∀ (k : ℕ) (m : Sent), samplePair[k]? = some m → (m.protocol == 1) = true :=
  in_step_iff (fun _ => 8) (fun _ p => p == 1) samplePair (by decide)

/-- The tag of a message for instance 2 is taken for instance 1, whose
handler waits for the rest of a message of one byte. The message behind
is never delivered. -/
theorem unregistered_blocks :
    due (fun _ p => p == 1) [sampleSent 2 1, sampleSent 1 3] 2 = [sampleSent 1 3] ∧
    ∀ k, (Receiver.turns (fun _ => 8) (fun _ p => p == 1)
      ⟨stream [sampleSent 2 1, sampleSent 1 3], []⟩ k).delivered = [] := by
  refine ⟨by decide, fun k => ?_⟩
  have hstuck : ∀ k, Receiver.turns (fun _ => 8) (fun _ p => p == 1)
      ⟨stream [sampleSent 2 1, sampleSent 1 3], []⟩ (k + 1) =
        ⟨(sampleSent 2 1).msg ++ (sampleSent 1 3).frame, []⟩ := by
    intro k
    induction k with
    | zero => rfl
    | succ k ih =>
      rw [Receiver.turns, ih]
      rfl
  cases k with
  | zero => rfl
  | succ k => rw [hstuck]

end AbstractBFT.Monitor
