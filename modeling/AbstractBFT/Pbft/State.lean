import AbstractBFT.Pbft.Execution
import AbstractBFT.Pbft.Partition
/-!
# PBFT — the checkpoints of the service state

`PBFT_R_State` as it is built for memory pages (`NO_STATE_TRANSLATION`): the
partition tree of the current memory, a bitmap of the blocks that were
copied since the last checkpoint, and a log of checkpoint records. A record
holds the partitions that were modified after its checkpoint and before the
next one, as they were at the checkpoint; everything older is read through
the records of later checkpoints.

`cow` copies blocks into the last record before the service writes them,
`checkpoint` brings the tree up to date from the leaves to the root and opens
the next record.
-/

namespace AbstractBFT.Pbft

open Function

/-- `Block_size`. -/
def blockSize : ℕ := 4096

/-! ## Checkpoint records -/

/-- `Part` or `BlockCopy`, in a checkpoint record: those of leaves have the
block. -/
structure BlockCopy extends Part where
  data : Option Block
  deriving DecidableEq

/-- `PBFT_R_Checkpoint_rec`: the state digest and the map of copies, which
is keyed by level and index. -/
structure CkptRec where
  sd : Digest
  parts : ℕ × ℕ → Option BlockCopy

namespace CkptRec

def empty : CkptRec := ⟨0, fun _ => none⟩

/-- `is_cleared`. -/
def isCleared (r : CkptRec) : Bool := digestIsZero r.sd

/-- `clear`. -/
def clear (r : CkptRec) : CkptRec := if r.isCleared then r else empty

/-- `append`, which asserts that there is no copy yet. -/
def append (r : CkptRec) (k : ℕ × ℕ) (c : BlockCopy) : CkptRec :=
  if (r.parts k).isSome then r else { r with parts := update r.parts k (some c) }

end CkptRec

/-- The size of `clog`. -/
def clogSize : ℤ := 2 * maxOut

/-- `clog`, a `Log` of checkpoint records. -/
structure CkptLog where
  head : ℤ
  elems : ℕ → CkptRec

namespace CkptLog

/-- `mod`. -/
def slot (n : ℤ) : ℕ := (n % clogSize).toNat

/-- `within_range`. -/
def InRange (l : CkptLog) (n : ℤ) : Prop := l.head ≤ n ∧ n < l.head + clogSize
  deriving Decidable

/-- `fetch`. -/
def fetch (l : CkptLog) (n : ℤ) : CkptRec := l.elems (slot n)

/-- Write the record of `n`. -/
def set (l : CkptLog) (n : ℤ) (r : CkptRec) : CkptLog :=
  { l with elems := update l.elems (slot n) r }

/-- `truncate`: the entries of the numbers from the old head on and below
the new one are cleared. -/
def truncate (l : CkptLog) (new_head : ℤ) : CkptLog :=
  if new_head ≤ l.head then l
  else
    { head := new_head
      elems := fun k =>
        if ((k : ℤ) - l.head) % clogSize < new_head - l.head then (l.elems k).clear
        else l.elems k }

end CkptLog

/-- What a copy of each partition would hold. -/
def Tree.copies (t : Tree) (k : ℕ × ℕ) : BlockCopy :=
  { t.ptree k.1 k.2 with data := if k.1 = leafLevel then some (t.mem k.2) else none }

/-! ## The state -/

/-- `PBFT_R_State`, as far as it keeps checkpoints. -/
structure State where
  nb : ℕ
  tree : Tree
  cowb : ℕ → Bool
  clog : CkptLog
  lc : ℤ

namespace State

/-- `PBFT_R_State(rep, memory, num_bytes)`. -/
def new (nb : ℕ) (mem : ℕ → Block) : State where
  nb := nb
  tree := ⟨mem, fun _ _ => ⟨0, 0⟩, fun _ _ => .zero modulus⟩
  cowb := fun _ => false
  clog := ⟨0, fun _ => .empty⟩
  lc := 0

variable (s : State)

/-- The record of the last checkpoint. -/
def lastRec : CkptRec := s.clog.fetch s.lc

/-- Append a copy of the partition to the last checkpoint. -/
def save (l i : ℕ) : State :=
  { s with clog := s.clog.set s.lc (s.lastRec.append (l, i) (s.tree.copies (l, i))) }

/-- `cow_single`. -/
def cowSingle (i : ℕ) : State :=
  { s.save leafLevel i with cowb := update s.cowb i true }

/-- The blocks of a region. -/
def blocks (m size : ℕ) : List ℕ :=
  if size = 0 then []
  else List.range' (m / blockSize) ((m + size - 1) / blockSize + 1 - m / blockSize)

/-- `cow`. "If cow bit is set do not perform copy." -/
def cow (m size : ℕ) : State :=
  (blocks m size).foldl (fun s b => if s.cowb b then s else s.cowSingle b) s

/-- The service announces the region with `cow` and then writes it. -/
def modify (m size : ℕ) (data : ℕ → Block) : State :=
  let s := s.cow m size
  { s with
    tree := { s.tree with mem := fun b => if b ∈ blocks m size then data b else s.tree.mem b } }

section Digests

variable (md5 : Md5)

/-- The body of the loops of `update_ptree`: leaves have been copied when
they were written, other partitions are copied now. -/
def updatePart (n : ℤ) (l : ℕ) (s : State) (i : ℕ) : State :=
  let s := if l < leafLevel then s.save l i else s
  { s with tree := s.tree.replace l i ⟨n, partDigest md5 i n (s.tree.data l i)⟩ }

/-- "Mark parent modified": the bits that are set, in the order of the
bitmap. -/
def parents (is : List ℕ) : List ℕ :=
  is.foldl (fun ps i => if i / pChildren ∈ ps then ps else ps ++ [i / pChildren]) []

/-- `update_ptree`. -/
def updatePtree (s : State) (n : ℤ) : State :=
  let mods₃ := (List.range s.nb).filter s.cowb
  let mods₂ := parents mods₃
  let mods₁ := parents mods₂
  let mods₀ := parents mods₁
  let s := mods₃.foldl (updatePart md5 n 3) s
  let s := mods₂.foldl (updatePart md5 n 2) s
  let s := mods₁.foldl (updatePart md5 n 1) s
  if 0 ∈ mods₀ then updatePart md5 n 0 s 0 else s

/-- `checkpoint`. -/
def checkpoint (s : State) (n : ℤ) : State :=
  let s := s.updatePtree md5 n
  { s with
    lc := n
    clog := s.clog.set n { s.clog.fetch n with sd := (s.tree.ptree 0 0).d }
    cowb := fun _ => false }

/-- The body of the loops of `compute_full_digest`. -/
def fullPart (l : ℕ) (t : Tree) (i : ℕ) : Tree :=
  let d := t.digest md5 l i
  { t with
    ptree := setAt t.ptree l i { t.ptree l i with d := d }
    stree := setAt t.stree (l - 1) (i / pChildren) ((t.stree (l - 1) (i / pChildren)).add d) }

/-- The loops of `compute_full_digest`, and the digest of the root. -/
def fullTree (nb : ℕ) (t : Tree) : Tree :=
  let t := (List.range (partCount nb 3)).foldl (fullPart md5 3) t
  let t := (List.range (partCount nb 2)).foldl (fullPart md5 2) t
  let t := (List.range (partCount nb 1)).foldl (fullPart md5 1) t
  { t with ptree := setAt t.ptree 0 0 { t.ptree 0 0 with d := t.digest md5 0 0 } }

/-- `compute_full_digest`. -/
def computeFullDigest (s : State) : State :=
  checkpoint md5
    { s with
      tree := fullTree md5 s.nb s.tree
      cowb := fun _ => false
      clog := s.clog.set 0 (s.clog.fetch 0).clear } 0

/-- `rollback`. -/
def rollback (s : State) : State :=
  let cr := s.lastRec
  { s with
    tree :=
      { s.tree with
        mem := fun i =>
          if i < s.nb ∧ s.cowb i then ((cr.parts (leafLevel, i)).bind (·.data)).getD (s.tree.mem i)
          else s.tree.mem i }
    clog := s.clog.set s.lc { cr.clear with sd := (s.tree.ptree 0 0).d }
    cowb := fun _ => false }

/-- `discard_checkpoint`. -/
def discardCheckpoint (s : State) (seqno le : ℤ) : State :=
  let s := if s.lc < seqno ∧ s.lc < le ∧ 0 ≤ s.lc then { s.checkpoint md5 le with lc := -1 } else s
  { s with clog := s.clog.truncate seqno }

end Digests

/-! ## Reading older checkpoints -/

/-- `for (; c <= lc; c += checkpoint_interval)`. -/
def ckptsFrom (c lc : ℤ) : List ℤ :=
  (List.range ((lc - c) / checkpointInterval + 1).toNat).map fun k : ℕ => c + checkpointInterval * k

/-- The loop that looks for a copy. "Skip checkpoint seqno if record has no
state." -/
def findCopy (s : State) (c : ℤ) (l i : ℕ) : Option BlockCopy :=
  (ckptsFrom c s.lc).findSome? fun n =>
    if digestIsZero (s.clog.fetch n).sd then none else (s.clog.fetch n).parts (l, i)

/-- `get_data`; `none` where the assertion at its end fails. -/
def getData (s : State) (c : ℤ) (i : ℕ) : Option Block :=
  if (s.tree.ptree leafLevel i).lm ≤ c ∧ s.cowb i = false then some (s.tree.mem i)
  else (s.findCopy c leafLevel i).bind (·.data)

/-- `get_meta_data`; `none` where the assertion at its end fails. -/
def getMetaData (s : State) (c : ℤ) (l i : ℕ) : Option Part :=
  if (s.tree.ptree l i).lm ≤ c then some (s.tree.ptree l i)
  else (s.findCopy c l i).map (·.toPart)

end State

/-! ## What a replica does with the state -/

/-- Writes of the service and checkpoints. -/
inductive Update where
  | modify (m size : ℕ) (data : ℕ → Block)
  | checkpoint (n : ℤ)

def State.update (md5 : Md5) (s : State) : Update → State
  | .modify m size data => s.modify m size data
  | .checkpoint n => s.checkpoint md5 n

end AbstractBFT.Pbft
