import AbstractBFT.Pbft.MetaDataCert
/-!
# PBFT — fetching state

The state transfer of `PBFT_R_State`, as it is built for memory pages. The
replica walks the partition tree from the root: `stalep` has for each level
the partitions that are out of date, all of them below the first one of the
level above, and `flevel` is the level it is at. For the partition it is
working on it wants a digest first, which a certificate of `Meta_data_d`
messages gives it, or the list of digests that the partition above was made
of. Then it wants the contents: a `Meta_data` message with the digests of
the partitions below, or a `Data` message at the leaves. Anyone may send
those, they are accepted if they have the digest.

Later checkpoints may overtake the fetch, so that a partition is brought up
to date as of a later checkpoint than the one above it. `lm` keeps track of
that: `done_with_level` puts a partition in place if nothing below it was
modified after the checkpoint `c` it is fetched for, and fetches it once more
otherwise.

`start_fetch` sets `keep_ckpts` to false, so no copies are made on the way;
what is done where it is true is left out. So is `to_check`, the list of
partitions that a check of the state looks at later. `heard` is not in the
code: it has the `Meta_data_d` messages that were handed to the certificate.
-/

namespace AbstractBFT.Pbft

open Function

/-! ## Messages -/

/-- `PBFT_R_Data`. The sequence number is a 64-bit integer. -/
structure Data where
  index : ℕ
  lm : BitVec 64
  data : Block
  deriving DecidableEq

/-- `PBFT_R_Meta_data`: `parts` are the digests of partitions below. `sized`
says that the message is as long as they need. -/
structure MetaData where
  rid : ℕ
  lu : BitVec 64
  lm : BitVec 64
  l : ℕ
  i : ℕ
  d : Digest
  id : ℕ
  parts : List (ℕ × Digest)
  sized : Bool
  deriving DecidableEq

namespace MetaData

/-- `verify`. The message is not authenticated. -/
def verify (N : Node) (m : MetaData) : Bool :=
  let min := m.i * pChildren
  N.isReplica m.id && decide (N.id ≠ m.id) && decide (m.l < leafLevel) &&
    decide (m.i < pLevelSize m.l) &&
    !(decide (1 < m.parts.length) && decide (pChildren < m.parts.length)) &&
    decide (m.lm.toInt ≤ m.lu.toInt) && m.sized &&
    m.parts.all (fun p => decide (min ≤ p.1) && decide (p.1 < min + pChildren)) &&
    decide (m.parts.map Prod.fst).Nodup

/-- `Sub_parts_iter`: the `count` partitions from `index` on, with a null
digest for those that the message leaves out. -/
def subPartsFrom : ℕ → ℕ → List (ℕ × Digest) → List (ℕ × Digest)
  | 0, _, _ => []
  | count + 1, index, [] => (index, 0) :: subPartsFrom count (index + 1) []
  | count + 1, index, cur :: parts =>
    if index < cur.1 then (index, 0) :: subPartsFrom count (index + 1) (cur :: parts)
    else (index, cur.2) :: subPartsFrom count (index + 1) parts

/-- What the loops over the iterator see: they stop where the blocks end. -/
def subParts (nb : ℕ) (m : MetaData) : List (ℕ × Digest) :=
  (subPartsFrom pChildren (m.i * pChildren) m.parts).takeWhile
    fun p => !(decide (m.l + 1 = leafLevel) && decide (nb ≤ p.1))

end MetaData

/-- `PBFT_R_Fetch`. -/
structure FetchMsg where
  rid : ℕ
  lu : ℤ
  l : ℕ
  i : ℕ
  c : ℤ
  replier : ℤ
  deriving DecidableEq

/-! ## The fetch -/

/-- `FPart`. -/
structure FPart where
  index : ℕ
  lu : ℤ
  lm : ℤ
  c : ℤ
  d : Digest
  deriving DecidableEq

/-- `PBFT_R_State`, as far as it fetches. The queues are stacks, their first
entry is `high()`. `sent` is the last fetch message, and with it
`last_fetch_rid`. -/
structure Fetcher extends State where
  fetching : Bool
  stalep : ℕ → List FPart
  flevel : ℕ
  cert : MetaDataCert
  refetch_level : ℕ
  lreplier : ℕ
  sent : FetchMsg
  heard : List MetaDataD

namespace Fetcher

variable (N : Node) (x : Fetcher)

def setQueue (l : ℕ) (q : List FPart) : Fetcher :=
  { x with stalep := update x.stalep l q }

/-- `cert->clear()`. -/
def clearCert : Fetcher := { x with cert := x.cert.clear }

/-- The next replier, which is another replica. -/
def nextReplier (r : ℕ) : ℕ :=
  if (r + 1) % N.n = N.id then (r + 2) % N.n else (r + 1) % N.n

/-- The replica's own `Meta_data_d` message: the digests of the partition in
the records that are in use. -/
def myMetaDataD (rid : ℕ) (p : FPart) : MetaDataD :=
  (State.ckptsFrom x.clog.head x.lc).foldl
    (fun m n =>
      if digestIsZero (x.clog.fetch n).sd then m
      else match x.getMetaData n x.flevel p.index with
        | some q => m.addDigest n q.d
        | none => m)
    (.new N rid x.flevel p.index x.clog.head)

/-- The end of `send_fetch`: "Add my Meta_data_d message to the
certificate". -/
def addMine (p : FPart) : Fetcher :=
  if x.cert.has_my_message = false ∧ (x.clog.fetch x.clog.head).isCleared = false ∧ p.c ≤ x.lc then
    let m := x.myMetaDataD N x.sent.rid p
    { x with cert := (x.cert.add N m true).1, heard := m :: x.heard }
  else x

/-- `send_fetch`. -/
def sendFetch (change_replier : Bool) : Fetcher :=
  match x.stalep x.flevel with
  | [] => x
  | p :: _ =>
    let lreplier := if 0 ≤ p.c ∧ change_replier then nextReplier N x.lreplier else x.lreplier
    addMine N
      { x with
        lreplier := lreplier
        sent := ⟨x.sent.rid + 1, p.lu, x.flevel, p.index, p.c, if 0 ≤ p.c then lreplier else -1⟩ } p

/-- "Update partition information to reflect last modification rather than
last checkpointed modification." -/
def current (s : State) (le : ℤ) : State :=
  if 0 ≤ s.lc ∧ s.lc < le then s.checkpoint N.md5 le else s

/-- `start_fetch`, with a choice of `lreplier`. -/
def startFetch (le c : ℤ) (cd : Option Digest) (lreplier : ℕ) : Fetcher :=
  if x.fetching then x
  else
    let s := current N x.toState le
    let p : FPart :=
      ⟨0, if x.refetch_level = leafLevel + 1 then -1 else s.lc, (s.tree.ptree 0 0).lm, c, cd.getD 0⟩
    sendFetch N
      { x.clearCert with
        toState := s
        fetching := true
        lreplier := lreplier % N.n
        stalep := fun l => if l = 0 then [p] else []
        flevel := 0
        heard := [] } true

/-- `if (p.lm > pwp.lm) pwp.lm = p.lm`, with the partition that is first at
level `l`. -/
def raiseLm (l : ℕ) (lm : ℤ) : Fetcher :=
  match x.stalep l with
  | [] => x
  | pwp :: q => x.setQueue l ({ pwp with lm := max pwp.lm lm } :: q)

/-- Replace the information on a partition, in the tree and in the sum, and
tell the partition above. -/
def putPart (l i : ℕ) (p : Part) : Fetcher :=
  let x := { x with tree := x.tree.replace l i p }
  if l = 0 then x else x.raiseLm (l - 1) p.lm

/-- "Create checkpoint record for current state", and the end of the
fetch. -/
def finish (c : ℤ) : Fetcher :=
  let clog := if x.clog.InRange c then x.clog else x.clog.truncate (c - maxOut)
  { x with
    fetching := false
    lc := c
    clog := clog.set c { clog.fetch c with sd := (x.tree.ptree 0 0).d }
    cowb := fun _ => false
    stalep := update x.stalep 0 (x.stalep 0).tail
    cert := x.cert.clear
    refetch_level := 0 }

/-- `done_with_level`, at level `flevel`. -/
def doneWithLevel : ℕ → Fetcher → Fetcher
  | 0, x => x
  | l + 1, x =>
    match x.stalep l with
    | [] => x
    | wp :: q =>
      let x := { x.setQueue l ({ wp with lu := wp.c } :: q) with flevel := l }
      if wp.lm ≤ wp.c then
        -- "partition is consistent"
        let x := x.putPart l wp.index ⟨wp.lm, wp.d⟩
        if l = 0 then x.finish wp.c
        else
          match q with
          | [] => doneWithLevel l (x.setQueue l [])
          | p :: q =>
            -- "Moving to a sibling."
            sendFetch N
              { x.setQueue l (p :: q) with
                refetch_level := if l ≤ x.refetch_level then leafLevel + 1 else x.refetch_level }
              false
      else
        -- "Partition is inconsistent"
        sendFetch N
          { x with refetch_level := if l < x.refetch_level then l else x.refetch_level } false

variable (x : Fetcher)

/-- What is done when the first partition of a level has been dealt with: go
on with its siblings, or up. -/
def advance (q : List FPart) : Fetcher :=
  match q with
  | [] => doneWithLevel N x.flevel (x.setQueue x.flevel [])
  | p :: q => sendFetch N (x.setQueue x.flevel (p :: q)) false

/-- `handle(PBFT_R_Data*)`. -/
def handleData (m : Data) : Fetcher :=
  if x.fetching ∧ x.flevel = leafLevel then
    match x.stalep leafLevel with
    | [] => x
    | wp :: q =>
      if m.index = wp.index then
        if 0 ≤ wp.c ∧ wp.d = partDigest N.md5 wp.index m.lm.toInt m.data then
          let x := x.putPart leafLevel wp.index ⟨m.lm.toInt, wp.d⟩
          let x :=
            { x with
              cowb := update x.cowb wp.index true
              tree := { x.tree with mem := update x.tree.mem wp.index m.data } }
          advance N x.clearCert q
        else sendFetch N x false
      else x
  else x

/-- The sum in `check_digest`. -/
def checkSum (m : MetaData) : DSum modulus :=
  (m.subParts x.nb).foldl
    (fun sum p =>
      if digestIsZero p.2 then sum else sum.exchange (x.tree.ptree (m.l + 1) p.1).d p.2)
    (x.tree.stree m.l m.i)

/-- `check_digest`. -/
def checkDigest (d : Digest) (m : MetaData) : Bool :=
  decide (d = partDigest N.md5 m.i m.lm.toInt (x.checkSum m).bytes)

/-- "Queue out-of-date subpartitions for fetching", of level `l`. -/
def queueStale (l : ℕ) (wp : FPart) (parts : List (ℕ × Digest)) : List FPart :=
  parts.foldl
    (fun q p =>
      let part := x.tree.ptree l p.1
      if digestIsZero p.2 ∨ part.d = p.2 then q else ⟨p.1, wp.lu, part.lm, wp.c, p.2⟩ :: q) []

/-- `handle(PBFT_R_Meta_data*)`. -/
def handleMetaData (m : MetaData) : Fetcher :=
  if x.fetching ∧ x.flevel < leafLevel ∧ m.rid = x.sent.rid ∧ x.flevel = m.l then
    match x.stalep x.flevel with
    | [] => x
    | wp :: q =>
      if wp.index = m.i ∧ 0 ≤ wp.c ∧ m.d = wp.d ∧ m.verify N ∧ checkDigest N x wp.d m then
        let wp := { wp with lm := m.lm.toInt }
        let x := { x.setQueue x.flevel (wp :: q) with flevel := x.flevel + 1 }
        advance N x.clearCert (x.queueStale x.flevel wp (m.subParts x.nb))
      else x
  else x

/-- The certificate for the working partition is complete. -/
def useCert (wp : FPart) (q : List FPart) (cc : ℤ) (cd : Digest) : Fetcher :=
  let x := (x.setQueue x.flevel ({ wp with c := cc, d := cd } :: q)).clearCert
  if cd = (x.tree.ptree x.flevel wp.index).d then
    -- "State is up-to-date"
    if 0 < x.flevel then
      let x := x.setQueue x.flevel q
      if q = [] then doneWithLevel N x.flevel x else x
    else doneWithLevel N 1 { x with flevel := 1 }
  else sendFetch N x true

/-- `handle(PBFT_R_Meta_data_d*)`. -/
def handleMetaDataD (m : MetaDataD) : Fetcher :=
  if x.fetching ∧ m.rid = x.sent.rid ∧ x.flevel = m.l then
    match x.stalep x.flevel with
    | [] => x
    | wp :: q =>
      if wp.index = m.i ∧ x.lc ≤ m.ls ∧ wp.lu ≤ m.ls then
        let r := x.cert.add N m false
        let x := { x with cert := r.1, heard := m :: x.heard }
        if r.2 then
          match r.1.cvalue with
          | some (cc, cd) => useCert N x wp q cc cd
          | none => x
        else x
      else x
  else x

/-- What a replica that fetches reacts to. -/
inductive Event where
  | data (m : Data)
  | metaData (m : MetaData)
  | metaDataD (m : MetaDataD)
  | retransmit

def step : Event → Fetcher
  | .data m => handleData N x m
  | .metaData m => handleMetaData N x m
  | .metaDataD m => handleMetaDataD N x m
  | .retransmit => if x.fetching then sendFetch N x true else x

end Fetcher

end AbstractBFT.Pbft
