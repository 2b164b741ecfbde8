import AbstractBFT.Aardvark.Certificate
import AbstractBFT.Aardvark.PrePrepare
import AbstractBFT.Common.BigReqTable
/-!
# Aardvark — prepared certificates

A prepared certificate is a pre-prepare, with the big requests it waits
for, and a certificate of `2f` prepares. The pre-prepare is accepted in one
of three ways (`accepts`): verified in full, verified up to its requests
with `f` prepares for it, or verified up to its requests and matching the
prepare this replica sent. Big requests are kept in a table by digest,
together with the pre-prepares that wait for them.
-/

namespace AbstractBFT.Aardvark

open Function

/-! ## Prepares and commits -/

/-- `A_Prepare`. `extra` marks a prepare sent to one replica as a proof. -/
structure Prepare where
  view : View
  seqno : ℕ
  digest : Digest
  id : ℕ
  extra : Bool
  auth : Bool
  deriving DecidableEq

instance : CertMessage Prepare where
  id := Prepare.id
  agrees p q := p.digest == q.digest
  full _ := true

/-- `A_Prepare::verify`. -/
def Prepare.verify (N : Node) (p : Prepare) : Bool :=
  decide (p.id < N.n ∧ p.id ≠ N.id) &&
    if p.extra then p.auth else decide (N.primary p.view ≠ p.id) && N.verifyAuth p.id p.auth

variable {N : Node} {p : Prepare}

theorem Prepare.verify_sound (h : p.verify N) : p.id < N.n ∧ p.id ≠ N.id ∧ p.auth := by
  simp only [verify, Bool.and_eq_true, decide_eq_true_eq] at h
  refine ⟨h.1.1, h.1.2, ?_⟩
  have h2 := h.2
  split at h2
  · exact h2
  · rw [Bool.and_eq_true] at h2
    exact (Node.verifyAuth_iff.1 h2.2).2

@[simp] theorem Prepare.agrees_iff {q : Prepare} :
    CertMessage.agrees p q = true ↔ p.digest = q.digest := beq_iff_eq

/-- `A_Commit`: it names a view and a sequence number and no digest. -/
structure Commit where
  view : View
  seqno : ℕ
  id : ℕ
  auth : Bool
  deriving DecidableEq

instance : CertMessage Commit where
  id := Commit.id
  agrees _ _ := true
  full _ := true

/-- `A_Commit::verify`. -/
def Commit.verify (N : Node) (c : Commit) : Bool :=
  decide (c.id < N.n ∧ c.id ≠ N.id) && N.verifyAuth c.id c.auth

theorem Commit.verify_sound {c : Commit} (h : c.verify N) : c.id < N.n ∧ c.id ≠ N.id ∧ c.auth := by
  simp only [verify, Bool.and_eq_true, decide_eq_true_eq] at h
  exact ⟨h.1.1, h.1.2, (Node.verifyAuth_iff.1 h.2).2⟩

/-- `A_Big_req_table`. -/
abbrev BigReqTable := AbstractBFT.BigReqTable Request.od Request.cid

/-! ## Pre-prepares with their big requests -/

/-- `A_Pre_prepare_info`: the pre-prepare and how many of its big requests
are missing. -/
structure PrePrepareInfo where
  pp : Option PrePrepare
  mreqs : ℤ

namespace PrePrepareInfo

def empty : PrePrepareInfo := ⟨none, 0⟩

/-- `add(p)`. -/
def add (brt : BigReqTable) (p : PrePrepare) : PrePrepareInfo × BigReqTable :=
  p.big_reqs.zipIdx.foldl
    (fun s rd =>
      let t := s.2.addPrePrepare rd.1 rd.2 p.seqno p.view
      ({ s.1 with mreqs := if t.2 then s.1.mreqs - 1 else s.1.mreqs }, t.1))
    (⟨some p, p.big_reqs.length⟩, brt)

/-- `add_complete`. -/
def addComplete (p : PrePrepare) : PrePrepareInfo := ⟨some p, 0⟩

variable (pi : PrePrepareInfo)

/-- `add(rd, i)`. -/
def addDigest (rd : Digest) (i : ℕ) : PrePrepareInfo :=
  if pi.pp.any fun p => p.big_reqs[i]? == some rd then { pi with mreqs := pi.mreqs - 1 } else pi

/-- `clear` and `zero`. -/
def clear : PrePrepareInfo := { pi with pp := none }

/-- `is_complete`. -/
def isComplete : Bool := pi.pp.isSome && pi.mreqs == 0

@[simp] theorem pp_add (brt : BigReqTable) (p : PrePrepare) : (add brt p).1.pp = some p := by
  have hfold : ∀ (l : List (Digest × ℕ)) (s : PrePrepareInfo × BigReqTable), s.1.pp = some p →
      (l.foldl (fun s rd =>
        let t := s.2.addPrePrepare rd.1 rd.2 p.seqno p.view
        ({ s.1 with mreqs := if t.2 then s.1.mreqs - 1 else s.1.mreqs }, t.1)) s).1.pp = some p := by
    intro l
    induction l with
    | nil => intro s hs; exact hs
    | cons rd l ih => intro s hs; exact ih _ hs
  exact hfold _ _ rfl

@[simp] theorem pp_addDigest (pi : PrePrepareInfo) (rd : Digest) (i : ℕ) :
    (pi.addDigest rd i).pp = pi.pp := by
  rw [addDigest]
  split <;> rfl

end PrePrepareInfo

/-! ## Prepared certificates -/

/-- `A_Prepared_cert`. -/
structure PreparedCert where
  pc : Certificate Prepare
  pi : PrePrepareInfo
  primary : Bool

namespace PreparedCert

/-- `A_Prepared_cert()`. -/
def new (f : ℕ) : PreparedCert := ⟨Certificate.new f (2 * f), .empty, false⟩

variable (cert : PreparedCert)

/-- `pre_prepare`. -/
def prePrepare : Option PrePrepare := cert.pi.pp

/-- `my_prepare`. -/
def myPrepare : Option Prepare := cert.pc.mym

/-- `my_pre_prepare`. -/
def myPrePrepare : Option PrePrepare :=
  if cert.primary then cert.pi.pp else none

/-- `is_pp_complete`. -/
def isPpComplete : Bool := cert.pi.isComplete

/-- `pre_prepare()->match(cvalue())`. -/
def ppMatches : Bool :=
  cert.pi.pp.any fun pp => cert.pc.cvalue.any fun p => pp.digest == p.digest

/-- `is_complete`. -/
def isComplete : Bool :=
  cert.pi.isComplete && cert.pc.isComplete && cert.ppMatches

/-- `add(A_Prepare*)`. -/
def addPrepare (N : Node) (cert : PreparedCert) (p : Prepare) : PreparedCert × Bool :=
  let r := cert.pc.add N.n (p.verify N) p
  ({ cert with pc := r.1 }, r.2)

/-- `add_mine(A_Prepare*)`. -/
def addMine (p : Prepare) : PreparedCert :=
  { cert with pc := (cert.pc.addMine p).1 }

/-- `add_mine(A_Pre_prepare*)`, at the primary. -/
def addMinePrePrepare (pp : PrePrepare) : PreparedCert :=
  { cert with pi := .addComplete pp, primary := true }

/-- `add_old`. -/
def addOld (brt : BigReqTable) (cert : PreparedCert) (pp : PrePrepare) : PreparedCert × BigReqTable :=
  let r := PrePrepareInfo.add brt pp
  ({ cert with pi := r.1 }, r.2)

/-- `add(d, i)`. -/
def addDigest (rd : Digest) (i : ℕ) : PreparedCert :=
  { cert with pi := cert.pi.addDigest rd i }

/-- The tests of `add(A_Pre_prepare*)` on a certificate without a
pre-prepare. "If we sent a prepare, we only accept a matching
pre-prepare." -/
def accepts (N : Node) (q : ReqQueue) (cert : PreparedCert) (m : PrePrepare) : Bool :=
  match cert.pc.mym with
  | none =>
    m.verify N q .all ||
      m.verify N q .nrc && cert.pc.vals.any fun val => decide (N.f ≤ val.count) && m.digest == val.m.digest
  | some p => m.digest == p.digest && m.verify N q .nrc

/-- `add(A_Pre_prepare*)`. -/
def add (N : Node) (q : ReqQueue) (brt : BigReqTable) (cert : PreparedCert) (m : PrePrepare) :
    (PreparedCert × BigReqTable) × Bool :=
  if cert.pi.pp.isNone && cert.accepts N q m then (cert.addOld brt m, true)
  else ((cert, brt), false)

/-- `mark_stale`; the primary keeps its pre-prepare. -/
def markStale (isPrimary : Bool) (cert : PreparedCert) : PreparedCert :=
  if cert.isComplete then cert
  else
    { cert with
      pi := if isPrimary then cert.pi else cert.pi.clear
      pc := cert.pc.markStale }

/-- `clear`. -/
def clear : PreparedCert := ⟨cert.pc.clear, cert.pi.clear, false⟩

variable {N : Node} {q : ReqQueue} {brt : BigReqTable} {cert : PreparedCert} {m : PrePrepare}

/-- **How a pre-prepare gets in.** The certificate had none, and the
message verified in one of the two modes that check the authenticator. -/
theorem add_true (h : (cert.add N q brt m).2) : cert.pi.pp = none ∧ cert.accepts N q m ∧
      (m.verify N q .all ∨ m.verify N q .nrc) := by
  rw [add] at h
  split at h
  case isFalse => cases h
  case isTrue hacc =>
  rw [Bool.and_eq_true, Option.isNone_iff_eq_none] at hacc
  refine ⟨hacc.1, hacc.2, ?_⟩
  have hacc := hacc.2
  rw [accepts] at hacc
  split at hacc
  · rw [Bool.or_eq_true, Bool.and_eq_true] at hacc
    exact hacc.imp id And.left
  · rw [Bool.and_eq_true] at hacc
    exact .inr hacc.2

theorem add_of_true (h : (cert.add N q brt m).2) : (cert.add N q brt m).1 = cert.addOld brt m := by
  rw [add] at h ⊢
  split at h
  case isFalse => cases h
  case isTrue hacc => rw [if_pos hacc]

@[simp] theorem pp_addOld (brt : BigReqTable) (cert : PreparedCert) (m : PrePrepare) :
    (cert.addOld brt m).1.pi.pp = some m := PrePrepareInfo.pp_add brt m

/-- What a complete prepared certificate holds. -/
theorem exists_of_isComplete (h : cert.isComplete) :
    ∃ pp, cert.pi.pp = some pp ∧ cert.pi.isComplete ∧ cert.pc.isComplete ∧
      ∃ val, cert.pc.cval = some val ∧ pp.digest = val.m.digest := by
  simp only [isComplete, ppMatches, Bool.and_eq_true, Option.any_eq_true, beq_iff_eq] at h
  obtain ⟨⟨hpi, hpc⟩, pp, hpp, p, hp, heq⟩ := h
  rw [Certificate.cvalue, Option.map_eq_some_iff] at hp
  obtain ⟨val, hval, rfl⟩ := hp
  exact ⟨pp, hpp, hpi, hpc, val, hval, heq⟩

end PreparedCert

end AbstractBFT.Aardvark
