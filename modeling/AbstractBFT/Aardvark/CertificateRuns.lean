import AbstractBFT.Aardvark.Certificate
import AbstractBFT.Lib.Run
/-!
# Aardvark — certificates over whole runs

A certificate with the messages that were contributed to it. `clear` forgets
them all. `mark_stale` keeps the owner's message, and leaves a complete
certificate as it is; the messages of the others are forgotten otherwise.
With these in hand a complete certificate has its threshold of contributors
(`certificate_sound`), for any equivalence as match relation.
-/

namespace AbstractBFT.Aardvark

open Machine List Option

/-- A call on a certificate. `ok` is the answer of `m->verify()`. -/
inductive CertCall (T : Type*) where
  | add (m : T) (ok : Bool)
  | addMine (m : T)
  | markStale
  | clear

/-- A certificate with the verified messages of other replicas and those of
the owner that were contributed since they were last forgotten. -/
structure CertRun (T : Type*) where
  cert : Certificate T
  heard : List T
  mine : List T

namespace CertRun

variable {T : Type*} [CertMessage T]

def new (f comp : ℕ) : CertRun T := ⟨.new f comp, [], []⟩

/-- One call, with `n` replicas. -/
def step (n : ℕ) (r : CertRun T) : CertCall T → CertRun T
  | .add m ok =>
    { r with
      cert := (r.cert.add n ok m).1
      heard := if ok ∧ CertMessage.id m < n then r.heard ++ [m] else r.heard }
  | .addMine m => { r with cert := (r.cert.addMine m).1, mine := r.mine ++ [m] }
  | .markStale =>
    { r with cert := r.cert.markStale, heard := if r.cert.isComplete then r.heard else [] }
  | .clear => ⟨r.cert.clear, [], []⟩

/-- What is required of a call by replica `me`: its own messages do not
verify, and it adds its own only where the certificate holds none, which is
so if it does at most once between two clears. -/
def Ok (me : ℕ) (r : CertRun T) : CertCall T → Prop
  | .add m ok => ok → CertMessage.id m ≠ me
  | .addMine m => CertMessage.id m = me ∧ r.cert.mym = none
  | .markStale => True
  | .clear => True

/-- Replica `j` contributed a message that matches `v`. -/
def Contributed (n me : ℕ) (r : CertRun T) (j : ℕ) (v : T) : Prop :=
  (∃ m ∈ r.heard, CertMessage.id m = j ∧ j < n ∧ CertMessage.agrees v m) ∨
    j = me ∧ ∃ m ∈ r.mine, CertMessage.agrees v m

variable {n me : ℕ} {r : CertRun T}

theorem contributed_congr (hag : Equivalence fun a b : T => CertMessage.agrees a b = true) {a b : T}
    (h : CertMessage.agrees a b) (j : ℕ) : r.Contributed n me j a ↔ r.Contributed n me j b := by
  have hiff : ∀ m, CertMessage.agrees a m = true ↔ CertMessage.agrees b m = true := fun m =>
    ⟨fun ham => hag.trans (hag.symm h) ham, fun hbm => hag.trans h hbm⟩
  simp only [Contributed, hiff]

theorem Contributed.mono {s : CertRun T} {j : ℕ} {v : T} (h : r.Contributed n me j v)
    (hheard : r.heard ⊆ s.heard) (hmine : r.mine ⊆ s.mine) : s.Contributed n me j v :=
  h.imp (fun ⟨m, hm, hrest⟩ => ⟨m, hheard hm, hrest⟩)
    fun ⟨hj, m, hm, hv⟩ => ⟨hj, m, hmine hm, hv⟩

/-- A correct value that the owner had no part in has `f+1` messages. -/
def Grounded (cert : Certificate T) : Prop :=
  cert.mym = none → ∀ val, cert.cval = some val → cert.correct ≤ val.count

theorem correct_add (n : ℕ) (ok : Bool) (cert : Certificate T) (m : T) :
    (cert.add n ok m).1.correct = cert.correct := by
  have h := Certificate.added_add n ok cert m
  generalize cert.add n ok m = x at h ⊢
  cases h with
  | other =>
    rw [Certificate.settle]
    split <;> rfl
  | _ => rfl

theorem correct_addMine (cert : Certificate T) (m : T) :
    (cert.addMine m).1.correct = cert.correct := by
  have h := Certificate.ownAdded_addMine cert m
  generalize cert.addMine m = x at h ⊢
  cases h <;> rfl

variable {cert : Certificate T}

/-- A value that is made correct by `add` has enough messages. -/
theorem Grounded.add (h : Grounded cert) (n : ℕ) (ok : Bool) (m : T) :
    Grounded (cert.add n ok m).1 := by
  intro hmym val hval
  rw [Certificate.mym_add] at hmym
  rw [correct_add]
  cases hold : cert.cval with
  | some old =>
    have hle := h hmym old hold
    rcases Certificate.cval_add n ok m hold with hsame | ⟨hbump, -⟩
    · obtain rfl := mem_unique hsame hval
      exact hle
    · obtain rfl := mem_unique hbump hval
      exact hle.trans (Nat.le_succ _)
  | none =>
    have hc : cert.c = none := by
      cases hc : cert.c with
      | none => rfl
      | some i =>
        obtain ⟨old, -, hcval⟩ := Certificate.cval_of_c hc
        cases hold.symm.trans hcval
    have hadd := Certificate.added_add n ok cert m
    generalize cert.add n ok m = x at hadd hval
    cases hadd with
    | correct _ _ _ hc' => cases hc.symm.trans hc'
    | @other i v _ _ _ _ hv _ =>
      -- `c` was set by the test in `settle`
      rw [Certificate.settle] at hval
      split at hval
      · next hex =>
        obtain ⟨w, hw, hle⟩ := hex
        obtain rfl := some.inj (hval.symm.trans (show _ = some w from hw))
        exact hle
      · rw [Certificate.cval_eq_none (show (cert.tally i m).c = none from hc)] at hval
        cases hval
    | fresh =>
      rw [Certificate.cval_eq_none (show (cert.append m).c = none from hc)] at hval
      cases hval
    | overflow =>
      cases hval
    | mismatch =>
      rw [Certificate.cval_eq_none (show (cert.mark (CertMessage.id m)).c = none from hc)] at hval
      cases hval
    | refused => cases hold.symm.trans hval

theorem Grounded.addMine (h : Grounded cert) (m : T) : Grounded (cert.addMine m).1 := by
  intro hmym
  rcases Certificate.addMine_cases cert m with hmine | ⟨hsame, -⟩
  · cases hmine.symm.trans hmym
  · rw [hsame] at hmym ⊢
    exact h hmym

omit [CertMessage T] in
theorem Grounded.markStale (h : Grounded cert) : Grounded cert.markStale := by
  rw [Certificate.markStale]
  split
  · exact h
  · split
    · intro hmym
      cases hmym
    · intro _ val hval
      cases hval

/-- What a run keeps: the counts are backed by contributions. -/
structure Sound (n me f k : ℕ) (r : CertRun T) : Prop where
  backed : r.cert.Backed (r.Contributed n me) me
  grounded : Grounded r.cert
  own : ∀ p, r.cert.mym = some p → p ∈ r.mine
  correct : r.cert.correct = f + 1
  complete : r.cert.complete = k

variable {f k : ℕ}

theorem sound_new (f comp : ℕ) :
    Sound n me f (if comp = 0 then 2 * f + 1 else comp) (new f comp : CertRun T) where
  backed := .new f comp
  grounded _ val hval := by
    cases hval
  own p hp := by cases hp
  correct := rfl
  complete := rfl

namespace Sound

variable (h : Sound n me f k r)

include h

variable {v m : T}

/-- The correct value has as many contributors as it counts. -/
theorem contributors (hv : r.cert.cvalue = some v) :
    ∃ A : Finset ℕ, (∀ j ∈ A, r.Contributed n me j v) ∧ r.cert.numCorrect ≤ A.card := by
  obtain ⟨val, hval, rfl⟩ := map_eq_some_iff.1 hv
  obtain ⟨i, -, hvi⟩ := Certificate.exists_c_of_cval hval
  obtain ⟨A, -, -, hsent, hcard⟩ := h.backed.senders i val hvi
  refine ⟨A, hsent, ?_⟩
  rw [Certificate.numCorrect, hval]
  exact hcard

/-- A value the owner had no part in has `f+1` messages. -/
theorem numCorrect_of_mym (hv : r.cert.cvalue = some v) (hmym : r.cert.mym = none) :
    f < r.cert.numCorrect := by
  obtain ⟨val, hval, rfl⟩ := map_eq_some_iff.1 hv
  have hle := h.grounded hmym val hval
  rw [h.correct] at hle
  rw [Certificate.numCorrect, hval]
  exact hle

variable (hag : Equivalence fun a b : T => CertMessage.agrees a b = true)

include hag

theorem add {ok : Bool} (hne : ok → CertMessage.id m ≠ me) :
    Sound n me f k (r.step n (.add m ok)) where
  backed := by
    by_cases hin : CertMessage.id m < n
    · have hsub : r.heard ⊆ (r.step n (.add m ok)).heard := by
        dsimp only [CertRun.step]
        split
        · exact subset_append_left _ _
        · exact List.Subset.refl _
      refine (h.backed.mono fun j v hv => hv.mono hsub (List.Subset.refl _)).add
        (fun a b hab => contributed_congr hag hab) fun hok =>
          ⟨hne hok, .inl ⟨m, ?_, rfl, hin, hag.refl m⟩⟩
      dsimp only [CertRun.step]
      rw [if_pos ⟨hok, hin⟩]
      exact mem_append_right _ (mem_singleton_self m)
    · -- a message of no replica is refused
      have hsame : r.step n (.add m ok) = r := by
        dsimp only [CertRun.step]
        rw [if_neg fun h => hin h.2, Certificate.add, if_neg fun h => hin h.1]
      rw [hsame]
      exact h.backed
  grounded := h.grounded.add n ok m
  own p hp := h.own p (hp ▸ (Certificate.mym_add ..).symm)
  correct := (correct_add n ok _ m).trans h.correct
  complete := Certificate.complete_add.trans h.complete

theorem addMine (hnone : r.cert.mym = none) : Sound n me f k (r.step n (.addMine m)) where
  backed := by
    have hmem : m ∈ (r.step n (.addMine m)).mine :=
      mem_append_right _ (mem_singleton_self m)
    have hsub : r.mine ⊆ (r.step n (.addMine m)).mine := subset_append_left _ _
    have hback : r.cert.Backed ((r.step n (.addMine m)).Contributed n me) me :=
      h.backed.mono fun j v hv => hv.mono (List.Subset.refl _) hsub
    exact hback.addMine (fun a b hab => contributed_congr hag hab) hnone
      (.inr ⟨rfl, m, hmem, hag.refl m⟩)
  grounded := h.grounded.addMine m
  own p hp := by
    rcases Certificate.addMine_cases r.cert m with hmine | ⟨hsame, -⟩
    · obtain rfl := mem_unique hmine hp
      exact mem_append_right _ (mem_singleton_self m)
    · dsimp only [CertRun.step] at hp
      rw [hsame, hnone] at hp
      cases hp
  correct := (correct_addMine _ m).trans h.correct
  complete := Certificate.complete_addMine.trans h.complete

theorem markStale : Sound n me f k (r.step n .markStale) where
  backed := by
    by_cases hcomp : r.cert.isComplete
    · -- a complete certificate is left alone
      have hsame : r.step n .markStale = r := by
        dsimp only [CertRun.step]
        rw [if_pos hcomp, Certificate.markStale, if_pos hcomp]
      rw [hsame]
      exact h.backed
    · exact .marked hcomp fun p hp => .inr ⟨rfl, p, h.own p hp, hag.refl p⟩
  grounded := h.grounded.markStale
  own p hp := by
    refine h.own p ?_
    dsimp only [CertRun.step] at hp
    rwa [Certificate.mym_markStale] at hp
  correct := (Certificate.thresholds_markStale r.cert).1.trans h.correct
  complete := (Certificate.thresholds_markStale r.cert).2.trans h.complete

theorem step {x : CertCall T} (hx : r.Ok me x) : Sound n me f k (r.step n x) := by
  cases x with
  | add m ok => exact h.add hag hx
  | addMine m => exact h.addMine hag hx.2
  | markStale => exact h.markStale hag
  | clear =>
    refine ⟨.clear _, fun _ val hval => ?_, fun p hp => ?_, h.correct, h.complete⟩
    · dsimp only [CertRun.step] at hval
      cases hval
    · cases hp

end Sound

/-- **Certificates are sound.** After any calls on an empty certificate, a
complete one has as many contributors of messages that match its value as
its threshold asks for. With at most `f` faulty senders, a value with `f+1`
messages — as one that the owner had no part in — matches a message that a
correct replica contributed. -/
theorem certificate_sound (hag : Equivalence fun a b : T => CertMessage.agrees a b = true)
    (n me f comp : ℕ) (calls : List (CertCall T)) :
    Guarded (step n) (Ok me) (new f comp) calls →
      let r := exec (step n) (new f comp) calls
      let k := if comp = 0 then 2 * f + 1 else comp
      (r.cert.isComplete → ∃ v, r.cert.cvalue = some v ∧
        ∃ A : Finset ℕ, (∀ j ∈ A, r.Contributed n me j v) ∧ k ≤ A.card) ∧
      ∀ faulty : Finset ℕ, faulty.card ≤ f → ∀ v, r.cert.cvalue = some v →
        (f < r.cert.numCorrect ∨ r.cert.mym = none) →
          ∃ j, j ∉ faulty ∧ r.Contributed n me j v := by
  intro hok r k
  have hsound : Sound n me f k r :=
    Guarded.invariant (I := Sound n me f k) (fun _ _ hs hx => hs.step hag hx) (sound_new f comp) hok
  have hpos : 0 < k := by
    dsimp only [k]
    split
    · exact Nat.succ_pos _
    · omega
  refine ⟨fun hcomp => ?_, fun faulty hF v hv hcount => ?_⟩
  · obtain ⟨val, hval, A, hA, hcard⟩ := hsound.backed.exists_senders (hsound.complete ▸ hpos) hcomp
    refine ⟨val.m, by rw [Certificate.cvalue, hval]; rfl, A, hA, ?_⟩
    exact hsound.complete ▸ hcard
  · have hlt : f < r.cert.numCorrect := hcount.elim id (hsound.numCorrect_of_mym hv)
    obtain ⟨A, hA, hcard⟩ := hsound.contributors hv
    obtain ⟨j, hj, hnot⟩ := Finset.exists_mem_notMem_of_card_lt_card
      (show faulty.card < A.card by omega)
    exact ⟨j, hnot, hA j hj⟩

end CertRun

section Sample

/-- A message with a sender and a value, where equal values match. -/
structure Vote where
  id : ℕ
  value : ℕ
  deriving DecidableEq

instance : CertMessage Vote where
  id := Vote.id
  agrees a b := a.value == b.value
  full _ := true

theorem vote_equivalence : Equivalence fun a b : Vote => CertMessage.agrees a b = true where
  refl a := beq_self_eq_true a.value
  symm h := beq_iff_eq.2 (beq_iff_eq.1 h).symm
  trans h h' := beq_iff_eq.2 ((beq_iff_eq.1 h).trans (beq_iff_eq.1 h'))

/-- Replica 0 of four adds the messages of two others and its own. -/
def threeVotes : List (CertCall Vote) := [.add ⟨1, 7⟩ true, .add ⟨2, 7⟩ true, .addMine ⟨0, 7⟩]

instance (me : ℕ) (r : CertRun Vote) (x : CertCall Vote) : Decidable (r.Ok me x) := by
  cases x <;> dsimp only [CertRun.Ok] <;> infer_instance

/-- The three votes complete a certificate with `f = 1`. -/
theorem certificate_sound_three :
    (exec (CertRun.step 4) (.new 1 0) threeVotes).cert.isComplete ∧
      ∃ v, (exec (CertRun.step 4) (.new 1 0) threeVotes).cert.cvalue = some v ∧
        ∃ A : Finset ℕ, (∀ j ∈ A,
          (exec (CertRun.step 4) (.new 1 0) threeVotes).Contributed 4 0 j v) ∧ 3 ≤ A.card :=
  ⟨by decide, (CertRun.certificate_sound vote_equivalence 4 0 1 0 threeVotes (by decide)).1
    (by decide)⟩

/-- Replica 0 adds its own message, marks the certificate and adds two more. -/
def ownFirstVotes : List (CertCall Vote) :=
  [.addMine ⟨0, 7⟩, .markStale, .add ⟨1, 7⟩ true, .add ⟨2, 7⟩ true]

/-- The replicas that contributed since the last marking or clear. -/
def sinceMarking (me : ℕ) (calls : List (CertCall Vote)) : Finset ℕ :=
  calls.foldl
    (fun A call =>
      match call with
      | .add m ok => if ok then insert m.id A else A
      | .addMine _ => insert me A
      | .markStale | .clear => ∅) ∅

/-- **A marking does not forget everything.** The owner's message counts
after it, and a complete certificate stays so with no message since: two
replicas contributed since the marking, or none, where three are asked for. -/
theorem markStale_keeps_votes :
    (Guarded (CertRun.step 4) (CertRun.Ok 0) (.new 1 0) ownFirstVotes ∧
      (exec (CertRun.step 4) (.new 1 0) ownFirstVotes).cert.isComplete ∧
      (sinceMarking 0 ownFirstVotes).card = 2) ∧
    Guarded (CertRun.step 4) (CertRun.Ok 0) (.new 1 0) (threeVotes ++ [.markStale]) ∧
      (exec (CertRun.step 4) (.new 1 0) (threeVotes ++ [.markStale])).cert.isComplete ∧
      sinceMarking 0 (threeVotes ++ [.markStale]) = ∅ := by
  decide

end Sample

end AbstractBFT.Aardvark
