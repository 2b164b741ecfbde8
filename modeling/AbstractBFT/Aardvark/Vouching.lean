import AbstractBFT.Aardvark.BatchDigest
import AbstractBFT.Aardvark.SummaryStep
import AbstractBFT.Lib.Run
/-!
# Aardvark — requests of a new view are vouched for

Over whole runs, what a replica marks complete for a new view was vouched
for by more than `f` replicas or logged by itself, as long as the prepares
that count verify, what verifies carries a right MAC, no view-change is
counted on top of its sender's prepare, and the own log does not answer with
digests of other sequence numbers. The handler of prepares checks none sent
as proofs, and the check would be of a flag that the sender sets, so one
forged message is enough to mark a request that a single replica reported.
-/

namespace AbstractBFT.Aardvark

namespace NVSummary

open Function Machine List

variable {N : Node} {H : List NvEvent} {l : OpLog} {V : ℕ → Option ViewChange} {P : ℕ → Prop}
  {s : NVSummary} {vc : ViewChange}

/-! ## Events -/

/-- `Good` at some set of authentic view-changes. -/
def Holds (N : Node) (H : List NvEvent) (l : OpLog) (s : NVSummary) : Prop :=
  ∃ V, AllAttested N H V ∧ Sound N H l V s

theorem Good.withVcs (h : Good N H l V P s) (W : ℕ → Option ViewChange) :
    Good N H l W P { s with vcs := W } :=
  { h with vcs := rfl }

theorem AllAttested.update (hV : AllAttested N H V) (hheard : Attested N H vc) (hlt : vc.id < N.n) :
    AllAttested N H (update V vc.id (some vc)) :=
  Entries.forall_write hV ⟨rfl, hlt, hheard⟩

theorem Holds.addViewChange (h : Holds N H l s) (hl : l.Owns) (hf : 1 ≤ N.f) {verified : Bool}
    (hvc : verified = true → Attested N H vc ∧ vc.id < N.n)
    (hfree : N.primary s.v = N.id → vc.id = N.id → s.Uncounted vc.id) :
    Holds N H l (addViewChange N s vc verified) := by
  obtain ⟨V, hV, hs⟩ := h
  rw [NVSummary.addViewChange]
  split
  · exact ⟨V, hV, hs⟩
  dsimp only
  rw [hs.vcs]
  have hnew := hs.withVcs (update V vc.id (some vc))
  split
  · next hprimary =>
    split
    · exact ⟨V, hV, hs⟩
    next hver =>
    obtain ⟨hheard, hlt⟩ := hvc (Bool.not_eq_false _ ▸ hver)
    refine ⟨_, hV.update hheard hlt, ?_⟩
    split
    · next hid =>
      refine Good.summarize hl (hV.update hheard hlt) ?_ (update_self _ _ _) (hfree hprimary hid)
      exact hnew.frame rfl
    · exact hnew
  · split
    · exact ⟨V, hV, hs⟩
    next nv _ =>
    split
    · next hname =>
      have hver : verified = true := hname.2.resolve_right (by omega)
      obtain ⟨hheard, hlt⟩ := hvc hver
      refine ⟨_, hV.update hheard hlt, ?_⟩
      split
      · exact hnew.checkNewView hl (hV.update hheard hlt) nv
      · exact hnew
    · exact ⟨V, hV, hs⟩

theorem Holds.addAck (h : Holds N H l s) (hl : l.Owns) {id : ℕ} {auth : Bool}
    (hfree : countsAck N s id vc auth → lastAck N s vc → s.Uncounted vc.id) :
    Holds N H l (addAck N s id vc auth) := by
  obtain ⟨V, hV, hs⟩ := h
  refine ⟨V, hV, ?_⟩
  rw [NVSummary.addAck]
  split
  case isFalse => exact hs
  case isTrue hcounts =>
  dsimp only
  split
  · next hlast =>
    have hvc : V vc.id = some vc := hs.vcs ▸ hcounts.2.2.2.1
    refine Good.summarize hl hV ?_ hvc (hfree hcounts hlast)
    exact hs.frame rfl
  · exact hs.frame rfl

theorem holds_clear (hheard : s.heard = H) (hlog : s.log = l) : Holds N H l (s.clear N) := by
  refine ⟨fun _ => none, fun k vc hvc => ?_, hheard, hlog, rfl, fun i cur hcur => ?_,
    fun i j hj => ?_, fun k hk => ?_, fun i cur hcur => ?_, fun _ _ => rfl⟩
  · cases hvc
  · cases hcur
  · cases hj
  · cases hk
  · cases hcur

theorem Holds.frame (h : Holds N H l s) {s' : NVSummary}
    (hsame : (s'.heard, s'.log, s'.vcs, s'.reqs, s'.comp_reqs, s'.req_sum, s'.chosen_ckpt) =
      (s.heard, s.log, s.vcs, s.reqs, s.comp_reqs, s.req_sum, s.chosen_ckpt)) :
    Holds N H l s' := by
  obtain ⟨V, hV, hs⟩ := h
  exact ⟨V, hV, hs.frame hsame⟩

/-- What is heard later takes nothing away. -/
theorem Holds.hear (h : Holds N H l s) {H' : List NvEvent} (hH : H ⊆ H') :
    Holds N H' l { s with heard := H' } := by
  obtain ⟨V, hV, hs⟩ := h
  refine ⟨V, fun k vc hvc => ?_, { hs with heard := rfl, reqs := fun i cur hcur => ?_ }⟩
  · obtain ⟨hid, hlt, hheard⟩ := hV k vc hvc
    exact ⟨hid, hlt, hheard.mono hH⟩
  · exact (hs.reqs i cur hcur).mono hH (List.Subset.refl _)

/-- Nor does what is logged later. -/
theorem Holds.withLog (h : Holds N H l s) (l' : OpLog) (hl : l.logged ⊆ l'.logged) :
    Holds N H l' { s with log := l' } := by
  obtain ⟨V, hV, hs⟩ := h
  exact ⟨V, hV, { hs with
    log := rfl, reqs := fun i cur hcur => (hs.reqs i cur hcur).mono (List.Subset.refl _) hl }⟩

/-- A prepare counts if it verifies, and a view-change is summarized if its
sender was not counted before. -/
def Vetted (N : Node) (s : NVSummary) : NvEvent → Prop
  | .prepare p => (countsPrepare N s p).isSome → p.verify N
  | .viewChange vc _ => N.primary s.v = N.id → vc.id = N.id → s.Uncounted vc.id
  | .own vc => N.primary s.v = N.id → vc.id = N.id → s.Uncounted vc.id
  | .ack id vc auth => countsAck N s id vc auth → lastAck N s vc → s.Uncounted vc.id
  | _ => True

theorem holds_handle (h : Holds N H s.log s) (hl : s.log.Owns) (hf : 1 ≤ N.f) (hid : N.id < N.n)
    {e : NvEvent} (he : e ∈ H) (hvet : s.Vetted N e) :
    Holds N H (s.log.handle e) (s.handle N e) := by
  have hclear : Holds N H s.log (s.clear N) := by
    obtain ⟨V, -, hs⟩ := h
    exact holds_clear hs.heard rfl
  cases e with
  | newView nv auth =>
    rw [handle]
    split
    · exact hclear.frame rfl
    · exact h
  | start w =>
    rw [handle]
    split
    · exact hclear.frame rfl
    · exact h
  | viewChange vc auth =>
    refine h.addViewChange hl hf (fun hver => ?_) hvet
    exact ⟨.inl ⟨auth, he, hver⟩, (ViewChange.verify_sound hver).1⟩
  | own vc =>
    rw [handle]
    split
    · next heq => exact h.addViewChange hl hf (fun _ => ⟨.inr ⟨heq, he⟩, heq ▸ hid⟩) hvet
    · exact h
  | ack id vc auth => exact h.addAck hl hvet
  | prepare p =>
    obtain ⟨V, hV, hs⟩ := h
    refine ⟨V, hV, hs.addPrepare hl p fun j hj => ⟨trivial, ?_⟩⟩
    have hver : p.verify N := hvet (hj ▸ rfl)
    exact ⟨(Prepare.verify_sound hver).1,
      .inr ⟨p, he, hver, (countsPrepare_some hj).1, rfl, rfl, rfl⟩⟩
  | prePrepare pp =>
    obtain ⟨V, hV, hs⟩ := h
    exact ⟨V, hV, hs.addPrePrepare hl pp⟩
  | bigRequest rd n k =>
    obtain ⟨V, hV, hs⟩ := h
    exact ⟨V, hV, hs.addBigRequest hl rd n k⟩
  | logComplete pp => exact h.withLog _ (OpLog.logged_record _ _ _ _)
  | logIncomplete n v d => exact h.withLog _ (OpLog.logged_record _ _ _ _)
  | stable ls =>
    have hcut := h.withLog (s.log.truncate (ls + 1)) (by
      rw [OpLog.logged_truncate]
      exact List.Subset.refl _)
    rw [handle]
    split
    · exact hcut.frame rfl
    · exact hcut.frame rfl
  | reset => exact hclear

/-! ## Runs -/

/-- What holds in every state of a run. -/
def Inv (N : Node) (s : NVSummary) : Prop :=
  s.log.Kept ∧ Holds N s.heard s.log s

/-- The condition on each step: the event is vetted, and the own log
remembers for each sequence number only digests logged for it. -/
def Ok (N : Node) (s : NVSummary) (e : NvEvent) : Prop :=
  s.log.Fresh ∧ s.Vetted N e

theorem inv_step (hf : 1 ≤ N.f) (hid : N.id < N.n) {e : NvEvent} (h : Inv N s) (hok : Ok N s e) :
    Inv N (step N s e) ∧ (step N s e).heard = s.heard ++ [e] ∧
      (step N s e).log = s.log.handle e := by
  obtain ⟨hkept, hs⟩ := h
  have hheard := hs.hear (subset_append_left s.heard [e])
  have hvet : Vetted N { s with heard := s.heard ++ [e] } e := by
    have hvet := hok.2
    cases e <;> exact hvet
  obtain ⟨V, hV, hgood⟩ := holds_handle (s := { s with heard := s.heard ++ [e] }) hheard
    (hkept.owns hok.1) hf hid (mem_append_right _ (mem_singleton_self e)) hvet
  change Good N (s.heard ++ [e]) (s.log.handle e) V _ (step N s e) at hgood
  refine ⟨⟨?_, V, ?_, ?_⟩, hgood.heard, hgood.log⟩
  · rw [hgood.log]
    exact hkept.handle e
  · rw [hgood.heard]
    exact hV
  · rw [hgood.heard, hgood.log]
    exact hgood

theorem inv_init (N : Node) : Inv N (init N) :=
  ⟨OpLog.kept_new N.f, holds_clear (s := init N) rfl rfl⟩

theorem inv_exec (hf : 1 ≤ N.f) (hid : N.id < N.n) {es : List NvEvent} (h : Inv N s)
    (hrun : Guarded (step N) (Ok N) s es) :
    Inv N (exec (step N) s es) ∧ (exec (step N) s es).heard = s.heard ++ es := by
  induction es generalizing s with
  | nil => exact ⟨h, (append_nil _).symm⟩
  | cons e es ih =>
    obtain ⟨hinv, hheard, -⟩ := inv_step hf hid h hrun.1
    obtain ⟨hinv', hheard'⟩ := ih hinv hrun.2
    refine ⟨hinv', ?_⟩
    rw [exec_cons, hheard', hheard, append_assoc, singleton_append]

/-- The request marked complete for sequence number `i`. -/
def Marked (s : NVSummary) (i : ℕ) (d : Digest) : Prop :=
  ∃ j cur, s.comp_reqs i = some j ∧ (s.reqs i)[j]? = some cur ∧ 0 ≤ cur.v ∧ cur.d = d

/-- The flag `mac_is_valid` of a message that may vouch. -/
def flagged : NvEvent → Bool
  | .viewChange _ auth => auth
  | .prepare p => p.auth
  | _ => false

/-- **Where the flag is set the MAC is right.** The second component says
whether the message carries the right MAC of the replica it names; nothing
reads it. -/
def Authentic (x : NvEvent × Bool) : Prop := flagged x.1 → x.2

/-- What was heard, without the messages whose flag is set for a wrong
MAC. -/
def rightly (es : List (NvEvent × Bool)) : List NvEvent :=
  (es.filter fun x => !flagged x.1 || x.2).map Prod.fst

/-- More than `f` replicas vouched for the digest in messages with right
MACs, or the replica logged it for the sequence number. -/
def VouchedFor (N : Node) (es : List (NvEvent × Bool)) (i : ℕ) (d : Digest) : Prop :=
  (∃ K : Finset ℕ, N.f < K.card ∧ ∀ k ∈ K, k < N.n ∧ Vouched N (rightly es) i d k) ∨
    (i, d) ∈ (exec (step N) (init N) (es.map Prod.fst)).log.logged

/-- A batch without requests. -/
def vouchBatch : PrePrepare := ⟨2, 1, toyMd5 [1], [], [], [1], true, true⟩

/-- A view-change for view 2 that reports `reqs` after checkpoint 0. -/
def vouchViewChange (id : ℕ) (reqs : List ReqInfo) : ViewChange := ⟨2, 0, id, [1], reqs⟩

/-- Replica 2 is the primary of view 2. Replica 0 reports the batch as
prepared, replica 3 another one that did not prepare, and the proof that the
primary misses comes in the name of replica 1. -/
def vouchRun (auth : Bool) : List NvEvent :=
  let vc₀ := vouchViewChange 0 [⟨0, 0, vouchBatch.digest, true⟩]
  let vc₃ := vouchViewChange 3 [⟨0, 1, 9, false⟩]
  [.start 2, .own (vouchViewChange 2 []), .viewChange vc₀ true, .viewChange vc₃ true,
    .ack 1 vc₀ true, .ack 1 vc₃ true, .prepare ⟨1, 1, vouchBatch.digest, 1, true, auth⟩,
    .prePrepare vouchBatch]

theorem marked_vouchRun (auth : Bool) :
    Marked (exec (step (toyNode 1 2)) (init (toyNode 1 2)) (vouchRun auth)) 1
      vouchBatch.digest := by
  have hreq : ((exec (step (toyNode 1 2)) (init (toyNode 1 2)) (vouchRun auth)).reqs
      1)[0]?.map (fun cur => (cur.v, cur.d)) = some (0, vouchBatch.digest) := by
    cases auth <;> decide +kernel
  obtain ⟨cur, hcur, heq⟩ := Option.map_eq_some_iff.1 hreq
  obtain ⟨hv, hd⟩ := Prod.mk.inj heq
  refine ⟨0, cur, ?_, hcur, hv.ge, hd⟩
  cases auth <;> decide +kernel

/-- The prepare in the name of replica 1 carries a wrong MAC. -/
def forgedRun (auth : Bool) : List (NvEvent × Bool) :=
  (vouchRun auth).map fun e => (e, match e with | .prepare _ => false | _ => true)

end NVSummary

end AbstractBFT.Aardvark
