import AbstractBFT.Pbft.ServerStep
/-!
# PBFT — the requests in the table are those their digests name

`verify` compares the digest field of a request with the MD5 of its
content, but a request is also taken without it: between views and where
`f` prepares match a pre-prepare that waits for the digest, and under J2EE
with a zero digest. Nothing else compares the field, so the table is right
in the runs in which such requests carry their own digest.
-/

namespace AbstractBFT.Pbft

open Machine

variable {S X : Type} {N : SNode S X}

/-- The batch was executed with requests that have the MD5s its pre-prepare
names. -/
def RanAsNamed (md5 : Md5) (x : PrePrepare × List RequestMsg) : Prop :=
  ∃ big, x.2 = x.1.rset ++ big ∧ big.map (·.compDigest md5) = x.1.big_reqs

namespace Core

/-- Requests in the queue and the table have the MD5 they are kept under,
and those executed have the one they were executed for. -/
structure Sound (c : Core N) : Prop where
  table : c.brt.Named N.md5
  queue : ∀ r ∈ c.rqueue, r.compDigest N.md5 = r.od
  ran : ∀ x ∈ c.ran, RanAsNamed N.md5 x

variable {c c' : Core N}

/-- What adds only requests with their own digest keeps this. -/
theorem Sound.of_tame (h : c.Sound) (ht : Tame {r | r.compDigest N.md5 = r.od} c c') :
    c'.Sound := by
  have hholds : ∀ rd r, c.Holds {r | r.compDigest N.md5 = r.od} rd r →
      r.compDigest N.md5 = rd := by
    rintro rd r (hr | ⟨rfl, hr | hr⟩)
    · exact h.table rd r hr
    · exact h.queue r hr
    · exact hr
  refine ⟨fun rd r hr => hholds rd r (ht.table rd r hr), fun r hr => ?_, fun x hx => ?_⟩
  · exact (ht.queue r hr).elim (h.queue r) id
  · rcases ht.ran x hx with hx | ⟨big, heq, hbig⟩
    · exact h.ran x hx
    · refine ⟨big, heq, ?_⟩
      rw [← List.forall₂_eq_eq_eq, List.forall₂_map_left_iff]
      exact hbig.flip.imp fun r rd => hholds rd r

theorem Sound.of_eq (h : c.Sound) (htable : c'.brt = c.brt) (hqueue : c'.rqueue = c.rqueue)
    (hran : c'.ran = c.ran) : c'.Sound :=
  ⟨htable ▸ h.table, hqueue ▸ h.queue, hran ▸ h.ran⟩

theorem Sound.handleAbort (h : c.Sound) (m : Abort) : (c.handleAbort m).Sound := by
  rw [Core.handleAbort]
  split
  · exact h
  split
  · exact h
  split
  · exact h.of_eq rfl rfl rfl
  split
  · exact h.of_eq rfl rfl rfl
  · split
    · refine Sound.of_tame ?_ (tame_switchAway _)
      exact h.of_eq rfl rfl rfl
    · exact h.of_eq rfl rfl rfl

end Core

namespace Server

variable [DecidableEq X]

/-- The request is taken, and its digest was not compared. -/
def unchecked (s : Server N) (m : RequestMsg) : Bool :=
  s.takes m && !(s.core.hasNewView && m.verify N.toNode && !(N.j2ee && m.od == 0))

/-- A request that is taken unchecked carries the MD5 of its content. -/
def DigestOk (s : Server N) : SEvent S → Prop
  | .request m => s.unchecked m → m.compDigest N.md5 = m.od
  | _ => True

omit [DecidableEq X] in
theorem compDigest_of_takes {s : Server N} {m : RequestMsg} (hok : s.DigestOk (.request m))
    (h : s.takes m) : m.compDigest N.md5 = m.od := by
  rcases hun : s.unchecked m with _ | _
  · rw [unchecked, h, Bool.true_and, Bool.not_eq_false', Bool.and_eq_true, Bool.and_eq_true,
      Bool.not_eq_true'] at hun
    exact RequestMsg.compDigest_of_verify hun.1.2 hun.2
  · exact hok hun

theorem sound_handle {s : Server N} (h : s.core.Sound) {e : SEvent S} (hok : s.DigestOk e) :
    (s.handle e).core.Sound := by
  cases e with
  | request m => exact h.of_tame (tame_handleRequest s fun ht => compDigest_of_takes hok ht)
  | panic cid rid buffer =>
    obtain ⟨st, hst⟩ := s.core.exists_startPanic
    change (s.handlePanic cid rid buffer).core.Sound
    rw [core_handlePanic, hst]
    split <;> exact h.of_eq rfl rfl rfl
  | abort m => exact h.handleAbort m
  | setEnabled state =>
    cases state with
    | true =>
      change s.core.enable.Sound
      rw [Core.enable]
      split
      · exact h.of_eq rfl rfl rfl
      · exact h
    | false => exact h.of_tame (Core.tame_disable s.core)
  | _ => exact h.of_tame (tame_handle s (fun _ he => by cases he) rfl)

theorem sound_step (s : Server N) (e : SEvent S) (h : s.core.Sound) (hok : s.DigestOk e) :
    (s.step e).core.Sound := by
  rw [step]
  split
  · exact h
  · exact sound_handle h hok

/-- **The table keeps requests under their own MD5, and batches are
executed with what their digests name**, in every run in which the requests
taken without a check carry the MD5 of their content. -/
theorem table_integrity (service : S) (next : X) (es : List (SEvent S))
    (hok : Guarded step DigestOk (init N service next) es) :
    let s := exec step (init N service next) es
    (∀ rd r, s.core.brt.lookup rd = some r → r.compDigest N.md5 = rd) ∧
      ∀ x ∈ s.core.ran, RanAsNamed N.md5 x := by
  have hinit : (init N service next).core.Sound :=
    ⟨BigReqTable.named_empty N.md5, List.forall_mem_nil _, List.forall_mem_nil _⟩
  have hrun := Guarded.invariant (I := fun s => s.core.Sound) sound_step hinit hok
  exact ⟨hrun.table, hrun.ran⟩

end Server

/-! ## A forged request -/

/-- Replica 1 of four, with a service that counts. -/
def sampleSNode : SNode ℕ Bool where
  f := 1
  id := 1
  np := 6
  md5 := fun bs => BitVec.ofNat 128 (bs.foldl (fun n b => 257 * n + b.toNat + 1) 0)
  j2ee := false
  M := ReqHistoryLog.sampleModulus
  exec_command := fun s cmd _ _ _ => (s + cmd.length, [], false)
  enable_next := fun b _ => b
  gen_signature := fun _ _ => []
  verify_signature := fun _ _ _ => true

/-- Client 5's first request, with the digest of the command `named`. -/
def sampleRequestMsg (named command : List UInt8) (auth : Bool) : RequestMsg :=
  let r : RequestMsg := ⟨0, false, false, 5, 1, command, true, auth⟩
  { r with od := { r with command := named }.compDigest sampleSNode.md5 }

/-- The pre-prepare of the primary for the command `[1]`. -/
def samplePrePrepare : PrePrepare := ⟨0, 1, [], [(sampleRequestMsg [1] [1] true).od]⟩

/-- The pre-prepare comes before its request, which arrives when one
prepare matches and is not authenticated. -/
def vouchedRun (command : List UInt8) : List (SEvent ℕ) :=
  [.prePrepare samplePrePrepare true, .vouched 1,
    .request (sampleRequestMsg [1] command false), .prepares 1]

/-- The request itself may come so. -/
theorem table_integrity_vouched :
    let s := exec Server.step (Server.init sampleSNode 0 false) (vouchedRun [1])
    (∀ rd r, s.core.brt.lookup rd = some r → r.compDigest sampleSNode.md5 = rd) ∧
      ∀ x ∈ s.core.ran, RanAsNamed sampleSNode.md5 x :=
  Server.table_integrity 0 false (vouchedRun [1])
    ⟨trivial, trivial, fun _ => by decide, trivial, trivial⟩

/-- **Another command is executed.** A request nobody authenticated, with
the digest field of the one that is waited for, is stored and executed in
its place. -/
theorem forged_request_executed :
    let s := exec Server.step (Server.init sampleSNode 0 false) (vouchedRun [2])
    let forged := sampleRequestMsg [1] [2] false
    s.core.brt.lookup forged.od = some forged ∧
      forged.compDigest sampleSNode.md5 ≠ forged.od ∧
      s.core.ran = [(samplePrePrepare, [forged])] := by
  decide +kernel

end AbstractBFT.Pbft
