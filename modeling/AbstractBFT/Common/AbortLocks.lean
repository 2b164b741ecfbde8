import AbstractBFT.Common.Instance
import AbstractBFT.Chain.Locks
import Mathlib.Data.List.Sort
/-!
# The abort handlers of Quorum and ZLight, and their mutex

`handle(Q_Abort)`, `retransmit_panic` and `handle(zl_Abort)` work on what
both replicas keep for a switch, under `switching_mutex`. Each is modelled
with the lock operations it performs. No replica gets into state
`PANICKING` (see the replicas of both protocols), so what the handlers do
there does not happen; it is modelled as it stands in the code.

`locks_released` says for the three handlers, in every state, and for
Chain's request thread, in every run, when the mutexes are released and
none is taken twice. Quorum's handlers return with the mutex held where
they wait for more, ZLight's holds it while it calls two functions that
take it, and Chain's takes it twice (`request_thread_stuck`).
-/

namespace AbstractBFT

namespace Instance

open Chain (AbortCertificate Signed)
open Locks

variable {S H : Type} {N : INode S H}

/-- What a replica keeps for a switch, with the replica. `sent_missing`
records the requests it asked the others for. -/
structure Switching (N : INode S H) where
  core : IReplica N
  aborts : AbortCertificate
  ah_2 : AbortHistory
  missing : AbortHistory
  missing_mask : List Bool
  missing_store : List (Option Request)
  missing_store_seq : List ℕ
  num_missing : ℕ
  n_retrans : ℕ
  sent_missing : List (List (ℤ × ℕ))

/-- `Q_Abort::verify` and `zl_Abort::verify`. From `2^15` entries on the
`short` is negative and the bytes to be hashed would run through the whole
address space. -/
def verifyAbort (N : INode S H) (a : Abort) : Bool :=
  N.isReplica a.rep.replica && decide (a.rep.hist_size < 2 ^ 15) &&
    N.md5 (a.history.flatMap AbortHistoryElement.bytes) == a.rep.digest &&
    N.verify_signature a.rep.replica (.abort a.rep) a.sig

/-- `zl_Abort_certificate::add`; `none` where it returns false. That of
Quorum is Chain's. -/
def addOnce (c : AbortCertificate) (a : Abort) : Option AbortCertificate :=
  match c.ac a.rep.replica.toNat with
  | none => some ⟨Function.update c.ac a.rep.replica.toNat (some a), c.count + 1⟩
  | some _ => none

/-- `Req_history_log::find`: the index of the first entry that holds this
request. -/
def findEntry (rh : List (RhEntry Request)) (cid : ℤ) (rid : ℕ) : Option ℕ :=
  rh.findIdx? fun e =>
    match e.req with
    | none => false
    | some r => r.rep.cid == cid && r.rep.rid == rid

/-- One element of the new history: the entry is moved over, and leaves a
null pointer in the old one. `none` if there is no entry. -/
def moveOver (st : List (RhEntry Request) × ReqHistoryLog N.M Request) (e : AbortHistoryElement) :
    Option (List (RhEntry Request) × ReqHistoryLog N.M Request) :=
  match findEntry st.1 e.cid e.rid with
  | none => none
  | some i =>
    match st.1[i]? with
    | some ⟨some ar, seq, d⟩ =>
      some (st.1.set i ⟨none, seq, d⟩, (st.2.addRequest N.md5 (fun _ => d) ar seq).1)
    | _ => none

namespace Switching

/-- What `notify_outstanding` does: each client that waits gets one notice,
for its newest request, in the order of the clients. -/
def notifyOutstanding (r : IReplica N) (id : ℕ) : IReplica N :=
  let cids := (r.outstanding.map Prod.fst).dedup.insertionSort (· ≤ ·)
  let newest := fun cid => (r.outstanding.filter fun o => o.1 == cid).foldl (fun m o => max m o.2) 0
  { cids.foldl (fun r cid => r.notify id cid (newest cid)) r with outstanding := [] }

variable (r : Switching N) (id : ℕ) (m : Abort)

/-- The history is extracted from a complete certificate, and the missing
requests are found. -/
def extract (ah_2 missing : AbortHistory) : Switching N :=
  { r with
    ah_2
    missing
    missing_mask := missing.map fun _ => true
    missing_store := missing.map fun _ => none
    missing_store_seq := missing.map fun _ => 0
    num_missing := missing.length
    aborts := AbortCertificate.empty }

/-- Nothing is missing: the history is replaced by `rh` and the replica
stops. -/
def adopt (rh : ReqHistoryLog N.M Request) : Switching N :=
  { r with
    core := { r.core with rh, seqno := rh.getTopSeqno + 1, cur_state := .stop }
    ah_2 := []
    missing := []
    missing_mask := []
    missing_store := []
    missing_store_seq := []
    num_missing := 0 }

/-- The others are asked for what is missing. -/
def askForMissing : Switching N :=
  { r with
    core := { r.core with cur_state := .miswaiting }
    sent_missing := r.sent_missing ++ [r.missing.map fun e => (e.cid, e.rid)] }

/-- `notify_outstanding` and ZLight's `enable_replica` take the mutex. -/
def lockedOps : List (Op Mutex) := [.lock .switching, .unlock .switching]

/-- The call locks the mutex and unlocks it. -/
def guarded : Call Mutex := ⟨lockedOps, true⟩

/-- What both abort handlers do with the certificate that has the message in
it: the call is `wait` where more has to come, and `switch` is what happens
with the merged history once nothing is missing. Without its own abort the
smasher follows a null pointer. -/
def takeAbort (wait : Call Mutex) (switch : AbortHistory → Switching N × Call Mutex)
    (aborts : AbortCertificate) : Switching N × Call Mutex :=
  if 3 * N.f + 1 ≤ aborts.count then
    match Smasher.process N.n N.f aborts.ac id with
    | none => ({ r with core := { r.core with down := true } }, ⟨[.lock .switching], false⟩)
    | some (ah_2, []) => switch ah_2
    | some (ah_2, e :: missing) => ((r.extract ah_2 (e :: missing)).askForMissing, wait)
  else ({ r with aborts }, wait)

/-- Both abort handlers: `add` is the certificate's, and the call is `skip`
for a message that is not looked at. -/
def handleAbort (add : AbortCertificate → Abort → Option AbortCertificate) (skip wait : Call Mutex)
    (switch : AbortHistory → Switching N × Call Mutex) : Switching N × Call Mutex :=
  if r.core.cur_state ≠ .panicking then (r, skip)
  else if !verifyAbort N m then (r, skip)
  else
    match add r.aborts m with
    | none => (r, guarded)
    | some aborts => r.takeAbort id wait switch aborts

/-- The replica takes over the history `rh` and switches. -/
def switchTo (ah_2 : AbortHistory) (rh : ReqHistoryLog N.M Request) : Switching N :=
  let r := (r.extract ah_2 []).adopt rh
  { r with core := notifyOutstanding (r.core.enableReplica false) id }

/-- `handle(Q_Abort)`. The switch to the next instance takes no mutex of
this one. -/
def handleQAbort : Switching N × Call Mutex :=
  r.handleAbort id m AbortCertificate.add ⟨[], true⟩ ⟨[.lock .switching], true⟩ fun ah_2 =>
    (r.switchTo id ah_2 (ah_2.foldl (fun st e => (moveOver st e).getD st)
      (r.core.rh.rh, ReqHistoryLog.empty N.M Request)).2, ⟨lockedOps ++ lockedOps, true⟩)

/-- `retransmit_panic` of Quorum. -/
def retransmitPanic : Switching N × Call Mutex :=
  if r.n_retrans + 1 = 3 then
    ({ r with
        n_retrans := 0
        aborts := AbortCertificate.empty
        missing := []
        core := { r.core with
          rh := ReqHistoryLog.empty N.M Request, cur_state := .stop }.enableReplica false },
      ⟨[.lock .switching], true⟩)
  else
    ({ r with n_retrans := r.n_retrans + 1, core := { r.core with cur_state := .panicking } },
      guarded)

/-- `handle(zl_Abort)`. The mutex is held while `enable_replica` and
`notify_outstanding` are called. An element of the merged history that is
not in the own one is a null pointer that is followed. -/
def handleZlAbort : Switching N × Call Mutex :=
  r.handleAbort id m addOnce guarded guarded fun ah_2 =>
    match ah_2.foldlM moveOver (r.core.rh.rh, ReqHistoryLog.empty N.M Request) with
    | none => ({ r with core := { r.core with down := true } }, ⟨[.lock .switching], false⟩)
    | some st => (r.switchTo id ah_2 st.2,
        ⟨.lock .switching :: (lockedOps ++ lockedOps ++ [.unlock .switching]), true⟩)

/-! ## When the mutex is released -/

/-- The certificate with `m` in it, if the handler takes it in. -/
def received (add : AbortCertificate → Abort → Option AbortCertificate) (r : Switching N)
    (m : Abort) : Option AbortCertificate :=
  if r.core.cur_state = .panicking ∧ verifyAbort N m = true then add r.aborts m else none

/-- Quorum takes `m` in and does not switch yet: aborts or requests are
missing. -/
def WaitsForMore : Prop :=
  ∃ c, r.received AbortCertificate.add m = some c ∧
    (c.count < 3 * N.f + 1 ∨
      ∃ ah_2 e missing, Smasher.process N.n N.f c.ac id = some (ah_2, e :: missing))

/-- ZLight takes `m` in and switches at once: it has all aborts, and every
request of the merged history. -/
def SwitchesAtOnce : Prop :=
  ∃ c, r.received addOnce m = some c ∧ 3 * N.f + 1 ≤ c.count ∧
    ∃ ah_2, Smasher.process N.n N.f c.ac id = some (ah_2, []) ∧
      (ah_2.foldlM moveOver (r.core.rh.rh, ReqHistoryLog.empty N.M Request)).isSome = true

variable {r : Switching N} {id : ℕ} {m : Abort}

theorem disciplined_guarded : guarded.Disciplined := .of_performAll rfl

/-- A call that never returns may hold what it holds. -/
theorem disciplined_crash : (⟨[.lock .switching], false⟩ : Call Mutex).Disciplined :=
  ⟨_, rfl, nofun⟩

theorem not_disciplined_held : ¬ (⟨[.lock .switching], true⟩ : Call Mutex).Disciplined :=
  Call.not_disciplined_of_mem (m := .switching) rfl (by decide) rfl

section

variable {add : AbortCertificate → Abort → Option AbortCertificate} {skip wait : Call Mutex}
variable {switch : AbortHistory → Switching N × Call Mutex} {c : AbortCertificate}

theorem handleAbort_of_none (hskip : skip.Disciplined) (h : r.received add m = none) :
    (r.handleAbort id m add skip wait switch).2.Disciplined := by
  unfold handleAbort
  unfold received at h
  by_cases hs : r.core.cur_state = .panicking
  swap
  · rwa [if_pos hs]
  rw [if_neg (not_not.2 hs)]
  cases hver : verifyAbort N m with
  | false => exact hskip
  | true =>
    rw [if_pos ⟨hs, hver⟩] at h
    rw [h]
    exact disciplined_guarded

theorem handleAbort_of_some (h : r.received add m = some c) :
    r.handleAbort id m add skip wait switch = r.takeAbort id wait switch c := by
  unfold received at h
  split at h
  case isFalse => cases h
  case isTrue htake =>
  rw [handleAbort, if_neg (not_not.2 htake.1), htake.2, h]
  rfl

end

/-- **Quorum's abort handler** releases the mutex unless it has to wait. -/
theorem handleQAbort_disciplined_iff (r : Switching N) (id : ℕ) (m : Abort) :
    (r.handleQAbort id m).2.Disciplined ↔ ¬ r.WaitsForMore id m := by
  unfold handleQAbort WaitsForMore
  cases hc : r.received AbortCertificate.add m with
  | none => exact iff_of_true (handleAbort_of_none (.of_performAll rfl) hc) (by simp)
  | some c =>
    rw [handleAbort_of_some hc, takeAbort]
    by_cases hfull : 3 * N.f + 1 ≤ c.count
    swap
    · rw [if_neg hfull]
      exact iff_of_false not_disciplined_held (not_not.2 ⟨c, rfl, .inl (not_le.1 hfull)⟩)
    rw [if_pos hfull]
    match hout : Smasher.process N.n N.f c.ac id with
    | none =>
      refine iff_of_true disciplined_crash ?_
      rintro ⟨_, ⟨⟩, hlt | ⟨_, _, _, heq⟩⟩
      · omega
      · cases hout.symm.trans heq
    | some (ah_2, []) =>
      refine iff_of_true (.of_performAll rfl) ?_
      rintro ⟨_, ⟨⟩, hlt | ⟨_, _, _, heq⟩⟩
      · omega
      · cases hout.symm.trans heq
    | some (ah_2, e :: missing) =>
      exact iff_of_false not_disciplined_held
        (not_not.2 ⟨c, rfl, .inr ⟨ah_2, e, missing, hout⟩⟩)

theorem retransmitPanic_disciplined_iff (r : Switching N) :
    r.retransmitPanic.2.Disciplined ↔ r.n_retrans + 1 ≠ 3 := by
  unfold retransmitPanic
  by_cases h : r.n_retrans + 1 = 3
  · rw [if_pos h]
    exact iff_of_false not_disciplined_held (not_not.2 h)
  · rw [if_neg h]
    exact iff_of_true disciplined_guarded h

/-- **ZLight's abort handler** takes its mutex twice exactly if it
switches at once. -/
theorem handleZlAbort_disciplined_iff (r : Switching N) (id : ℕ) (m : Abort) :
    (r.handleZlAbort id m).2.Disciplined ↔ ¬ r.SwitchesAtOnce id m := by
  unfold handleZlAbort SwitchesAtOnce
  cases hc : r.received addOnce m with
  | none => exact iff_of_true (handleAbort_of_none disciplined_guarded hc) (by simp)
  | some c =>
    rw [handleAbort_of_some hc, takeAbort]
    by_cases hfull : 3 * N.f + 1 ≤ c.count
    swap
    · rw [if_neg hfull]
      refine iff_of_true disciplined_guarded ?_
      rintro ⟨_, ⟨⟩, hle, -⟩
      exact hfull hle
    rw [if_pos hfull]
    match hout : Smasher.process N.n N.f c.ac id with
    | none =>
      refine iff_of_true disciplined_crash ?_
      rintro ⟨_, ⟨⟩, -, _, heq, -⟩
      cases hout.symm.trans heq
    | some (ah_2, e :: missing) =>
      refine iff_of_true disciplined_guarded ?_
      rintro ⟨_, ⟨⟩, -, _, heq, -⟩
      cases hout.symm.trans heq
    | some (ah_2, []) =>
      dsimp only
      cases hmove : ah_2.foldlM moveOver (r.core.rh.rh, ReqHistoryLog.empty N.M Request) with
      | none =>
        refine iff_of_true disciplined_crash ?_
        rintro ⟨_, ⟨⟩, -, _, heq, hsome⟩
        cases hout.symm.trans heq
        rw [hmove] at hsome
        cases hsome
      | some st =>
        refine iff_of_false (Call.not_disciplined_of_none rfl)
          (not_not.2 ⟨c, rfl, hfull, ah_2, hout, ?_⟩)
        rw [hmove]
        rfl

end Switching

end Instance

open Chain Locks Machine Instance

/-- **When the mutexes are released**, and none is taken twice: by Chain's
request thread, along a run, exactly if it finds nothing put off when it
drains in state `NORMAL`; by Quorum's abort handler if it need not wait for
more; by its timer unless it gives up; by ZLight's abort handler unless it
switches at once. -/
theorem locks_released {S : Type} :
    (∀ (N : RNode S) (id : ℕ) (service : S) (es : List CReplica.CEvent),
      (CReplica.callOf id (CReplica.init N service) es).Disciplined ↔
        Guarded (CReplica.step id) (fun r e => r.reenters e = false) (CReplica.init N service) es) ∧
    (∀ (N : INode S Instance.RequestRep) (r : Switching N) (id : ℕ) (m : Abort),
      (r.handleQAbort id m).2.Disciplined ↔ ¬ r.WaitsForMore id m) ∧
    (∀ (N : INode S Instance.RequestRep) (r : Switching N),
      r.retransmitPanic.2.Disciplined ↔ r.n_retrans + 1 ≠ 3) ∧
    (∀ (H : Type) (N : INode S H) (r : Switching N) (id : ℕ) (m : Abort),
      (r.handleZlAbort id m).2.Disciplined ↔ ¬ r.SwitchesAtOnce id m) :=
  ⟨fun _ _ _ es => CReplica.callOf_disciplined_iff rfl es,
    fun _ r id m => r.handleQAbort_disciplined_iff id m,
    fun _ r => r.retransmitPanic_disciplined_iff,
    fun _ _ r id m => r.handleZlAbort_disciplined_iff id m⟩

/-- **The head stops for good.** A request that was put off during a
checkpoint is handled by the next one, with the mutex held. -/
theorem request_thread_stuck :
    ¬ (CReplica.callOf 0 (CReplica.init sampleRNode ())
      (untilStable 1023 256 ++ reentered)).Disciplined := by
  obtain ⟨k, hk⟩ : ∃ k, k = 1023 := ⟨_, rfl⟩
  obtain ⟨j, hj⟩ : ∃ j, j = 256 := ⟨_, rfl⟩
  rw [← hk, ← hj]
  obtain ⟨hs, hidle, hflag, hpending⟩ := exec_untilStable (congrArg (· + 1) hk) hj
  rw [CReplica.callOf_disciplined_iff rfl, guarded_append]
  rintro ⟨-, hok⟩
  obtain ⟨-, -, hlast, -⟩ := hok
  have hreenters := reenters_of_stable hs hidle hflag hpending
  exact Bool.false_ne_true (hlast.symm.trans hreenters)

end AbstractBFT
