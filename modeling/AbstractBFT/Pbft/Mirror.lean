import AbstractBFT.Pbft.Server
/-!
# PBFT — two models of the replica

`Replica` has the memory as pages that are copied on write, and batches as
the certificates give them; `Core` has the service and the reply table, and
the messages the batches come from. What executes is the same: `Mirrors` says
that the pages hold the service and the table, with the same checkpoint, and
the operations keep it. The replies' `tentative` flags are in no page.

Read-only requests are left out of `Replica`: `exec_command` may change the
service for one, and then the two are not the same any more.
-/

namespace AbstractBFT.Pbft

open Function Option

/-- What the one page of the memory holds: the service and the replies. -/
abbrev Image (S : Type) := S × (ℤ → ℕ × Option (List UInt8))

/-- The memory with this service and these replies. -/
def image {S : Type} (service : S) (replies : ℤ → RepEntry) : Unit → Image S :=
  fun _ => (service, fun cid => ((replies cid).rid, (replies cid).reply))

variable {S X : Type} {N : SNode S X}

/-- A request and the reply to it, in memory. -/
def execPage (N : SNode S X) (m : Image S) (k : ℕ) (r : Request) : Image S :=
  if N.isReplica r.cid then
    if r.command.length ≠ 8 then (m.1, update m.2 r.cid ((m.2 r.cid).1, none))
    else (m.1, update m.2 r.cid (r.rid, some (leBytes 8 (k + 1))))
  else
    let out := N.exec_command m.1 r.command r.cid k (!N.j2ee)
    (out.1, update m.2 r.cid (r.rid, some out.2.1))

/-- The service of `Core`, on one page. -/
def memory (N : SNode S X) : Service Unit (Image S) where
  req_id m cid := ((m ()).2 cid).1
  exec m k r := fun _ => execPage N (m ()) k r
  touched _ _ _ := {()}
  frame _ _ _ p hp := absurd (Finset.mem_singleton_self p) hp

def RequestMsg.request (r : RequestMsg) : Request := ⟨r.cid, r.rid, r.command⟩

namespace Core

variable {c c' : Core N} {r r' : Replica Unit (Image S)}

/-- What executing a request leaves as it is. -/
def execPart (c : Core N) :=
  (c.last_executed, c.last_tentative_execute, c.last_stable, c.fetching, c.halted, c.ckpt)

theorem image_update (service : S) (replies : ℤ → RepEntry) (cid : ℤ) (e : RepEntry) :
    image service (update replies cid e) =
      fun _ => (service, update (image service replies ()).2 cid (e.rid, e.reply)) :=
  funext fun _ => congrArg (Prod.mk service)
    (comp_update (fun e : RepEntry => (e.rid, e.reply)) replies cid e)

theorem image_execRequest (m : RequestMsg) (h : c.last_tentative_execute = c.last_executed + 1) :
    (c.execRequest m).execPart = c.execPart ∧
      image (c.execRequest m).service (c.execRequest m).replies =
        (memory N).applyRequest c.last_executed (image c.service c.replies) m.request := by
  rw [execRequest, Service.applyRequest]
  split
  · next hold => exact ⟨rfl, (if_pos hold).symm⟩
  next hnew =>
  rw [if_neg (show ¬ m.request.rid ≤
    (memory N).req_id (image c.service c.replies) m.request.cid from hnew)]
  change _ ∧ _ = fun _ => execPage N (image c.service c.replies ()) c.last_executed m.request
  unfold execPage
  change _ ∧ _ = fun _ => if N.isReplica m.cid then if m.command.length ≠ 8 then _ else _ else _
  split
  · split
    · exact ⟨rfl, image_update ..⟩
    · refine ⟨rfl, (image_update ..).trans ?_⟩
      rw [h]
      rfl
  · exact ⟨rfl, image_update ..⟩

theorem image_foldl_execRequest (ms : List RequestMsg)
    (h : c.last_tentative_execute = c.last_executed + 1) :
    (ms.foldl execRequest c).execPart = c.execPart ∧
      image (ms.foldl execRequest c).service (ms.foldl execRequest c).replies =
        (ms.map RequestMsg.request).foldl ((memory N).applyRequest c.last_executed)
          (image c.service c.replies) := by
  induction ms generalizing c with
  | nil => exact ⟨rfl, rfl⟩
  | cons m ms ih =>
    obtain ⟨hpart, himage⟩ := image_execRequest m h
    have hexec : (c.execRequest m).last_executed = c.last_executed := congrArg Prod.fst hpart
    have hlte : (c.execRequest m).last_tentative_execute = c.last_tentative_execute :=
      congrArg (·.2.1) hpart
    obtain ⟨hpart', himage'⟩ := ih (c := c.execRequest m) (by rw [hlte, hexec, h])
    rw [hexec, himage] at himage'
    exact ⟨hpart'.trans hpart, himage'⟩

/-- The replica `r` of `Execution` is where `c` is. -/
structure Mirrors (c : Core N) (r : Replica Unit (Image S)) : Prop where
  last_executed : r.last_executed = c.last_executed
  last_tentative_execute : r.last_tentative_execute = c.last_tentative_execute
  last_stable : r.last_stable = c.last_stable
  fetching : r.fetching = c.fetching
  halted : r.halted = c.halted
  mem : r.store.mem = image c.service c.replies
  lc : r.lc = c.ckpt.map Prod.fst
  held : ∀ k ∈ c.ckpt, Snapshot.Holds (image k.2.1 k.2.2) r.store

theorem mirrors_init (service : S) (next : X) :
    Mirrors (init N service next) (.init (image service fun _ => ⟨0, none, true⟩)) := by
  refine ⟨rfl, rfl, rfl, rfl, rfl, rfl, rfl, ?_⟩
  rintro _ ⟨⟩
  exact ⟨fun p hp => absurd hp (Finset.notMem_empty p), fun _ _ => rfl⟩

namespace Mirrors

variable (h : Mirrors c r)
include h

/-- A checkpoint of the memory as it is. -/
theorem checkpoint {n n' : ℕ} (hn : n' = n) :
    Mirrors { c with ckpt := some (n, c.service, c.replies) } (r.checkpoint n') where
  __ := h
  lc := congrArg some hn
  held := by
    rintro _ ⟨⟩
    exact h.mem ▸ Snapshot.holds_mark r.store

theorem rollback : Mirrors c.rollback r.rollback := by
  have hhalt : Mirrors { c with halted := true } { r with halted := true } :=
    { h with halted := rfl }
  have hlc := h.lc
  unfold Core.rollback Replica.rollback
  split
  · next hckpt =>
    split
    · exact hhalt
    · next hl => simp only [hckpt, hl, map_none, reduceCtorEq] at hlc
  next k service replies hckpt =>
  split
  · next hfetch =>
    split
    · exact hhalt
    · rw [if_pos (h.fetching.trans hfetch)]
      exact hhalt
  · next hfetch =>
    split
    · next hl => simp only [hckpt, hl, map_some, reduceCtorEq] at hlc
    next l hl =>
    obtain rfl : l = k := by simpa only [hckpt, hl, map_some, some.injEq] using hlc
    rw [if_neg fun hr => hfetch (h.fetching.symm.trans hr)]
    have hheld := h.held _ hckpt
    exact { h with
      last_executed := rfl
      last_tentative_execute := rfl
      mem := hheld.restore
      held := fun k' hk' => by
        obtain rfl := mem_unique hckpt hk'
        exact hheld.of_restore }

theorem startFetch : Mirrors c.startFetch r.startFetch := by
  have hfetching : Mirrors { c with fetching := true } { r with fetching := true } :=
    { h with fetching := rfl }
  unfold Core.startFetch Replica.startFetch
  by_cases hfetch : c.fetching = true
  · rw [if_pos hfetch, if_pos (h.fetching.trans hfetch)]
    exact h
  rw [if_neg hfetch, if_neg fun hr => hfetch (h.fetching.symm.trans hr)]
  have hany : (r.lc.any fun k => decide (k < r.last_executed)) =
      c.ckpt.any fun k => decide (k.1 < c.last_executed) := by
    rw [h.lc, h.last_executed]
    cases c.ckpt <;> rfl
  dsimp only
  rw [hany]
  split
  · exact hfetching.checkpoint h.last_executed
  · exact hfetching

theorem execBatch (ms : List RequestMsg) (hlte : c.last_tentative_execute = c.last_executed + 1) :
    Mirrors (ms.foldl execRequest c) { r with
      store := (memory N).execBatch r.last_executed r.store (ms.map RequestMsg.request) } := by
  obtain ⟨hpart, himage⟩ := image_foldl_execRequest ms hlte
  simp only [execPart, Prod.mk.injEq] at hpart
  obtain ⟨hexec, hlte, hstable, hfetch, hhalt, hckpt⟩ := hpart
  refine ⟨h.last_executed.trans hexec.symm, h.last_tentative_execute.trans hlte.symm,
    h.last_stable.trans hstable.symm, h.fetching.trans hfetch.symm, h.halted.trans hhalt.symm, ?_,
    ?_, ?_⟩
  · rw [Service.mem_execBatch, h.last_executed, h.mem]
    exact himage.symm
  · rw [hckpt]
    exact h.lc
  · rw [hckpt]
    exact fun k hk => Service.holds_execBatch _ (h.held k hk) _ _

theorem executeNext (ran : List (PrePrepare × List RequestMsg)) (ms : List RequestMsg) :
    let c' := ms.foldl execRequest
      { c with last_tentative_execute := c.last_executed + 1, ran, tentative := [] }
    Mirrors (if (c.last_executed + 1) % checkpointInterval = 0 then
        { c' with ckpt := some (c.last_executed + 1, c'.service, c'.replies) } else c')
      (r.executeNext (memory N) (ms.map RequestMsg.request)) := by
  have hnext : Mirrors
      { c with last_tentative_execute := c.last_executed + 1, ran, tentative := [] }
      { r with
        last_tentative_execute := r.last_executed + 1
        run := r.run ++ [ms.map RequestMsg.request] } :=
    { h with last_tentative_execute := congrArg (· + 1) h.last_executed }
  have hrun := hnext.execBatch ms rfl
  unfold Replica.executeNext
  dsimp only
  by_cases hn : (c.last_executed + 1) % checkpointInterval = 0
  · rw [if_pos hn, if_pos (h.last_executed.symm ▸ hn)]
    exact hrun.checkpoint (congrArg (· + 1) h.last_executed)
  · rw [if_neg hn, if_neg (h.last_executed.symm ▸ hn)]
    exact hrun

/-- **`execute_prepared`**, where the requests of the batch are at hand. -/
theorem executePrepared (hview : r.has_new_view = c.hasNewView)
    (hlog : (r.log (c.last_executed + 1)).pp =
      ((c.prepared (c.last_executed + 1)).filter fun pp => pp.view == c.v).bind fun pp =>
        (pp.requests c.brt).map fun ms => ms.map RequestMsg.request)
    (hup : c.executePrepared.halted = false) :
    Mirrors c.executePrepared (r.executePrepared (memory N)) := by
  unfold Core.executePrepared at hup ⊢
  unfold Replica.executePrepared
  rw [← h.last_executed] at hlog
  split at hup
  case isFalse hno =>
    rw [if_neg hno, if_neg]
    · exact h
    · rwa [h.last_tentative_execute, h.last_executed, h.last_stable, h.fetching, hview]
  case isTrue hgo =>
  rw [if_pos hgo, if_pos (by
    rwa [h.last_tentative_execute, h.last_executed, h.last_stable, h.fetching, hview]), hlog,
    h.last_executed]
  split at hup
  · next hnone =>
    rw [hnone]
    exact h
  · next pp hpp =>
    rw [hpp]
    split at hup
    · cases hup
    · next ms hms =>
      simp only [bind_some, hms, map_some]
      exact h.executeNext _ ms

end Mirrors

end Core

end AbstractBFT.Pbft
