import AbstractBFT.Chain.Fetch
/-!
# Chain — the digest of a request in the history

`add_request` returns the history digest through a reference. The append
path, and the rebuild after a switch for a request that was fetched, pass
the digest field of the request itself, so that the request enters the
history under the history's digest: its place in the history decides what
a later abort message reports. A request that is moved over from the old
history keeps its digest, since the entry's field is passed. In the `-m32`
build the bytes hashed for a request hold no padding.
-/

namespace AbstractBFT.Chain

variable {S : Type} {N : RNode S} {log : CLog N} {q : CRequest}

/-- The digest of the request is the MD5 of its client id, request id and
command. -/
def CRequest.Own (md5 : Md5) (q : CRequest) : Prop := q.rep.od = q.compDigest md5

/-- What an abort message reports for a request with its own digest. -/
theorem CRequest.Own.element_eq {md5 : Md5} (h : q.Own md5) :
    q.element = ⟨q.rep.cid, q.rep.rid, q.compDigest md5⟩ := by
  rw [CRequest.element, h]

/-- The history digest becomes the request's. -/
theorem own_of_logRequest {q' : CRequest} {seq : ℕ} (hq : q.Own N.md5)
    (h : (logRequest N log q seq).requests = log.requests ++ [some q']) :
    q'.Own N.md5 ↔ N.md5 (log.rh_d.add q.rep.od).bytes = q.rep.od := by
  have hlast : (logRequest N log q seq).requests = log.requests ++
      [some { q with rep := { q.rep with od := N.md5 (log.rh_d.add q.rep.od).bytes } }] := by
    simp [logRequest, ReqHistoryLog.requests, ReqHistoryLog.addRequest]
  rw [hlast] at h
  obtain rfl : _ = q' := by simpa using h
  rw [hq]
  exact Iff.rfl

/-- **Where a request keeps its digest.** On the append path, and for a
request that was fetched, only where the MD5 of the history's sum is the
digest; in the rebuild also where the request is moved over. -/
theorem own_digest_iff (N : RNode S) (log : CLog N) (q' : CRequest) :
    (∀ (q : CRequest) (seq : ℕ), q.Own N.md5 →
      (logRequest N log q seq).requests = log.requests ++ [some q'] →
      (q'.Own N.md5 ↔ N.md5 (log.rh_d.add q.rep.od).bytes = q.rep.od)) ∧
    (∀ (store : List (CRequest × ℕ)) (old : List (RhEntry CRequest)) (e : AbortHistoryElement),
      (∀ x ∈ old, ∀ q ∈ x.req, q.Own N.md5) → (∀ p ∈ store, p.1.Own N.md5) →
      (rebuildStep N store (old, log) e).2.requests = log.requests ++ [some q'] →
      (q'.Own N.md5 ↔ (∃ y ∈ old, Holds e y) ∨
        ∃ p, store.find? (fun p => p.1.rep.cid == e.cid && p.1.rep.rid == e.rid) = some p ∧
          N.md5 (log.rh_d.add p.1.rep.od).bytes = p.1.rep.od)) ∧
    (q'.Own N.md5 → q'.element = ⟨q'.rep.cid, q'.rep.rid, q'.compDigest N.md5⟩) := by
  refine ⟨fun q seq => own_of_logRequest, fun store old e hold hstore h => ?_, (·.element_eq)⟩
  rcases rebuildStep_cases store old log e with
    ⟨pre, x, post, q, hsplit, hx, hcid, hrid, -, heq⟩ | ⟨hno, -, -, -, -⟩ | ⟨-, -, heq⟩
  · -- moved over
    have hmem : x ∈ old := by simp [hsplit]
    have hq' : q = q' := by
      rw [heq] at h
      simpa [ReqHistoryLog.requests, ReqHistoryLog.addRequest] using h
    exact iff_of_true (hq' ▸ hold x hmem q hx) (.inl ⟨x, hmem, q, hx, hcid, hrid⟩)
  · -- fetched
    have hnone : findEntry old e.cid e.rid = none :=
      List.findIdx?_eq_none_iff.2 fun y hy =>
        Bool.eq_false_iff.2 fun hy' => hno y hy (holds_iff.2 hy')
    unfold rebuildStep at h
    simp only [hnone] at h
    cases hfind : store.find? fun p => p.1.rep.cid == e.cid && p.1.rep.rid == e.rid with
    | none => simp [hfind] at h
    | some p =>
      rw [hfind] at h
      rw [own_of_logRequest (hstore p (List.mem_of_find?_eq_some hfind)) h]
      simp [not_exists.2 fun y => not_and.2 (hno y)]
  · simp [heq] at h

/-- Client `4`'s first request, under the hash function that tells short
strings apart. -/
def ownRequest : CRequest := CRequest.fresh hashRNode.md5 4 1 [7] false fun _ => 0

/-- The history of a replica that logged it. -/
def ownLog : CLog hashRNode :=
  logRequest hashRNode (ReqHistoryLog.empty hashRNode.M CRequest) ownRequest 1

/-- Logged behind another entry it loses its digest, moved over it keeps
it. -/
theorem own_digest_iff_second :
    (∃ q', (logRequest hashRNode ownLog ownRequest 2).requests = ownLog.requests ++ [some q'] ∧
      ¬ q'.Own hashRNode.md5) ∧
    (rebuildStep hashRNode [] ([⟨some ownRequest, 1, 0⟩], ownLog) ownRequest.element).2.requests =
        ownLog.requests ++ [some ownRequest] ∧
      ownRequest.Own hashRNode.md5 := by
  refine ⟨⟨_, rfl, fun h => ?_⟩, rfl, ?_⟩
  · exact absurd (((own_digest_iff hashRNode ownLog _).1 ownRequest 2 rfl rfl).1 h)
      (by decide +kernel)
  · refine ((own_digest_iff hashRNode ownLog ownRequest).2.1 [] [⟨some ownRequest, 1, 0⟩]
      ownRequest.element ?_ (by simp) rfl).2 (.inl ⟨_, List.mem_singleton_self _, ownRequest, rfl,
        rfl, rfl⟩)
    simp only [List.mem_singleton, forall_eq, Option.mem_some_iff, forall_eq']
    rfl

/-- The request has its own digest before it is logged and the history's
after, and two replicas that have it in different places report it under
two digests. -/
theorem logged_digest_altered :
    let first := logRequest hashRNode (ReqHistoryLog.empty hashRNode.M CRequest) ownRequest 1
    let second := logRequest hashRNode first ownRequest 2
    ownRequest.rep.od = ownRequest.compDigest hashRNode.md5 ∧
    (second.rh.map fun x => x.req.map fun r => (r.rep.od == r.compDigest hashRNode.md5)) =
      [some false, some false] ∧
    (second.rh.map fun x => x.req.map CRequest.element).Nodup := by
  decide +kernel

end AbstractBFT.Chain
