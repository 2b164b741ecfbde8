import AbstractBFT.Lib.Follow
import AbstractBFT.ZLight.Replica
/-!
# Order agreement in ZLight

A cluster of ZLight replicas around a correct primary. The network loses,
repeats and reorders the primary's order requests: any of those it ever
sent may arrive at any replica at any time. Each backup executes a prefix of
what the primary executed, under the same numbers (`backup_follows`).

It takes that the backup started with `last_seqno = 0`, which its
constructor leaves to the memory. From another value it waits for an order
request in the middle of the sequence.
-/

namespace AbstractBFT.ZLight

open Instance Function List
open Chain (CCheckpoint)
open ZReplica (Calm Takes Event)

variable {S : Type} {N : ZNode S}

/-! ## One step -/

section Step

variable {p p' b b' : ZReplica N} {e : Event} {id : ℕ}

/-- **A step of the primary**: it executes nothing, or the request that gets
the next number, which it sends to the backups. -/
theorem primary_step (p : ZReplica N) (he : ∀ state, e ≠ .enable state) :
    (Calm p (p.step 0 e) ∧ (p.step 0 e).core.seqno = p.core.seqno) ∨
      ∃ m d, (p.core.replies m.rep.cid).rep.rid < m.rep.rid ∧
        (p.core.execute m (p.core.seqno + 1) d).Still (p.step 0 e).core ∧
        (p.step 0 e).core.seqno = p.core.seqno + 1 ∧
        (p.step 0 e).orders = p.orders ++ [orderRequest N (p.core.seqno + 1) m] := by
  unfold ZReplica.step
  split
  · exact Or.inl ⟨.refl p, rfl⟩
  cases e with
  | request m =>
    refine (p.handleRequest_primary m).imp_right ?_
    rintro ⟨hnew, d, h⟩
    exact ⟨m, d, hnew, h⟩
  | order o =>
    -- the primary accepts no order request
    have hdrop : p.handleOrderRequest 0 o = p := by
      simp [ZReplica.handleOrderRequest, OrderRequest.verify]
    dsimp only
    exact Or.inl ⟨.refl p, rfl⟩
  | checkpoint c =>
    have hf := p.core.handleCheckpoint_frame 0 c
    exact Or.inl ⟨⟨hf.still, rfl, rfl⟩, hf.seqno⟩
  | enable state => exact absurd rfl (he state)
  | other => exact Or.inl ⟨.refl p, rfl⟩

/-- **A step of a backup**: it executes nothing, or the order request it
takes. -/
theorem backup_step (hid : id ≠ 0) (b : ZReplica N) (he : ∀ state, e ≠ .enable state) :
    Calm b (b.step id e) ∨
      ∃ o d, e = .order o ∧ Takes id b o ∧
        (b.core.execute o.stored_request (b.last_seqno + 1) d).Still (b.step id e).core ∧
        (b.step id e).last_seqno = b.last_seqno + 1 := by
  unfold ZReplica.step
  split
  · exact Or.inl (.refl b)
  cases e with
  | request m => exact Or.inl (ZReplica.calm_handleRequest_backup hid b m)
  | order o =>
    by_cases h : Takes id b o
    · obtain ⟨d, hstill, hlast, -⟩ := h.handleOrderRequest
      exact Or.inr ⟨o, d, rfl, h, hstill, hlast⟩
    · exact Or.inl (ZReplica.calm_of_not_takes h)
  | checkpoint c => exact Or.inl ⟨(b.core.handleCheckpoint_frame id c).still, rfl, rfl⟩
  | enable state => exact absurd rfl (he state)
  | other => exact Or.inl (.refl b)

/-- **At most once**, at every replica, whatever arrives and whoever sent it. -/
theorem tabled_exec (N : ZNode S) (id : ℕ) (service : S) (last_seqno : ℕ) (es : List Event) :
    Tabled (Machine.exec (ZReplica.step id) (.init N service last_seqno) es).core := by
  refine Machine.exec_invariant (I := fun r : ZReplica N => Tabled r.core) (fun r e h => ?_)
    (Tabled.init _ service) es
  by_cases he : ∀ state, e ≠ .enable state
  · by_cases hid : id = 0
    · subst hid
      rcases primary_step r he with ⟨hc, -⟩ | ⟨m, d, hnew, hs, -⟩
      · exact h.still hc.still
      · exact (h.execute _ d hnew).still hs
    · rcases backup_step hid r he with hc | ⟨o, d, -, ht, hs, -⟩
      · exact h.still hc.still
      · exact (h.execute _ d ht.new).still hs
  · obtain ⟨state, rfl⟩ := not_forall_not.1 he
    unfold ZReplica.step
    split
    · exact h
    · exact h.still (.enableReplica _ state)

/-! ## The primary -/

/-- The numbers of the executions are `1, 2, …`. -/
def Consecutive (executed : List Execution) : Prop :=
  executed.map Execution.seqno = List.range' 1 executed.length

/-- What was executed, and under which number. -/
def Execution.ordered (x : Execution) : Request × ℕ := (x.req, x.seqno)

/-- What the primary keeps: `seqno` counts its executions, and its order
requests are these in their order. -/
structure Ordered (p : ZReplica N) : Prop where
  tabled : Tabled p.core
  count : p.core.seqno = p.core.executed.length
  numbers : Consecutive p.core.executed
  orders : p.orders = p.core.executed.map fun x => orderRequest N x.seqno x.req

theorem Ordered.init (N : ZNode S) (service : S) (last_seqno : ℕ) :
    Ordered (ZReplica.init N service last_seqno) :=
  ⟨Tabled.init _ service, rfl, rfl, rfl⟩

theorem Ordered.step (h : Ordered p) (he : ∀ state, e ≠ .enable state) : Ordered (p.step 0 e) := by
  rcases primary_step p he with ⟨hcalm, hseqno⟩ | ⟨m, d, hnew, hstill, hseqno, horders⟩
  · have hexec := hcalm.still.executed
    refine ⟨h.tabled.still hcalm.still, ?_, ?_, ?_⟩
    · rw [hseqno, hexec]
      exact h.count
    · rw [hexec]
      exact h.numbers
    · rw [hcalm.orders, hexec]
      exact h.orders
  · have hexec := hstill.executed
    have htabled := h.tabled.execute (p.core.seqno + 1) d hnew
    refine ⟨htabled.still hstill, ?_, ?_, ?_⟩
    · rw [hseqno, hexec, h.count]
      simp [IReplica.execute]
    · rw [hexec]
      exact Follow.numbers_concat h.numbers (by rw [h.count])
    · rw [horders, hexec, h.orders]
      simp [IReplica.execute]

/-- The `k`th order request is of the `k`th execution and numbered
`k + 1`. -/
theorem Ordered.order_at (h : Ordered p) {k : ℕ} {o : OrderRequest} (ho : p.orders[k]? = some o) :
    o.rep.seq_num = k + 1 ∧ (p.core.executed.map Execution.ordered)[k]? =
      some (o.stored_request, k + 1) := by
  rw [h.orders, getElem?_map, Option.map_eq_some_iff] at ho
  obtain ⟨x, hx, rfl⟩ := ho
  have hseqno : x.seqno = k + 1 := Follow.num_of_getElem? h.numbers hx
  refine ⟨hseqno, ?_⟩
  rw [getElem?_map, hx, ← hseqno]
  rfl

/-! ## The backups -/

/-- What a backup keeps: it has executed what the primary executed first,
and `last_seqno` counts that. -/
structure Follows (p b : ZReplica N) : Prop where
  tabled : Tabled b.core
  last : b.last_seqno = b.core.executed.length
  upto : b.core.executed.map Execution.ordered <+: p.core.executed.map Execution.ordered

theorem Follows.init (N : ZNode S) (service : S) (p : ZReplica N) :
    Follows p (ZReplica.init N service 0) :=
  ⟨Tabled.init _ service, rfl, nil_prefix⟩

theorem Follows.primary_step (h : Follows p b) (he : ∀ state, e ≠ .enable state) :
    Follows (p.step 0 e) b := by
  refine ⟨h.tabled, h.last, h.upto.trans ?_⟩
  rcases ZLight.primary_step p he with ⟨hcalm, -⟩ | ⟨m, d, -, hstill, -⟩
  · rw [hcalm.still.executed]
  · rw [hstill.executed, IReplica.execute, map_append]
    exact prefix_append _ _

/-- **The backup takes a step**, with an order request that is the
primary's if it gets one. -/
theorem Follows.backup_step (hid : id ≠ 0) (hp : Ordered p) (h : Follows p b)
    (he : ∀ state, e ≠ .enable state) (ho : ∀ o, e = .order o → o ∈ p.orders) :
    Follows p (b.step id e) := by
  rcases ZLight.backup_step hid b he with hcalm | ⟨o, d, rfl, htakes, hstill, hlast⟩
  · refine ⟨h.tabled.still hcalm.still, ?_, ?_⟩
    · rw [hcalm.last_seqno, hcalm.still.executed]
      exact h.last
    · rw [hcalm.still.executed]
      exact h.upto
  · have htabled := h.tabled.execute (b.last_seqno + 1) d htakes.new
    refine ⟨htabled.still hstill, ?_, ?_⟩
    · rw [hlast, hstill.executed, h.last]
      simp [IReplica.execute]
    · obtain ⟨k, hk⟩ := getElem?_of_mem (ho o rfl)
      obtain ⟨hnum, hat⟩ := hp.order_at hk
      -- the only order request that is next is the one after the prefix
      obtain rfl : k = (b.core.executed.map Execution.ordered).length := by
        have := htakes.next
        have := h.last
        rw [length_map]
        omega
      have hnext := Follow.concat_upto h.upto hat
      rw [length_map, ← h.last] at hnext
      rw [hstill.executed, IReplica.execute, map_append]
      exact hnext

end Step

/-! ## The cluster -/

/-- The replicas, by their identifiers. -/
abbrev Cluster (N : ZNode S) := ℕ → ZReplica N

/-- What happens in the cluster: a client's request or a checkpoint message
arrives at replica `i`, or the `k`th order request the primary sent. -/
inductive ClusterEvent where
  | request (i : ℕ) (m : Request)
  | order (i k : ℕ)
  | checkpoint (i : ℕ) (c : CCheckpoint)
  deriving DecidableEq

namespace Cluster

variable {c : Cluster N}

/-- All replicas start, with `last_seqno` as their memories have it. -/
def init (N : ZNode S) (service : S) (memory : ℕ → ℕ) : Cluster N :=
  fun i => ZReplica.init N service (memory i)

/-- The replica it happens at. -/
def place : ClusterEvent → ℕ
  | .request i _ => i
  | .order i _ => i
  | .checkpoint i _ => i

/-- What that replica takes. -/
def event (c : Cluster N) : ClusterEvent → Event
  | .request _ m => .request m
  | .order _ k => ((c 0).orders[k]?).elim .other .order
  | .checkpoint _ c => .checkpoint c

def step (c : Cluster N) (e : ClusterEvent) : Cluster N :=
  update c (place e) ((c (place e)).step (place e) (c.event e))

theorem event_ne_enable (c : Cluster N) (e : ClusterEvent) (state : Bool) :
    c.event e ≠ .enable state := by
  cases e with
  | request i m => nofun
  | order i k =>
    show ((c 0).orders[k]?).elim Event.other Event.order ≠ _
    cases (c 0).orders[k]? <;> exact Event.noConfusion
  | checkpoint i c => nofun

/-- The network makes no order requests. -/
theorem mem_orders_of_event {e : ClusterEvent} {o : OrderRequest} (h : c.event e = .order o) :
    o ∈ (c 0).orders := by
  cases e with
  | request i m => cases h
  | order i k =>
    change ((c 0).orders[k]?).elim Event.other Event.order = _ at h
    cases hk : (c 0).orders[k]? with
    | none =>
      rw [hk] at h
      cases h
    | some o' =>
      rw [hk] at h
      cases h
      exact mem_of_getElem? hk
  | checkpoint i c => cases h

/-- The primary is in order and backup `i` follows it. -/
def Agrees (i : ℕ) (c : Cluster N) : Prop := Ordered (c 0) ∧ Follows (c 0) (c i)

theorem Agrees.step {i : ℕ} (hi : i ≠ 0) (h : Agrees i c) (e : ClusterEvent) :
    Agrees i (c.step e) := by
  obtain ⟨hp, hb⟩ := h
  have hne := event_ne_enable c e
  unfold Cluster.step
  by_cases h0 : place e = 0
  · -- the primary moves
    rw [h0]
    refine ⟨?_, ?_⟩
    · rw [update_self]
      exact hp.step hne
    · rw [update_self, update_of_ne hi]
      exact hb.primary_step hne
  · refine ⟨?_, ?_⟩
    · rw [update_of_ne (Ne.symm h0)]
      exact hp
    · rw [update_of_ne (Ne.symm h0)]
      by_cases hplace : i = place e
      · subst hplace
        rw [update_self]
        exact hb.backup_step hi hp hne fun o ho => mem_orders_of_event ho
      · rw [update_of_ne hplace]
        exact hb

def run (N : ZNode S) (service : S) (memory : ℕ → ℕ) (es : List ClusterEvent) : Cluster N :=
  Machine.exec step (init N service memory) es

theorem Agrees.run (N : ZNode S) (service : S) {memory : ℕ → ℕ} {i : ℕ} (hi : i ≠ 0)
    (hmem : memory i = 0) (es : List ClusterEvent) : Agrees i (run N service memory es) := by
  refine Machine.exec_invariant (fun c e h => h.step hi e) ⟨Ordered.init .., ?_⟩ es
  unfold init
  rw [hmem]
  exact Follows.init N service _

end Cluster

/-! ## Agreement -/

/-- No request of a client was executed twice. -/
def NoneTwice (executed : List Execution) : Prop :=
  (executed.map fun x => (x.req.rep.cid, x.req.rep.rid)).Nodup

/-- What a backup executed is a prefix of what the primary did, both are
numbered `1, 2, …`, and neither has a request twice. -/
structure OrderAgreement (primary backup : List Execution) : Prop where
  upto : backup.map Execution.ordered <+: primary.map Execution.ordered
  primary_numbers : Consecutive primary
  backup_numbers : Consecutive backup
  primary_once : NoneTwice primary
  backup_once : NoneTwice backup

theorem Consecutive.of_prefix {l l' : List Execution} (h : Consecutive l')
    (hpre : l.map Execution.ordered <+: l'.map Execution.ordered) : Consecutive l := by
  have hmap := hpre.map Prod.snd
  rw [map_map, map_map] at hmap
  have hnum : l.map Execution.seqno <+: l'.map Execution.seqno := hmap
  rw [h] at hnum
  have hlen := hpre.length_le
  rw [length_map, length_map] at hlen
  obtain ⟨k, hk⟩ := Nat.exists_eq_add_of_le hlen
  rw [Consecutive, prefix_iff_eq_take.1 hnum, length_map, hk, ← List.range'_append_1]
  exact take_left' length_range'

/-- **Order agreement.** Whatever the network does with the primary's order
requests and whatever requests come, a backup whose `last_seqno` was 0 at
the start has executed a prefix of what the primary executed. -/
theorem backup_follows (N : ZNode S) (service : S) (memory : ℕ → ℕ) (es : List ClusterEvent)
    {i : ℕ} (hi : i ≠ 0) (hmem : memory i = 0) :
    OrderAgreement (Cluster.run N service memory es 0).core.executed
      (Cluster.run N service memory es i).core.executed := by
  obtain ⟨hp, hb⟩ := Cluster.Agrees.run N service hi hmem es
  exact ⟨hb.upto, hp.numbers, hp.numbers.of_prefix hb.upto, hp.tabled.tracks.nodup,
    hb.tabled.tracks.nodup⟩

section Sample

/-- Two requests at the primary; the order requests reach backup 1 in the
other order, and the first of them twice. -/
def reorderedRun : List ClusterEvent :=
  [.request 0 (sampleRequest 4 1), .request 0 (sampleRequest 5 1), .order 1 1, .order 1 0,
    .order 1 0, .order 1 1]

theorem backup_follows_reordered :
    let c := Cluster.run sampleNode 0 (fun _ => 0) reorderedRun
    (c 1).core.executed.length = 2 ∧ OrderAgreement (c 0).core.executed (c 1).core.executed := by
  intro c
  exact ⟨by decide +kernel, backup_follows sampleNode 0 (fun _ => 0) reorderedRun (by decide) rfl⟩

/-- Backup 1 finds the value 1 in its memory: it drops the first order
request and executes the second. -/
theorem backup_skips_first :
    let c := Cluster.run sampleNode 0 (fun i => if i = 1 then 1 else 0)
      [.request 0 (sampleRequest 4 1), .request 0 (sampleRequest 5 1), .order 1 0, .order 1 1]
    (c 1).core.executed.map Execution.ordered = [(sampleRequest 5 1, 2)] ∧
      ¬ (c 1).core.executed.map Execution.ordered <+:
        (c 0).core.executed.map Execution.ordered := by
  decide +kernel

end Sample

end AbstractBFT.ZLight
