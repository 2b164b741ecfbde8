import AbstractBFT.Aardvark.NewViews
import AbstractBFT.Aardvark.Primary
import AbstractBFT.Lib.Quorum
/-!
# Aardvark — the replicas together

A cluster takes one event at one correct replica at a time. Messages may be
lost, repeated and reordered, and a faulty replica may send anything. What
carries a right MAC of a correct replica was sent by it (`Unforged`); but
`verify_mac` drops the comparison and returns the flag of the message's
header, which the sender sets. That a flag is set only where the MAC is
right (`Authentic`) is a condition on the run, and with it what authenticates
as coming from a correct replica was sent by it (`Genuine`).
`known` is what a state of the cluster has seen of prepares, commits,
assignments and new views; it only grows, and with it every replica's
invariant is carried from step to step.
-/

namespace AbstractBFT.Aardvark

open Function Machine

/-- The replicas of one system, of which those in `byz` are faulty. -/
structure Cluster where
  f : ℕ
  np : ℕ
  md5 : Md5
  byz : Finset ℕ

namespace Cluster

/-- Replica `i`. -/
abbrev node (C : Cluster) (i : ℕ) : Node := ⟨C.f, i, C.np, C.md5⟩

variable (C : Cluster) (S : ℕ → Replica)

def n : ℕ := 3 * C.f + 1

/-- `primary(v)`, the same at every replica. -/
def primary (v : View) : ℕ := (v % C.n).toNat

@[simp] theorem primary_node (i : ℕ) (v : View) : (C.node i).primary v = C.primary v := rfl

@[simp] theorem n_node (i : ℕ) : (C.node i).n = C.n := rfl

/-- Replica `i` is one of the correct replicas. -/
def Correct (i : ℕ) : Prop := i < C.n ∧ i ∉ C.byz
  deriving Decidable

def init : ℕ → Replica := fun i => .init (C.node i)

def step (x : ℕ × Event) : ℕ → Replica :=
  update S x.1 ((S x.1).step (C.node x.1) x.2)

/-- If the message replica `i` receives names another correct replica, that
one sent it. -/
def Sent (i : ℕ) : Event → Prop
  | .prePrepare _ m => C.primary m.view ∉ C.byz → C.primary m.view ≠ i →
      .prePrepare m.view m.digest ∈ ((S (C.primary m.view)).log m.seqno).out
  | .prepare m => m.id < C.n → m.id ∉ C.byz → m.id ≠ i →
      .prepare m.view m.digest ∈ ((S m.id).log m.seqno).out
  | .commit m => m.id < C.n → m.id ∉ C.byz → m.id ≠ i → .commit m.view ∈ ((S m.id).log m.seqno).out
  | .viewChange vc _ => vc.id < C.n → vc.id ∉ C.byz → vc.id ≠ i → vc ∈ (S vc.id).sentVcs
  | .newView nv _ => C.primary nv.view ∉ C.byz → C.primary nv.view ≠ i →
      nv ∈ (S (C.primary nv.view)).sentNvs
  | _ => True

instance (C : Cluster) (S : ℕ → Replica) (i : ℕ) (e : Event) : Decidable (C.Sent S i e) := by
  apply @e.casesOn <;> intros <;> dsimp only [Sent] <;> infer_instance

/-- The flag `mac_is_valid` in the header of a message from a replica. -/
def flagged : Event → Bool
  | .prePrepare _ m => m.auth
  | .prepare m => m.auth
  | .commit m => m.auth
  | .viewChange _ auth | .newView _ auth => auth
  | _ => false

/-- What replica `i` receives and takes for a message of another correct
replica was sent by it. -/
def Genuine (i : ℕ) (e : Event) : Prop := flagged e → C.Sent S i e

/-- An event of a run with faults in `byz` only. -/
def Delivered (x : ℕ × Event) : Prop :=
  C.Correct x.1 ∧ C.Genuine S x.1 x.2

instance (C : Cluster) (S : ℕ → Replica) (x : ℕ × Event) : Decidable (C.Delivered S x) :=
  inferInstanceAs (Decidable (_ ∧ (_ → _)))

/-- An event at a replica, and whether the message carries the right MAC of
the replica it names. Nothing reads the second. -/
abbrev Delivery := (ℕ × Event) × Bool

/-- Faults are in `byz` only, and MACs of the other replicas are not
forged. -/
def Unforged (x : Delivery) : Prop :=
  C.Correct x.1.1 ∧ (x.2 → C.Sent S x.1.1 x.1.2)
  deriving Decidable

/-- **Where the flag is set the MAC is right.** -/
def Authentic (x : Delivery) : Prop := flagged x.1.2 → x.2
  deriving Decidable

/-- A run in which flags are set for right MACs only. -/
theorem guarded_delivered {C : Cluster} {ok : (ℕ → Replica) → ℕ × Event → Prop} {S : ℕ → Replica}
    {es : List Delivery}
    (h : Guarded (fun S x => C.step S x.1) (fun S x => C.Unforged S x ∧ Authentic x ∧ ok S x.1) S
      es) :
    Guarded C.step (fun S x => C.Delivered S x ∧ ok S x) S (es.map Prod.fst) := by
  refine guarded_map.2 (h.mono fun S x hx => ⟨⟨hx.1.1, fun hflag => ?_⟩, hx.2.2⟩)
  exact hx.1.2 (hx.2.1 hflag)

variable {C : Cluster} {S S' : ℕ → Replica}

theorem step_self (S : ℕ → Replica) (i : ℕ) (e : Event) :
    C.step S (i, e) i = (S i).step (C.node i) e := update_self ..

variable {i : ℕ} {vc : ViewChange}

theorem step_of_ne {k : ℕ} (h : k ≠ i) (S : ℕ → Replica) (e : Event) : C.step S (i, e) k = S k :=
  update_of_ne h ..

/-! ## What a state has seen -/

/-- What replicas sent; faulty ones may have sent anything. -/
def known (C : Cluster) (S : ℕ → Replica) : Known C.md5 where
  prepare j v s d := j ∈ C.byz ∨ .prepare v d ∈ ((S j).log s).out
  commit j v s := j ∈ C.byz ∨ .commit v ∈ ((S j).log s).out
  assign v s d := C.primary v ∈ C.byz ∨ .prePrepare v d ∈ ((S (C.primary v)).log s).out ∨
    ∃ nv ∈ (S (C.primary v)).sentNvs, nv.view = v ∧ nv.min < s ∧ s < nv.max ∧
      d = nv.fetchDigest C.md5 nv.viewChange s
  newView nv := C.primary nv.view ∈ C.byz ∨ nv ∈ (S (C.primary nv.view)).sentNvs
  assign_newView nv _ hnv hmin hmax :=
    hnv.imp_right fun hsent => .inr ⟨nv, hsent, rfl, hmin, hmax, rfl⟩

/-- A view-change reports earlier views only, and one of a correct replica
was sent by it. -/
def Vouched (C : Cluster) (S : ℕ → Replica) (vc : ViewChange) : Prop :=
  (∀ ri ∈ vc.reqs, ri.v < vc.view) ∧ (vc.id ∉ C.byz → vc ∈ (S vc.id).sentVcs)

/-- Everything sent in `S` was sent in `S'`. -/
structure Later (S S' : ℕ → Replica) : Prop where
  out : ∀ j s, ((S j).log s).out ⊆ ((S' j).log s).out
  sentVcs : ∀ j, (S j).sentVcs ⊆ (S' j).sentVcs
  sentNvs : ∀ j, (S j).sentNvs ⊆ (S' j).sentNvs

theorem later_refl (S : ℕ → Replica) : Later S S :=
  ⟨fun _ _ => List.Subset.refl _, fun _ => List.Subset.refl _, fun _ => List.Subset.refl _⟩

theorem later_step (C : Cluster) (S : ℕ → Replica) (x : ℕ × Event) : Later S (C.step S x) := by
  obtain ⟨i, e⟩ := x
  refine ⟨fun j s => ?_, fun j => ?_, fun j => ?_⟩ <;> by_cases hj : j = i
  · rw [hj, step_self]
    exact Replica.out_subset_step _ _ e s
  · rw [step_of_ne hj]
    exact List.Subset.refl _
  · rw [hj, step_self]
    exact Replica.sentVcs_subset_step _ _ e
  · rw [step_of_ne hj]
    exact List.Subset.refl _
  · rw [hj, step_self]
    exact Replica.sentNvs_subset_step _ _ e
  · rw [step_of_ne hj]
    exact List.Subset.refl _

theorem later_exec (C : Cluster) (S : ℕ → Replica) (es : List (ℕ × Event)) :
    Later S (exec C.step S es) := by
  induction es generalizing S with
  | nil => exact later_refl S
  | cons x es ih =>
    have h := later_step C S x
    have h' := ih (C.step S x)
    exact ⟨fun j s => List.Subset.trans (h.out j s) (h'.out j s),
      fun j => List.Subset.trans (h.sentVcs j) (h'.sentVcs j),
      fun j => List.Subset.trans (h.sentNvs j) (h'.sentNvs j)⟩

theorem Later.known (h : Later S S') : (C.known S).Le (C.known S') where
  prepare j _ s _ := Or.imp_right fun hd => h.out j s hd
  commit j _ s := Or.imp_right fun hd => h.out j s hd
  assign _ s _ := Or.imp_right (Or.imp (fun hd => h.out _ s hd)
    fun ⟨nv, hnv, hsel⟩ => ⟨nv, h.sentNvs _ hnv, hsel⟩)
  newView _ := Or.imp_right fun hnv => h.sentNvs _ hnv

theorem Later.vouched (h : Later S S') (hvc : C.Vouched S vc) : C.Vouched S' vc :=
  ⟨hvc.1, fun hc => h.sentVcs _ (hvc.2 hc)⟩

theorem heard_of_genuine {e : Event} (h : C.Genuine S i e) : Heard (C.node i) (C.known S) e := by
  cases e with
  | prePrepare q m =>
    intro hauth hne
    by_cases hbyz : C.primary m.view ∈ C.byz
    · exact .inl hbyz
    · exact .inr (.inl (h hauth hbyz hne))
  | prepare m =>
    intro hauth hlt hne _
    by_cases hbyz : m.id ∈ C.byz
    · exact .inl hbyz
    · exact .inr (h hauth hlt hbyz hne)
  | commit m =>
    intro hauth hlt hne
    by_cases hbyz : m.id ∈ C.byz
    · exact .inl hbyz
    · exact .inr (h hauth hlt hbyz hne)
  | newView nv auth =>
    intro hauth hne
    by_cases hbyz : C.primary nv.view ∈ C.byz
    · exact .inl hbyz
    · exact .inr (h hauth hbyz hne)
  | _ => trivial

theorem vouched_of_genuine {auth : Bool} (h : C.Genuine S i (.viewChange vc auth))
    (hver : vc.verify (C.node i) auth) : C.Vouched S vc := by
  obtain ⟨hlt, hne, hauth, hreqs⟩ := ViewChange.verify_sound hver
  exact ⟨hreqs, fun hbyz => h hauth hlt hbyz hne⟩

end Cluster

theorem Heard.mono {N : Node} {K K' : Known N.md5} {e : Event} (h : Heard N K e) (hK : K.Le K') :
    Heard N K' e := by
  cases e with
  | prePrepare q m => exact fun hauth hne => hK.assign _ _ _ (h hauth hne)
  | prepare m => exact fun hauth hlt hne hp => hK.prepare _ _ _ _ (h hauth hlt hne hp)
  | commit m => exact fun hauth hlt hne => hK.commit _ _ _ (h hauth hlt hne)
  | newView nv auth => exact fun hauth hne => hK.newView _ (h hauth hne)
  | _ => trivial

/-! ## One replica among others -/

namespace Replica

variable {N : Node} {K K' : Known N.md5} {V V' : ViewChange → Prop} {r : Replica}

/-- **The invariant of a correct replica**: what it sent, what it assigned
as primary, and what backs its certificates and the messages it stored. -/
structure ReplicaInv (N : Node) (K : Known N.md5) (V : ViewChange → Prop) (r : Replica) : Prop where
  prepares : PrepareInv N r
  assigns : AssignInv N r
  certs : ∀ s, (r.log s).CertInv N K r.v s
  nvs : ∀ p, NvInv N K V (r.last_nvs p)
  vcs : ∀ j vc, r.last_vcs j = some vc → vc.id = j ∧ V vc
  reports : ReportInv N r

theorem replicaInv_init (N : Node) (K : Known N.md5) (V : ViewChange → Prop) :
    ReplicaInv N K V (init N) where
  prepares := prepareInv_init N
  assigns := assignInv_init N
  certs _ := .new
  nvs _ := .empty
  vcs _ _ h := by cases h
  reports := reportInv_init N

theorem ReplicaInv.mono (h : ReplicaInv N K V r) (hK : K.Le K') (hV : ∀ vc, V vc → V' vc) :
    ReplicaInv N K' V' r where
  prepares := h.prepares
  assigns := h.assigns
  certs s := (h.certs s).mono hK
  nvs p := (h.nvs p).mono hK hV
  vcs j vc hvc := (h.vcs j vc hvc).imp_right (hV vc)
  reports := h.reports

/-- A backup's new view selects, on the view-changes the backup matched,
what it selects on those the message names. -/
theorem fetchDigest_of_accepted {n : NVInfo} {nv : NewView} (h : NvInv N K V n) (hnv : n.nv = some nv)
    (hp : N.primary n.v ≠ N.id) (hacc : n.accepted) {s : ℕ} (hmin : nv.min < s) (hmax : s < nv.max) :
    nv.fetchDigest N.md5 n.vcs s = nv.fetchDigest N.md5 nv.viewChange s := by
  obtain ⟨vci, vc, hvci, hvc, hpick⟩ := (h.accepted nv hnv hp hacc).pick s hmin hmax
  have hnamed : nv.pick nv.viewChange s = some (vc.req s) :=
    pick_of_subset (h.named nv hnv hp) hvci hvc
  rw [NewView.fetchDigest, NewView.fetchDigest, hpick, hnamed]

theorem certInv_step (h : ReplicaInv N K V r) (hid : N.id < N.n) {e : Event} (hheard : Heard N K e)
    (s : ℕ) : ((r.step N e).log s).CertInv N K (r.step N e).v s := by
  have hls := last_stable_le_step N r e
  have hmove := moved_step N r e s
  have hslot := h.certs s
  have hstay := v_of_not_leave (N := N) (r := r) (e := e)
  generalize r.step N e = r' at hls hmove hstay ⊢
  generalize r'.log s = σ' at hmove ⊢
  cases hmove with
  | same hv =>
    rw [hv]
    exact hslot
  | truncated _ => exact hslot.clear
  | left _ _ => exact hslot.clear
  | prePrepare _ hv hs _ =>
    rw [hstay nofun]
    exact hslot.prePrepare hid hv hs hheard
  | prepare _ hv hs hne _ =>
    rw [hstay nofun]
    exact hslot.prepare hv hs hne hheard
  | commit _ _ _ =>
    rw [hstay nofun]
    exact hslot.commit
  | released _ _ _ =>
    rw [hstay nofun]
    exact hslot.released hid _
  | stale _ =>
    rw [hstay nofun]
    exact hslot.markStale
  | proposed _ hp _ _ =>
    rw [hstay nofun]
    exact hslot.propose hp rfl
  | installed hlive hp hpos hslotv hnv hacc hcomp _ hmin hmax =>
    rw [hstay nofun]
    refine hslot.adopt hid rfl fun _ => ?_
    have hunused := h.prepares.unused hpos hp hcomp s (lt_of_le_of_lt hls hlive)
    have hinv : NvInv N K V (r.nvInfo N) := h.nvs _
    have hbackup : N.primary (r.nvInfo N).v ≠ N.id := by
      rw [hslotv]
      exact hp
    obtain ⟨hnvv, hnew⟩ := hinv.stored _ hnv hbackup
    refine ⟨hunused.mym, ?_⟩
    have hassign := K.assign_newView _ s hnew hmin hmax
    rw [← hnvv, hslotv, ← fetchDigest_of_accepted hinv hnv hbackup hacc hmin hmax] at hassign
    exact hassign
  | made _ hp _ _ _ _ _ =>
    rw [hstay nofun]
    exact hslot.adopt hid rfl fun hne => absurd hp hne

/-- **One event at a correct replica.** -/
theorem ReplicaInv.step (h : ReplicaInv N K V r) (hf : 0 < N.f) (hid : N.id < N.n) {e : Event}
    (hok : PrepareKept N r e) (hheard : Heard N K e)
    (hvc : ∀ vc auth, e = .viewChange vc auth → vc.verify N auth → V vc)
    (hown : ∀ vc ∈ (r.step N e).sentVcs, vc.id = N.id → (∀ ri ∈ vc.reqs, ri.v < vc.view) → V vc) :
    ReplicaInv N K V (r.step N e) := by
  have hreports := h.reports.step h.prepares.v_nonneg (fun s pp hpp => ((h.certs s).assigned pp hpp).1) e
  have hsent : ∀ vc ∈ (r.step N e).sentVcs, vc.id = N.id → V vc := fun vc hvc hid =>
    hown vc hvc hid (hreports.sent vc hvc).2.2
  refine ⟨h.prepares.step hok, h.assigns.step e, certInv_step h hid hheard,
    fun p => (h.nvs p).step hf hheard hvc h.vcs hsent, fun j vc hj => ?_, hreports⟩
  rcases last_vcs_step hj with hold | ⟨auth, he, hver, rfl⟩ | ⟨rfl, hvcid, hsentvc⟩ | ⟨rfl, hnv⟩
  · exact h.vcs j vc hold
  · exact ⟨rfl, hvc vc auth he hver⟩
  · exact ⟨hvcid, hsent vc hsentvc hvcid⟩
  · exact ⟨((h.nvs _).genuine _ _ hnv).1, ((h.nvs _).genuine _ _ hnv).2.2⟩

end Replica

namespace Cluster

variable {C : Cluster} {S : ℕ → Replica}

/-- **Every correct replica keeps its invariant.** -/
def Inv (C : Cluster) (S : ℕ → Replica) : Prop :=
  ∀ i, C.Correct i → (S i).ReplicaInv (C.node i) (C.known S) (C.Vouched S)

theorem inv_init (C : Cluster) : C.Inv C.init := fun i _ =>
  Replica.replicaInv_init (C.node i) _ _

/-- The condition under which a backup prepares one batch, at every
replica. -/
def Kept (C : Cluster) (S : ℕ → Replica) (x : ℕ × Event) : Prop :=
  (S x.1).PrepareKept (C.node x.1) x.2
  deriving Decidable

theorem Inv.step (h : C.Inv S) (hf : 0 < C.f) {x : ℕ × Event} (hx : C.Delivered S x)
    (hok : C.Kept S x) : C.Inv (C.step S x) := by
  intro k hk
  have hlater := later_step C S x
  have hmono := (h k hk).mono (hlater.known (C := C)) fun vc => hlater.vouched
  obtain ⟨i, e⟩ := x
  by_cases hki : k = i
  · subst hki
    have hself := step_self (C := C) S k e
    generalize C.step S (k, e) = S' at hmono hlater hself ⊢
    rw [hself]
    refine hmono.step hf hk.1 hok ((heard_of_genuine hx.2).mono hlater.known) (fun vc auth he hver => ?_)
      fun vc hsent hid hreqs => ⟨hreqs, fun _ => ?_⟩
    · subst he
      exact hlater.vouched (vouched_of_genuine hx.2 hver)
    · rw [hid, hself]
      exact hsent
  · rw [step_of_ne hki]
    exact hmono

theorem inv_exec (hf : 0 < C.f) {es : List (ℕ × Event)}
    (h : Guarded C.step (fun S x => C.Delivered S x ∧ C.Kept S x) C.init es) :
    C.Inv (exec C.step C.init es) :=
  h.invariant (I := C.Inv) (fun _ _ hS hx => hS.step hf hx.1 hx.2) (inv_init C)

end Cluster

end AbstractBFT.Aardvark
