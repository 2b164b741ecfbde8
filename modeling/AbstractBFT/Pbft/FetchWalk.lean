import AbstractBFT.Pbft.Checkpoints
import AbstractBFT.Pbft.Fetch
/-!
# PBFT — the walk of a fetch

What is true of the tree and the queues while state is fetched. The working
partitions, the first ones of the queues, form a path from the root, and only
their digests may be old (`TreeOk`, `OnPath`). For one that is expanded, each
partition below is queued, or as it was at the checkpoint that is fetched, or
modified later, and in that case `lm` of the one above says so (`Expanded`).

So when the queue below runs empty and `lm` is not after the checkpoint, all
that is below is as it was at the checkpoint (`Expanded.below_eq`), and the
partition may be put in place (`Walk.settle`).
-/

namespace AbstractBFT.Pbft

open Function List

/-! ## The tree during a fetch -/

/-- The sums are right, every digest was computed from something, and
outside `E` it is the digest of what is there. -/
structure TreeOk (X : Hashed) (md5 : Md5) (nb : ℕ) (E : ℕ → ℕ → Prop) (t : Tree) : Prop where
  summed : t.Summed nb
  unused : t.Unused nb
  good : ∀ l ≤ leafLevel, ∀ i < partCount nb l, ¬ E l i → t.Good X md5 nb l i
  stored : ∀ l ≤ leafLevel, ∀ i < partCount nb l, IsSeqno (t.ptree l i).lm ∧
    ∃ data, partInput i (t.ptree l i).lm data ∈ X.msgs ∧
      (t.ptree l i).d = partDigest md5 i (t.ptree l i).lm data

namespace TreeOk

variable {X : Hashed} {md5 : Md5} {nb : ℕ} {E E' : ℕ → ℕ → Prop} {t : Tree}

theorem mono (h : TreeOk X md5 nb E t) (hE : ∀ l i, E l i → E' l i) : TreeOk X md5 nb E' t where
  summed := h.summed
  unused := h.unused
  good l hl i hi hE' := h.good l hl i hi fun hmem => hE' (hE l i hmem)
  stored := h.stored

variable {i l : ℕ} {p : Part}

/-- A block may change where the digest is an exception. -/
theorem write (h : TreeOk X md5 nb E t) (hi : E leafLevel i) (b : Block) :
    TreeOk X md5 nb E { t with mem := update t.mem i b } where
  summed := h.summed
  unused := h.unused
  good l hl j hj hE := by
    have hgood := h.good l hl j hj hE
    have hdata : Tree.data { t with mem := update t.mem i b } l j = t.data l j := by
      rw [Tree.data, Tree.data]
      split
      · next hleaf =>
        subst hleaf
        refine update_of_ne (fun heq => hE ?_) _ _
        rw [heq]
        exact hi
      · rfl
    refine ⟨?_, ?_, hgood.sum, hgood.seqno⟩
    · rw [Tree.Exact, Tree.digest, hdata]
      exact hgood.exact
    · rw [hdata]
      exact hgood.msg
  stored := h.stored

theorem below_replace {l' i' : ℕ} (hne : ¬ (l' + 1 = l ∧ i' = i / pChildren)) :
    (t.replace l i p).below nb l' i' = t.below nb l' i' := by
  refine map_congr_left fun j hj => ?_
  rw [Tree.ptree_replace, setAt_of_ne]
  rintro ⟨rfl, rfl⟩
  exact hne ⟨rfl, (mem_subIndices.1 hj).1.symm⟩

/-- **A partition gets the digest of its contents.** The one above it is an
exception. -/
theorem put (h : TreeOk X md5 nb E t) (hl : l ≤ leafLevel) (hi : i < partCount nb l)
    (habove : 0 < l → E (l - 1) (i / pChildren)) (hp : IsSeqno p.lm)
    (hmsg : partInput i p.lm (t.data l i) ∈ X.msgs) (hd : p.d = partDigest md5 i p.lm (t.data l i))
    (hsum : l < leafLevel → t.below nb l i ∈ X.sums l i) :
    TreeOk X md5 nb (fun l' i' => E l' i' ∧ ¬ (l' = l ∧ i' = i)) (t.replace l i p) where
  summed := h.summed.replace hi p
  unused l' i' hi' := by
    rw [Tree.ptree_replace, setAt_of_ne]
    · exact h.unused l' i' hi'
    · rintro ⟨rfl, rfl⟩
      exact absurd hi (not_lt.2 hi')
  good l' hl' i' hi' hE := by
    by_cases hself : l' = l ∧ i' = i
    · obtain ⟨rfl, rfl⟩ := hself
      have hpart : (t.replace l' i' p).ptree l' i' = p := setAt_self _ _ _ _
      have hdata : (t.replace l' i' p).data l' i' = t.data l' i' :=
        Tree.data_replace fun heq => by omega
      refine ⟨Tree.exact_replace_self hd, ?_, fun hlt => ?_, ?_⟩
      · rw [hpart, hdata]
        exact hmsg
      · rw [below_replace fun heq => by omega]
        exact hsum hlt
      · rw [hpart]
        exact hp
    · have hnot : ¬ E l' i' := fun hmem => hE ⟨hmem, hself⟩
      have hne : ¬ (l' + 1 = l ∧ i' = i / pChildren) := by
        rintro ⟨rfl, rfl⟩
        exact hnot (habove (Nat.succ_pos l'))
      have hgood := h.good l' hl' i' hi' hnot
      have hpart : (t.replace l i p).ptree l' i' = t.ptree l' i' := setAt_of_ne hself
      refine ⟨hgood.exact.replace hself hne, ?_, fun hlt => ?_, ?_⟩
      · rw [hpart, Tree.data_replace hne]
        exact hgood.msg
      · rw [below_replace hne]
        exact hgood.sum hlt
      · rw [hpart]
        exact hgood.seqno
  stored l' hl' i' hi' := by
    by_cases hself : l' = l ∧ i' = i
    · obtain ⟨rfl, rfl⟩ := hself
      rw [Tree.ptree_replace, setAt_self]
      exact ⟨hp, _, hmsg, hd⟩
    · rw [Tree.ptree_replace, setAt_of_ne hself]
      exact h.stored l' hl' i' hi'

/-- A partition gets what it had at a checkpoint, and has the contents it
had then. -/
theorem put_genuine {H : Checkpoints md5 nb} {tr t : Tree} {c : ℤ} (h : TreeOk X md5 nb E tr)
    (ht : H.tree c = some t) (hH : X.Covers nb t) (hl : l ≤ leafLevel) (hi : i < partCount nb l)
    (habove : 0 < l → E (l - 1) (i / pChildren)) (hdata : tr.data l i = t.data l i)
    (hbelow : l < leafLevel → tr.below nb l i = t.below nb l i) :
    TreeOk X md5 nb (fun l' i' => E l' i' ∧ ¬ (l' = l ∧ i' = i))
      (tr.replace l i (t.ptree l i)) := by
  have hgood := H.good ht hH hl hi
  refine h.put hl hi habove hgood.seqno ?_ ?_ fun hlt => ?_
  · rw [hdata]
    exact hgood.msg
  · rw [hdata]
    exact hgood.exact
  · rw [hbelow hlt]
    exact hgood.sum hlt

end TreeOk

theorem data_eq_of_below_eq {nb : ℕ} {t t' : Tree} {l i : ℕ} (hl : l < leafLevel) (hs : t.Summed nb)
    (hu : t.Unused nb) (hs' : t'.Summed nb) (hu' : t'.Unused nb)
    (h : t.below nb l i = t'.below nb l i) : t.data l i = t'.data l i := by
  rw [Tree.data, Tree.data, if_neg hl.ne, if_neg hl.ne]
  have hsum : t.stree l i = t'.stree l i := by
    refine DSum.ext_sum ?_
    rw [Tree.stree_eq hs hu hl, Tree.stree_eq hs' hu' hl, h]
  rw [hsum]

/-! ## The partitions in a `Meta_data` message -/

namespace MetaData

theorem map_fst_subPartsFrom (count index : ℕ) (parts : List (ℕ × Digest)) :
    (subPartsFrom count index parts).map Prod.fst = List.range' index count := by
  induction count generalizing index parts with
  | zero => rw [subPartsFrom]; rfl
  | succ count ih =>
    rw [List.range'_succ]
    cases parts with
    | nil => rw [subPartsFrom, map_cons, ih]
    | cons cur parts =>
      rw [subPartsFrom]
      split <;> rw [map_cons, ih]

theorem map_fst_subParts (nb : ℕ) (m : MetaData) :
    (m.subParts nb).map Prod.fst = subIndices nb m.l m.i := by
  rw [subIndices, ← map_fst_subPartsFrom pChildren (m.i * pChildren) m.parts, takeWhile_map]
  rfl

end MetaData

/-- What is fetched: a partition as of a checkpoint. -/
def FPart.target (p : FPart) : ℕ × ℤ × Digest := (p.index, p.c, p.d)

/-- What the walk depends on: everything but `lu`. -/
def FPart.key (p : FPart) : ℤ × ℕ × ℤ × Digest := (p.lm, p.target)

namespace Fetcher

/-- The digest of a partition below, with what the message says. -/
def chosen (x : Fetcher) (m : MetaData) (p : ℕ × Digest) : Digest :=
  if digestIsZero p.2 then (x.tree.ptree (m.l + 1) p.1).d else p.2

/-- **The sum that `check_digest` computes** is that of the digests the
partition would have below it. -/
theorem checkSum_eq {x : Fetcher} {nb : ℕ} (hnb : x.nb = nb) (hsum : x.tree.Summed nb)
    (hunused : x.tree.Unused nb) {m : MetaData} (hl : m.l < leafLevel) :
    (x.checkSum m).sum = digestSum ((m.subParts nb).map (x.chosen m)) := by
  subst hnb
  -- the rest of the list is as it was, what was gone over is as the message says
  have hfold : ∀ (ps : List (ℕ × Digest)) (A : ℕ) (s : DSum modulus),
      s.sum = (A + ((ps.map fun p => (x.tree.ptree (m.l + 1) p.1).d).map BitVec.toNat).sum) %
        modulus.val →
      (ps.foldl (fun sum p =>
        if digestIsZero p.2 then sum else sum.exchange (x.tree.ptree (m.l + 1) p.1).d p.2) s).sum =
        (A + ((ps.map (x.chosen m)).map BitVec.toNat).sum) % modulus.val := by
    intro ps
    induction ps with
    | nil => exact fun A s hs => hs
    | cons p ps ih =>
      intro A s hs
      simp only [map_cons, sum_cons] at hs ⊢
      rw [← Nat.add_assoc] at hs ⊢
      rw [foldl_cons, chosen]
      split
      · exact ih _ s hs
      · exact ih _ _ (DSum.exchange_sum hs (by omega))
  have hbelow : (m.subParts x.nb).map (fun p => (x.tree.ptree (m.l + 1) p.1).d) =
      x.tree.below x.nb m.l m.i := by
    rw [Tree.below, ← MetaData.map_fst_subParts, map_map]
    rfl
  rw [checkSum, hfold _ 0, Nat.zero_add, digestSum]
  rw [hbelow, Nat.zero_add, Tree.stree_eq hsum hunused hl, digestSum]

theorem queueStale_eq (x : Fetcher) (l : ℕ) (wp : FPart) (parts : List (ℕ × Digest)) :
    x.queueStale l wp parts =
      ((parts.filter fun p => !decide (digestIsZero p.2 ∨ (x.tree.ptree l p.1).d = p.2)).map
        fun p => ⟨p.1, wp.lu, (x.tree.ptree l p.1).lm, wp.c, p.2⟩).reverse := by
  have hfold : ∀ (ps : List (ℕ × Digest)) (q : List FPart),
      ps.foldl (fun q p =>
        let part := x.tree.ptree l p.1
        if digestIsZero p.2 ∨ part.d = p.2 then q else ⟨p.1, wp.lu, part.lm, wp.c, p.2⟩ :: q) q =
      ((ps.filter fun p => !decide (digestIsZero p.2 ∨ (x.tree.ptree l p.1).d = p.2)).map
        fun p => (⟨p.1, wp.lu, (x.tree.ptree l p.1).lm, wp.c, p.2⟩ : FPart)).reverse ++ q := by
    intro ps
    induction ps with
    | nil => exact fun q => rfl
    | cons p ps ih =>
      intro q
      rw [foldl_cons, ih, filter_cons]
      by_cases hup : digestIsZero p.2 ∨ (x.tree.ptree l p.1).d = p.2
      · rw [if_pos hup, decide_eq_true hup]
        rfl
      · rw [if_neg hup, decide_eq_false hup]
        simp
  rw [queueStale, hfold, append_nil]

/-! ## What is assumed of others, and of the replica -/

section Walk

variable (N : Node) {nb : ℕ} (H : Checkpoints N.md5 nb) (X : Hashed)

/-- The digest is that of the partition at checkpoint `c`. -/
def Genuine (l i : ℕ) (c : ℤ) (d : Digest) : Prop :=
  ∃ t, H.tree c = some t ∧ (t.ptree l i).d = d

/-- What the replica itself knows of its last checkpoint is right. -/
def OwnCkpt (x : Fetcher) : Prop :=
  (checkpointInterval : ℤ) ∣ x.lc → digestIsZero x.lastRec.sd = false → ∃ t, H.tree x.lc = some t ∧
    (∀ l i, (x.tree.ptree l i).lm ≤ x.lc → x.tree.ptree l i = t.ptree l i) ∧
    ∀ l i b, x.lastRec.parts (l, i) = some b → b.toPart = t.ptree l i

/-! ## The walk -/

/-- The working partitions: their digests may be old. -/
def OnPath (x : Fetcher) (l i : ℕ) : Prop := ∃ p q, x.stalep l = p :: q ∧ p.index = i

/-- An entry of a queue: a digest at a checkpoint, not the one the replica
has. -/
structure Queued (x : Fetcher) (l : ℕ) (p : FPart) : Prop where
  genuine : Genuine N H l p.index p.c p.d
  stale : p.d ≠ (x.tree.ptree l p.index).d
  lc_le : x.lc ≤ p.c

/-- A partition whose contents are being fetched, `t` being the tree of its
checkpoint. Below it every partition is either queued, or as in `t`, or it was
modified after the checkpoint, and then that is known. -/
structure Expanded (x : Fetcher) (l : ℕ) (wp : FPart) (t : Tree) : Prop where
  tree : H.tree wp.c = some t
  digest : (t.ptree l wp.index).d = wp.d
  lm_le : (t.ptree l wp.index).lm ≤ wp.lm
  lm_eq : wp.lm ≤ wp.c → wp.lm = (t.ptree l wp.index).lm
  below : ∀ j ∈ children nb l wp.index, (∃ p ∈ x.stalep (l + 1), p.index = j) ∨
    (x.tree.ptree (l + 1) j).d = (t.ptree (l + 1) j).d ∨
    wp.c < (x.tree.ptree (l + 1) j).lm ∧ (x.tree.ptree (l + 1) j).lm ≤ wp.lm
  queue : ∀ p ∈ x.stalep (l + 1), p.index ∈ children nb l wp.index ∧ wp.c ≤ p.c

/-- The root before anything is fetched. -/
structure Untouched (x : Fetcher) (p : FPart) : Prop where
  good : x.tree.Good X N.md5 nb 0 0
  lm : p.lm = (x.tree.ptree 0 0).lm
  known : 0 ≤ p.c → Genuine N H 0 0 p.c p.d ∧ p.d = (x.tree.ptree 0 0).d ∧ x.lc ≤ p.c

/-- **The walk** down to level `L`. -/
structure Walk (L : ℕ) (x : Fetcher) : Prop where
  blocks : x.nb = nb
  level : L ≤ leafLevel
  above : ∀ k, L < k → x.stalep k = []
  root : ∃ p, x.stalep 0 = [p] ∧ p.index = 0 ∧
    (Queued N H x 0 p ∨ L = 0 ∧ Untouched N H X x p)
  nodup : ∀ k, ((x.stalep k).map FPart.index).Nodup
  path : ∀ k < L, ∃ wp q t, x.stalep k = wp :: q ∧ Expanded N H x k wp t
  queued : ∀ k, 0 < k → ∀ p ∈ x.stalep k, Queued N H x k p
  tree : TreeOk X N.md5 nb (OnPath x) x.tree
  own : OwnCkpt N H x

variable {N H X}

variable {l L : ℕ}
variable {i k : ℕ} {p' pwp : FPart} {q : List FPart} {y : Fetcher}

theorem Genuine.nonneg {c : ℤ} {d : Digest} (h : Genuine N H l i c d) : 0 ≤ c := by
  obtain ⟨t, ht, -⟩ := h
  obtain ⟨hlo, hhi⟩ := H.lm_le ht 0 0
  exact hlo.trans hhi

variable {x x' : Fetcher} {p wp wp' : FPart}

/-- Partitions on the path are in the tree. -/
theorem Walk.index_lt (h : Walk N H X L x) (hl : l ≤ L) (hp : p ∈ x.stalep l) :
    p.index < partCount nb l := by
  cases l with
  | zero =>
    obtain ⟨p', hroot, hindex, -⟩ := h.root
    rw [hroot] at hp
    rw [mem_singleton.1 hp, hindex]
    exact Nat.zero_lt_one
  | succ l =>
    obtain ⟨wp, q, t, -, hexp⟩ := h.path l hl
    exact (mem_children.1 (hexp.queue p hp).1).1

variable {t : Tree}

theorem Expanded.genuine (h : Expanded N H x l wp t) : Genuine N H l wp.index wp.c wp.d :=
  ⟨t, h.tree, h.digest⟩

/-- What a consistent partition will be. -/
theorem Expanded.part_eq (h : Expanded N H x l wp t) (hle : wp.lm ≤ wp.c) :
    (⟨wp.lm, wp.d⟩ : Part) = t.ptree l wp.index := by
  rw [h.lm_eq hle, ← h.digest]

theorem target_eq (h : p'.target = p.target) : p'.index = p.index ∧ p'.c = p.c ∧ p'.d = p.d := by
  simpa only [FPart.target, Prod.mk.injEq] using h

theorem Queued.congr (h : Queued N H x l p) (htarget : p'.target = p.target) (hlc : x'.lc = x.lc)
    (hpart : x'.tree.ptree l p.index = x.tree.ptree l p.index) : Queued N H x' l p' := by
  obtain ⟨hindex, hc, hd⟩ := target_eq htarget
  refine ⟨?_, ?_, ?_⟩
  · rw [hindex, hc, hd]
    exact h.genuine
  · rw [hindex, hd, hpart]
    exact h.stale
  · rw [hlc, hc]
    exact h.lc_le

section Map

variable {α : Type} {f : FPart → α} {p : FPart} {q q' : List FPart}

theorem exists_of_map_eq (h : q'.map f = q.map f) (hp : p ∈ q') : ∃ p' ∈ q, f p' = f p :=
  mem_map.1 (h ▸ mem_map_of_mem hp)

theorem cons_of_map_eq (h : q'.map f = (p :: q).map f) :
    ∃ p' r, q' = p' :: r ∧ f p' = f p ∧ r.map f = q.map f := by
  cases q' with
  | nil => cases h
  | cons p' r => exact ⟨p', r, rfl, (List.cons.inj h).1, (List.cons.inj h).2⟩

theorem map_target_of_map_key (h : q'.map FPart.key = q.map FPart.key) :
    q'.map FPart.target = q.map FPart.target := by
  have hsnd := congrArg (List.map Prod.snd) h
  rwa [map_map, map_map] at hsnd

theorem map_index_of_map_target (h : q'.map FPart.target = q.map FPart.target) :
    q'.map FPart.index = q.map FPart.index := by
  have hfst := congrArg (List.map Prod.fst) h
  rwa [map_map, map_map] at hfst

end Map

theorem Expanded.congr (h : Expanded N H x l wp t) (hkey : wp'.key = wp.key)
    (hqueue : (x'.stalep (l + 1)).map FPart.target = (x.stalep (l + 1)).map FPart.target)
    (htree : ∀ j, x'.tree.ptree (l + 1) j = x.tree.ptree (l + 1) j) : Expanded N H x' l wp' t := by
  obtain ⟨hlm, htarget⟩ := Prod.mk.inj hkey
  obtain ⟨hindex, hc, hd⟩ := target_eq htarget
  refine ⟨?_, ?_, ?_, ?_, fun j hj => ?_, fun p hp => ?_⟩
  · rw [hc]
    exact h.tree
  · rw [hindex, hd]
    exact h.digest
  · rw [hindex, hlm]
    exact h.lm_le
  · rw [hindex, hlm, hc]
    exact h.lm_eq
  · rw [hindex] at hj
    rw [htree, hlm, hc]
    refine (h.below j hj).imp_left fun hmem => ?_
    obtain ⟨p, hp, hpj⟩ := hmem
    obtain ⟨p', hp', htarget'⟩ := exists_of_map_eq hqueue.symm hp
    exact ⟨p', hp', (target_eq htarget').1.trans hpj⟩
  · obtain ⟨p', hp', htarget'⟩ := exists_of_map_eq hqueue hp
    obtain ⟨hindex', hc', -⟩ := target_eq htarget'
    obtain ⟨hmem, hle⟩ := h.queue p' hp'
    rw [hindex, hc, ← hindex', ← hc']
    exact ⟨hmem, hle⟩

/-- The part of the state that the queues do not belong to is the same. -/
structure SameState (x x' : Fetcher) : Prop where
  nb : x'.nb = x.nb
  lc : x'.lc = x.lc
  clog : x'.clog = x.clog
  tree : x'.tree = x.tree

theorem OwnCkpt.congr (h : OwnCkpt N H x) (hs : SameState x x') : OwnCkpt N H x' := by
  have hlast : x'.lastRec = x.lastRec := by rw [State.lastRec, State.lastRec, hs.clog, hs.lc]
  rw [OwnCkpt, hlast, hs.lc, hs.tree]
  exact h

theorem OnPath.congr (h : OnPath x l i)
    (hq : (x'.stalep l).map FPart.target = (x.stalep l).map FPart.target) : OnPath x' l i := by
  obtain ⟨p, q, hcons, hindex⟩ := h
  rw [hcons] at hq
  obtain ⟨p', r, hcons', htarget, -⟩ := cons_of_map_eq hq
  exact ⟨p', r, hcons', (target_eq htarget).1.trans hindex⟩

/-- Values of `lu` do not matter. -/
theorem Walk.congr (h : Walk N H X L x) (hs : SameState x x')
    (hq : ∀ l, (x'.stalep l).map FPart.key = (x.stalep l).map FPart.key) : Walk N H X L x' where
  blocks := hs.nb.trans h.blocks
  level := h.level
  above k hk := by
    have hkey := hq k
    rw [h.above k hk] at hkey
    exact map_eq_nil_iff.1 hkey
  root := by
    obtain ⟨p, hroot, hindex, hp⟩ := h.root
    have hkey := hq 0
    rw [hroot] at hkey
    obtain ⟨p', r, hroot', hkey', hr⟩ := cons_of_map_eq hkey
    obtain rfl := map_eq_nil_iff.1 hr
    obtain ⟨hlm, htarget⟩ := Prod.mk.inj hkey'
    obtain ⟨hindex', hc, hd⟩ := target_eq htarget
    refine ⟨p', hroot', hindex'.trans hindex, ?_⟩
    refine hp.imp (fun hp => hp.congr htarget hs.lc (by rw [hs.tree])) fun ⟨hL, hun⟩ => ⟨hL, ?_⟩
    refine ⟨?_, ?_, ?_⟩
    · rw [hs.tree]
      exact hun.good
    · rw [hs.tree, hlm]
      exact hun.lm
    · rw [hs.tree, hs.lc, hc, hd]
      exact hun.known
  nodup k := by
    rw [map_index_of_map_target (map_target_of_map_key (hq k))]
    exact h.nodup k
  path k hk := by
    obtain ⟨wp, q, t, hcons, hexp⟩ := h.path k hk
    have hkey := hq k
    rw [hcons] at hkey
    obtain ⟨wp', r, hcons', hkey', -⟩ := cons_of_map_eq hkey
    refine ⟨wp', r, t, hcons', hexp.congr hkey' (map_target_of_map_key (hq (k + 1))) fun j => ?_⟩
    rw [hs.tree]
  queued k hk p hp := by
    obtain ⟨p', hp', htarget⟩ := exists_of_map_eq (map_target_of_map_key (hq k)) hp
    exact (h.queued k hk p' hp').congr htarget.symm hs.lc (by rw [hs.tree])
  tree := by
    rw [hs.tree]
    exact h.tree.mono fun l i hpath => hpath.congr (map_target_of_map_key (hq l))
  own := h.own.congr hs

/-- Going up from a level that is done. -/
theorem Walk.up (h : Walk N H X (L + 1) x) (hnil : x.stalep (L + 1) = []) : Walk N H X L x where
  blocks := h.blocks
  level := Nat.le_of_succ_le h.level
  above k hk := by
    rcases eq_or_lt_of_le (Nat.succ_le_of_lt hk) with rfl | hlt
    · exact hnil
    · exact h.above k hlt
  root := by
    obtain ⟨p, hroot, hindex, hp⟩ := h.root
    exact ⟨p, hroot, hindex, .inl (hp.resolve_right fun hL => Nat.succ_ne_zero L hL.1)⟩
  nodup := h.nodup
  path k hk := h.path k (Nat.lt_succ_of_lt hk)
  queued := h.queued
  tree := h.tree
  own := h.own

/-- **Below a consistent partition** everything is as at its checkpoint. -/
theorem Expanded.below_eq (h : Expanded N H x l wp t) (hu : x.tree.Unused nb)
    (hnil : x.stalep (l + 1) = [])
    (hle : wp.lm ≤ wp.c) : x.tree.below nb l wp.index = t.below nb l wp.index := by
  refine map_congr_left fun j hj => ?_
  by_cases hmem : j ∈ children nb l wp.index
  · rcases h.below j hmem with ⟨p, hp, -⟩ | heq | hlater
    · rw [hnil] at hp
      cases hp
    · exact heq
    · exact absurd (hlater.1.trans_le hlater.2) (not_lt.2 hle)
  · -- a partition without blocks
    have hge : partCount nb (l + 1) ≤ j := not_lt.1 fun hlt =>
      hmem (mem_children.2 ⟨hlt, (mem_subIndices.1 hj).1⟩)
    rw [hu _ _ hge, H.unused h.tree _ _ hge]

/-- The partition above one that is put in place. -/
theorem Expanded.settle {tp : Tree} (h : Expanded N H x k pwp tp) (hk : k < leafLevel)
    (hq : x.stalep (k + 1) = wp :: q) (ht : H.tree wp.c = some t) (hlevel : x'.stalep (k + 1) = q)
    (hself : x'.tree.ptree (k + 1) wp.index = t.ptree (k + 1) wp.index)
    (hpart : ∀ j, j ≠ wp.index → x'.tree.ptree (k + 1) j = x.tree.ptree (k + 1) j) :
    Expanded N H x' k { pwp with lm := max pwp.lm (t.ptree (k + 1) wp.index).lm } tp := by
  obtain ⟨hmem, hle⟩ := h.queue wp (hq ▸ mem_cons_self)
  obtain ⟨hlt, hdiv⟩ := mem_children.1 hmem
  -- if it was not modified after the checkpoint of the one above, it is as it was then
  have hsame : (t.ptree (k + 1) wp.index).lm ≤ pwp.c →
      t.ptree (k + 1) wp.index = tp.ptree (k + 1) wp.index := H.same h.tree ht hle _ _
  refine ⟨h.tree, h.digest, h.lm_le.trans (le_max_left _ _), fun hmax => ?_, fun j hj => ?_,
    fun p hp => h.queue p (hq ▸ mem_cons_of_mem wp (hlevel ▸ hp))⟩
  · obtain ⟨hlm, hlm'⟩ := max_le_iff.1 hmax
    have hbelow := H.lm_below h.tree k hk wp.index hlt
    rw [hdiv, ← hsame hlm', ← h.lm_eq hlm] at hbelow
    change max pwp.lm _ = _
    rw [max_eq_left hbelow]
    exact h.lm_eq hlm
  · by_cases hj' : j = wp.index
    · subst hj'
      rw [hself]
      by_cases hlm : (t.ptree (k + 1) wp.index).lm ≤ pwp.c
      · exact .inr (.inl (by rw [hsame hlm]))
      · exact .inr (.inr ⟨not_le.1 hlm, le_max_right _ _⟩)
    · rw [hpart j hj', hlevel]
      rcases h.below j hj with ⟨p, hp, hindex⟩ | heq | hlater
      · rw [hq] at hp
        rcases mem_cons.1 hp with rfl | hp
        · exact absurd hindex.symm hj'
        · exact .inl ⟨p, hp, hindex⟩
      · exact .inr (.inl heq)
      · exact .inr (.inr ⟨hlater.1, hlater.2.trans (le_max_left _ _)⟩)

/-- **A partition is put in place.** The first partition `wp` of level `k + 1`
becomes what it was at its checkpoint, the one above it is told, and the rest
of the queue remains. -/
theorem Walk.settle (h : Walk N H X (k + 1) x) {pq : List FPart} (hq : x.stalep (k + 1) = wp :: q)
    (hpq : x.stalep k = pwp :: pq) (ht : H.tree wp.c = some t) (hnb : x'.nb = x.nb)
    (hlc : x'.lc = x.lc) (hclog : x'.clog = x.clog)
    (hptree : x'.tree.ptree = setAt x.tree.ptree (k + 1) wp.index (t.ptree (k + 1) wp.index))
    (htree : TreeOk X N.md5 nb (fun l i => OnPath x l i ∧ ¬ (l = k + 1 ∧ i = wp.index)) x'.tree)
    (hstalep : x'.stalep = update (update x.stalep k
      ({ pwp with lm := max pwp.lm (t.ptree (k + 1) wp.index).lm } :: pq)) (k + 1) q) :
    Walk N H X (k + 1) x' := by
  have hwp : wp ∈ x.stalep (k + 1) := hq ▸ mem_cons_self
  have hqwp := h.queued (k + 1) (Nat.succ_pos k) wp hwp
  have hlevel : x'.stalep (k + 1) = q := by rw [hstalep, update_self]
  have hparent : x'.stalep k =
      { pwp with lm := max pwp.lm (t.ptree (k + 1) wp.index).lm } :: pq := by
    rw [hstalep, update_of_ne k.lt_succ_self.ne, update_self]
  have hother : ∀ l, l ≠ k → l ≠ k + 1 → x'.stalep l = x.stalep l := by
    intro l hk hk'
    rw [hstalep, update_of_ne hk', update_of_ne hk]
  have hpart : ∀ l i, ¬ (l = k + 1 ∧ i = wp.index) → x'.tree.ptree l i = x.tree.ptree l i := by
    intro l i hne
    rw [hptree, setAt_of_ne hne]
  have hself : x'.tree.ptree (k + 1) wp.index = t.ptree (k + 1) wp.index := by
    rw [hptree, setAt_self]
  have hrest : ∀ p ∈ q, p.index ≠ wp.index := by
    intro p hp heq
    have hnodup := h.nodup (k + 1)
    rw [hq, map_cons, nodup_cons, ← heq] at hnodup
    exact hnodup.1 (mem_map_of_mem hp)
  have htargets : ∀ l, l ≠ k + 1 →
      (x'.stalep l).map FPart.target = (x.stalep l).map FPart.target := by
    intro l hl
    by_cases hlk : l = k
    · rw [hlk, hparent, hpq]
      rfl
    · rw [hother l hlk hl]
  refine ⟨hnb.trans h.blocks, h.level, fun l hl => ?_, ?_, fun l => ?_, fun l hl => ?_,
    fun l hl p hp => ?_, htree.mono ?_, ?_⟩
  · rw [hother l (by omega) (by omega)]
    exact h.above l hl
  · obtain ⟨p, hroot, hindex, hp⟩ := h.root
    have htarget := htargets 0 (Nat.succ_ne_zero k).symm
    rw [hroot] at htarget
    obtain ⟨p', r, hroot', htarget', hr⟩ := cons_of_map_eq htarget
    obtain rfl := map_eq_nil_iff.1 hr
    refine ⟨p', hroot', (target_eq htarget').1.trans hindex, .inl ?_⟩
    exact (hp.resolve_right fun hL => Nat.succ_ne_zero k hL.1).congr htarget' hlc
      (hpart _ _ fun heq => Nat.succ_ne_zero k heq.1.symm)
  · by_cases hl : l = k + 1
    · have hnodup := h.nodup (k + 1)
      rw [hq, map_cons, nodup_cons] at hnodup
      rw [hl, hlevel]
      exact hnodup.2
    · rw [map_index_of_map_target (htargets l hl)]
      exact h.nodup l
  · obtain ⟨wp', q', t', hcons, hexp⟩ := h.path l hl
    by_cases hlk : l = k
    · subst hlk
      rw [hpq] at hcons
      obtain ⟨rfl, rfl⟩ := List.cons.inj hcons
      exact ⟨_, pq, t', hparent, hexp.settle (Nat.lt_of_succ_le h.level) hq ht hlevel hself
        fun j hj => hpart _ _ fun heq => hj heq.2⟩
    · refine ⟨wp', q', t', (hother l hlk (by omega)).trans hcons, ?_⟩
      exact hexp.congr rfl (htargets (l + 1) (by omega)) fun j => hpart _ _ (by omega)
  · by_cases hlk : l = k + 1
    · rw [hlk, hlevel] at hp
      rw [hlk]
      refine (h.queued (k + 1) (Nat.succ_pos k) p ?_).congr rfl hlc (hpart _ _ ?_)
      · exact hq ▸ mem_cons_of_mem wp hp
      · exact fun heq => hrest p hp heq.2
    · obtain ⟨p', hp', htarget⟩ := exists_of_map_eq (htargets l hlk) hp
      exact (h.queued l hl p' hp').congr htarget.symm hlc (hpart _ _ fun heq => hlk heq.1)
  · rintro l i ⟨hpath, hne⟩
    by_cases hlk : l = k + 1
    · obtain ⟨p, q', hcons, hindex⟩ := hpath
      rw [hlk, hq] at hcons
      obtain ⟨rfl, -⟩ := List.cons.inj hcons
      exact absurd ⟨hlk, hindex.symm⟩ hne
    · exact hpath.congr (htargets l hlk)
  · have hlast : x'.lastRec = x.lastRec := by rw [State.lastRec, State.lastRec, hclog, hlc]
    rw [OwnCkpt, hlast, hlc]
    intro hdvd hsd
    obtain ⟨t₀, ht₀, hown, hcopies⟩ := h.own hdvd hsd
    refine ⟨t₀, ht₀, fun l i hlm => ?_, hcopies⟩
    by_cases heq : l = k + 1 ∧ i = wp.index
    · obtain ⟨rfl, rfl⟩ := heq
      rw [hself] at hlm ⊢
      exact H.same ht₀ ht hqwp.lc_le _ _ hlm
    · rw [hpart l i heq] at hlm ⊢
      exact hown l i hlm

/-- **A partition is expanded**: those below it that are out of date are
queued. -/
theorem Walk.expand (h : Walk N H X L x) (hL : L < leafLevel) {qs : List FPart}
    (hcons : x.stalep L = wp :: q) (hwp : Queued N H x L wp) (hs : SameState x y)
    (htarget : wp'.target = wp.target)
    (hstalep : y.stalep = update (update x.stalep L (wp' :: q)) (L + 1) qs)
    (hnodup : (qs.map FPart.index).Nodup) (hexp : Expanded N H y L wp' t)
    (hqs : ∀ p ∈ qs, Queued N H y (L + 1) p) : Walk N H X (L + 1) y := by
  have hbelow : y.stalep (L + 1) = qs := by rw [hstalep, update_self]
  have htop : y.stalep L = wp' :: q := by
    rw [hstalep, update_of_ne L.lt_succ_self.ne, update_self]
  have hother : ∀ l, l ≠ L → l ≠ L + 1 → y.stalep l = x.stalep l := by
    intro l hl hl'
    rw [hstalep, update_of_ne hl', update_of_ne hl]
  have htargets : ∀ l, l ≠ L + 1 →
      (y.stalep l).map FPart.target = (x.stalep l).map FPart.target := by
    intro l hl
    by_cases hlL : l = L
    · rw [hlL, htop, hcons, map_cons, htarget, map_cons]
    · rw [hother l hlL hl]
  refine ⟨hs.nb.trans h.blocks, hL, fun l hl => ?_, ?_, fun l => ?_, fun l hl => ?_,
    fun l hl p hp => ?_, ?_, ?_⟩
  · rw [hother l (by omega) (by omega)]
    exact h.above l (by omega)
  · obtain ⟨p, hroot, hindex, hp⟩ := h.root
    have htarget := htargets 0 (Nat.succ_ne_zero L).symm
    rw [hroot] at htarget
    obtain ⟨p', r, hroot', htarget', hr⟩ := cons_of_map_eq htarget
    obtain rfl := map_eq_nil_iff.1 hr
    refine ⟨p', hroot', (target_eq htarget').1.trans hindex, .inl ?_⟩
    have hqueued : Queued N H x 0 p := by
      rcases hp with hp | ⟨rfl, -⟩
      · exact hp
      · rw [hroot] at hcons
        obtain ⟨rfl, -⟩ := List.cons.inj hcons
        exact hwp
    exact hqueued.congr htarget' hs.lc (by rw [hs.tree])
  · by_cases hl : l = L + 1
    · rw [hl, hbelow]
      exact hnodup
    · rw [map_index_of_map_target (htargets l hl)]
      exact h.nodup l
  · rcases eq_or_lt_of_le (Nat.le_of_lt_succ hl) with rfl | hlt
    · exact ⟨wp', q, t, htop, hexp⟩
    · obtain ⟨wp'', q'', t'', hcons'', hexp''⟩ := h.path l hlt
      refine ⟨wp'', q'', t'', (hother l hlt.ne (by omega)).trans hcons'', ?_⟩
      exact hexp''.congr rfl (htargets (l + 1) (by omega)) fun j => by rw [hs.tree]
  · by_cases hlL : l = L + 1
    · rw [hlL, hbelow] at hp
      rw [hlL]
      exact hqs p hp
    · obtain ⟨p', hp', htarget'⟩ := exists_of_map_eq (htargets l hlL) hp
      exact (h.queued l hl p' hp').congr htarget'.symm hs.lc (by rw [hs.tree])
  · rw [hs.tree]
    refine h.tree.mono fun l i hpath => ?_
    by_cases hlL : l = L + 1
    · obtain ⟨p, r, hcons', -⟩ := hpath
      rw [hlL, h.above _ L.lt_succ_self] at hcons'
      cases hcons'
    · exact hpath.congr (htargets l hlL)
  · exact h.own.congr hs

/-- **A later checkpoint** is fetched of the partition at work. -/
theorem Walk.retarget (h : Walk N H X L x) (hcons : x.stalep L = wp :: q) (hs : SameState x y)
    (hindex : wp'.index = wp.index) (hle : wp.c ≤ wp'.c) (hwp : Queued N H y L wp')
    (hstalep : y.stalep = update x.stalep L (wp' :: q)) : Walk N H X L y := by
  have htop : y.stalep L = wp' :: q := by rw [hstalep, update_self]
  have hother : ∀ l, l ≠ L → y.stalep l = x.stalep l := by
    intro l hl
    rw [hstalep, update_of_ne hl]
  have hindices : ∀ l, (y.stalep l).map FPart.index = (x.stalep l).map FPart.index := by
    intro l
    by_cases hl : l = L
    · rw [hl, htop, hcons, map_cons, hindex, map_cons]
    · rw [hother l hl]
  refine ⟨hs.nb.trans h.blocks, h.level, fun l hl => ?_, ?_, fun l => ?_, fun l hl => ?_,
    fun l hl p hp => ?_, ?_, ?_⟩
  · rw [hother l (by omega)]
    exact h.above l hl
  · obtain ⟨p, hroot, hp0, hp⟩ := h.root
    by_cases hL : L = 0
    · subst hL
      rw [hroot] at hcons
      obtain ⟨rfl, rfl⟩ := List.cons.inj hcons
      exact ⟨wp', htop, hindex.trans hp0, .inl hwp⟩
    · refine ⟨p, (hother 0 (Ne.symm hL)).trans hroot, hp0, .inl ?_⟩
      exact (hp.resolve_right fun hp => hL hp.1).congr rfl hs.lc (by rw [hs.tree])
  · rw [hindices l]
    exact h.nodup l
  · obtain ⟨wp₁, q₁, t₁, hcons₁, hexp⟩ := h.path l hl
    refine ⟨wp₁, q₁, t₁, (hother l hl.ne).trans hcons₁, hexp.tree, hexp.digest, hexp.lm_le,
      hexp.lm_eq, fun j hj => ?_, fun p hp => ?_⟩
    · rw [hs.tree]
      refine (hexp.below j hj).imp_left fun hmem => ?_
      obtain ⟨p, hp, hpj⟩ := hmem
      obtain ⟨p', hp', hindex'⟩ := exists_of_map_eq (hindices (l + 1)).symm hp
      exact ⟨p', hp', hindex'.trans hpj⟩
    · by_cases hlL : l + 1 = L
      · rw [hlL, htop] at hp
        have hold : ∀ p ∈ wp :: q, p.index ∈ children nb l wp₁.index ∧ wp₁.c ≤ p.c := by
          rw [← hcons, ← hlL]
          exact hexp.queue
        rcases mem_cons.1 hp with rfl | hp
        · obtain ⟨hmem, hc⟩ := hold wp mem_cons_self
          exact ⟨hindex ▸ hmem, hc.trans hle⟩
        · exact hold p (mem_cons_of_mem wp hp)
      · rw [hother _ hlL] at hp
        exact hexp.queue p hp
  · by_cases hlL : l = L
    · rw [hlL, htop] at hp
      rw [hlL]
      rcases mem_cons.1 hp with rfl | hp
      · exact hwp
      · refine (h.queued L (hlL ▸ hl) p ?_).congr rfl hs.lc (by rw [hs.tree])
        exact hcons ▸ mem_cons_of_mem wp hp
    · rw [hother l hlL] at hp
      exact (h.queued l hl p hp).congr rfl hs.lc (by rw [hs.tree])
  · rw [hs.tree]
    refine h.tree.mono fun l i hpath => ?_
    obtain ⟨p, r, hcons', hp⟩ := hpath
    by_cases hlL : l = L
    · subst hlL
      rw [hcons] at hcons'
      obtain ⟨rfl, rfl⟩ := List.cons.inj hcons'
      exact ⟨wp', q, htop, hindex.trans hp⟩
    · exact ⟨p, r, (hother l hlL).trans hcons', hp⟩
  · exact h.own.congr hs

end Walk

end Fetcher

end AbstractBFT.Pbft
