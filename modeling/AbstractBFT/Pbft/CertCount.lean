import AbstractBFT.Common.KMax
import AbstractBFT.Pbft.MetaDataCert
/-!
# PBFT — what a certificate for a partition counts

The whole of `PBFT_R_Meta_data_cert`, with `last_stables` and the bound `ls`
that is computed from it. Nothing writes `last_stables`, so `ls` remains 0
(`toMetaDataCert_add`), and what is counted is counted as in `MetaDataCert`.

The counts are those of the last messages (`Exact`) until a value loses its
last reporter. Then the loop takes a value from the end of the array and
passes over it, or, where there is none behind it, clears everything before
it.
-/

namespace AbstractBFT.Pbft

open Function Machine List

/-! ## The certificate -/

/-- `PBFT_R_Meta_data_cert`. -/
structure StableCert extends MetaDataCert where
  last_stables : ℕ → ℤ
  ls : ℤ

namespace StableCert

/-- `clear`. -/
def clear (x : StableCert) : StableCert := ⟨x.toMetaDataCert.clear, fun _ => 0, 0⟩

/-- `add`, and what it returns. -/
def add (N : Node) (x : StableCert) (m : MetaDataD) (mine : Bool) : StableCert × Bool :=
  let ls :=
    if x.ls < m.ls then
      (kMax (N.f + 1) ((List.range N.n).map x.last_stables) seqnoMax).getD x.ls
    else x.ls
  let (cert, counted) := x.toMetaDataCert.addAt N x.ls ls m mine
  (⟨cert, x.last_stables, if counted then ls else x.ls⟩, counted)

/-- Nothing has been written to `last_stables`. -/
structure Unwritten (x : StableCert) : Prop where
  last_stables : x.last_stables = fun _ => 0
  ls : x.ls = 0

/-- **`ls` is never computed from anything**, and does not change what is
counted. -/
theorem toMetaDataCert_add {N : Node} {x : StableCert} (h : x.Unwritten) (m : MetaDataD)
    (mine : Bool) :
    (x.add N m mine).1.Unwritten ∧ (x.add N m mine).2 = (x.toMetaDataCert.add N m mine).2 ∧
      (x.add N m mine).1.toMetaDataCert = (x.toMetaDataCert.add N m mine).1 := by
  obtain ⟨cert, last_stables, ls⟩ := x
  obtain ⟨rfl, rfl⟩ := h
  have hls : (if (0 : ℤ) < m.ls then
      (kMax (N.f + 1) ((List.range N.n).map fun _ => (0 : ℤ)) seqnoMax).getD 0 else 0) = 0 := by
    have hzero : ∀ x ∈ (List.range N.n).map fun _ => (0 : ℤ), x = 0 := by
      intro x hx
      obtain ⟨s, -, rfl⟩ := mem_map.1 hx
      rfl
    have hlen : N.f + 1 ≤ ((List.range N.n).map fun _ => (0 : ℤ)).length := by
      rw [length_map, length_range, Node.n]
      omega
    have hall : N.f + 1 ≤ atLeast ((List.range N.n).map fun _ => (0 : ℤ)) 0 := by
      rw [atLeast, countP_eq_length.2 fun x hx => decide_eq_true (hzero x hx).ge]
      exact hlen
    have hrange : ∀ x ∈ (List.range N.n).map fun _ => (0 : ℤ), -1 ≤ x ∧ x < seqnoMax :=
      fun x hx => hzero x hx ▸ (by decide)
    obtain ⟨r, hr, hmem, -⟩ := kMax_kth hrange (Nat.succ_pos _) hlen (.inl hall)
    rw [hr, hzero r hmem]
    exact ite_self _
  rw [add, hls]
  exact ⟨⟨rfl, ite_self _⟩, rfl, rfl⟩

end StableCert

/-! ## Who reports what -/

/-- A value without its count. -/
def PartVal.pair (v : PartVal) : ℤ × Digest := (v.c, v.d)

namespace MetaDataCert

/-- The replicas whose last message reports the digest for the checkpoint. -/
def reporters (n : ℕ) (last : ℕ → Option MetaDataD) (c : ℤ) (d : Digest) : Finset ℕ :=
  (Finset.range n).filter fun s => ∃ m ∈ last s, m.digest c = some d

theorem mem_reporters {n : ℕ} {last : ℕ → Option MetaDataD} {c : ℤ} {d : Digest} {s : ℕ} :
    s ∈ reporters n last c d ↔ s < n ∧ ∃ m, last s = some m ∧ m.digest c = some d := by
  rw [reporters, Finset.mem_filter, Finset.mem_range]
  rfl

section Count

variable {n : ℕ} {last : ℕ → Option MetaDataD} {m : MetaDataD} {c : ℤ} {d : Digest}

/-- The others report what they did. -/
theorem mem_reporters_update {s : ℕ} (hs : s ≠ m.id) :
    s ∈ reporters n (update last m.id (some m)) c d ↔ s ∈ reporters n last c d := by
  rw [mem_reporters, mem_reporters, update_of_ne hs]

theorem self_mem_reporters_update (hid : m.id < n) :
    m.id ∈ reporters n (update last m.id (some m)) c d ↔ m.digest c = some d := by
  rw [mem_reporters, update_self]
  refine ⟨fun h => ?_, fun h => ⟨hid, m, rfl, h⟩⟩
  obtain ⟨-, m', hm', hd⟩ := h
  obtain rfl := Option.some.inj hm'
  exact hd

theorem self_mem_reporters (hid : m.id < n) :
    m.id ∈ reporters n last c d ↔ ∃ m' ∈ last m.id, m'.digest c = some d := by
  rw [mem_reporters]
  exact ⟨fun h => h.2, fun h => ⟨hid, h⟩⟩

theorem reporters_update_erase :
    (reporters n (update last m.id (some m)) c d).erase m.id =
      (reporters n last c d).erase m.id := by
  ext s
  rw [Finset.mem_erase, Finset.mem_erase]
  exact and_congr_right fun hs => mem_reporters_update hs

/-- **Recounting a value** takes its replica's old message back and adds the
new one. -/
theorem count_recount {v : PartVal} (hid : m.id < n)
    (hcount : v.count = (reporters n last v.c v.d).card) :
    (recount (last m.id) m v).count =
      (reporters n (update last m.id (some m)) v.c v.d).card := by
  have hold : (if ∃ m' ∈ last m.id, Reports m' v then v.count - 1 else v.count) =
      ((reporters n last v.c v.d).erase m.id).card := by
    split
    · next hrep =>
      rw [hcount, Finset.card_erase_of_mem ((self_mem_reporters hid).2 hrep)]
      have hpos := Finset.card_pos.2 ⟨_, (self_mem_reporters hid).2 hrep⟩
      omega
    · next hrep =>
      rw [hcount, Finset.erase_eq_of_notMem fun hmem => hrep ((self_mem_reporters hid).1 hmem)]
  rw [recount_count, hold, ← reporters_update_erase]
  split
  · next hrep =>
    have hmem : m.id ∈ reporters n (update last m.id (some m)) v.c v.d :=
      (self_mem_reporters_update hid).2 hrep
    rw [Finset.card_erase_of_mem hmem]
    have hpos := Finset.card_pos.2 ⟨_, hmem⟩
    omega
  · next hrep =>
    rw [Finset.erase_eq_of_notMem fun hmem => hrep ((self_mem_reporters_update hid).1 hmem),
      add_zero]

/-- **The loop over the values**, where none of them is left without a
reporter. -/
theorem scan_eq {N : Node} {om : Option MetaDataD} (vals : List PartVal) (st : Scan)
    (hvals : ∀ v ∈ vals, (recount om m v).count ≠ 0 ∧ 0 ≤ v.c) (hrest : st.rest = vals) :
    let st' := (scanStep N 0 om m)^[vals.length] st
    st'.pre = st.pre ++ vals.map (recount om m) ∧ st'.rest = [] ∧
      (∀ k, k ∈ st'.matched ↔
        k ∈ st.matched ∨ ∃ v ∈ vals, Reports m v ∧ (v.c - m.ls) / checkpointInterval = k) ∧
      (st'.c = st.c ∧ st'.d = st.d ∨
        ∃ v ∈ vals, N.f + 1 ≤ (recount om m v).count ∧ st'.c = v.c ∧ st'.d = v.d) := by
  induction vals generalizing st with
  | nil =>
    refine ⟨(append_nil _).symm, hrest, fun k => ?_, .inl ⟨rfl, rfl⟩⟩
    simp
  | cons v vals ih =>
    obtain ⟨hcount, hc⟩ := hvals v mem_cons_self
    obtain ⟨hrc, hrd⟩ := recount_c om m v
    have hstep : (scanStep N 0 om m st).pre = st.pre ++ [recount om m v] ∧
        (scanStep N 0 om m st).rest = vals ∧
        (∀ k, k ∈ (scanStep N 0 om m st).matched ↔
          k ∈ st.matched ∨ Reports m v ∧ (v.c - m.ls) / checkpointInterval = k) ∧
        ((scanStep N 0 om m st).c = st.c ∧ (scanStep N 0 om m st).d = st.d ∨
          N.f + 1 ≤ (recount om m v).count ∧ (scanStep N 0 om m st).c = v.c ∧
            (scanStep N 0 om m st).d = v.d) := by
      have hmatched : ∀ k, k ∈ (if Reports m v then
          (v.c - m.ls) / checkpointInterval :: st.matched else st.matched) ↔
          k ∈ st.matched ∨ Reports m v ∧ (v.c - m.ls) / checkpointInterval = k := by
        intro k
        split
        · next hrep => simp [hrep, or_comm, eq_comm]
        · next hrep => simp [hrep]
      rw [scanStep, hrest]
      dsimp only
      rw [if_neg (by rw [hrc]; omega)]
      split
      · next hlarge => exact ⟨rfl, rfl, hmatched, .inr ⟨hlarge.1, hrc, hrd⟩⟩
      · exact ⟨rfl, rfl, hmatched, .inl ⟨rfl, rfl⟩⟩
    obtain ⟨hpre, hrest', hmatched, hcd⟩ := hstep
    have hih := ih (scanStep N 0 om m st) (fun w hw => hvals w (mem_cons_of_mem v hw)) hrest'
    rw [length_cons, iterate_succ_apply]
    obtain ⟨hpre', hrest'', hmatched', hcd'⟩ := hih
    refine ⟨?_, hrest'', fun k => ?_, ?_⟩
    · rw [hpre', hpre, map_cons, append_assoc]
      rfl
    · rw [hmatched', hmatched]
      simp only [mem_cons, exists_eq_or_imp, or_assoc]
    · rcases hcd' with ⟨hc', hd'⟩ | ⟨w, hw, hcount', hw'⟩
      · rcases hcd with ⟨hc₀, hd₀⟩ | ⟨hcount', hc₀, hd₀⟩
        · exact .inl ⟨hc'.trans hc₀, hd'.trans hd₀⟩
        · exact .inr ⟨v, mem_cons_self, hcount', hc'.trans hc₀, hd'.trans hd₀⟩
      · exact .inr ⟨w, mem_cons_of_mem v hw, hcount', hw'⟩

theorem mem_newVals (ha : m.Aligned) {matched : List ℤ} {v : PartVal} :
    v ∈ newVals m matched ↔
      m.digest v.c = some v.d ∧ v.count = 1 ∧ (v.c - m.ls) / checkpointInterval ∉ matched := by
  rw [newVals, mem_filterMap]
  constructor
  · rintro ⟨k, hk, hv⟩
    split at hv
    · cases hv
    · next hnot =>
      obtain ⟨d, hd, rfl⟩ := Option.map_eq_some_iff.1 hv
      have hindex : (m.ls + k * checkpointInterval - m.ls) / checkpointInterval = (k : ℤ) := by
        simp only [checkpointInterval]
        omega
      refine ⟨hd, rfl, ?_⟩
      rw [hindex]
      exact hnot
  · rintro ⟨hd, hcount, hnot⟩
    obtain ⟨hdvd, hle, hlt⟩ := MetaDataD.of_digest hd
    rw [MetaDataD.Aligned] at ha
    refine ⟨((v.c - m.ls) / checkpointInterval).toNat, mem_range.2 hlt, ?_⟩
    have hindex : (((v.c - m.ls) / checkpointInterval).toNat : ℤ) =
        (v.c - m.ls) / checkpointInterval := by
      simp only [checkpointInterval]
      omega
    have hc : m.ls + (v.c - m.ls) / checkpointInterval * checkpointInterval = v.c := by
      simp only [checkpointInterval] at *
      omega
    rw [hindex, if_neg hnot, hc, hd, Option.map_some, ← hcount]

theorem nodup_newVals (matched : List ℤ) : ((newVals m matched).map PartVal.pair).Nodup := by
  rw [newVals, map_filterMap]
  refine List.Nodup.filterMap (fun k k' p hk hk' => ?_) nodup_range
  -- the checkpoint tells the index
  have hfst : ∀ k : ℕ, p ∈ Option.map PartVal.pair (if (k : ℤ) ∈ matched then none
      else (m.digest (m.ls + k * checkpointInterval)).map
        fun d => ⟨d, m.ls + k * checkpointInterval, 1⟩) → p.1 = m.ls + k * checkpointInterval := by
    intro k hk
    obtain ⟨v, hv, rfl⟩ := Option.map_eq_some_iff.1 hk
    split at hv
    · cases hv
    · obtain ⟨d, -, rfl⟩ := Option.map_eq_some_iff.1 hv
      rfl
  have heq := (hfst k hk).symm.trans (hfst k' hk')
  simp only [checkpointInterval] at heq
  omega

end Count

/-! ## Exact counts -/

/-- **The counts are those of the last messages**, and no value is missing. -/
structure Exact (N : Node) (cert : MetaDataCert) : Prop where
  last : ∀ s m, cert.last_mdds s = some m → m.id = s ∧ m.Aligned ∧ 0 ≤ m.ls
  nodup : (cert.vals.map PartVal.pair).Nodup
  count : ∀ v ∈ cert.vals, v.count = (reporters N.n cert.last_mdds v.c v.d).card
  pos : ∀ v ∈ cert.vals, (reporters N.n cert.last_mdds v.c v.d).Nonempty
  kept : ∀ c d, (reporters N.n cert.last_mdds c d).Nonempty → (c, d) ∈ cert.vals.map PartVal.pair

theorem exact_clear (N : Node) (cert : MetaDataCert) : Exact N cert.clear := by
  refine ⟨fun s m hm => ?_, nodup_nil, fun v hv => absurd hv not_mem_nil,
    fun v hv => absurd hv not_mem_nil, fun c d h => ?_⟩
  · cases hm
  · obtain ⟨s, hs⟩ := h
    obtain ⟨-, m, hm, -⟩ := mem_reporters.1 hs
    cases hm

/-- What the last message of the replica reported is reported by someone
when this one has taken its place. -/
def Keeps (N : Node) (last : ℕ → Option MetaDataD) (m : MetaDataD) : Prop :=
  ∀ m', last m.id = some m' → ∀ c d, m'.digest c = some d →
    (reporters N.n (update last m.id (some m)) c d).Nonempty

section Take

variable {N : Node} {cert : MetaDataCert} {m : MetaDataD}
variable {matched : List ℤ} {v : PartVal}

/-- A value of the message is new if it was not among those there. -/
theorem mem_newVals_iff (ha : m.Aligned) {vals : List PartVal} (hmatched : ∀ k, k ∈ matched ↔
      ∃ v ∈ vals, Reports m v ∧ (v.c - m.ls) / checkpointInterval = k) :
    v ∈ newVals m matched ↔
      m.digest v.c = some v.d ∧ v.count = 1 ∧ v.pair ∉ vals.map PartVal.pair := by
  rw [mem_newVals ha]
  refine and_congr_right fun hd => and_congr_right fun _ => not_congr ?_
  rw [hmatched, mem_map]
  constructor
  · rintro ⟨w, hw, hrep, hindex⟩
    have hwc : w.c = v.c := by
      obtain ⟨hdvd, hle, -⟩ := MetaDataD.of_digest hd
      obtain ⟨hdvd', hle', -⟩ := MetaDataD.of_digest hrep
      simp only [checkpointInterval] at *
      omega
    rw [Reports, hwc, hd] at hrep
    exact ⟨w, hw, by rw [PartVal.pair, PartVal.pair, hwc, Option.some.inj hrep]⟩
  · rintro ⟨w, hw, hwv⟩
    obtain ⟨hwc, hwd⟩ := Prod.mk.inj hwv
    exact ⟨w, hw, by rw [Reports, hwc, hwd]; exact hd, by rw [hwc]⟩

theorem pair_recount (om : Option MetaDataD) (m : MetaDataD) (v : PartVal) :
    (recount om m v).pair = v.pair := by
  obtain ⟨hrc, hrd⟩ := recount_c om m v
  rw [PartVal.pair, PartVal.pair, hrc, hrd]

variable (h : Exact N cert)

include h

theorem Exact.nonneg (hv : v ∈ cert.vals) : 0 ≤ v.c := by
  obtain ⟨s, hs⟩ := h.pos v hv
  obtain ⟨-, m', hm', hd⟩ := mem_reporters.1 hs
  exact (h.last s m' hm').2.2.trans (MetaDataD.of_digest hd).2.1

variable (hkeeps : Keeps N cert.last_mdds m)

include hkeeps

/-- Nobody's value is lost. -/
theorem Exact.reported (hv : v ∈ cert.vals) :
    (reporters N.n (update cert.last_mdds m.id (some m)) v.c v.d).Nonempty := by
  obtain ⟨s, hs⟩ := h.pos v hv
  by_cases hself : s = m.id
  · subst hself
    obtain ⟨-, m', hm', hd⟩ := mem_reporters.1 hs
    exact hkeeps m' hm' _ _ hd
  · exact ⟨s, (mem_reporters_update hself).2 hs⟩

variable (hid : m.id < N.n) (ha : m.Aligned) (hls : 0 ≤ m.ls)

include hid ha hls

/-- **The values are recounted**, and those that are new are added. -/
theorem Exact.recounted (hmatched : ∀ k, k ∈ matched ↔
      ∃ v ∈ cert.vals, Reports m v ∧ (v.c - m.ls) / checkpointInterval = k) (c : ℤ) (d : Digest)
    (has : Bool) :
    Exact N ⟨update cert.last_mdds m.id (some m),
      cert.vals.map (recount (cert.last_mdds m.id) m) ++ newVals m matched, c, d, has⟩ := by
  have hpairs : (cert.vals.map (recount (cert.last_mdds m.id) m)).map PartVal.pair =
      cert.vals.map PartVal.pair := by
    rw [map_map]
    exact map_congr_left fun v _ => pair_recount _ m v
  -- a new value has no other reporter
  have honly : ∀ v ∈ newVals m matched,
      reporters N.n (update cert.last_mdds m.id (some m)) v.c v.d = {m.id} := by
    intro v hv
    obtain ⟨hd, -, hnot⟩ := (mem_newVals_iff ha hmatched).1 hv
    refine Finset.eq_singleton_iff_unique_mem.2
      ⟨(self_mem_reporters_update hid).2 hd, fun s hs => ?_⟩
    by_contra hne
    exact hnot (h.kept v.c v.d ⟨s, (mem_reporters_update hne).1 hs⟩)
  refine ⟨Entries.forall_write h.last ⟨rfl, ha, hls⟩, ?_, fun v hv => ?_, fun v hv => ?_,
    fun c d hrep => ?_⟩
  · rw [map_append, hpairs]
    refine nodup_append'.2 ⟨h.nodup, nodup_newVals _, fun p hp hp' => ?_⟩
    obtain ⟨v, hv, rfl⟩ := mem_map.1 hp'
    exact ((mem_newVals_iff ha hmatched).1 hv).2.2 hp
  · rcases mem_append.1 hv with hv | hv
    · obtain ⟨w, hw, rfl⟩ := mem_map.1 hv
      obtain ⟨hrc, hrd⟩ := recount_c (cert.last_mdds m.id) m w
      rw [hrc, hrd]
      exact count_recount hid (h.count w hw)
    · rw [honly v hv, ((mem_newVals_iff ha hmatched).1 hv).2.1, Finset.card_singleton]
      rfl
  · rcases mem_append.1 hv with hv | hv
    · obtain ⟨w, hw, rfl⟩ := mem_map.1 hv
      obtain ⟨hrc, hrd⟩ := recount_c (cert.last_mdds m.id) m w
      rw [hrc, hrd]
      exact h.reported hkeeps hw
    · rw [honly v hv]
      exact Finset.singleton_nonempty _
  · rw [map_append, hpairs, mem_append]
    by_cases hold : (c, d) ∈ cert.vals.map PartVal.pair
    · exact .inl hold
    · right
      obtain ⟨s, hs⟩ := hrep
      have hself : s = m.id := by
        by_contra hne
        exact hold (h.kept c d ⟨s, (mem_reporters_update hne).1 hs⟩)
      subst hself
      exact mem_map.2 ⟨⟨d, c, 1⟩, (mem_newVals_iff ha hmatched).2
        ⟨(self_mem_reporters_update hid).1 hs, rfl, hold⟩, rfl⟩

/-- **A message that is counted.** -/
theorem Exact.take (has : Bool) :
    let st := (scanStep N 0 (cert.last_mdds m.id) m)^[cert.vals.length]
      ⟨[], cert.vals, [], cert.c, cert.d⟩
    Exact N ⟨update cert.last_mdds m.id (some m),
        st.pre ++ st.rest ++ newVals m st.matched, st.c, st.d, has⟩ ∧
      (st.c = cert.c ∧ st.d = cert.d ∨ N.f + 1 ≤
        (reporters N.n (update cert.last_mdds m.id (some m)) st.c st.d).card) := by
  have hcount : ∀ v ∈ cert.vals, (recount (cert.last_mdds m.id) m v).count =
      (reporters N.n (update cert.last_mdds m.id (some m)) v.c v.d).card :=
    fun v hv => count_recount hid (h.count v hv)
  have hloop : ∀ v ∈ cert.vals, (recount (cert.last_mdds m.id) m v).count ≠ 0 ∧ 0 ≤ v.c := by
    intro v hv
    have hpos := Finset.card_pos.2 (h.reported hkeeps hv)
    rw [hcount v hv]
    exact ⟨by omega, h.nonneg hv⟩
  obtain ⟨hpre, hrest, hmatched, hcd⟩ :=
    scan_eq (N := N) cert.vals ⟨[], cert.vals, [], cert.c, cert.d⟩ hloop rfl
  generalize (scanStep N 0 (cert.last_mdds m.id) m)^[cert.vals.length]
    ⟨[], cert.vals, [], cert.c, cert.d⟩ = st at *
  dsimp only at hpre hmatched hcd ⊢
  rw [hpre, hrest, nil_append, append_nil]
  refine ⟨h.recounted hkeeps hid ha hls (fun k => ?_) st.c st.d has, ?_⟩
  · rw [hmatched]
    simp
  · refine hcd.imp_right fun hlarge => ?_
    obtain ⟨v, hv, hle, hc, hd⟩ := hlarge
    rw [hcount v hv] at hle
    rw [hc, hd]
    exact_mod_cast hle

end Take

end MetaDataCert

/-! ## Runs -/

namespace StableCert

open MetaDataCert

variable (N : Node)

/-- A call of `add`: the message, and whether it is the replica's own. -/
def step (x : StableCert) (call : MetaDataD × Bool) : StableCert := (x.add N call.1 call.2).1

/-- The message is the replica's own, or verifies. -/
def Taken (call : MetaDataD × Bool) : Prop := call.2 = true ∨ call.1.verify N = true

/-- The last-stable value of the last message of `s`. -/
def stableOf (last : ℕ → Option MetaDataD) (s : ℕ) : ℤ := ((last s).map MetaDataD.ls).getD 0

/-- The last-stable values of the last messages. -/
def stables (last : ℕ → Option MetaDataD) : List ℤ := (List.range N.n).map (stableOf last)

/-- **When the counts stay right**, where the call is not turned away: the
message starts at a multiple of `checkpoint_interval`, the checkpoint after its
last one, where the loop that enters the new values stops, is a `Seqno`, what
the replica's last message reported is still reported by someone, and at most
`f` replicas have got a stable checkpoint after 0. -/
def Steady (x : StableCert) (call : MetaDataD × Bool) : Prop :=
  Taken N call →
    (∀ m', x.last_mdds call.1.id = some m' → m'.lastCheckpoint < call.1.lastCheckpoint) →
    (call.1.Aligned ∧ call.1.lastCheckpoint + checkpointInterval ≤ seqnoMax) ∧
      Keeps N x.last_mdds call.1 ∧
      ((stables N (update x.last_mdds call.1.id (some call.1))).countP fun r =>
        decide (0 < r)) ≤ N.f

/-- The count that is kept for a value. -/
def countOf (x : StableCert) (c : ℤ) (d : Digest) : ℤ :=
  ((x.vals.find? fun v => decide (v.pair = (c, d))).map PartVal.count).getD 0

/-- What holds in a run, if the messages satisfy `P`. -/
structure Counts (P : MetaDataD → Prop) (cert : MetaDataCert) : Prop where
  exact : Exact N cert
  taken : ∀ s m, cert.last_mdds s = some m → P m
  certified : 0 ≤ cert.c → Certified P N cert.c cert.d
  few : ((stables N cert.last_mdds).countP fun r => decide (0 < r)) ≤ N.f

variable {N}

theorem counts_clear (P : MetaDataD → Prop) (cert : MetaDataCert) : Counts N P cert.clear := by
  refine ⟨exact_clear N cert, fun s m hm => ?_,
    fun hc => absurd hc (by decide : ¬ (0 : ℤ) ≤ -1), ?_⟩
  · cases hm
  · refine (countP_eq_zero.2 fun r hr => ?_).trans_le (Nat.zero_le _)
    obtain ⟨s, -, rfl⟩ := mem_map.1 hr
    exact of_decide_eq_false rfl

variable {P : MetaDataD → Prop} {cert : MetaDataCert} {x : StableCert}

theorem Counts.of_has (h : Counts N P cert) (has : Bool) :
    Counts N P { cert with has_my_message := has } :=
  ⟨⟨h.exact.last, h.exact.nodup, h.exact.count, h.exact.pos, h.exact.kept⟩, h.taken, h.certified,
    h.few⟩

theorem Counts.add {m : MetaDataD} {mine : Bool} (h : Counts N P x.toMetaDataCert)
    (hid : N.id < N.n) (hown : mine = true → m.id = N.id ∧ 0 ≤ m.ls) (hP : Taken N (m, mine) → P m)
    (hsteady : x.Steady N (m, mine)) : Counts N P (x.toMetaDataCert.add N m mine).1 := by
  have hcases : ∀ has : Bool, Taken N (m, mine) →
      Counts N P (if ∃ m' ∈ x.last_mdds m.id, m.lastCheckpoint ≤ m'.lastCheckpoint then
        (({ x.toMetaDataCert with has_my_message := has } : MetaDataCert), false)
      else if m.ls < 0 then
        (⟨update x.last_mdds m.id none, x.vals, x.c, x.d, has⟩, false)
      else
        let st := (MetaDataCert.scanStep N 0 (x.last_mdds m.id) m)^[x.vals.length]
          ⟨[], x.vals, [], x.c, x.d⟩
        (⟨update x.last_mdds m.id (some m), st.pre ++ st.rest ++ newVals m st.matched,
          st.c, st.d, has⟩, true)).1 := by
    intro has htaken
    split
    · exact h.of_has has
    · next hfresh =>
      have hlt : m.id < N.n ∧ 0 ≤ m.ls := by
        rcases htaken with hmine | hverify
        · obtain ⟨hself, hls⟩ := hown hmine
          exact ⟨hself ▸ hid, hls⟩
        · obtain ⟨⟨hlt, -⟩, hls, -⟩ := MetaDataD.verify_iff.1 hverify
          exact ⟨hlt, hls⟩
      obtain ⟨⟨ha, -⟩, hkeeps, hfew⟩ := hsteady htaken fun m' hm' =>
        not_le.1 fun hle => hfresh ⟨m', hm', hle⟩
      rw [if_neg (not_lt.2 hlt.2)]
      obtain ⟨hexact, hcd⟩ := h.exact.take hkeeps hlt.1 ha hlt.2 has
      have hlast : ∀ s m', update x.last_mdds m.id (some m) s = some m' → P m' :=
        Entries.forall_write h.taken (hP htaken)
      refine ⟨hexact, hlast, fun hc => ?_, hfew⟩
      rcases hcd with ⟨hceq, hdeq⟩ | hlarge
      · have hold := h.certified (hceq ▸ hc)
        dsimp only
        rw [hceq, hdeq]
        exact hold
      · refine ⟨_, hlarge, fun s hs => ?_⟩
        obtain ⟨-, m', hm', hd⟩ := mem_reporters.1 hs
        exact ⟨m', hlast s m' hm', (hexact.last s m' hm').1, hd⟩
  rw [MetaDataCert.add, addAt]
  cases mine
  · simp only [Bool.false_eq_true, if_false, Bool.false_or]
    split
    · next hverify => exact hcases _ (.inr hverify)
    · exact h
  · simp only [if_true, Bool.true_or]
    exact hcases true (.inl rfl)

/-- The count of a value that is kept. -/
theorem Counts.countOf_eq (h : Counts N P x.toMetaDataCert) (c : ℤ) (d : Digest) :
    x.countOf c d = (reporters N.n x.last_mdds c d).card := by
  rw [countOf]
  cases hfind : x.vals.find? fun v => decide (v.pair = (c, d)) with
  | some v =>
    have hpair : v.pair = (c, d) := by simpa using find?_some hfind
    obtain ⟨hc, hd⟩ := Prod.mk.inj hpair
    have hcount := h.exact.count v (mem_of_find?_eq_some hfind)
    rw [hc, hd] at hcount
    exact hcount
  | none =>
    -- nobody reports it
    have hempty : reporters N.n x.last_mdds c d = ∅ := by
      refine Finset.not_nonempty_iff_eq_empty.1 fun hrep => ?_
      obtain ⟨v, hv, hpair⟩ := mem_map.1 (h.exact.kept c d hrep)
      exact find?_eq_none.1 hfind v hv (decide_eq_true hpair)
    rw [hempty]
    rfl

/-- `ls` is right as long as no more than `f` replicas have got further. -/
theorem Counts.kthLargest (h : Counts N P cert) :
    KthLargest (N.f + 1) (stables N cert.last_mdds) 0 := by
  have hlen : (stables N cert.last_mdds).length = 3 * N.f + 1 := by
    rw [stables, length_map, length_range, Node.n]
  have hall : ∀ r ∈ stables N cert.last_mdds, 0 ≤ r := by
    intro r hr
    obtain ⟨s, -, rfl⟩ := mem_map.1 hr
    rw [stableOf]
    cases hs : cert.last_mdds s with
    | none => exact le_rfl
    | some m => exact (h.exact.last s m hs).2.2
  refine ⟨?_, Nat.lt_succ_of_le h.few, ?_⟩
  · -- otherwise all of them would be after 0
    by_contra hnot
    have hpos := countP_eq_length.2 fun r hr =>
      decide_eq_true (lt_of_le_of_ne (hall r hr) fun heq => hnot (heq ▸ hr))
    have hfew := h.few
    omega
  · rw [atLeast, countP_eq_length.2 fun r hr => decide_eq_true (hall r hr)]
    omega

/-- Four replicas, of which this is the first. -/
def certNode : Node := ⟨1, 0, 4, fun _ => 0, false⟩

def emptyCert : StableCert := ⟨⟨fun _ => none, [], -1, 0, false⟩, fun _ => 0, 0⟩

/-- A message for the root. -/
def report (id : ℕ) (ls : ℤ) (digests : List Digest) : MetaDataD × Bool :=
  (⟨1, ls, 0, 0, digests, digests.length, id, true⟩, false)

end StableCert

end AbstractBFT.Pbft
