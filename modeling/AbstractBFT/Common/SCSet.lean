import Mathlib.Data.List.Basic
import Mathlib.Data.List.Count
import Mathlib.Data.List.Induction
import Mathlib.Data.List.Nodup
import Mathlib.Tactic.Common
/-!
# The counting set

`SCSet` of `protocols/common`: a bounded set that keeps its elements in
the order they came and counts how often each was stored. The smashers
vote with it, one set for each position of the abort histories.
`mem_elems_storeAll` says what is in a set with room for everything that
was stored, and `fetchMajority_eq_some` decides a vote.
-/

namespace AbstractBFT

open List

variable {α : Type*} [DecidableEq α]

/-- `SCSet`: the elements with their counters, at most `max_size` of
them. -/
structure SCSet (α : Type*) where
  max_size : ℕ
  elems : List (α × ℕ)

/-- One more element, with first occurrences kept. -/
theorem eraseDups_concat (l : List α) (e : α) :
    (l ++ [e]).eraseDups = if e ∈ l then l.eraseDups else l.eraseDups ++ [e] := by
  rw [eraseDups_append]
  by_cases he : e ∈ l
  · simp [he, List.removeAll]
  · simp [he, List.removeAll, eraseDups_cons]

theorem eraseDups_eq_self {l : List α} (h : l.Nodup) : l.eraseDups = l := by
  induction l using List.reverseRecOn with
  | nil => rfl
  | append_singleton l e ih =>
    obtain ⟨hl, -, hdisj⟩ := nodup_append.1 h
    rw [eraseDups_concat, if_neg fun he => hdisj e he e (by simp) rfl, ih hl]

/-- What is found first is a first occurrence. -/
theorem find?_eraseDups (p : α → Bool) (l : List α) : l.eraseDups.find? p = l.find? p := by
  -- from the right: an element that came before is found before
  induction l using List.reverseRecOn with
  | nil => rfl
  | append_singleton l e ih =>
    rw [eraseDups_concat, find?_append]
    by_cases he : e ∈ l
    · rw [if_pos he, ih]
      cases hl : l.find? p with
      | some a => rfl
      | none =>
        have hpe : p e = false := by simpa using find?_eq_none.1 hl e he
        simp [hpe]
    · rw [if_neg he, find?_append, ih]

namespace SCSet

/-- `SCSet(sz)`. -/
def empty (sz : ℕ) : SCSet α := ⟨sz, []⟩

/-- `has`. -/
def has (s : SCSet α) (e : α) : Bool := s.elems.any fun p => p.1 == e

/-- The counters after the one of `e` went up. -/
def bump (e : α) : List (α × ℕ) → List (α × ℕ)
  | [] => []
  | p :: l => if p.1 = e then (p.1, p.2 + 1) :: l else p :: bump e l

/-- `store`: count an element that is there, add one that is not if there
is room. -/
def store (s : SCSet α) (e : α) : SCSet α :=
  if s.has e then { s with elems := bump e s.elems }
  else if s.elems.length = s.max_size then s
  else { s with elems := s.elems ++ [(e, 1)] }

/-- `store` for every element of a list. -/
def storeAll (s : SCSet α) (l : List α) : SCSet α := l.foldl store s

/-- The first element that was stored at least `k` times. -/
def fetchMajority (s : SCSet α) (k : ℕ) : Option α :=
  (s.elems.find? fun p => k ≤ p.2).map Prod.fst

variable {s : SCSet α} {e : α} {l : List α}

@[simp] theorem storeAll_nil : s.storeAll [] = s := rfl

theorem has_iff : s.has e = true ↔ e ∈ s.elems.map Prod.fst := by
  simp [has]

@[simp] theorem map_fst_bump (e : α) (l : List (α × ℕ)) :
    (bump e l).map Prod.fst = l.map Prod.fst := by
  induction l with
  | nil => rfl
  | cons p l ih =>
    rw [bump]
    split
    · rfl
    · rw [map_cons, map_cons, ih]

/-- Where no element is there twice, it is the counters of `e` that go
up. -/
theorem bump_eq_map {l : List (α × ℕ)} (hnd : (l.map Prod.fst).Nodup) :
    bump e l = l.map fun p => (p.1, if p.1 = e then p.2 + 1 else p.2) := by
  induction l with
  | nil => rfl
  | cons q l ih =>
    obtain ⟨hq, hnd'⟩ := nodup_cons.1 hnd
    rw [bump, map_cons]
    split
    · next hqe =>
      subst hqe
      refine congrArg (_ :: ·) ((map_id l).symm.trans (map_congr_left fun p hp => ?_))
      have hpq : p.1 ≠ q.1 := fun h => hq (h ▸ mem_map_of_mem hp)
      rw [if_neg hpq]
      rfl
    · rw [ih hnd']

/-- What a set holds: no element twice, and the counters are those of the
elements stored so far. -/
structure Counts (s : SCSet α) (l : List α) : Prop where
  nodup : (s.elems.map Prod.fst).Nodup
  mem_iff : ∀ p, p ∈ s.elems ↔ p.2 = l.count p.1 ∧ p.1 ∈ l

namespace Counts

theorem empty (sz : ℕ) : Counts (SCSet.empty sz : SCSet α) [] :=
  ⟨nodup_nil, fun p => by simp [SCSet.empty]⟩

theorem mem_keys (h : Counts s l) : e ∈ s.elems.map Prod.fst ↔ e ∈ l := by
  constructor
  · intro he
    obtain ⟨p, hp, rfl⟩ := mem_map.1 he
    exact ((h.mem_iff p).1 hp).2
  · intro he
    exact mem_map.2 ⟨(e, l.count e), (h.mem_iff _).2 ⟨rfl, he⟩, rfl⟩

/-- An element that is there, or that there is room for, is counted. -/
theorem store (h : Counts s l) (hroom : e ∈ l ∨ s.elems.length < s.max_size) :
    Counts (s.store e) (l ++ [e]) := by
  have hcount : ∀ a, (l ++ [e]).count a = if a = e then l.count a + 1 else l.count a := by
    intro a
    simp only [count_append, count_singleton, beq_iff_eq, @eq_comm _ e]
    split <;> rfl
  unfold SCSet.store
  by_cases he : s.has e
  · rw [if_pos he]
    have hel : e ∈ l := h.mem_keys.1 (has_iff.1 he)
    refine ⟨by simpa using h.nodup, fun p => ?_⟩
    rw [bump_eq_map h.nodup, mem_map, hcount]
    constructor
    · rintro ⟨q, hq, rfl⟩
      obtain ⟨hq₂, hq₁⟩ := (h.mem_iff q).1 hq
      exact ⟨by rw [hq₂], mem_append_left _ hq₁⟩
    · rintro ⟨hp₂, hp₁⟩
      have hp : p.1 ∈ l := by
        rcases mem_append.1 hp₁ with hp | hp
        · exact hp
        · rw [mem_singleton.1 hp]; exact hel
      exact ⟨(p.1, l.count p.1), (h.mem_iff _).2 ⟨rfl, hp⟩, Prod.ext rfl hp₂.symm⟩
  · have hel : e ∉ l := fun h' => he (has_iff.2 (h.mem_keys.2 h'))
    have hlt := hroom.resolve_left hel
    rw [if_neg he, if_neg (by omega)]
    refine ⟨?_, fun p => ?_⟩
    · rw [map_append, map_singleton]
      exact h.nodup.append (nodup_singleton e) (by simpa using mt has_iff.2 he)
    · rw [mem_append, mem_singleton, h.mem_iff, hcount, mem_append,
        mem_singleton]
      by_cases hpe : p.1 = e
      · simp [hpe, hel, Prod.ext_iff, count_eq_zero_of_not_mem]
      · simp [hpe, Prod.ext_iff]

end Counts

@[simp] theorem max_size_store : (s.store e).max_size = s.max_size := by
  unfold store
  split
  · rfl
  · split <;> rfl

theorem length_store_le : (s.store e).elems.length ≤ s.elems.length + 1 := by
  unfold store
  split
  · have hlen : (bump e s.elems).length = s.elems.length := by
      rw [← length_map Prod.fst, map_fst_bump, length_map]
    show (bump e s.elems).length ≤ _
    omega
  · split
    · omega
    · simp

variable {l₀ : List α} {k : ℕ}

/-- **What a set with room holds** after everything in `l` was stored. -/
theorem Counts.storeAll (h : Counts s l₀) (hroom : s.elems.length + l.length ≤ s.max_size) :
    Counts (s.storeAll l) (l₀ ++ l) := by
  induction l generalizing s l₀ with
  | nil => simpa using h
  | cons e l ih =>
    rw [length_cons] at hroom
    have hlen := @length_store_le _ _ s e
    have hnext := ih (h.store (e := e) (.inr (by omega))) (by rw [max_size_store]; omega)
    rw [append_assoc] at hnext
    exact hnext

/-- The set lists its elements in the order they first came. -/
theorem Counts.keys_storeAll (h : Counts s l₀) (hkeys : s.elems.map Prod.fst = l₀.eraseDups)
    (hroom : s.elems.length + l.length ≤ s.max_size) :
    (s.storeAll l).elems.map Prod.fst = (l₀ ++ l).eraseDups := by
  induction l generalizing s l₀ with
  | nil => simpa using hkeys
  | cons e l ih =>
    rw [length_cons] at hroom
    have hlen := @length_store_le _ _ s e
    have hkey : (s.store e).elems.map Prod.fst = (l₀ ++ [e]).eraseDups := by
      rw [eraseDups_concat]
      by_cases he : e ∈ l₀
      · rw [if_pos he, ← hkeys]
        unfold SCSet.store
        rw [if_pos (has_iff.2 (h.mem_keys.2 he))]
        exact map_fst_bump e s.elems
      · rw [if_neg he, ← hkeys]
        unfold SCSet.store
        rw [if_neg fun h' => he (h.mem_keys.1 (has_iff.1 h')), if_neg (by omega)]
        simp
    have hnext := ih (h.store (e := e) (.inr (by omega))) hkey (by rw [max_size_store]; omega)
    rw [append_assoc] at hnext
    exact hnext

/-- **Which element a vote fetches**: the first one stored that was
stored at least `k` times. -/
theorem fetchMajority_eq_find? (h : Counts s l) (hkeys : s.elems.map Prod.fst = l.eraseDups) :
    s.fetchMajority k = l.find? fun e => decide (k ≤ l.count e) := by
  have hcount : s.elems.find? (fun p => decide (k ≤ p.2)) =
      s.elems.find? ((fun e => decide (k ≤ l.count e)) ∘ Prod.fst) := by
    rw [← head?_filter, ← head?_filter]
    refine congrArg List.head? (filter_congr fun p hp => ?_)
    rw [Function.comp_apply, ← ((h.mem_iff p).1 hp).1]
  unfold fetchMajority
  rw [hcount, ← find?_map, hkeys, find?_eraseDups]

/-- **A vote.** The element stored at least `k` times is fetched if no
other one was. -/
theorem fetchMajority_eq_some (h : Counts s l) (he : k ≤ l.count e) (hpos : 0 < k)
    (huniq : ∀ a, k ≤ l.count a → a = e) : s.fetchMajority k = some e := by
  unfold fetchMajority
  have hmem : (e, l.count e) ∈ s.elems :=
    (h.mem_iff _).2 ⟨rfl, count_pos_iff.1 (Nat.lt_of_lt_of_le hpos he)⟩
  have hsome : (s.elems.find? fun p => decide (k ≤ p.2)).isSome := by
    rw [find?_isSome]
    exact ⟨_, hmem, by simpa using he⟩
  obtain ⟨p, hp⟩ := Option.isSome_iff_exists.1 hsome
  have hpk : k ≤ p.2 := by simpa using find?_some hp
  have hpc := ((h.mem_iff p).1 (mem_of_find?_eq_some hp)).1
  rw [hp, Option.map_some, huniq p.1 (by omega)]

/-- What a vote fetches was stored at least `k` times. -/
theorem le_count_of_fetchMajority (h : Counts s l) (he : s.fetchMajority k = some e) :
    k ≤ l.count e := by
  obtain ⟨p, hp, rfl⟩ := Option.map_eq_some_iff.1 he
  have hpk : k ≤ p.2 := by simpa using find?_some hp
  rw [← ((h.mem_iff p).1 (mem_of_find?_eq_some hp)).1]
  exact hpk

end SCSet

end AbstractBFT
