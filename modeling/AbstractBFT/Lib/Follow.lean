import Mathlib.Data.List.Infix
import Mathlib.Tactic.Common
/-!
# Logs that follow a log

A server that executes what another one executed, in its order, has a first
part of its log. `concat_upto` is the step: the next entry of the other log
is taken. The entries of a log may be numbered `1, 2, …`; `numbers_concat`
goes on with the numbers, and `num_of_getElem?` reads a place off a number.
-/

namespace Follow

variable {α : Type*} {l L : List α} {a : α} {k : ℕ} {num : α → ℕ}

/-- What a log has at a place, the log it follows has there. -/
theorem getElem?_of_upto (h : l <+: L) (hk : l[k]? = some a) : L[k]? = some a := by
  obtain ⟨t, rfl⟩ := h
  rwa [List.getElem?_append_left (List.getElem?_eq_some_iff.1 hk).1]

/-- **The next entry is taken.** -/
theorem concat_upto (h : l <+: L) (ha : L[l.length]? = some a) : l ++ [a] <+: L := by
  obtain ⟨hlt, hget⟩ := List.getElem?_eq_some_iff.1 ha
  have hnext := List.concat_get_prefix h hlt
  rwa [List.get_eq_getElem, hget] at hnext

theorem numbers_concat (h : l.map num = List.range' 1 l.length) (ha : num a = l.length + 1) :
    (l ++ [a]).map num = List.range' 1 (l ++ [a]).length := by
  rw [List.map_append, h, List.length_append, List.length_singleton, List.range'_concat]
  simp [ha, Nat.add_comm]

theorem num_of_getElem? (h : l.map num = List.range' 1 l.length) (hk : l[k]? = some a) :
    num a = k + 1 := by
  have hlen := (List.getElem?_eq_some_iff.1 hk).1
  have hnum : (l.map num)[k]? = some (num a) := by
    rw [List.getElem?_map, hk]
    rfl
  rw [h, List.getElem?_range' hlen] at hnum
  have := Option.some.inj hnum
  omega

end Follow
