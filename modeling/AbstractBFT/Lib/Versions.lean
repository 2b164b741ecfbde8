import Mathlib.Data.List.Basic
import Mathlib.Data.List.Sort
import Mathlib.Logic.Function.Basic
/-!
# Versions kept as differences

A map whose older contents stay readable. Taking a version copies nothing:
it opens an empty record, and until the next version is taken the record
gets a copy of each key before the key is written for the first time. What a
version holds is read by laying the records over the contents, the newest
one first (`versions`); no write, new record or restore changes that. Reading
one key goes the other way, from the version's own record to newer ones, and
takes the first copy it meets (`versions_getElem`).
-/

namespace Versions

open List

variable {K V : Type*}

/-- The contents `m` with the copies of a record laid over them. -/
def overlay (r : K → Option V) (m : K → V) : K → V := fun k => (r k).getD (m k)

/-- What the versions hold, newest first, from their records and the
contents. -/
def versions : List (K → Option V) → (K → V) → List (K → V)
  | [], _ => []
  | r :: rs, m => overlay r m :: versions rs (overlay r m)

@[simp] theorem overlay_none (m : K → V) : overlay (fun _ => none) m = m := rfl

/-- A new version holds the contents. -/
theorem versions_mark (rs : List (K → Option V)) (m : K → V) :
    versions ((fun _ => none) :: rs) m = m :: versions rs m := rfl

variable {r : K → Option V} {m m' : K → V} {α β : Type*} {l : List α} {f : α → Option β}

/-- The newest record matters through what it shows. -/
theorem versions_congr {r' : K → Option V} (h : overlay r' m' = overlay r m)
    (rs : List (K → Option V)) : versions (r' :: rs) m' = versions (r :: rs) m := by
  simp only [versions, h]

/-- Copying a key shows nothing new. -/
theorem overlay_save [DecidableEq K] (r : K → Option V) (m : K → V) (k : K) :
    overlay (Function.update r k (some (overlay r m k))) m = overlay r m := by
  funext k'
  by_cases hk : k' = k
  · subst hk
    rw [overlay, Function.update_self, Option.getD_some]
  · rw [overlay, Function.update_of_ne hk, overlay]

/-- Writing keys that were copied shows nothing new. -/
theorem overlay_write (h : ∀ k, r k = none → m' k = m k) : overlay r m' = overlay r m := by
  funext k
  rw [overlay, overlay]
  cases hk : r k with
  | none => rw [Option.getD_none, Option.getD_none, h k hk]
  | some v => rfl

/-- Dropping old records drops their versions. -/
theorem versions_take (rs : List (K → Option V)) (m : K → V) (j : ℕ) :
    versions (rs.take j) m = (versions rs m).take j := by
  induction rs generalizing m j with
  | nil => simp [versions]
  | cons r rs ih =>
    cases j with
    | zero => rfl
    | succ j => simp only [take_succ_cons, versions, ih]

/-- **Reading a key of a version**: the first copy in its own record and the
newer ones, oldest first, or what the key holds now. -/
theorem versions_getElem {rs : List (K → Option V)} {j : ℕ} {v : K → V}
    (h : (versions rs m)[j]? = some v) (k : K) :
    v k = ((rs.take (j + 1)).reverse.findSome? fun r => r k).getD (m k) := by
  induction rs generalizing m j with
  | nil => cases h
  | cons r rs ih =>
    cases j with
    | zero =>
      obtain rfl := Option.some.inj h
      rw [take_succ_cons, take_zero, reverse_singleton, findSome?_singleton,
        overlay]
    | succ j =>
      rw [ih h, take_succ_cons, reverse_cons, findSome?_append,
        findSome?_singleton, overlay]
      cases (rs.take (j + 1)).reverse.findSome? fun r => r k <;> rfl

/-- Records without a copy do not matter to a search. -/
theorem findSome?_filter {p : α → Bool} (h : ∀ a ∈ l, p a = false → f a = none) :
    (l.filter p).findSome? f = l.findSome? f := by
  induction l with
  | nil => rfl
  | cons a l ih =>
    have hrest := ih fun b hb => h b (mem_cons_of_mem a hb)
    cases hp : p a with
    | true => rw [filter_cons_of_pos hp, findSome?_cons, findSome?_cons, hrest]
    | false =>
      rw [filter_cons_of_neg (by rw [hp]; exact Bool.false_ne_true), hrest,
        findSome?_cons, h a mem_cons_self hp]

theorem findSome?_congr {g : α → Option β} (h : ∀ a ∈ l, f a = g a) :
    l.findSome? f = l.findSome? g := by
  induction l with
  | nil => rfl
  | cons a l ih =>
    rw [findSome?_cons, findSome?_cons, h a mem_cons_self,
      ih fun b hb => h b (mem_cons_of_mem a hb)]

end Versions
