import Mathlib.Data.List.Basic
import Mathlib.Tactic.Common
/-!
# Runs of an event-driven machine

A machine is a step function `step : σ → ε → σ` that takes one event at a
time; whatever a run does not determine (which message arrives, which
thread moves) is part of the event. `Guarded` says that every event of a
run meets a condition in the state it is taken in, and
`Guarded.invariant` is the induction every safety result goes through.
-/

theorem List.mem_concat_iff {α : Type*} {a b : α} {l : List α} : a ∈ l ++ [b] ↔ a ∈ l ∨ a = b := by
  rw [List.mem_append, List.mem_singleton]

namespace Machine

variable {σ ε : Type*} {step : σ → ε → σ} {ok ok' : σ → ε → Prop}

/-- The state reached from `s` on the events `es`. -/
def exec (step : σ → ε → σ) (s : σ) (es : List ε) : σ := es.foldl step s

@[simp] theorem exec_nil (s : σ) : exec step s [] = s := rfl

@[simp] theorem exec_cons (s : σ) (e : ε) (es : List ε) :
    exec step s (e :: es) = exec step (step s e) es := rfl

theorem exec_append (s : σ) (es es' : List ε) :
    exec step s (es ++ es') = exec step (exec step s es) es' :=
  List.foldl_append ..

/-- Every event of the run meets `ok` in the state it is taken in. -/
def Guarded (step : σ → ε → σ) (ok : σ → ε → Prop) : σ → List ε → Prop
  | _, [] => True
  | s, e :: es => ok s e ∧ Guarded step ok (step s e) es

instance Guarded.instDecidable [∀ s e, Decidable (ok s e)] :
    ∀ s es, Decidable (Guarded step ok s es)
  | _, [] => isTrue trivial
  | s, e :: es =>
    have := Guarded.instDecidable (step s e) es
    inferInstanceAs (Decidable (ok s e ∧ Guarded step ok (step s e) es))

variable {s : σ} {es : List ε} {I : σ → Prop}

theorem guarded_append {es' : List ε} :
    Guarded step ok s (es ++ es') ↔
      Guarded step ok s es ∧ Guarded step ok (exec step s es) es' := by
  induction es generalizing s with
  | nil => simp [Guarded]
  | cons e es ih => simp [Guarded, ih, and_assoc]

/-- A run is guarded if its events are, each after those before it. -/
theorem guarded_iff_forall_prefix :
    Guarded step ok s es ↔ ∀ l e, l ++ [e] <+: es → ok (exec step s l) e := by
  induction es generalizing s with
  | nil => simp [Guarded]
  | cons a es ih =>
    rw [Guarded, ih]
    constructor
    · rintro ⟨ha, h⟩ l e hl
      cases l with
      | nil =>
        obtain rfl := (List.cons_prefix_cons.1 hl).1
        exact ha
      | cons b l =>
        obtain ⟨rfl, hrest⟩ := List.cons_prefix_cons.1 hl
        exact h l e hrest
    · intro h
      refine ⟨h [] a (by simp), fun l e hl => ?_⟩
      exact h (a :: l) e (List.cons_prefix_cons.2 ⟨rfl, hl⟩)

theorem guarded_of_forall_take (h : ∀ k (hk : k < es.length), ok (exec step s (es.take k)) es[k]) :
    Guarded step ok s es := by
  induction es generalizing s with
  | nil => trivial
  | cons e es ih =>
    exact ⟨h 0 (Nat.succ_pos _), ih fun k hk => h (k + 1) (Nat.succ_lt_succ hk)⟩

/-- A condition on the events alone. -/
theorem Guarded.of_forall_mem {p : ε → Prop} (h : ∀ e ∈ es, p e) (s : σ) :
    Guarded step (fun _ e => p e) s es := by
  induction es generalizing s with
  | nil => trivial
  | cons e es ih =>
    exact ⟨h e List.mem_cons_self, ih (fun e' he' => h e' (List.mem_cons_of_mem _ he')) _⟩

theorem Guarded.mono (h : ∀ s e, ok s e → ok' s e) (hg : Guarded step ok s es) :
    Guarded step ok' s es := by
  induction es generalizing s with
  | nil => trivial
  | cons e es ih => exact ⟨h s e hg.1, ih hg.2⟩

theorem Guarded.forall_mem {p : ε → Prop} (h : Guarded step (fun _ e => p e) s es) :
    ∀ e ∈ es, p e := by
  induction es generalizing s with
  | nil => simp
  | cons e es ih => exact List.forall_mem_cons.2 ⟨h.1, ih h.2⟩

/-- A run of events that carry more than the machine reads. -/
theorem guarded_map {δ : Type*} {g : δ → ε} {ds : List δ} :
    Guarded step ok s (ds.map g) ↔ Guarded (fun s d => step s (g d)) (fun s d => ok s (g d)) s ds := by
  induction ds generalizing s with
  | nil => exact Iff.rfl
  | cons d ds ih => exact and_congr_right fun _ => ih

theorem Guarded.and (h : Guarded step ok s es) (h' : Guarded step ok' s es) :
    Guarded step (fun s e => ok s e ∧ ok' s e) s es := by
  induction es generalizing s with
  | nil => trivial
  | cons e es ih => exact ⟨⟨h.1, h'.1⟩, ih h.2 h'.2⟩

/-- **The invariant rule.** What one guarded step keeps, a guarded run
keeps. -/
theorem Guarded.invariant (hstep : ∀ s e, I s → ok s e → I (step s e)) (hs : I s)
    (hg : Guarded step ok s es) : I (exec step s es) := by
  induction es generalizing s with
  | nil => exact hs
  | cons e es ih => exact ih (hstep s e hs hg.1) hg.2

/-- What a guarded step shows, under an invariant that it keeps, all steps
of a guarded run show. -/
theorem Guarded.weaken (hstep : ∀ s e, I s → ok s e → I (step s e) ∧ ok' s e)
    (hg : Guarded step ok s es) (hs : I s) : Guarded step ok' s es := by
  induction es generalizing s with
  | nil => trivial
  | cons e es ih =>
    obtain ⟨hnext, hok⟩ := hstep s e hs hg.1
    exact ⟨hok, ih hg.2 hnext⟩

/-- What every step keeps, every run keeps. -/
theorem exec_invariant (hstep : ∀ s e, I s → I (step s e)) (hs : I s) (es : List ε) :
    I (exec step s es) := by
  induction es generalizing s with
  | nil => exact hs
  | cons e es ih => exact ih (hstep s e hs)

/-- **The simulation rule.** Two machines that take the same events stay
related if a step keeps them so. -/
theorem exec_simulation {τ : Type*} {step' : τ → ε → τ} {R : σ → τ → Prop}
    (hstep : ∀ s t e, R s t → R (step s e) (step' t e)) {t : τ} (h : R s t) (es : List ε) :
    R (exec step s es) (exec step' t es) := by
  induction es generalizing s t with
  | nil => exact h
  | cons e es ih => exact ih (hstep s t e h)

/-- **The simulation rule for guarded runs.** -/
theorem Guarded.simulation {τ : Type*} {step' : τ → ε → τ} {R : σ → τ → Prop}
    (hstep : ∀ s t e, R s t → ok s e → R (step s e) (step' t e)) {t : τ} (h : R s t)
    (hg : Guarded step ok s es) : R (exec step s es) (exec step' t es) := by
  induction es generalizing s t with
  | nil => exact h
  | cons e es ih => exact ih (hstep s t e h hg.1) hg.2

/-- **The exactness rule.** If a step keeps `Q` exactly when it meets `ok`,
a run keeps `Q` exactly when it is guarded. The invariant is for the states
the steps are taken in. -/
theorem exec_iff_guarded {Q : σ → Prop} (hI : ∀ s e, I s → I (step s e))
    (hQ : ∀ s e, I s → (Q (step s e) ↔ Q s ∧ ok s e)) (hs : I s) (es : List ε) :
    Q (exec step s es) ↔ Q s ∧ Guarded step ok s es := by
  induction es generalizing s with
  | nil => simp [Guarded]
  | cons e es ih => rw [exec_cons, ih (hI s e hs), hQ s e hs, Guarded, and_assoc]

end Machine
