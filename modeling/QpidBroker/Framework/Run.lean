import Mathlib.Data.List.Basic

/-!
# Runs of a state machine

A machine takes a step on an operation, or is stuck (`none`). `Run step ok`
is a run of it whose steps each meet `ok` in the state before. What every
step that meets `ok` keeps, a run keeps (`Run.keep`). Where `ok` can be
decided, runs are computed (`run_iff_exec`).
-/

namespace QB

variable {S A : Type}

/-- A run from one state to another, whose steps each meet `ok`. -/
inductive Run (step : S → A → Option S) (ok : S → A → Prop) : S → List A → S → Prop
  | nil (s : S) : Run step ok s [] s
  | cons {s t u : S} {a : A} {as : List A} :
    ok s a → step s a = some t → Run step ok t as u → Run step ok s (a :: as) u

namespace Run

variable {step : S → A → Option S} {ok : S → A → Prop}

variable {s u : S} {as : List A}

/-- An invariant of the steps that meet `ok` is one of the runs. -/
theorem keep {I : S → Prop} (hI : ∀ {s a t}, I s → ok s a → step s a = some t → I t)
    (h : Run step ok s as u) (hs : I s) : I u := by
  induction h with
  | nil => exact hs
  | cons ha ht _ ih => exact ih (hI hs ha ht)

/-- An invariant that also speaks of the operations taken so far. -/
theorem keep_ops {I : S → List A → Prop} (hI : ∀ {s a t l}, I s l → ok s a →
    step s a = some t → I t (l ++ [a]))
    {l : List A} (h : Run step ok s as u) (hs : I s l) : I u (l ++ as) := by
  induction h generalizing l with
  | nil => simpa using hs
  | cons ha ht _ ih => simpa using ih (hI hs ha ht)

theorem append {t : S} {bs : List A} (h1 : Run step ok s as t) (h2 : Run step ok t bs u) :
    Run step ok s (as ++ bs) u := by
  induction h1 with
  | nil => exact h2
  | cons ha ht _ ih => exact .cons ha ht (ih h2)

theorem split {bs : List A} (h : Run step ok s (as ++ bs) u) : ∃ t, Run step ok s as t ∧ Run step ok t bs u := by
  induction as generalizing s with
  | nil => exact ⟨s, .nil s, h⟩
  | cons a as ih =>
    cases h with
    | cons ha ht h =>
      obtain ⟨t, has, hbs⟩ := ih h
      exact ⟨t, .cons ha ht has, hbs⟩

end Run

/-- The state a run ends in, if every step can be taken and meets `ok`. -/
def exec (step : S → A → Option S) (ok : S → A → Prop) [∀ s a, Decidable (ok s a)] : S → List A → Option S
  | s, [] => some s
  | s, a :: as => if ok s a then (step s a).bind (exec step ok · as) else none

theorem run_iff_exec {step : S → A → Option S} {ok : S → A → Prop} [∀ s a, Decidable (ok s a)]
    {s u : S} {as : List A} : Run step ok s as u ↔ exec step ok s as = some u := by
  constructor
  · intro h
    induction h with
    | nil => rfl
    | cons ha ht _ ih => rw [exec, if_pos ha, ht]; exact ih
  intro h
  induction as generalizing s with
  | nil => obtain rfl : s = u := by simpa [exec] using h
           exact .nil _
  | cons a as ih =>
    rw [exec] at h
    split at h
    · rename_i ha
      obtain ⟨t, ht, hu⟩ := Option.bind_eq_some_iff.1 h
      exact .cons ha ht (ih hu)
    · simp at h

/-- A run found by computing it, with what is to be known of its last state. -/
theorem exists_run {step : S → A → Option S} {ok : S → A → Prop} [∀ s a, Decidable (ok s a)]
    {s : S} {as : List A}
    {P Q : S → Prop} [DecidablePred Q] (h : (exec step ok s as).any (fun u => decide (Q u)) = true)
    (hP : ∀ u, Run step ok s as u → Q u → P u) : ∃ u, P u := by
  obtain ⟨u, hu, hQ⟩ := (Option.any_eq_true _ _).1 h
  exact ⟨u, hP u (run_iff_exec.2 hu) (of_decide_eq_true hQ)⟩

end QB
