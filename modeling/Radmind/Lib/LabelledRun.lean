import Mathlib.Data.List.Induction

/-!
# Runs of a labelled step function

A step takes a state by a label to the next one, or is not possible there.  A run is a list
of labels, and what each step preserves holds behind every run, also where it speaks about
the labels of the run.
-/

namespace LabelledRun

variable {S E : Type}

/-- The state behind a list of steps. -/
def run (step : S → E → Option S) : S → List E → Option S
  | s, [] => some s
  | s, e :: events => (step s e).bind fun s' => run step s' events

variable {step : S → E → Option S}

theorem run_append (s : S) (events events' : List E) :
    run step s (events ++ events') = (run step s events).bind fun s' => run step s' events' := by
  induction events generalizing s with
  | nil => rfl
  | cons e events ih =>
    rw [List.cons_append, run, run, Option.bind_assoc]
    congr 1
    funext s'
    exact ih s'

theorem run_concat (s : S) (events : List E) (e : E) :
    run step s (events ++ [e]) = (run step s events).bind fun s' => step s' e := by
  rw [run_append]
  congr 1
  funext s'
  exact Option.bind_fun_some (step s' e)

/-- Behind a last step there was a run up to it. -/
theorem run_concat_eq_some {s s'' : S} {events : List E} {e : E}
    (h : run step s (events ++ [e]) = some s'') :
    ∃ s', run step s events = some s' ∧ step s' e = some s'' := by
  rw [run_concat] at h
  exact Option.bind_eq_some_iff.mp h

/-- What holds at the start and is kept by every step holds behind every run. -/
theorem run_invariant {P : List E → S → Prop} {s : S} (hstart : P [] s)
    (hstep : ∀ events s e s', P events s → step s e = some s' → P (events ++ [e]) s')
    {events : List E} {s' : S} (h : run step s events = some s') : P events s' := by
  induction events using List.reverseRecOn generalizing s' with
  | nil => exact Option.some.inj h ▸ hstart
  | append_singleton events e ih =>
    obtain ⟨s₁, hrun, hlast⟩ := run_concat_eq_some h
    exact hstep events s₁ e s' (ih hrun) hlast

/-- A step with a guard that was made. -/
theorem of_guard {c : Prop} [Decidable c] {s s' : S} (h : (if c then some s else none) = some s') :
    c ∧ s = s' := by
  by_cases hc : c
  · rw [if_pos hc] at h
    exact ⟨hc, Option.some.inj h⟩
  · rw [if_neg hc] at h
    cases h

end LabelledRun
