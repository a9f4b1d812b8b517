import Mathlib.Tactic.Common

/-!
# State machines with a log

A machine has initial states and a step function: an action that is possible in a state gives the next state and the
events of the step. A run is a state that is reached, with the log of all events so far, newest first; `ok` restricts
the actions of a run. What holds initially and is kept by every step holds in every run (`Machine.Run.invariant`); a
list of actions that can be executed gives a run, by evaluation (`Machine.Run.exec`).
-/

namespace Bertos

/-- A machine with states `σ`, actions `α` and events `ε`. -/
structure Machine (σ α ε : Type) where
  init : σ → Prop
  step : σ → α → Option (σ × List ε)

namespace Machine

variable {σ α ε : Type}

/-- **Runs** of a machine whose actions are all allowed by `ok`: the state reached, and the log, newest event first. -/
inductive Run (m : Machine σ α ε) (ok : σ → α → Prop) : σ → List ε → Prop
  | init {s : σ} (h : m.init s) : Run m ok s []
  | step {s s' : σ} {log e : List ε} {a : α} (h : Run m ok s log) (hok : ok s a) (hs : m.step s a = some (s', e)) :
      Run m ok s' (e ++ log)

variable {m : Machine σ α ε} {ok ok' : σ → α → Prop} {s : σ} {log : List ε}

/-- **Invariants of runs.** -/
theorem Run.invariant {I : σ → List ε → Prop} (hinit : ∀ s, m.init s → I s [])
    (hstep : ∀ s log a s' e, I s log → ok s a → m.step s a = some (s', e) → I s' (e ++ log)) (h : m.Run ok s log) :
    I s log := by
  induction h with
  | init h => exact hinit _ h
  | step _ hok hs ih => exact hstep _ _ _ _ _ ih hok hs

/-- The state and the log after these actions; `none` when one of them is not possible or not allowed. -/
def exec (m : Machine σ α ε) (ok : σ → α → Prop) [∀ s a, Decidable (ok s a)] (s : σ) (log : List ε) :
    List α → Option (σ × List ε)
  | [] => some (s, log)
  | a :: as => if ok s a then (m.step s a).bind (fun r => m.exec ok r.1 (r.2 ++ log) as) else none

theorem Run.exec [∀ s a, Decidable (ok s a)] (h : m.Run ok s log) {as : List α} {r : σ × List ε}
    (hr : m.exec ok s log as = some r) : m.Run ok r.1 r.2 := by
  induction as generalizing s log with
  | nil =>
    cases hr
    exact h
  | cons a as ih =>
    unfold Machine.exec at hr
    split at hr
    · next hok =>
      obtain ⟨⟨s', e⟩, hs, hr⟩ := Option.bind_eq_some_iff.mp hr
      exact ih (h.step hok hs) hr
    · cases hr

end Machine

end Bertos
