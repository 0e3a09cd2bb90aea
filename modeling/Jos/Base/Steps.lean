/-
# Runs of a machine and what holds along them

A machine is a function `step` from an event and a state to the next state. An
event that is not enabled leaves the state as it is, so a run is any list of
events: every interleaving of the parties is one of them.

`exec_invariant` is the induction: what one step keeps, a run keeps. Where a
step keeps it only under a condition on the event and the state it is taken in,
`exec_invariant_of` needs the condition at every step of the run
(`Throughout`).

Where an event of one machine does some operations of another, a run does their
list (`trace`), and `exec_simulates` is the same induction for a relation
between the two.
-/
import Mathlib.Logic.Basic
import Mathlib.Data.List.Basic

namespace Jos

variable {ε σ ο τ : Type}

/-- The state after the events `es`. -/
def exec (step : ε → σ → σ) : List ε → σ → σ
  | [], s => s
  | e :: es, s => exec step es (step e s)

/-- Each event of the run meets `C` in the state it is taken in. -/
def Throughout (step : ε → σ → σ) (C : ε → σ → Prop) : List ε → σ → Prop
  | [], _ => True
  | e :: es, s => C e s ∧ Throughout step C es (step e s)

instance Throughout.decidable (step : ε → σ → σ) (C : ε → σ → Prop) [∀ e s, Decidable (C e s)] :
    ∀ es s, Decidable (Throughout step C es s)
  | [], _ => .isTrue trivial
  | e :: es, s => @instDecidableAnd _ _ _ (Throughout.decidable step C es (step e s))

/-- The operations that a run does, where the event `e` does `ops e s` in state `s`. -/
def trace (step : ε → σ → σ) (ops : ε → σ → List ο) : List ε → σ → List ο
  | [], _ => []
  | e :: es, s => ops e s ++ trace step ops es (step e s)

variable {step : ε → σ → σ} {C : ε → σ → Prop} {I : σ → Prop}

theorem exec_append : ∀ (es es' : List ε) (s : σ),
    exec step (es ++ es') s = exec step es' (exec step es s)
  | [], _, _ => rfl
  | e :: es, es', s => exec_append es es' (step e s)

/-- What a step keeps under `C`, a run keeps that meets `C` throughout. -/
theorem exec_invariant_of (hstep : ∀ e s, I s → C e s → I (step e s)) :
    ∀ (es : List ε) {s : σ}, I s → Throughout step C es s → I (exec step es s)
  | [], _, h, _ => h
  | e :: es, s, h, hC => exec_invariant_of hstep es (hstep e s h hC.1) hC.2

/-- What every step keeps, every run keeps. -/
theorem exec_invariant (hstep : ∀ e s, I s → I (step e s)) :
    ∀ (es : List ε) {s : σ}, I s → I (exec step es s)
  | [], _, h => h
  | e :: es, s, h => exec_invariant hstep es (hstep e s h)

/-- What relates each event to its operations relates each run to its trace. -/
theorem exec_simulates {ops : ε → σ → List ο} {act : ο → τ → τ} {R : σ → τ → Prop}
    (hstep : ∀ e s t, R s t → R (step e s) (exec act (ops e s) t)) :
    ∀ (es : List ε) {s : σ} {t : τ}, R s t → R (exec step es s) (exec act (trace step ops es s) t)
  | [], _, _, h => h
  | e :: es, s, t, h => by
    rw [trace, exec_append]
    exact exec_simulates hstep es (hstep e s t h)

end Jos
