import Mathlib

/-! Runs of a step relation. A state is reachable when some run ends in it; a trace also keeps the
states the run went through. Invariants are proved once per step and hold along every run. -/

namespace LibRun

variable {State : Type} {init : State → Prop} {step : State → State → Prop}

/-- The states in which some run from `init` ends. -/
inductive Reachable (init : State → Prop) (step : State → State → Prop) : State → Prop
  | start {s : State} : init s → Reachable init step s
  | next {s t : State} : Reachable init step s → step s t → Reachable init step t

/-- The states of a run, the latest one first. -/
inductive Trace (init : State → Prop) (step : State → State → Prop) : List State → Prop
  | start {s : State} : init s → Trace init step [s]
  | next {s t : State} {past : List State} :
      Trace init step (s :: past) → step s t → Trace init step (t :: s :: past)

theorem Reachable.invariant {P : State → Prop} (hinit : ∀ s, init s → P s)
    (hstep : ∀ s t, Reachable init step s → P s → step s t → P t) {s : State}
    (hs : Reachable init step s) : P s := by
  induction hs with
  | start h => exact hinit _ h
  | next hreach h ih => exact hstep _ _ hreach ih h

theorem Trace.ne_nil {states : List State} (h : Trace init step states) : states ≠ [] := by
  cases h <;> simp

theorem Trace.reachable {states : List State} (h : Trace init step states) :
    ∀ s ∈ states, Reachable init step s := by
  induction h with
  | start h =>
    intro s hs
    rw [List.mem_singleton] at hs
    subst hs
    exact .start h
  | next hpast hst ih =>
    intro s hs
    rcases List.mem_cons.mp hs with rfl | hs
    · exact .next (ih _ (List.mem_cons_self)) hst
    · exact ih s hs

end LibRun
