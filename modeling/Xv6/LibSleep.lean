import Mathlib

/-! Sleeping on channels. A process sleeps on at most one channel, and a wakeup of a channel ends the sleep
of all processes on it. -/

namespace LibSleep

variable {Proc Chan : Type}

def wakeup [DecidableEq Chan] (c : Chan) (asleep : Proc → Option Chan) : Proc → Option Chan := fun p =>
  if asleep p = some c then none else asleep p

variable {c d : Chan} {asleep : Proc → Option Chan} {p q : Proc}

theorem wakeup_eq_some [DecidableEq Chan] : wakeup c asleep p = some d ↔ asleep p = some d ∧ d ≠ c := by
  unfold wakeup
  by_cases hc : asleep p = some c
  · rw [if_pos hc, hc]
    constructor
    · intro h
      exact absurd h.symm (Option.some_ne_none d)
    · rintro ⟨h, hne⟩
      exact absurd (Option.some.inj h).symm hne
  · rw [if_neg hc]
    constructor
    · intro h
      refine ⟨h, fun hdc => hc ?_⟩
      rw [← hdc]
      exact h
    · exact fun h => h.1

theorem wakeup_ne [DecidableEq Chan] (c : Chan) (asleep : Proc → Option Chan) (p : Proc) : wakeup c asleep p ≠ some c :=
  fun h => (wakeup_eq_some.mp h).2 rfl

theorem wakeup_none [DecidableEq Chan] (h : asleep p = none) : wakeup c asleep p = none := by
  rw [wakeup, h]
  exact if_neg (Option.some_ne_none c).symm

theorem update_eq_some [DecidableEq Proc] : Function.update asleep p (some c) q = some d ↔
    q = p ∧ c = d ∨ q ≠ p ∧ asleep q = some d := by
  by_cases hq : q = p
  · subst hq
    simp
  · rw [Function.update_of_ne hq]
    simp [hq]

theorem update_none_eq_some [DecidableEq Proc] :
    Function.update asleep p none q = some d ↔ q ≠ p ∧ asleep q = some d := by
  by_cases hq : q = p
  · subst hq
    simp
  · rw [Function.update_of_ne hq]
    simp [hq]

end LibSleep
