import Mathlib

/-! Agents that hold locks and wait for locks. A deadlock is a cycle of agents, each of which waits for
a lock that the next one holds. There is none if some measure grows along every edge between waiting
agents; with a lock order, the rank of the lock an agent waits for is such a measure. -/

namespace LibWaits

variable {Agent Lock : Type} {holder : Lock → Option Agent} {wants : Agent → Option Lock}

/-- The first agent waits for a lock that the second one holds. -/
def WaitsFor (holder : Lock → Option Agent) (wants : Agent → Option Lock) (a b : Agent) : Prop :=
  ∃ l, wants a = some l ∧ holder l = some b

def Deadlock (holder : Lock → Option Agent) (wants : Agent → Option Lock) : Prop :=
  ∃ a, Relation.TransGen (WaitsFor holder wants) a a

theorem measure_lt {measure : Agent → Nat}
    (hgrows : ∀ a b c, WaitsFor holder wants a b → WaitsFor holder wants b c → measure a < measure b)
    {a b c : Agent} (hab : Relation.TransGen (WaitsFor holder wants) a b)
    (hbc : WaitsFor holder wants b c) : measure a < measure b := by
  induction hab generalizing c with
  | single h => exact hgrows _ _ _ h hbc
  | tail _ h ih => exact Nat.lt_trans (ih h) (hgrows _ _ _ h hbc)

theorem not_deadlock {measure : Agent → Nat}
    (hgrows : ∀ a b c, WaitsFor holder wants a b → WaitsFor holder wants b c → measure a < measure b) :
    ¬Deadlock holder wants := by
  rintro ⟨a, ha⟩
  obtain ⟨b, hab, -⟩ := Relation.TransGen.head'_iff.mp ha
  exact Nat.lt_irrefl _ (measure_lt hgrows ha hab)

end LibWaits
