import Mathlib

/-! Singly linked queues in a store: from a first pointer on, each node has a pointer to the next one, and the last has
none. -/

namespace LibQueue

open Function

variable {α : Type} {next next' : α → Option α} {o : Option α} {l : List α} {a b x : α}

/-- The nodes from a pointer on. -/
def Follows (next : α → Option α) : Option α → List α → Prop
  | o, [] => o = none
  | o, a :: l => o = some a ∧ Follows next (next a) l

theorem Follows.head (h : Follows next o l) : o = l.head? := by
  cases l with
  | nil => exact h
  | cons a l => exact h.1

theorem Follows.congr (h : Follows next o l) (heq : ∀ x ∈ l, next' x = next x) : Follows next' o l := by
  induction l generalizing o with
  | nil => exact h
  | cons a l ih =>
    rw [List.forall_mem_cons] at heq
    refine ⟨h.1, ih ?_ heq.2⟩
    rw [heq.1]
    exact h.2

/-- The last node from one on, if it is among the first `fuel`. -/
def last (next : α → Option α) : Nat → α → Option α
  | 0, _ => none
  | fuel + 1, a => (next a).elim (some a) (last next fuel)

theorem Follows.last_eq (h : Follows next (next a) l) {fuel : Nat} (hfuel : l.length < fuel) :
    last next fuel a = some ((a :: l).getLast (List.cons_ne_nil a l)) := by
  induction l generalizing a fuel with
  | nil =>
    cases fuel with
    | zero => exact absurd hfuel (Nat.not_lt_zero _)
    | succ fuel =>
      rw [last, show next a = none from h]
      rfl
  | cons c l ih =>
    cases fuel with
    | zero => exact absurd hfuel (Nat.not_lt_zero _)
    | succ fuel =>
      rw [last, h.1, List.getLast_cons (List.cons_ne_nil c l)]
      exact ih h.2 (Nat.lt_of_succ_lt_succ hfuel)

variable [DecidableEq α]

/-- One more node behind the last one. -/
theorem Follows.snoc (h : Follows next (next a) l) (hnodup : (a :: l).Nodup) (hb : b ∉ a :: l) (hlast : next b = none)
    (hx : x = (a :: l).getLast (List.cons_ne_nil a l)) :
    Follows (update next x (some b)) (update next x (some b) a) (l ++ [b]) := by
  induction l generalizing a with
  | nil =>
    obtain rfl : x = a := hx
    rw [update_self]
    refine ⟨rfl, ?_⟩
    rw [update_of_ne (by simpa using hb)]
    exact hlast
  | cons c l ih =>
    have hlt : x ∈ c :: l := by
      rw [hx, List.getLast_cons (List.cons_ne_nil c l)]
      exact List.getLast_mem _
    have hne : a ≠ x := fun heq => (List.nodup_cons.mp hnodup).1 (heq ▸ hlt)
    rw [update_of_ne hne, h.1]
    refine ⟨rfl, ih h.2 (List.nodup_cons.mp hnodup).2 (fun hin => hb (List.mem_cons_of_mem _ hin)) ?_⟩
    rw [hx, List.getLast_cons (List.cons_ne_nil c l)]

end LibQueue
