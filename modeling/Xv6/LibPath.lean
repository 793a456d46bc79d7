import Mathlib

/-! Linked lists in a store: stretches along a next-pointer and closed lists. -/

namespace LibPath

open Function

variable {α : Type} {next : α → α} {a b p x : α} {l l₁ l₂ F G : List α}

/-- Each node of the list points to the one behind it. -/
def Linked (next : α → α) (l : List α) : Prop := l.IsChain fun a b => next a = b

/-- A closed list through `a`. -/
def Closed (next : α → α) (a : α) (l : List α) : Prop := Linked next (a :: (l ++ [a]))

theorem linked_singleton (next : α → α) (a : α) : Linked next [a] := List.isChain_singleton a

theorem linked_cons_cons : Linked next (a :: b :: l) ↔ next a = b ∧ Linked next (b :: l) :=
  List.isChain_cons_cons

theorem linked_split : Linked next (l₁ ++ a :: l₂) ↔ Linked next (l₁ ++ [a]) ∧ Linked next (a :: l₂) :=
  List.isChain_split

theorem Linked.next_eq (h : Linked next (p :: (F ++ [b]))) : next p = (F ++ [b]).headD b := by
  cases F with
  | nil => exact (linked_cons_cons.mp h).1
  | cons y F => exact (linked_cons_cons.mp h).1

/-- The nodes before the last point into the list. -/
theorem Linked.next_mem (h : Linked next (p :: (F ++ [b]))) (hx : x ∈ p :: F) : next x ∈ F ++ [b] := by
  induction F generalizing p with
  | nil =>
    rw [List.mem_singleton.mp hx, (linked_cons_cons.mp h).1]
    exact List.mem_singleton_self b
  | cons y F ih =>
    obtain ⟨hnext, hrest⟩ := linked_cons_cons.mp h
    rcases List.mem_cons.mp hx with rfl | hx
    · rw [hnext]
      exact List.mem_cons_self
    · exact List.mem_cons_of_mem _ (ih hrest hx)

/-- From the first node one gets to all of them. -/
theorem Linked.iterate (h : Linked next (a :: l)) (hx : x ∈ a :: l) : ∃ k, next^[k] a = x := by
  induction l generalizing a with
  | nil => exact ⟨0, (List.mem_singleton.mp hx).symm⟩
  | cons b l ih =>
    obtain ⟨hnext, hrest⟩ := linked_cons_cons.mp h
    rcases List.mem_cons.mp hx with rfl | hx
    · exact ⟨0, rfl⟩
    · obtain ⟨k, hk⟩ := ih hrest hx
      refine ⟨k + 1, ?_⟩
      rw [iterate_succ_apply, hnext]
      exact hk

theorem Closed.rotate (h : Closed next a (l₁ ++ b :: l₂)) : Closed next b (l₂ ++ a :: l₁) := by
  have hsplit : Linked next ((a :: l₁) ++ b :: (l₂ ++ [a])) := by
    rw [Closed, List.append_assoc] at h
    exact h
  obtain ⟨h1, h2⟩ := linked_split.mp hsplit
  rw [Closed, List.append_assoc]
  have hjoin : Linked next ((b :: l₂) ++ a :: (l₁ ++ [b])) := linked_split.mpr ⟨h2, h1⟩
  exact hjoin

theorem Closed.exists_from (h : Closed next a l) (hb : b ∈ a :: l) :
    ∃ l', Closed next b l' ∧ (b :: l').Perm (a :: l) := by
  rcases List.mem_cons.mp hb with rfl | hb
  · exact ⟨l, h, .refl _⟩
  · obtain ⟨l₁, l₂, rfl⟩ := List.append_of_mem hb
    refine ⟨l₂ ++ a :: l₁, h.rotate, ?_⟩
    have hperm : ((b :: l₂) ++ (a :: l₁)).Perm ((a :: l₁) ++ (b :: l₂)) := List.perm_append_comm
    exact hperm

/-- Only the pointers of the nodes before the last matter. -/
theorem Linked.congr {next' : α → α} (h : Linked next l) (heq : ∀ x ∈ l.dropLast, next' x = next x) :
    Linked next' l := by
  induction l with
  | nil => exact List.IsChain.nil
  | cons a l ih =>
    cases l with
    | nil => exact linked_singleton _ a
    | cons b l =>
      obtain ⟨hab, hrest⟩ := linked_cons_cons.mp h
      rw [List.dropLast_cons_cons, List.forall_mem_cons] at heq
      exact linked_cons_cons.mpr ⟨heq.1.trans hab, ih hrest heq.2⟩

variable [DecidableEq α]

theorem Linked.update {v : α} (h : Linked next l) (hp : p ∉ l.dropLast) :
    Linked (update next p v) l :=
  h.congr fun _ hx => update_of_ne (ne_of_mem_of_not_mem hx hp) _ _

/-- A node put before the others. -/
theorem Linked.push (h : Linked next (F ++ [b])) (hp : p ∉ F) :
    Linked (Function.update next p ((F ++ [b]).headD b)) (p :: (F ++ [b])) := by
  have hrest : Linked (Function.update next p ((F ++ [b]).headD b)) (F ++ [b]) := by
    apply h.update
    rw [List.dropLast_concat]
    exact hp
  cases F with
  | nil => exact linked_cons_cons.mpr ⟨Function.update_self _ _ _, hrest⟩
  | cons y F => exact linked_cons_cons.mpr ⟨Function.update_self _ _ _, hrest⟩

theorem Linked.relink (h : Linked next (x :: (F ++ [b]))) (hp : p ∉ F) :
    Linked (Function.update next p (next x)) (p :: (F ++ [b])) := by
  rw [h.next_eq]
  exact Linked.push h.tail hp

end LibPath
