import Mathlib

/-! Doubly linked lists in a store: stretches along two pointers, rings through a head, taking a node out, putting one
in front, and searches that follow one of the pointers. -/

namespace LibLinks

open Function

variable {α : Type} {next prev next' prev' : α → α} {a b c head x : α} {l l₁ l₂ : List α}

/-- The nodes of the list are linked one after the other between `a` and `c`, in both directions. -/
def Linked (next prev : α → α) : α → List α → α → Prop
  | a, [], c => next a = c ∧ prev c = a
  | a, x :: l, c => next a = x ∧ prev x = a ∧ Linked next prev x l c

theorem linked_append :
    Linked next prev a (l₁ ++ x :: l₂) c ↔ Linked next prev a l₁ x ∧ Linked next prev x l₂ c := by
  induction l₁ generalizing a with
  | nil =>
    show next a = x ∧ prev x = a ∧ _ ↔ (next a = x ∧ prev x = a) ∧ _
    exact and_assoc.symm
  | cons y l ih =>
    show next a = y ∧ prev y = a ∧ Linked next prev y (l ++ x :: l₂) c ↔ (next a = y ∧ prev y = a ∧ _) ∧ _
    rw [ih, and_assoc, and_assoc]

theorem Linked.reverse (h : Linked next prev a l c) : Linked prev next c l.reverse a := by
  induction l generalizing a with
  | nil => exact ⟨h.2, h.1⟩
  | cons x l ih =>
    rw [List.reverse_cons]
    exact linked_append.mpr ⟨ih h.2.2, h.2.1, h.1⟩

/-- Only the pointers of these nodes matter. -/
theorem Linked.congr (h : Linked next prev a l c) (hnext : ∀ y ∈ a :: l, next' y = next y)
    (hprev : ∀ y ∈ l ++ [c], prev' y = prev y) : Linked next' prev' a l c := by
  induction l generalizing a with
  | nil => exact ⟨(hnext a List.mem_cons_self).trans h.1, (hprev c List.mem_cons_self).trans h.2⟩
  | cons x l ih =>
    refine ⟨(hnext a List.mem_cons_self).trans h.1, (hprev x List.mem_cons_self).trans h.2.1, ?_⟩
    exact ih h.2.2 (fun y hy => hnext y (List.mem_cons_of_mem a hy)) fun y hy => hprev y (List.mem_cons_of_mem x hy)

theorem Linked.next_mem (h : Linked next prev a l c) : next a ∈ l ++ [c] := by
  cases l with
  | nil => exact List.mem_singleton.mpr h.1
  | cons x l =>
    rw [h.1]
    exact List.mem_cons_self

theorem Linked.prev_mem (h : Linked next prev a l c) : prev c ∈ a :: l := by
  have hmem := h.reverse.next_mem
  rw [List.mem_append, List.mem_reverse, List.mem_singleton] at hmem
  exact List.mem_cons.mpr hmem.symm

/-- What follows `a` by `next`, up to the end. -/
theorem Linked.iterate (h : Linked next prev a l c) :
    l = (List.range l.length).map (fun i => next^[i + 1] a) ∧ next^[l.length + 1] a = c := by
  induction l generalizing a with
  | nil => exact ⟨rfl, h.1⟩
  | cons x l ih =>
    obtain ⟨hlist, hend⟩ := ih h.2.2
    rw [List.length_cons, List.range_succ_eq_map, List.map_cons, List.map_map]
    refine ⟨?_, ?_⟩
    · nth_rewrite 1 [hlist]
      rw [← h.1]
      rfl
    · rw [iterate_succ_apply, h.1]
      exact hend

theorem Linked.inverse (h : Linked next prev a l c) (hx : x ∈ a :: l) : prev (next x) = x := by
  induction l generalizing a with
  | nil =>
    rw [List.mem_singleton.mp hx, h.1]
    exact h.2
  | cons y l ih =>
    rcases List.mem_cons.mp hx with rfl | hx
    · rw [h.1]
      exact h.2.1
    · exact ih h.2.2 hx

/-- A ring: from the head through the list back to the head. -/
structure Ring (next prev : α → α) (head : α) (l : List α) : Prop where
  linked : Linked next prev head l head
  nodup : (head :: l).Nodup

theorem Ring.target (h : Ring next prev head l) : (l ++ [head]).Nodup :=
  (List.perm_append_singleton head l).nodup_iff.mpr h.nodup

theorem Ring.inverse (h : Ring next prev head l) (hx : x ∈ head :: l) : prev (next x) = x ∧ next (prev x) = x := by
  refine ⟨h.linked.inverse hx, h.linked.reverse.inverse ?_⟩
  rcases List.mem_cons.mp hx with rfl | hx
  · exact List.mem_cons_self
  · exact List.mem_cons_of_mem head (List.mem_reverse.mpr hx)

variable [DecidableEq α]

/-- A node taken out: its neighbours are linked with each other. -/
theorem Linked.unlink (h : Linked next prev a (l₁ ++ b :: l₂) c) (hsource : (a :: (l₁ ++ b :: l₂)).Nodup)
    (htarget : (l₁ ++ b :: l₂ ++ [c]).Nodup) :
    Linked (update next (prev b) (next b)) (update prev (next b) (prev b)) a (l₁ ++ l₂) c := by
  induction l₁ generalizing a with
  | nil =>
    obtain ⟨-, hb, hrest⟩ := h
    cases l₂ with
    | nil =>
      rw [hrest.1, hb]
      exact ⟨update_self _ _ _, update_self _ _ _⟩
    | cons y l =>
      rw [hrest.1, hb]
      refine ⟨update_self _ _ _, update_self _ _ _, hrest.2.2.congr (fun z hz => ?_) fun z hz => ?_⟩
      · refine update_of_ne (fun heq => ?_) _ _
        rw [heq] at hz
        exact (List.nodup_cons.mp hsource).1 (List.mem_cons_of_mem b hz)
      · refine update_of_ne (fun heq => ?_) _ _
        rw [heq] at hz
        exact (List.nodup_cons.mp (List.nodup_cons.mp htarget).2).1 hz
  | cons y l ih =>
    obtain ⟨hnext, hprev, hrest⟩ := h
    obtain ⟨hleft, hright⟩ := linked_append.mp hrest
    refine ⟨?_, ?_, ih hrest (List.nodup_cons.mp hsource).2 (List.nodup_cons.mp htarget).2⟩
    · rw [update_of_ne, hnext]
      intro heq
      have hmem := hleft.prev_mem
      rw [← heq] at hmem
      exact (List.nodup_cons.mp hsource).1 (List.mem_append_left (b :: l₂) hmem)
    · rw [update_of_ne, hprev]
      intro heq
      have hmem := hright.next_mem
      rw [← heq] at hmem
      have hlater : y ∈ l ++ (b :: l₂ ++ [c]) := List.mem_append_right l (List.mem_cons_of_mem b hmem)
      rw [← List.append_assoc] at hlater
      exact (List.nodup_cons.mp htarget).1 hlater

theorem Ring.unlink (h : Ring next prev head (l₁ ++ b :: l₂)) :
    Ring (update next (prev b) (next b)) (update prev (next b) (prev b)) head (l₁ ++ l₂) := by
  refine ⟨h.linked.unlink h.nodup h.target, ?_⟩
  have hperm : (head :: (l₁ ++ b :: l₂)).Perm (b :: head :: (l₁ ++ l₂)) :=
    (List.perm_middle.cons head).trans (List.Perm.swap b head _)
  exact (List.nodup_cons.mp (hperm.nodup_iff.mp h.nodup)).2

/-- A node put behind the head. -/
theorem Ring.push (h : Ring next prev head l) (hb : b ∉ head :: l) :
    Ring (update (update next b (next head)) head b) (update (update prev b head) (next head) b) head (b :: l) := by
  have hhead : b ≠ head := fun heq => hb (heq ▸ List.mem_cons_self)
  have hnodup : (head :: b :: l).Nodup := by
    have hperm : (head :: b :: l).Perm (b :: head :: l) := List.Perm.swap b head l
    exact hperm.nodup_iff.mpr (List.nodup_cons.mpr ⟨hb, h.nodup⟩)
  refine ⟨?_, hnodup⟩
  have hlinked := h.linked
  cases l with
  | nil =>
    rw [hlinked.1]
    refine ⟨update_self _ _ _, ?_, ?_, update_self _ _ _⟩
    · rw [update_of_ne hhead, update_self]
    · rw [update_of_ne hhead, update_self]
  | cons y l =>
    obtain ⟨hnext, -, hrest⟩ := hlinked
    have hy : b ≠ y := fun heq => hb (heq ▸ List.mem_cons_of_mem head List.mem_cons_self)
    rw [hnext]
    refine ⟨update_self _ _ _, ?_, ?_, update_self _ _ _, hrest.congr (fun z hz => ?_) fun z hz => ?_⟩
    · rw [update_of_ne hy, update_self]
    · rw [update_of_ne hhead, update_self]
    · have hz1 : z ≠ head := fun heq => (List.nodup_cons.mp h.nodup).1 (heq ▸ hz)
      have hz2 : z ≠ b := fun heq => hb (heq ▸ List.mem_cons_of_mem head hz)
      rw [update_of_ne hz1, update_of_ne hz2]
    · have hz1 : z ≠ y := fun heq => (List.nodup_cons.mp h.target).1 (heq ▸ hz)
      have hz2 : z ≠ b := by
        rintro rfl
        rcases List.mem_append.mp hz with hz | hz
        · exact hb (List.mem_cons_of_mem head (List.mem_cons_of_mem y hz))
        · exact hhead (List.mem_singleton.mp hz)
      rw [update_of_ne hz1, update_of_ne hz2]

/-! Searches. -/

/-- Follow a pointer until a node is hit or the list ends; without fuel there is no result. -/
def seek (link : α → α) (stop : α) (hit : α → Bool) : Nat → α → Option (Option α)
  | 0, _ => none
  | fuel + 1, x => if x = stop then some none else if hit x then some (some x) else seek link stop hit fuel (link x)

theorem Linked.seek (h : Linked next prev a l c) (hc : c ∉ l) (hit : α → Bool) {fuel : Nat} (hfuel : l.length < fuel) :
    seek next c hit fuel (next a) = some (l.find? hit) := by
  induction l generalizing a fuel with
  | nil =>
    cases fuel with
    | zero => omega
    | succ fuel => rw [LibLinks.seek, if_pos h.1, List.find?_nil]
  | cons x l ih =>
    cases fuel with
    | zero => omega
    | succ fuel =>
      obtain ⟨hx, -, hrest⟩ := h
      have hne : x ≠ c := fun heq => hc (heq ▸ List.mem_cons_self)
      rw [LibLinks.seek, hx, if_neg hne, List.find?_cons]
      cases hhit : hit x with
      | true => rw [if_pos rfl]
      | false =>
        rw [if_neg Bool.false_ne_true]
        exact ih hrest (fun hmem => hc (List.mem_cons_of_mem x hmem)) (Nat.lt_of_succ_lt_succ hfuel)

theorem Ring.seek_next (h : Ring next prev head l) (hit : α → Bool) {fuel : Nat} (hfuel : l.length < fuel) :
    seek next head hit fuel (next head) = some (l.find? hit) :=
  h.linked.seek (List.nodup_cons.mp h.nodup).1 hit hfuel

theorem Ring.seek_prev (h : Ring next prev head l) (hit : α → Bool) {fuel : Nat} (hfuel : l.length < fuel) :
    seek prev head hit fuel (prev head) = some (l.reverse.find? hit) := by
  have hlength : l.reverse.length < fuel := by
    rw [List.length_reverse]
    exact hfuel
  refine h.linked.reverse.seek (fun hmem => ?_) hit hlength
  exact (List.nodup_cons.mp h.nodup).1 (List.mem_reverse.mp hmem)

end LibLinks
