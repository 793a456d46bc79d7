import Mathlib

/-! Lists cut at a separator: the pieces between separators, and the lines that end with one. -/

namespace LibLines

variable {α : Type} {sep c : α} {l u : List α} {ls : List (List α)}

/-- Lines, each with the separator behind it. -/
def unlines (sep : α) (ls : List (List α)) : List α := ls.flatMap (· ++ [sep])

/-- Lines without the separator in them, and a rest. -/
structure Cut (sep : α) (l : List α) (ls : List (List α)) (u : List α) : Prop where
  eq : l = unlines sep ls ++ u
  lines : ∀ x ∈ ls, sep ∉ x
  rest : sep ∉ u

theorem unlines_cons (sep : α) (x : List α) (ls : List (List α)) :
    unlines sep (x :: ls) = x ++ sep :: unlines sep ls := by
  rw [unlines, List.flatMap_cons, List.append_assoc]
  rfl

theorem unlines_append (sep : α) (ls ls' : List (List α)) :
    unlines sep (ls ++ ls') = unlines sep ls ++ unlines sep ls' := List.flatMap_append

theorem Cut.append {v : List α} (h : Cut sep l ls u) (hv : sep ∉ v) : Cut sep (l ++ v) ls (u ++ v) := by
  refine ⟨?_, h.lines, ?_⟩
  · rw [h.eq, List.append_assoc]
  · rw [List.mem_append, not_or]
    exact ⟨h.rest, hv⟩

theorem Cut.trans {more : List α} {ls' : List (List α)} {u' : List α} (h : Cut sep l ls u)
    (h' : Cut sep (u ++ more) ls' u') : Cut sep (l ++ more) (ls ++ ls') u' := by
  refine ⟨?_, List.forall_mem_append.mpr ⟨h.lines, h'.lines⟩, h'.rest⟩
  rw [h.eq, List.append_assoc, h'.eq, unlines_append, List.append_assoc]

theorem Cut.cons {x : List α} (hx : sep ∉ x) (h : Cut sep l ls u) : Cut sep (x ++ sep :: l) (x :: ls) u := by
  refine ⟨?_, List.forall_mem_cons.mpr ⟨hx, h.lines⟩, h.rest⟩
  rw [h.eq, unlines_cons, List.append_assoc]
  rfl

theorem Cut.prepend {v x : List α} (h : Cut sep l (x :: ls) u) (hv : sep ∉ v) : Cut sep (v ++ l) ((v ++ x) :: ls) u := by
  obtain ⟨rfl, hlines, hrest⟩ := h
  rw [List.forall_mem_cons] at hlines
  refine ⟨?_, List.forall_mem_cons.mpr ⟨by simp [hv, hlines.1], hlines.2⟩, hrest⟩
  rw [unlines_cons, unlines_cons]
  simp only [List.append_assoc]

theorem getLast?_unlines (sep : α) (hls : ls ≠ []) : (unlines sep ls).getLast? = some sep := by
  obtain ⟨front, x, rfl⟩ := (List.eq_nil_or_concat ls).resolve_left hls
  rw [List.concat_eq_append, unlines_append, unlines_cons, List.getLast?_append]
  simp [unlines]

theorem Cut.mem_iff (h : Cut sep l ls u) : sep ∈ l ↔ ls ≠ [] := by
  obtain ⟨rfl, -, hrest⟩ := h
  cases ls with
  | nil => simpa [unlines] using hrest
  | cons x ls => simp [unlines_cons]

variable [DecidableEq α]

theorem splitOn_cons (sep c : α) (l : List α) :
    (c :: l).splitOn sep = if c = sep then [] :: l.splitOn sep else (l.splitOn sep).modifyHead (c :: ·) := by
  rw [List.splitOn, List.splitOnP_cons_eq_if_modifyHead]
  simp [List.splitOn]

theorem exists_splitOn (sep : α) (l : List α) : ∃ e es, l.splitOn sep = e :: es :=
  List.exists_cons_of_ne_nil (List.splitOnP_ne_nil _ _)

theorem mem_splitOn (hc : c ≠ sep) : c ∈ l ↔ ∃ e ∈ l.splitOn sep, c ∈ e := by
  induction l with
  | nil => simp
  | cons x l ih =>
    obtain ⟨e, es, hsplit⟩ := exists_splitOn sep l
    rw [List.mem_cons, ih, splitOn_cons, hsplit]
    split_ifs with hx
    · subst hx
      simp [hc]
    · simp [or_assoc]

theorem takeWhile_ne_self (h : c ∉ l) : l.takeWhile (· ≠ c) = l :=
  List.takeWhile_eq_self_iff.mpr fun _ hx => decide_eq_true (ne_of_mem_of_not_mem hx h)

theorem splitOn_append_sep {x : List α} (hx : sep ∉ x) (l : List α) :
    (x ++ sep :: l).splitOn sep = x :: l.splitOn sep := by
  induction x with
  | nil => rw [List.nil_append, splitOn_cons, if_pos rfl]
  | cons c x ih =>
    rw [List.mem_cons, not_or] at hx
    rw [List.cons_append, splitOn_cons, if_neg (Ne.symm hx.1), ih hx.2]
    rfl

theorem append_sep_inj {x y a b : List α} (hx : sep ∉ x) (hy : sep ∉ y) (h : x ++ sep :: a = y ++ sep :: b) : x = y := by
  have hsplit := congrArg (List.splitOn sep) h
  rw [splitOn_append_sep hx, splitOn_append_sep hy] at hsplit
  exact (List.cons.inj hsplit).1

theorem splitOn_self (hu : sep ∉ u) : u.splitOn sep = [u] := by
  induction u with
  | nil => rfl
  | cons c u ih =>
    rw [List.mem_cons, not_or] at hu
    rw [splitOn_cons, if_neg (Ne.symm hu.1), ih hu.2]
    rfl

theorem Cut.splitOn_eq (h : Cut sep l ls u) : l.splitOn sep = ls ++ [u] := by
  obtain ⟨rfl, hlines, hrest⟩ := h
  induction ls with
  | nil => exact splitOn_self hrest
  | cons x ls ih =>
    rw [List.forall_mem_cons] at hlines
    rw [unlines_cons, List.append_assoc, List.cons_append, splitOn_append_sep hlines.1, ih hlines.2]
    rfl

theorem Cut.unique {ls' : List (List α)} {u' : List α} (h : Cut sep l ls u) (h' : Cut sep l ls' u') :
    ls = ls' ∧ u = u' := by
  have heq := h.splitOn_eq.symm.trans h'.splitOn_eq
  exact ⟨List.append_inj_left' heq rfl, (List.cons.inj (List.append_inj_right' heq rfl)).1⟩

theorem exists_cut (sep : α) (l : List α) : ∃ ls u, Cut sep l ls u := by
  induction l with
  | nil => exact ⟨[], [], rfl, by simp, by simp⟩
  | cons c l ih =>
    obtain ⟨ls, u, rfl, hlines, hrest⟩ := ih
    by_cases hc : c = sep
    · subst hc
      exact ⟨[] :: ls, u, rfl, List.forall_mem_cons.mpr ⟨by simp, hlines⟩, hrest⟩
    · cases ls with
      | nil => exact ⟨[], c :: u, rfl, hlines, by simp [Ne.symm hc, hrest]⟩
      | cons x ls =>
        rw [List.forall_mem_cons] at hlines
        refine ⟨(c :: x) :: ls, u, ?_, List.forall_mem_cons.mpr ⟨by simp [Ne.symm hc, hlines.1], hlines.2⟩, hrest⟩
        rw [unlines_cons, unlines_cons]
        rfl

end LibLines
