import Mathlib
import Xv6.LibWord

/-! Ring buffers whose positions are counters that wrap. The buffer has `n` slots, the element at
position `p` is in slot `p % n`, and a position is a 32-bit word, so that `n` divides the number of
words. A window is the stretch of elements from one position on. -/

namespace LibRing

open LibWord Function

variable {α : Type} {n : Nat}

/-- The elements at the `len` positions from `start` on. -/
def window (n : Nat) (slot : Nat → α) (start len : Nat) : List α :=
  (List.range len).map fun i => slot ((start + i) % n)

@[simp] theorem window_zero (slot : Nat → α) (start : Nat) : window n slot start 0 = [] := rfl

@[simp] theorem length_window (slot : Nat → α) (start len : Nat) :
    (window n slot start len).length = len := by
  simp [window]

theorem window_append (slot : Nat → α) (start a b : Nat) :
    window n slot start (a + b) = window n slot start a ++ window n slot (start + a) b := by
  rw [window, List.range_add, List.map_append, List.map_map]
  congr 1
  apply List.map_congr_left
  intro i _
  simp only [comp, Nat.add_assoc]

theorem window_succ (slot : Nat → α) (start len : Nat) :
    window n slot start (len + 1) = window n slot start len ++ [slot ((start + len) % n)] := by
  rw [window_append]
  rfl

theorem window_cons (slot : Nat → α) (start len : Nat) :
    window n slot start (len + 1) = slot (start % n) :: window n slot (start + 1) len := by
  rw [Nat.add_comm len 1, window_append]
  rfl

theorem window_mod {m : Nat} (hm : n ∣ m) (slot : Nat → α) (start len : Nat) :
    window n slot (start % m) len = window n slot start len := by
  apply List.map_congr_left
  intro i _
  have hmod : (start % m + i) % n = (start + i) % n := by
    rw [Nat.add_mod, Nat.mod_mod_of_dvd _ hm, ← Nat.add_mod]
  rw [hmod]

theorem slot_ne {start i j : Nat} (hi : i < j) (hj : j < i + n) :
    (start + i) % n ≠ (start + j) % n := by
  intro heq
  have hmod : start + i ≡ start + j [MOD n] := heq
  have hdvd : n ∣ j - i := (Nat.modEq_iff_dvd' hi.le).mp (hmod.add_left_cancel' start)
  exact absurd (Nat.le_of_dvd (by omega) hdvd) (by omega)

theorem window_update_behind {start len k : Nat} (hk : len ≤ k) (hn : k < n) (slot : Nat → α)
    (x : α) :
    window n (update slot ((start + k) % n) x) start len = window n slot start len := by
  apply List.map_congr_left
  intro i hi
  rw [List.mem_range] at hi
  exact update_of_ne (slot_ne (by omega) (by omega)) _ _

theorem window_update_end {start len : Nat} (hn : len < n) (slot : Nat → α) (x : α) :
    window n (update slot ((start + len) % n) x) start (len + 1) =
      window n slot start len ++ [x] := by
  rw [window_succ, window_update_behind le_rfl hn, update_self]

theorem mem_window_update {slot : Nat → α} {start len k : Nat} {x y : α}
    (h : y ∈ window n (update slot k x) start len) : y = x ∨ y ∈ window n slot start len := by
  obtain ⟨i, hi, rfl⟩ := List.mem_map.mp h
  by_cases hk : (start + i) % n = k
  · rw [hk, update_self]
    exact .inl rfl
  · rw [update_of_ne hk]
    exact .inr (List.mem_map.mpr ⟨i, hi, rfl⟩)

/-! Distances between wrapping counters. -/

/-- A counter taken back by one. -/
def pred32 (a : Nat) : Nat := if a = 0 then uintSize - 1 else a - 1

theorem pred32_lt {a : Nat} (ha : a < uintSize) : pred32 a < uintSize := by
  simp only [pred32, uintSize] at *
  split_ifs <;> omega

theorem pred32_succ {a : Nat} (ha : a < uintSize) : pred32 ((a + 1) % uintSize) = a := by
  by_cases hlast : (a + 1) % uintSize = 0
  · rw [pred32, if_pos hlast]
    simp only [uintSize] at *
    omega
  · rw [pred32, if_neg hlast]
    simp only [uintSize] at *
    omega

theorem sub32_self (a : Nat) : sub32 a a = 0 := by
  simp only [sub32, uintSize]
  omega

theorem sub32_lt (a b : Nat) : sub32 a b < uintSize := Nat.mod_lt _ (by decide)

theorem add_sub32 {a b : Nat} (ha : a < uintSize) (hb : b < uintSize) :
    (b + sub32 a b) % uintSize = a := by
  simp only [sub32, uintSize] at *
  omega

theorem sub32_eq_zero {a b : Nat} (ha : a < uintSize) (hb : b < uintSize) :
    sub32 a b = 0 ↔ a = b := by
  simp only [sub32, uintSize] at *
  omega

theorem sub32_succ_left {a b : Nat} (ha : a < uintSize) (hb : b < uintSize)
    (h : sub32 a b + 1 < uintSize) : sub32 ((a + 1) % uintSize) b = sub32 a b + 1 := by
  simp only [sub32, uintSize] at *
  omega

theorem sub32_succ_right {a b : Nat} (ha : a < uintSize)
    (h : 0 < sub32 a b) : sub32 a ((b + 1) % uintSize) = sub32 a b - 1 := by
  simp only [sub32, uintSize] at *
  omega

theorem sub32_pred_left {a b : Nat} (ha : a < uintSize) (hb : b < uintSize)
    (h : 0 < sub32 a b) : sub32 (pred32 a) b = sub32 a b - 1 := by
  simp only [sub32, pred32, uintSize] at *
  split_ifs <;> omega

theorem sub32_trans {a b c : Nat} (ha : a < uintSize) (hb : b < uintSize) (hc : c < uintSize)
    (h : sub32 b a + sub32 c b < uintSize) : sub32 c a = sub32 b a + sub32 c b := by
  simp only [sub32, uintSize] at *
  omega

end LibRing
