import Xv6.Exec

/-! Which system call arguments are accepted. `fetchint` and `fetchstr` accept exactly what lies in the process;
`argptr` also rejects a block that ends with the last byte of the process. -/

namespace Xv6

open LibWord

variable {m : UserMem} {n : Nat} {size : Int}

/-- The address of the `n`th argument word, and the word. -/
def argAddr (m : UserMem) (n : Nat) : Nat := (m.esp + 4 + 4 * n) % uintSize

def argWord (m : UserMem) (n : Nat) : Nat := m.word (argAddr m n)

/-- The four bytes of the argument lie in the process. -/
def Readable (m : UserMem) (n : Nat) : Prop := argAddr m n + 4 ≤ m.sz

instance (m : UserMem) (n : Nat) : Decidable (Readable m n) := inferInstanceAs (Decidable (_ ≤ _))

/-- What the checks should accept. -/
structure ArgumentsExact (m : UserMem) (n : Nat) (size : Int) : Prop where
  int : (∃ i, argint m n = some i) ↔ Readable m n
  ptr : (∃ p, argptr m n size = some p) ↔
    Readable m n ∧ argWord m n < m.sz ∧ (argWord m n : Int) + size ≤ m.sz
  str : (∃ s, Exec.argstr m n = some s) ↔
    Readable m n ∧ argWord m n < m.sz ∧ ∃ a, argWord m n ≤ a ∧ a < m.sz ∧ m.byte a = 0
  length : ∀ s, Exec.argstr m n = some s →
    m.byte (argWord m n + s.length) = 0 ∧ ∀ j, j < s.length → m.byte (argWord m n + j) ≠ 0

theorem argint_eq : argint m n = if Readable m n then some (argWord m n) else none := by
  have hsz := m.sz_le
  show (if m.sz ≤ argAddr m n ∨ m.sz < (argAddr m n + 4) % uintSize then none else some (argWord m n)) = _
  have hiff : m.sz ≤ argAddr m n ∨ m.sz < (argAddr m n + 4) % uintSize ↔ ¬ Readable m n := by
    unfold Readable
    simp only [userTop, uintSize] at *
    omega
  rw [if_congr hiff rfl rfl, ite_not]

theorem argint_isSome : (∃ i, argint m n = some i) ↔ Readable m n := by
  rw [argint_eq]
  by_cases hread : Readable m n <;> simp [hread]

theorem argint_bind {α : Type} (f : Nat → Option α) (a : α) :
    (argint m n).bind f = some a ↔ Readable m n ∧ f (argWord m n) = some a := by
  rw [argint_eq]
  by_cases hread : Readable m n <;> simp [hread]

/-- The one comparison that is not exact. -/
theorem argptr_isSome (h0 : 0 ≤ size) (hsize : size < 2 ^ 31) : (∃ p, argptr m n size = some p) ↔
    Readable m n ∧ argWord m n < m.sz ∧ (argWord m n : Int) + size < m.sz := by
  have hsz := m.sz_le
  have huint := toUint_of_nonneg h0 (by omega)
  have hiff : m.sz ≤ argWord m n ∨ m.sz ≤ (argWord m n + toUint size) % uintSize ↔
      ¬ (argWord m n < m.sz ∧ (argWord m n : Int) + size < m.sz) := by
    simp only [userTop, uintSize] at *
    omega
  have hbind : ∀ p, argptr m n size = some p ↔ Readable m n ∧
      (if m.sz ≤ argWord m n ∨ m.sz ≤ (argWord m n + toUint size) % uintSize then none else some (argWord m n)) =
        some p := fun p => argint_bind _ p
  simp only [hbind, if_congr hiff rfl rfl, ite_not]
  by_cases hin : argWord m n < m.sz ∧ (argWord m n : Int) + size < m.sz
  · simp [hin]
  · simp [hin]

/-- The loop of `fetchstr`. -/
theorem fetchFrom_eq_some {k a : Nat} {s : Exec.Str} (h : Exec.fetchFrom m k a = some s) :
    s.length < k ∧ m.byte (a + s.length) = 0 ∧ ∀ j, j < s.length → m.byte (a + j) ≠ 0 := by
  induction k generalizing a s with
  | zero => cases h
  | succ k ih =>
    rw [Exec.fetchFrom] at h
    split_ifs at h with hbyte
    · cases h
      exact ⟨Nat.succ_pos k, hbyte, fun j hj => absurd hj (Nat.not_lt_zero j)⟩
    · obtain ⟨t, ht, rfl⟩ := Option.map_eq_some_iff.mp h
      obtain ⟨hlength, hnul, hbefore⟩ := ih ht
      rw [List.length_cons]
      refine ⟨Nat.succ_lt_succ hlength, ?_, fun j hj => ?_⟩
      · rw [show a + (t.length + 1) = a + 1 + t.length by omega]
        exact hnul
      · cases j with
        | zero => exact hbyte
        | succ j =>
          rw [show a + (j + 1) = a + 1 + j by omega]
          exact hbefore j (by omega)

theorem fetchFrom_isSome {k a d : Nat} (hd : d < k) (hnul : m.byte (a + d) = 0) :
    ∃ s, Exec.fetchFrom m k a = some s := by
  induction k generalizing a d with
  | zero => omega
  | succ k ih =>
    rw [Exec.fetchFrom]
    split_ifs with hbyte
    · exact ⟨[], rfl⟩
    · cases d with
      | zero => exact absurd hnul hbyte
      | succ d =>
        rw [show a + (d + 1) = a + 1 + d by omega] at hnul
        obtain ⟨s, hs⟩ := ih (Nat.lt_of_succ_lt_succ hd) hnul
        exact ⟨m.byte a :: s, by rw [hs]; rfl⟩

theorem argstr_iff {s : Exec.Str} : Exec.argstr m n = some s ↔
    Readable m n ∧ argWord m n < m.sz ∧ Exec.fetchFrom m (m.sz - argWord m n) (argWord m n) = some s := by
  rw [Exec.argstr, argint_bind, Exec.fetchstr]
  by_cases hlt : argWord m n < m.sz
  · rw [if_neg (Nat.not_le.mpr hlt)]
    simp [hlt]
  · rw [if_pos (Nat.not_lt.mp hlt)]
    simp [hlt]

theorem argstr_isSome : (∃ s, Exec.argstr m n = some s) ↔
    Readable m n ∧ argWord m n < m.sz ∧ ∃ a, argWord m n ≤ a ∧ a < m.sz ∧ m.byte a = 0 := by
  constructor
  · rintro ⟨s, hs⟩
    obtain ⟨hread, hlt, hfetch⟩ := argstr_iff.mp hs
    obtain ⟨hlength, hnul, -⟩ := fetchFrom_eq_some hfetch
    exact ⟨hread, hlt, argWord m n + s.length, Nat.le_add_right _ _, by omega, hnul⟩
  · rintro ⟨hread, hlt, a, hle, ha, hnul⟩
    have hd : a - argWord m n < m.sz - argWord m n := by omega
    rw [show a = argWord m n + (a - argWord m n) by omega] at hnul
    obtain ⟨s, hs⟩ := fetchFrom_isSome hd hnul
    exact ⟨s, argstr_iff.mpr ⟨hread, hlt, hs⟩⟩

/-- A one-page process with the argument 0xff0. -/
def lastBytes : UserMem where
  sz := 0x1000
  sz_le := page_le_userTop
  esp := 0
  byte := fun a => if a = 4 then 0xf0 else if a = 5 then 0x0f else 0

end Xv6
