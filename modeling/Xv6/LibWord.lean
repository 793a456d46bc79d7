import Mathlib

/-! 32-bit words of C. A `uint` is a natural number below `uintSize`, its sums are taken modulo
`uintSize`; an `int` is an integer, and the two are converted by two's complement. -/

namespace LibWord

/-- One past the largest `uint`. -/
def uintSize : Nat := 2 ^ 32

/-- A word as a C `int`. -/
def toInt (word : Nat) : Int := if word < 2 ^ 31 then word else (word : Int) - 2 ^ 32

/-- A C `int` as a `uint`. -/
def toUint (value : Int) : Nat := (value % 2 ^ 32).toNat

/-- A difference of `uint`s. -/
def sub32 (a b : Nat) : Nat := (a + uintSize - b) % uintSize

/-- A value stored in a C `short`. -/
def toShort (value : Int) : Int := Int.bmod value (2 ^ 16)

/-- A C `int` after an increment that wraps. -/
def incr32 (value : Int) : Int := Int.bmod (value + 1) (2 ^ 32)

theorem toUint_of_nonneg {value : Int} (h0 : 0 ≤ value) (h : value < 2 ^ 32) :
    (toUint value : Int) = value := by
  rw [toUint, Int.emod_eq_of_lt h0 h, Int.toNat_of_nonneg h0]

theorem toUint_toInt {word : Nat} (h : word < uintSize) : toUint (toInt word) = word := by
  simp only [uintSize] at h
  simp only [toUint, toInt]
  split <;> omega

theorem toInt_nonneg_iff {word : Nat} (h : word < uintSize) : 0 ≤ toInt word ↔ word < 2 ^ 31 := by
  simp only [uintSize] at h
  simp only [toInt]
  split <;> omega

theorem toInt_neg {word : Nat} (hword : 2 ^ 31 ≤ word) (h : word < uintSize) : toInt word < 0 := by
  have := toInt_nonneg_iff h
  omega

theorem incr32_of_lt {value : Int} (h0 : 0 ≤ value) (h : value < 2 ^ 31 - 1) :
    incr32 value = value + 1 := by
  rw [incr32, Int.bmod_eq_of_le] <;> omega

theorem incr32_eq {value : Int} (h0 : -(2 ^ 31) ≤ value) (h : value < 2 ^ 31) :
    incr32 value = if value + 1 = 2 ^ 31 then -(2 ^ 31) else value + 1 := by
  rw [incr32, Int.bmod_def]
  split <;> split <;> omega

theorem incr32_range (value : Int) : -(2 ^ 31) ≤ incr32 value ∧ incr32 value < 2 ^ 31 := by
  rw [incr32, Int.bmod_def]
  split <;> omega

theorem incr32_le {value : Int} (h : -(2 ^ 31) ≤ value) :
    incr32 value ≤ value + 1 ∧ -(2 ^ 31) ≤ incr32 value := by
  rw [incr32, Int.bmod_def]
  split <;> omega

theorem toInt_of_lt {word : Nat} (h : word < 2 ^ 31) : toInt word = word := if_pos h

theorem incr32_toInt {word : Nat} (h : word < 2 ^ 31) : incr32 (toInt word) = toInt (word + 1) := by
  rw [toInt_of_lt h]
  by_cases hlast : word + 1 < 2 ^ 31
  · rw [incr32_of_lt (by omega) (by omega), toInt_of_lt hlast]
    rfl
  · obtain rfl : word = 2 ^ 31 - 1 := by omega
    decide

end LibWord
