import Xv6.LibWord

/-! The system call arguments of `syscall.c`: words fetched from the user stack and checked against
the size of the process. -/

namespace Xv6

open LibWord

/-- `USERTOP`: the end of user memory. -/
def userTop : Nat := 0xA0000

theorem page_le_userTop : 0x1000 ≤ userTop := by decide

/-- The memory of the calling process: its size, which `allocuvm` keeps at or below `USERTOP`, the
stack pointer of its trap frame and its bytes. -/
structure UserMem where
  sz : Nat
  sz_le : sz ≤ userTop
  esp : Nat
  byte : Nat → UInt8

/-- `*(int*)addr`, least significant byte first. -/
def UserMem.word (m : UserMem) (addr : Nat) : Nat :=
  (m.byte addr).toNat + 2 ^ 8 * (m.byte (addr + 1)).toNat + 2 ^ 16 * (m.byte (addr + 2)).toNat +
    2 ^ 24 * (m.byte (addr + 3)).toNat

theorem UserMem.word_lt (m : UserMem) (addr : Nat) : m.word addr < uintSize := by
  have h0 := (m.byte addr).toNat_lt
  have h1 := (m.byte (addr + 1)).toNat_lt
  have h2 := (m.byte (addr + 2)).toNat_lt
  have h3 := (m.byte (addr + 3)).toNat_lt
  simp only [UserMem.word, uintSize]
  omega

/-- `fetchint`: the word at `addr`, or -1 (`none`). -/
def fetchint (m : UserMem) (addr : Nat) : Option Nat :=
  if m.sz ≤ addr ∨ m.sz < (addr + 4) % uintSize then none else some (m.word addr)

/-- `argint`: the `n`th word-sized system call argument. -/
def argint (m : UserMem) (n : Nat) : Option Nat :=
  fetchint m ((m.esp + 4 + 4 * n) % uintSize)

/-- `argptr`: the `n`th argument as a pointer to `size` bytes. The sum wraps, and `size` may be
negative. -/
def argptr (m : UserMem) (n : Nat) (size : Int) : Option Nat :=
  (argint m n).bind fun i =>
    if m.sz ≤ i ∨ m.sz ≤ (i + toUint size) % uintSize then none else some i

theorem argint_lt {m : UserMem} {n word : Nat} (h : argint m n = some word) : word < uintSize := by
  unfold argint fetchint at h
  split at h
  · simp at h
  · rw [← Option.some.inj h]
    exact m.word_lt _

theorem argptr_eq_some {m : UserMem} {n : Nat} {size : Int} {p : Nat}
    (h : argptr m n size = some p) :
    argint m n = some p ∧ p < m.sz ∧ (p + toUint size) % uintSize < m.sz := by
  obtain ⟨i, hi, h⟩ := Option.bind_eq_some_iff.mp h
  split at h
  · simp at h
  · obtain rfl := Option.some.inj h
    exact ⟨hi, by omega, by omega⟩

theorem argptr_block {m : UserMem} {n : Nat} {size : Int} {p : Nat} (h0 : 0 ≤ size)
    (hsize : size < 2 ^ 31) (h : argptr m n size = some p) : p + toUint size < m.sz := by
  obtain ⟨-, hp, hsum⟩ := argptr_eq_some h
  have hle := m.sz_le
  have huint := toUint_of_nonneg h0 (by omega)
  simp only [uintSize, userTop] at *
  rwa [Nat.mod_eq_of_lt (by omega)] at hsum

end Xv6
