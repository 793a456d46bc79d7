import Mathlib

/-! The two functions `memmove`: that of the kernel, in `string.c`, which copies downwards when the destination begins
inside the source, and that of the user library, in `ulib.c`, which always copies upwards. Addresses are 32-bit
words and their sums wrap. -/

namespace Xv6.Memmove

open Function

abbrev Addr := BitVec 32

abbrev Mem := Addr → UInt8

/-- `while(n-- > 0) *d++ = *s++;` -/
def copyUp : Nat → Addr → Addr → Mem → Mem
  | 0, _, _, m => m
  | n + 1, d, s, m => copyUp n (d + 1) (s + 1) (update m d (m s))

/-- `while(n-- > 0) *--d = *--s;` -/
def copyDown : Nat → Addr → Addr → Mem → Mem
  | 0, _, _, m => m
  | n + 1, d, s, m => copyDown n (d - 1) (s - 1) (update m (d - 1) (m (s - 1)))

/-- `memmove` of `string.c`, where `n` is a `uint`. -/
def kernelMemmove (dst src : Addr) (n : BitVec 32) (m : Mem) : Mem :=
  if src < dst ∧ src + n > dst then copyDown n.toNat (dst + n) (src + n) m else copyUp n.toNat dst src m

/-- `memmove` of `ulib.c`, where `n` is an `int`. -/
def userMemmove (vdst vsrc : Addr) (n : BitVec 32) (m : Mem) : Mem := copyUp n.toInt.toNat vdst vsrc m

/-! What is to be left in memory. -/

/-- The address `i` bytes behind another one. -/
def Addr.at (a : Addr) (i : Nat) : Addr := a + BitVec.ofNat 32 i

/-- The bytes of the source have been moved and no other byte has changed. -/
structure Moved (dst src : Addr) (n : Nat) (m m' : Mem) : Prop where
  copied : ∀ i, i < n → m' (dst.at i) = m (src.at i)
  other : ∀ a, (∀ i, i < n → a ≠ dst.at i) → m' a = m a

/-- The range does not wrap. -/
def Fits (a : Addr) (n : Nat) : Prop := a.toNat + n ≤ 2 ^ 32

instance (a : Addr) (n : Nat) : Decidable (Fits a n) := inferInstanceAs (Decidable (_ ≤ _))

/-- Where the destination begins inside the source, the bytes they share are those that are to be moved there. -/
def Harmless (dst src : Addr) (n : Nat) (m : Mem) : Prop :=
  src < dst → ∀ i, dst.toNat + i < src.toNat + n → m (dst.at i) = m (src.at i)

variable {dst src a b : Addr} {n i j : Nat} {m : Mem}

theorem at_zero (a : Addr) : a.at 0 = a := BitVec.add_zero a

theorem at_succ (a : Addr) (i : Nat) : (a + 1).at i = a.at (i + 1) := by
  rw [Addr.at, Addr.at, BitVec.ofNat_add, BitVec.add_comm (BitVec.ofNat 32 i), ← BitVec.add_assoc]
  rfl

theorem at_pred (a : Addr) (i : Nat) : a.at (i + 1) - 1 = a.at i := by
  rw [Addr.at, Addr.at, BitVec.ofNat_add, ← BitVec.add_assoc]
  exact BitVec.add_sub_cancel _ _

theorem toNat_at (hfits : Fits a n) (hi : i < n) : (a.at i).toNat = a.toNat + i := by
  simp only [Fits] at hfits
  rw [Addr.at, BitVec.toNat_add, BitVec.toNat_ofNat]
  omega

theorem at_eq_iff (ha : Fits a n) (hb : Fits b n) (hi : i < n) (hj : j < n) :
    a.at i = b.at j ↔ a.toNat + i = b.toNat + j := by
  rw [← BitVec.toNat_inj, toNat_at ha hi, toNat_at hb hj]

theorem at_inj (ha : Fits a n) (hi : i < n) (hj : j < n) : a.at i = a.at j ↔ i = j := by
  rw [at_eq_iff ha ha hi hj]
  omega

/-! Copying upwards. -/

theorem copyUp_succ (n : Nat) (d s : Addr) (m : Mem) :
    copyUp (n + 1) d s m = update (copyUp n d s m) (d.at n) (copyUp n d s m (s.at n)) := by
  induction n generalizing d s m with
  | zero =>
    rw [at_zero, at_zero]
    rfl
  | succ n ih =>
    rw [copyUp, ih, at_succ, at_succ]
    rfl

theorem copyUp_other (n : Nat) (h : ∀ i, i < n → a ≠ dst.at i) : copyUp n dst src m a = m a := by
  induction n with
  | zero => rfl
  | succ n ih =>
    rw [copyUp_succ, update_of_ne (h n (Nat.lt_succ_self n))]
    exact ih fun i hi => h i (Nat.lt_succ_of_lt hi)

/-- A byte that has been copied stays. -/
theorem copyUp_stays {k : Nat} (hfits : Fits dst n) (hi : i < k) (hk : k ≤ n) :
    copyUp k dst src m (dst.at i) = copyUp i dst src m (src.at i) := by
  induction k with
  | zero => exact absurd hi (Nat.not_lt_zero i)
  | succ k ih =>
    rw [copyUp_succ]
    by_cases hlast : i = k
    · rw [hlast, update_self]
    · have hne : dst.at i ≠ dst.at k := fun heq => hlast ((at_inj hfits (by omega) (by omega)).mp heq)
      rw [update_of_ne hne]
      exact ih (by omega) (by omega)

theorem copyUp_ahead (hdst : Fits dst n) (hsrc : Fits src n) (hi : i < n)
    (h : dst ≤ src ∨ src.toNat + i < dst.toNat) : copyUp i dst src m (src.at i) = m (src.at i) := by
  refine copyUp_other i fun j hj heq => ?_
  rw [at_eq_iff hsrc hdst hi (hj.trans hi)] at heq
  rw [BitVec.le_def] at h
  omega

/-- A byte of the source that has been overwritten is read as it has been copied. -/
theorem copyUp_behind (hdst : Fits dst n) (hsrc : Fits src n) (hlt : src < dst)
    (hi : dst.toNat + i < src.toNat + n) :
    copyUp n dst src m (dst.at (dst.toNat + i - src.toNat)) = copyUp n dst src m (dst.at i) := by
  rw [BitVec.lt_def] at hlt
  have haddr : src.at (dst.toNat + i - src.toNat) = dst.at i := by
    rw [at_eq_iff hsrc hdst (by omega) (by omega)]
    omega
  rw [copyUp_stays hdst (by omega) le_rfl, haddr, copyUp_stays hdst (by omega) (by omega),
    copyUp_stays hdst (by omega) le_rfl]

/-- Copying upwards moves the bytes exactly if what is overwritten before it is read does not change by it. -/
theorem copyUp_moved_iff (hdst : Fits dst n) (hsrc : Fits src n) :
    Moved dst src n m (copyUp n dst src m) ↔ Harmless dst src n m := by
  refine ⟨fun h hlt i hi => ?_, fun h => ⟨fun i hi => ?_, fun a ha => copyUp_other n ha⟩⟩
  · have hle : src.toNat < dst.toNat := BitVec.lt_def.mp hlt
    have haddr : src.at (dst.toNat + i - src.toNat) = dst.at i := by
      rw [at_eq_iff hsrc hdst (by omega) (by omega)]
      omega
    calc m (dst.at i) = m (src.at (dst.toNat + i - src.toNat)) := by rw [haddr]
      _ = copyUp n dst src m (dst.at (dst.toNat + i - src.toNat)) := (h.copied _ (by omega)).symm
      _ = copyUp n dst src m (dst.at i) := copyUp_behind hdst hsrc hlt hi
      _ = m (src.at i) := h.copied i (by omega)
  · -- The byte read for `i` may have been written for an earlier one.
    induction i using Nat.strong_induction_on with
    | h i ih =>
      rw [copyUp_stays hdst hi le_rfl]
      by_cases hahead : dst ≤ src ∨ src.toNat + i < dst.toNat
      · exact copyUp_ahead hdst hsrc hi hahead
      · rw [not_or, BitVec.not_le, not_lt] at hahead
        have hlt : src.toNat < dst.toNat := BitVec.lt_def.mp hahead.1
        have haddr : src.at i = dst.at (src.toNat + i - dst.toNat) := by
          rw [at_eq_iff hsrc hdst hi (by omega)]
          omega
        have hprev := ih (src.toNat + i - dst.toNat) (by omega) (by omega)
        rw [copyUp_stays hdst (by omega) le_rfl] at hprev
        rw [haddr, copyUp_stays hdst (by omega) hi.le, hprev]
        exact (h hahead.1 _ (by omega)).symm

/-! Copying downwards. -/

theorem copyDown_moved (hdst : Fits dst n) (hsrc : Fits src n) (hlt : src < dst) :
    Moved dst src n m (copyDown n (dst.at n) (src.at n) m) := by
  induction n generalizing m with
  | zero => exact ⟨fun i hi => absurd hi (Nat.not_lt_zero i), fun a _ => rfl⟩
  | succ n ih =>
    rw [copyDown, at_pred, at_pred]
    simp only [Fits] at hdst hsrc
    have h := ih (m := update m (dst.at n) (m (src.at n))) (by simp only [Fits]; omega)
      (by simp only [Fits]; omega)
    refine ⟨fun i hi => ?_, fun a ha => ?_⟩
    · rcases Nat.lt_succ_iff_lt_or_eq.mp hi with hi | rfl
      · rw [h.copied i hi]
        refine update_of_ne (fun heq => ?_) _ _
        rw [at_eq_iff hsrc hdst (by omega) (Nat.lt_succ_self n)] at heq
        rw [BitVec.lt_def] at hlt
        omega
      · rw [h.other _ fun j hj heq => ?_, update_self]
        have := (at_inj hdst (Nat.lt_succ_self _) (Nat.lt_succ_of_lt hj)).mp heq
        omega
    · rw [h.other a fun i hi => ha i (Nat.lt_succ_of_lt hi)]
      exact update_of_ne (ha n (Nat.lt_succ_self n)) _ _

/-! The functions. -/

theorem kernelMemmove_moved {n : BitVec 32} (hdst : Fits dst n.toNat) (hsrc : Fits src n.toNat) :
    Moved dst src n.toNat m (kernelMemmove dst src n m) := by
  have hat : ∀ a : Addr, a + n = a.at n.toNat := fun a => by rw [Addr.at, BitVec.ofNat_toNat, BitVec.setWidth_eq]
  rw [kernelMemmove]
  split_ifs with hover
  · rw [hat, hat]
    exact copyDown_moved hdst hsrc hover.1
  · refine (copyUp_moved_iff hdst hsrc).mpr fun hlt i hi => ?_
    -- The end of the source does not wrap, since that of the destination is behind it.
    have hend : ¬ dst.toNat < (src + n).toNat := fun hin => hover ⟨hlt, hin⟩
    simp only [Fits] at hdst
    rw [BitVec.lt_def] at hlt
    rw [BitVec.toNat_add] at hend
    omega

/-- The kernel's `memmove` moves any two ranges; the user library's does so exactly if copying upwards is harmless. -/
theorem memmove_iff (m : Mem) (dst src : Addr) (n : BitVec 32) :
    (Fits dst n.toNat → Fits src n.toNat → Moved dst src n.toNat m (kernelMemmove dst src n m)) ∧
      (0 ≤ n.toInt → Fits dst n.toNat → Fits src n.toNat →
        (Moved dst src n.toNat m (userMemmove dst src n m) ↔ Harmless dst src n.toNat m)) := by
  refine ⟨kernelMemmove_moved, fun hn hdst hsrc => ?_⟩
  have hint : n.toInt.toNat = n.toNat := by
    rw [BitVec.toInt_eq_toNat_cond] at hn ⊢
    split_ifs at hn ⊢ <;> omega
  rw [userMemmove, hint]
  exact copyUp_moved_iff hdst hsrc

/-- The bytes 1, 2, 3 at the address 0x1000. -/
def oneTwoThree : Mem := fun a => if a = 0x1000 then 1 else if a = 0x1001 then 2 else if a = 0x1002 then 3 else 0

/-- Two bytes are moved to the address before them. -/
theorem memmove_previous : Moved 0x1000 0x1001 2 oneTwoThree (kernelMemmove 0x1000 0x1001 2 oneTwoThree) ∧
    Moved 0x1000 0x1001 2 oneTwoThree (userMemmove 0x1000 0x1001 2 oneTwoThree) := by
  have h := memmove_iff oneTwoThree 0x1000 0x1001 2
  have hdst : Fits 0x1000 2 := by decide
  have hsrc : Fits 0x1001 2 := by decide
  exact ⟨h.1 hdst hsrc, (h.2 (by decide) hdst hsrc).mpr fun hlt => absurd hlt (by decide)⟩

/-- Two bytes are moved to the next address. -/
theorem memmove_next : oneTwoThree 0x1001 = 2 ∧ kernelMemmove 0x1001 0x1000 2 oneTwoThree 0x1002 = 2 ∧
    userMemmove 0x1001 0x1000 2 oneTwoThree 0x1002 = 1 ∧
    ¬ Moved 0x1001 0x1000 2 oneTwoThree (userMemmove 0x1001 0x1000 2 oneTwoThree) := by
  refine ⟨by decide, by decide, by decide, fun h => ?_⟩
  have hcopied := h.copied 1 (by decide)
  revert hcopied
  decide

end Xv6.Memmove
