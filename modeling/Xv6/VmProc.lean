import Xv6.VmTables

/-! Processes. A process of size `sz` has the user pages below `sz` rounded up, and the kernel's mappings above
`USERTOP`. -/

namespace Xv6.Vm

open LibExcept LibWord Fs

variable {m m' : Mem} {role role' : Nat → Role} {d i k n pg : Nat}

/-- A process whose present user pages are those below its size, rounded up. -/
structure Live (m : Mem) (role : Nat → Role) (p : Proc) : Prop where
  pool : Pool m role
  tree : Tree m role p.pgdir
  size : p.sz ≤ userTop
  user : ∀ k < userPages, present (m.pte p.pgdir k) ↔ k < pagesOf p.sz
  kernel : ∀ k, userPages ≤ k → k < 2 ^ 20 → m.pte p.pgdir k = kernelEntry k

variable {p : Proc}

theorem Live.low (h : Live m role p) : present (m.pde p.pgdir 0) := by
  by_contra habsent
  have hpte := h.kernel userPages le_rfl (by decide)
  rw [Mem.pte, show userPages / 1024 = 0 by decide, if_neg habsent] at hpte
  exact absurd hpte (by decide)

theorem pagesOf_max (a b : Nat) : pagesOf (max a b) = max (pagesOf a) (pagesOf b) := by
  rcases le_total a b with hle | hle
  · rw [max_eq_right hle, max_eq_right (pagesOf_mono hle)]
  · rw [max_eq_left hle, max_eq_left (pagesOf_mono hle)]

/-- Pages up to a new size make a process of the larger size. -/
theorem Adds.live {newsz : Nat} (h : Live m role p) (hnew : newsz ≤ userTop)
    (ha : Adds p.pgdir (pagesOf p.sz) (pagesOf newsz) m role m' role') :
    Live m' role' ⟨p.pgdir, max newsz p.sz⟩ := by
  have hpages := pagesOf_le hnew
  refine ⟨ha.pool, ha.tree, max_le hnew h.size, fun k hk => ?_, fun k hk hk' => ?_⟩
  · rw [pagesOf_max]
    by_cases hin : pagesOf p.sz ≤ k ∧ k < pagesOf newsz
    · exact iff_of_true (ha.added k hin.1 hin.2).1 (lt_max_of_lt_left hin.2)
    · rw [ha.pte k (lt_max hk) hin, h.user k hk, lt_max_iff]
      omega
  · rw [ha.pte k hk' (by omega)]
    exact h.kernel k hk hk'

theorem Restores.live (h : Live m role p) (hr : Restores p.pgdir m role m') : Live m' role p := by
  refine ⟨hr.pool, hr.tree, h.size, fun k hk => ?_, fun k hk hk' => ?_⟩
  · rw [hr.presence k (lt_max hk)]
    exact h.user k hk
  · rw [hr.above k hk' hk]
    exact h.kernel k hk hk'

/-- A page of words. -/
def wordPage (f : Nat → Nat) : Block := fun o => byteOf (f (o / 4)) (o % 4)

theorem word_wordPage {f : Nat → Nat} {j : Nat} (h : f j < uintSize) : (wordPage f).word j = f j := by
  have hbyte : ∀ i < 4, wordPage f (4 * j + i) = byteOf (f j) i := by
    intro i hi
    unfold wordPage
    rw [show (4 * j + i) / 4 = j by omega, show (4 * j + i) % 4 = i by omega]
  have h0 := hbyte 0 (by decide)
  rw [Nat.add_zero] at h0
  rw [Block.word, h0, hbyte 1 (by decide), hbyte 2 (by decide), hbyte 3 (by decide)]
  simp only [byteOf_toNat, uintSize] at h ⊢
  omega

/-! A process of one page, as an example. -/

/-- The tables that have entries of the kernel. -/
def kernelTable (i : Nat) : Prop := i < 4 ∨ 1016 ≤ i ∧ i < 1024

instance (i : Nat) : Decidable (kernelTable i) := inferInstanceAs (Decidable (_ ∨ _))

def onePageEntry (k : Nat) : Nat := if k = 0 then 400 * pgsize + 7 else kernelEntry k

def onePage (free : List Nat) : Mem where
  page pg :=
    if pg = 256 then wordPage fun i => if kernelTable i then (1000 + i) * pgsize + 7 else 0
    else if 1000 ≤ pg then wordPage fun j => onePageEntry (1024 * (pg - 1000) + j)
    else Block.zero
  free := free

def onePageRole (free : List Nat) (pg : Nat) : Role :=
  if pg = 256 then .dir 256
  else if pg = 400 then .user 256 0
  else if 1000 ≤ pg ∧ kernelTable (pg - 1000) then .table 256 (pg - 1000)
  else if pg ∈ free then .free
  else .other

def onePageProc : Proc := ⟨256, pgsize⟩

variable (free : List Nat)

theorem onePage_pde {i : Nat} (hi : i < 1024) :
    (onePage free).pde 256 i = if kernelTable i then (1000 + i) * pgsize + 7 else 0 := by
  have hpage : (onePage free).page 256 =
      wordPage fun i => if kernelTable i then (1000 + i) * pgsize + 7 else 0 := by
    simp only [onePage, ↓reduceIte]
  rw [Mem.pde, Mem.word, hpage]
  refine word_wordPage (j := i) ?_
  by_cases htable : kernelTable i
  · rw [if_pos htable]
    simp only [pgsize, uintSize]
    omega
  · rw [if_neg htable]
    decide

theorem onePageEntry_lt {k : Nat} (hk : k < 2 ^ 20) : onePageEntry k < uintSize := by
  unfold onePageEntry kernelEntry
  split_ifs
  · decide
  · simp only [pgsize, uintSize]
    omega
  · decide

theorem onePage_pte {k : Nat} (hk : k < 2 ^ 20) : (onePage free).pte 256 k = onePageEntry k := by
  have hi : k / 1024 < 1024 := by omega
  by_cases htable : kernelTable (k / 1024)
  · have hpde : (onePage free).pde 256 (k / 1024) = (1000 + k / 1024) * pgsize + 7 := by
      rw [onePage_pde free hi, if_pos htable]
    rw [Mem.pte, hpde, if_pos (present_entry _), entry_div]
    have hpage : (onePage free).page (1000 + k / 1024) = wordPage fun j => onePageEntry (1024 * (k / 1024) + j) := by
      show (if _ then _ else if _ then _ else _) = _
      rw [if_neg (by omega), if_pos (by omega), Nat.add_sub_cancel_left]
    have hentry : 1024 * (k / 1024) + k % 1024 = k := by omega
    rw [Mem.word, hpage, word_wordPage (by rw [hentry]; exact onePageEntry_lt hk), hentry]
  · have hpde : (onePage free).pde 256 (k / 1024) = 0 := by
      rw [onePage_pde free hi, if_neg htable]
    rw [Mem.pte, hpde, if_neg not_present_zero]
    unfold kernelTable at htable
    rw [onePageEntry, kernelEntry, if_neg (by omega), if_neg (by simp only [userPages]; omega)]

variable {free}

theorem kernelTable_lt {i : Nat} (h : kernelTable i) : i < 1024 := by
  unfold kernelTable at h
  omega

theorem onePage_pool (hnodup : free.Nodup) (hfree : ∀ pg ∈ free, 2048 ≤ pg ∧ pg < 4096) :
    Pool (onePage free) (onePageRole free) := by
  refine ⟨hnodup, fun pg => ?_, fun pg hpg => ?_, fun pg e he => ?_, fun pg e he => ?_⟩
  · by_cases hmem : pg ∈ free
    · have hlt := hfree pg hmem
      have htable : ¬ (1000 ≤ pg ∧ kernelTable (pg - 1000)) := by
        intro h
        have := kernelTable_lt h.2
        omega
      rw [onePageRole, if_neg (by omega), if_neg (by omega), if_neg htable, if_pos hmem]
      exact ⟨fun _ => rfl, fun _ => hmem⟩
    · refine ⟨fun h => absurd h hmem, fun h => ?_⟩
      unfold onePageRole at h
      split_ifs at h
  · unfold onePageRole at hpg
    unfold Ram
    split_ifs at hpg with h1 h2 h3 h4
    · omega
    · omega
    · have := kernelTable_lt h3.2
      omega
    · have := hfree pg h4
      omega
    · rcases hpg with hpg | hpg
      · cases hpg
      · exact absurd rfl hpg
  · unfold onePageRole at he
    split_ifs at he <;> cases he
    all_goals rfl
  · unfold onePageRole at he
    split_ifs at he with h1
    cases he
    exact h1

theorem onePage_tree (free : List Nat) : Tree (onePage free) (onePageRole free) 256 := by
  refine ⟨rfl, ?_, ?_, ?_, ?_⟩
  · intro i hi hpresent
    have hpde := onePage_pde free hi
    by_cases htable : kernelTable i
    · rw [if_pos htable] at hpde
      rw [hpde, entry_div, entry_mod, onePageRole, if_neg (by omega), if_neg (by omega),
        Nat.add_sub_cancel_left, if_pos ⟨by omega, htable⟩]
      exact ⟨rfl, rfl⟩
    · rw [if_neg htable] at hpde
      rw [hpde] at hpresent
      exact absurd hpresent not_present_zero
  · intro pg i hpg
    unfold onePageRole at hpg
    split_ifs at hpg with h1 h2 h3 h4
    obtain ⟨-, rfl⟩ := Role.table.inj hpg
    refine ⟨kernelTable_lt h3.2, ?_⟩
    rw [onePage_pde free (kernelTable_lt h3.2), if_pos h3.2, Nat.add_sub_cancel' h3.1]
  · intro k hk hpresent
    have hpte := onePage_pte free (lt_max hk)
    by_cases hk0 : k = 0
    · rw [hpte, onePageEntry, if_pos hk0, hk0]
      exact ⟨rfl, rfl⟩
    · rw [hpte, onePageEntry, if_neg hk0, kernelEntry, if_neg (by simp only [userPages] at *; omega)] at hpresent
      exact absurd hpresent not_present_zero
  · intro pg k hpg
    unfold onePageRole at hpg
    split_ifs at hpg with h1 h2
    obtain ⟨-, rfl⟩ := Role.user.inj hpg
    refine ⟨by decide, ?_⟩
    rw [onePage_pte free (by decide), h2]
    rfl

theorem onePage_live (hnodup : free.Nodup) (hfree : ∀ pg ∈ free, 2048 ≤ pg ∧ pg < 4096) :
    Live (onePage free) (onePageRole free) onePageProc := by
  refine ⟨onePage_pool hnodup hfree, onePage_tree free, by decide, ?_, ?_⟩
  · intro k hk
    show present ((onePage free).pte 256 k) ↔ k < 1
    rw [onePage_pte free (lt_max hk), onePageEntry]
    by_cases hk0 : k = 0
    · rw [if_pos hk0]
      exact ⟨fun _ => by omega, fun _ => present_entry _⟩
    · rw [if_neg hk0, kernelEntry, if_neg (by simp only [userPages] at *; omega)]
      exact ⟨fun h => absurd h not_present_zero, fun h => by omega⟩
  · intro k hk hlt
    show (onePage free).pte 256 k = _
    rw [onePage_pte free hlt, onePageEntry, if_neg (by simp only [userPages] at hk; omega)]

end Xv6.Vm
