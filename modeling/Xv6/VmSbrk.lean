import Xv6.VmProc

/-! `sbrk`, which shrinks and grows a process page by page. -/

namespace Xv6.Vm

open LibExcept LibWord Fs

variable {m m' : Mem} {role role' : Nat → Role} {d i k n pg : Nat} {p : Proc}

/-- What `sbrk` with a negative argument should do: fail and change nothing, or give up the pages above the
new size, each to the free list once. -/
def Shrinks (m : Mem) (n : Int) (p : Proc) : Prop :=
  ∃ r q m', sysSbrk n p m = .ok ((r, q), m') ∧
    (r = -1 ∧ q = p ∧ m'.free = m.free ∧ (∀ k < 2 ^ 20, m'.pte p.pgdir k = m.pte p.pgdir k) ∨
      r = p.sz ∧ q.pgdir = p.pgdir ∧ (q.sz : Int) = p.sz + n ∧
        (∀ k < userPages, present (m'.pte p.pgdir k) ↔ k < pagesOf q.sz) ∧
        (∀ va < pagesOf q.sz * pgsize, m'.byte p.pgdir va = m.byte p.pgdir va) ∧
        m'.free.Nodup ∧ ∀ pg, pg ∈ m'.free ↔ pg ∈ m.free ∨
          ∃ k, pagesOf q.sz ≤ k ∧ k < pagesOf p.sz ∧ m.pte p.pgdir k = pg * pgsize + 7)

theorem sysSbrk_neg {n : Int} {x : Nat} (hn : n < 0)
    (hrun : deallocuvm p.pgdir p.sz (toUint (p.sz + n)) m = .ok (x, m')) :
    sysSbrk n p m = .ok (if x = 0 then (-1, p) else (toInt p.sz, { p with sz := x }), m') := by
  have hgrow : growproc n p m = .ok (if x = 0 then none else some { p with sz := x }, m') := by
    rw [growproc, if_neg (by omega), if_pos hn, run_bind hrun]
    rfl
  rw [sysSbrk, run_bind hgrow]
  by_cases hx : x = 0
  · rw [if_pos hx, if_pos hx]
    rfl
  · rw [if_neg hx, if_neg hx]
    rfl

theorem sysSbrk_neg_error {n : Int} {stop : Stop} (hn : n < 0)
    (hrun : deallocuvm p.pgdir p.sz (toUint (p.sz + n)) m = .error stop) : sysSbrk n p m = .error stop := by
  have hgrow : growproc n p m = .error stop := by
    rw [growproc, if_neg (by omega), if_pos hn, run_bind_error hrun]
  rw [sysSbrk, run_bind_error hgrow]

theorem deallocuvm_value {oldsz newsz x : Nat} (hrun : Vm.deallocuvm d oldsz newsz m = .ok (x, m')) :
    x = if newsz < oldsz then newsz else oldsz := by
  rw [Vm.deallocuvm] at hrun
  cases hloop : deallocLoop d (pgrounddown ((oldsz + uintSize - 1) % uintSize)) maxTurns (pgroundup newsz) m with
  | error stop =>
    rw [run_bind_error hloop] at hrun
    exact absurd hrun (by intro heq; cases heq)
  | ok y =>
    rw [run_bind (show _ = Except.ok (y.1, y.2) from hloop)] at hrun
    exact (Prod.mk.inj (Except.ok.inj hrun)).1.symm

/-- After the pages above a new size have been unmapped. -/
theorem Clears.shrinks {newsz : Nat} (h : Live m role p) (hnew : newsz < p.sz)
    (hclears : Clears p.pgdir (pagesOf newsz) (pagesOf p.sz) m role m' role') :
    (∀ k < userPages, present (m'.pte p.pgdir k) ↔ k < pagesOf newsz) ∧
      (∀ va < pagesOf newsz * pgsize, m'.byte p.pgdir va = m.byte p.pgdir va) ∧
      ∀ pg, pg ∈ m'.free ↔ pg ∈ m.free ∨
        ∃ k, pagesOf newsz ≤ k ∧ k < pagesOf p.sz ∧ m.pte p.pgdir k = pg * pgsize + 7 := by
  have hmono := pagesOf_mono hnew.le
  have hpages := pagesOf_le h.size
  refine ⟨fun k hk => ?_, fun va hva => ?_, fun pg => ?_⟩
  · by_cases hin : pagesOf newsz ≤ k ∧ k < pagesOf p.sz
    · exact ⟨fun hpresent => absurd hpresent (hclears.cleared k hin.1 hin.2), fun hlt => by omega⟩
    · rw [hclears.pte k (lt_max hk) hin, h.user k hk]
      omega
  · have hlt := lt_pagesOf hva
    exact hclears.byte h.tree (by omega) (by omega)
  · rw [hclears.pool.free pg, h.pool.free pg]
    by_cases hin : ∃ k, pagesOf newsz ≤ k ∧ k < pagesOf p.sz ∧ role pg = .user p.pgdir k
    · obtain ⟨k, hk1, hk2, hrole⟩ := hin
      exact ⟨fun _ => .inr ⟨k, hk1, hk2, (h.tree.userOf pg k hrole).2⟩,
        fun _ => hclears.freed pg k hk1 hk2 hrole⟩
    · rw [hclears.role_eq pg fun k hk1 hk2 hrole => hin ⟨k, hk1, hk2, hrole⟩]
      refine ⟨.inl, fun hor => hor.resolve_right fun hex => hin ?_⟩
      obtain ⟨k, hk1, hk2, hpte⟩ := hex
      exact ⟨k, hk1, hk2, user_of_pte h.tree (by omega) hpte⟩

/-- With size 0, the loop begins above the user pages, or at 0, and comes to a page of the kernel. -/
theorem Live.deallocuvm_zero (h : Live m role p) (hsz : p.sz = 0) {newsz : Nat} (hlo : 2 ^ 31 ≤ newsz)
    (hhi : newsz < 2 ^ 32) : Vm.deallocuvm p.pgdir p.sz newsz m = .error (.panic "kfree") := by
  have hlast : pgrounddown ((p.sz + uintSize - 1) % uintSize) = 0xFFFFF * pgsize := by
    rw [hsz]
    decide
  have hentry : ∀ k, 0xFE000 ≤ k ∧ k < 2 ^ 20 ∨ k = userPages →
      present (m.pte p.pgdir k) ∧ ¬ Ram (m.pte p.pgdir k / pgsize) := by
    intro k hk
    have hge : userPages ≤ k ∧ k < 2 ^ 20 := by
      simp only [userPages] at *
      omega
    rw [h.kernel k hge.1 hge.2, kernelEntry, if_pos (by simp only [userPages] at *; omega)]
    simp only [present, Ram, pgsize, userPages] at *
    omega
  have hempty : ∀ k, 4096 ≤ k → k < 0xFE000 → ¬ present (m.pte p.pgdir k) := by
    intro k hk1 hk2
    rw [h.kernel k (by simp only [userPages]; omega) (by omega), kernelEntry,
      if_neg (by simp only [userPages]; omega)]
    exact not_present_zero
  have huser : ∀ k < userPages, ¬ present (m.pte p.pgdir k) := by
    intro k hk
    rw [h.user k hk, hsz]
    exact Nat.not_lt_zero k
  rw [Vm.deallocuvm, hlast, pgroundup]
  refine run_bind_error ?_
  by_cases hwrap : 2 ^ 32 - pgsize < newsz
  · have hzero : (newsz + pgsize - 1) % uintSize / pgsize = 0 := by
      simp only [pgsize, uintSize] at *
      omega
    rw [hzero]
    obtain ⟨hpresent, hram⟩ := hentry userPages (.inr rfl)
    exact deallocLoop_panics (fun k _ hk => huser k hk) (Nat.zero_le _) (by decide) (by decide) hpresent
      hram (by decide)
  · have hrange : 2 ^ 19 ≤ (newsz + pgsize - 1) % uintSize / pgsize ∧
        (newsz + pgsize - 1) % uintSize / pgsize < 2 ^ 20 := by
      simp only [pgsize, uintSize] at *
      omega
    generalize (newsz + pgsize - 1) % uintSize / pgsize = i at hrange ⊢
    obtain ⟨hpresent, hram⟩ := hentry (max i 0xFE000) (.inl (by omega))
    exact deallocLoop_panics (fun k hk1 hk2 => hempty k (by omega) (by omega)) (Nat.le_max_left _ _)
      (by omega) (by decide) hpresent hram (by simp only [maxTurns]; omega)

/-- When nothing would be left of the process, its pages are freed although `sbrk` fails. -/
theorem not_shrinks_zero {n : Int} (h : Live m role p) (hpos : 0 < p.sz) (hzero : p.sz + n = 0) :
    ¬ Shrinks m n p := by
  have huint : toUint (p.sz + n) = 0 := by
    rw [hzero]
    decide
  obtain ⟨m', role', hrun, hclears⟩ := deallocuvm_clears h.tree h.pool h.low hpos h.size
  rw [← huint] at hrun
  have hsbrk := sysSbrk_neg (by omega) hrun
  rw [if_pos huint] at hsbrk
  intro ⟨r, q, m'', hrun', hcase⟩
  rw [hsbrk] at hrun'
  obtain ⟨hres, rfl⟩ := Prod.mk.inj (Except.ok.inj hrun')
  obtain ⟨rfl, -⟩ := Prod.mk.inj hres
  rcases hcase with ⟨-, -, -, hpte⟩ | ⟨hr, -⟩
  · have hpresent := (h.user 0 (by decide)).mpr (pagesOf_pos hpos)
    rw [← hpte 0 (by decide)] at hpresent
    exact hclears.cleared 0 (Nat.zero_le _) (pagesOf_pos hpos) hpresent
  · omega

/-- When less than nothing would be left of the process, its size stays and `sbrk` succeeds, or the kernel
panics. -/
theorem not_shrinks_neg {n : Int} (h : Live m role p) (hmin : -2 ^ 31 ≤ n) (hneg : p.sz + n < 0) :
    ¬ Shrinks m n p := by
  have hsize := h.size
  have htop : userTop = 655360 := rfl
  have huint : toUint (p.sz + n) = (2 ^ 32 + p.sz + n).toNat := by
    unfold toUint
    omega
  intro ⟨r, q, m', hrun, hcase⟩
  cases hdealloc : Vm.deallocuvm p.pgdir p.sz (toUint (p.sz + n)) m with
  | error stop =>
    rw [sysSbrk_neg_error (by omega) hdealloc] at hrun
    cases hrun
  | ok y =>
    by_cases hsz : p.sz = 0
    · rw [h.deallocuvm_zero hsz (by omega) (by omega)] at hdealloc
      cases hdealloc
    · have hvalue := deallocuvm_value (show _ = Except.ok (y.1, y.2) from hdealloc)
      rw [if_neg (by omega)] at hvalue
      rw [sysSbrk_neg (by omega) (show _ = Except.ok (y.1, y.2) from hdealloc), if_neg (by omega)] at hrun
      obtain ⟨hres, -⟩ := Prod.mk.inj (Except.ok.inj hrun)
      obtain ⟨rfl, rfl⟩ := Prod.mk.inj hres
      have hint : toInt p.sz = p.sz := toInt_of_lt (by omega)
      rcases hcase with ⟨hr, -⟩ | ⟨-, -, hq, -⟩
      · omega
      · rw [hvalue] at hq
        omega

/-- What `sbrk` with a positive argument should do: add zeroed pages, or fail and leave the pages of the process
and the set of free pages as they were. -/
def Grows (m : Mem) (n : Int) (p : Proc) : Prop :=
  ∃ r q m', sysSbrk n p m = .ok ((r, q), m') ∧
    (r = p.sz ∧ q.pgdir = p.pgdir ∧ (q.sz : Int) = p.sz + n ∧ q.sz ≤ userTop ∧
        (∀ k < userPages, present (m'.pte p.pgdir k) ↔ k < pagesOf q.sz) ∧
        (∀ va < pagesOf p.sz * pgsize, m'.byte p.pgdir va = m.byte p.pgdir va) ∧
        (∀ va, pagesOf p.sz * pgsize ≤ va → va < pagesOf q.sz * pgsize → m'.byte p.pgdir va = some 0) ∨
      r = -1 ∧ q = p ∧ (∀ k < 2 ^ 20, present (m'.pte p.pgdir k) ↔ present (m.pte p.pgdir k)) ∧
        (∀ k < 2 ^ 20, present (m.pte p.pgdir k) → m'.pte p.pgdir k = m.pte p.pgdir k) ∧
        (∀ va < userTop, m'.byte p.pgdir va = m.byte p.pgdir va) ∧ ∀ pg, pg ∈ m'.free ↔ pg ∈ m.free)

theorem sysSbrk_pos {n : Int} {x : Nat} (hn : 0 < n)
    (hrun : allocuvm p.pgdir p.sz (toUint (p.sz + n)) m = .ok (x, m')) :
    sysSbrk n p m = .ok (if x = 0 then (-1, p) else (toInt p.sz, { p with sz := x }), m') := by
  have hgrow : growproc n p m = .ok (if x = 0 then none else some { p with sz := x }, m') := by
    rw [growproc, if_pos hn, run_bind hrun]
    rfl
  rw [sysSbrk, run_bind hgrow]
  by_cases hx : x = 0
  · rw [if_pos hx, if_pos hx]
    rfl
  · rw [if_neg hx, if_neg hx]
    rfl

theorem Restores.fails {n : Int} (h : Live m role p) (hn : 0 < n)
    (hrun : allocuvm p.pgdir p.sz (toUint (p.sz + n)) m = .ok (0, m')) (hr : Restores p.pgdir m role m') :
    Grows m n p := by
  refine ⟨-1, p, m', sysSbrk_pos hn hrun, .inr ⟨rfl, rfl, hr.presence, hr.pte, fun va hva => ?_, fun pg => ?_⟩⟩
  · exact hr.byte h.tree (div_lt_userPages hva)
  · rw [hr.pool.free pg, h.pool.free pg]

/-- The pages up to the new size have been added. -/
theorem Adds.grows {newsz : Nat} (h : Live m role p) (hlt : p.sz < newsz)
    (ha : Adds p.pgdir (pagesOf p.sz) (pagesOf newsz) m role m' role') :
    (∀ k < userPages, present (m'.pte p.pgdir k) ↔ k < pagesOf newsz) ∧
      (∀ va < pagesOf p.sz * pgsize, m'.byte p.pgdir va = m.byte p.pgdir va) ∧
      ∀ va, pagesOf p.sz * pgsize ≤ va → va < pagesOf newsz * pgsize → m'.byte p.pgdir va = some 0 := by
  have hmono := pagesOf_mono hlt.le
  have hpages := pagesOf_le h.size
  refine ⟨fun k hk => ?_, fun va hva => ?_, fun va hlo hhi => ?_⟩
  · by_cases hin : pagesOf p.sz ≤ k ∧ k < pagesOf newsz
    · exact iff_of_true (ha.added k hin.1 hin.2).1 hin.2
    · rw [ha.pte k (lt_max hk) hin, h.user k hk]
      omega
  · have hlt := lt_pagesOf hva
    exact ha.byte h.tree (by omega) (by omega)
  · exact ha.byte_zero ((Nat.le_div_iff_mul_le (by decide)).mpr hlo) (lt_pagesOf hhi)

end Xv6.Vm
