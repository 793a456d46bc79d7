import Xv6.LibExcept
import Xv6.VmSpace

/-! Runs of the functions of vm.c on an address space, and `deallocuvm`, which clears a range of user pages. -/

namespace Xv6.Vm

open LibExcept LibWord Fs

variable {m m' : Mem} {role role' : Nat → Role} {d i k n pg : Nat}

/-! Running the code. -/

theorem kfree_run (hram : Ram pg) :
    kfree pg m = .ok ((), { m.setPage pg (fun _ => 1) with free := pg :: m.free }) := by
  have hnot : ¬ (pg * pgsize < 1024 * 1024 ∨ pg * pgsize ≥ phystop) := by
    obtain ⟨h1, h2⟩ := hram
    simp only [pgsize, phystop]
    omega
  rw [kfree, if_neg hnot]
  rfl

theorem kfree_panic (hram : ¬ Ram pg) : kfree pg m = .error (.panic "kfree") := by
  have hbad : pg * pgsize < 1024 * 1024 ∨ pg * pgsize ≥ phystop := by
    unfold Ram at hram
    simp only [pgsize, phystop]
    omega
  rw [kfree, if_pos hbad]
  rfl

theorem kalloc_nil (hfree : m.free = []) : kalloc m = .ok (none, m) := by
  show Except.ok m.kalloc = _
  rw [Mem.kalloc, hfree]

theorem kalloc_cons {rest : List Nat} (hfree : m.free = pg :: rest) :
    kalloc m = .ok (some pg, { m with free := rest }) := by
  show Except.ok m.kalloc = _
  rw [Mem.kalloc, hfree]

theorem pdx_page (hk : k < 2 ^ 20) : pdx (k * pgsize) = k / 1024 := by
  simp only [pdx, pgsize]
  omega

theorem ptx_page (k : Nat) : ptx (k * pgsize) = k % 1024 := by
  simp only [ptx, pgsize]
  omega

theorem walkpgdir_present {create : Bool} (hk : k < 2 ^ 20) (hpresent : present (m.pde d (k / 1024))) :
    walkpgdir d (k * pgsize) create m = .ok (some ⟨m.pde d (k / 1024) / pgsize, k % 1024⟩, m) := by
  have hword : present (m.word ⟨d, k / 1024⟩) := hpresent
  show (if present (m.word ⟨d, pdx (k * pgsize)⟩) then _ else _ : Code (Option Pte)) m = _
  rw [pdx_page hk, ptx_page, if_pos hword]
  rfl

theorem walkpgdir_absent (hk : k < 2 ^ 20) (habsent : ¬ present (m.pde d (k / 1024))) :
    walkpgdir d (k * pgsize) false m = .ok (none, m) := by
  have hword : ¬ present (m.word ⟨d, k / 1024⟩) := habsent
  show (if present (m.word ⟨d, pdx (k * pgsize)⟩) then _ else _ : Code (Option Pte)) m = _
  rw [pdx_page hk, if_neg hword]
  rfl

theorem pte_eq (hpresent : present (m.pde d (k / 1024))) :
    m.pte d k = m.word ⟨m.pde d (k / 1024) / pgsize, k % 1024⟩ := if_pos hpresent

/-- A page that is not there is passed over. -/
theorem deallocPage_absent (hk : k < 2 ^ 20) (habsent : ¬ present (m.pte d k)) :
    deallocPage d (k * pgsize) m = .ok ((), m) := by
  by_cases hpde : present (m.pde d (k / 1024))
  · rw [pte_eq hpde] at habsent
    rw [deallocPage, run_bind (walkpgdir_present hk hpde)]
    show (if present (m.word _) then _ else _ : Code Unit) m = _
    rw [if_neg habsent]
    rfl
  · rw [deallocPage, run_bind (walkpgdir_absent hk hpde)]
    rfl

theorem div_user (hk : k < userPages) : k / 1024 = 0 := by
  simp only [userPages] at hk
  omega

theorem mod_user (hk : k < userPages) : k % 1024 = k := by
  simp only [userPages] at hk
  omega

theorem lt_max (hk : k < userPages) : k < 2 ^ 20 := hk.trans (by decide)

theorem ram_ne_zero (hram : Ram pg) : pg ≠ 0 := by
  obtain ⟨h1, -⟩ := hram
  omega

theorem walkpgdir_user {create : Bool} (hlow : present (m.pde d 0)) (hk : k < userPages) :
    walkpgdir d (k * pgsize) create m = .ok (some ⟨m.low d, k⟩, m) := by
  have h : walkpgdir d (k * pgsize) create m = _ :=
    walkpgdir_present (lt_max hk) ((div_user hk).symm ▸ hlow)
  rw [div_user hk, mod_user hk] at h
  exact h

theorem word_user (hlow : present (m.pde d 0)) (hk : k < userPages) : m.word ⟨m.low d, k⟩ = m.pte d k := by
  have h : m.pte d k = _ := pte_eq ((div_user hk).symm ▸ hlow)
  rw [div_user hk, mod_user hk] at h
  exact h.symm

theorem deallocPage_present (hlow : present (m.pde d 0)) (hk : k < userPages)
    (hpte : m.pte d k = pg * pgsize + 7) (hram : Ram pg) :
    deallocPage d (k * pgsize) m = .ok ((), m.unmap d k pg) := by
  rw [deallocPage, run_bind (walkpgdir_user hlow hk)]
  show (if present (m.word ⟨m.low d, k⟩) then
    (if m.word ⟨m.low d, k⟩ / pgsize = 0 then _ else _) else _ : Code Unit) m = _
  rw [word_user hlow hk, hpte, if_pos (present_entry pg), entry_div, if_neg (ram_ne_zero hram)]
  exact (run_bind (kfree_run hram)).trans rfl

/-- `kfree` refuses the pages that are not in the pool. -/
theorem deallocPage_panic (hk : k < 2 ^ 20) (hpresent : present (m.pte d k))
    (hram : ¬ Ram (m.pte d k / pgsize)) : deallocPage d (k * pgsize) m = .error (.panic "kfree") := by
  have hpde : present (m.pde d (k / 1024)) := by
    by_contra habsent
    rw [Mem.pte, if_neg habsent] at hpresent
    exact not_present_zero hpresent
  rw [pte_eq hpde] at hpresent hram
  rw [deallocPage, run_bind (walkpgdir_present hk hpde)]
  show (if present (m.word _) then (if m.word _ / pgsize = 0 then _ else _) else _ : Code Unit) m = _
  rw [if_pos hpresent]
  by_cases hzero : m.word ⟨m.pde d (k / 1024) / pgsize, k % 1024⟩ / pgsize = 0
  · rw [if_pos hzero]
    rfl
  · rw [if_neg hzero]
    exact run_bind_error (kfree_panic hram)

/-! Clearing a range of user pages. -/

/-- The pages from `i` to below `n` have been unmapped. -/
structure Clears (d i n : Nat) (m : Mem) (role : Nat → Role) (m' : Mem) (role' : Nat → Role) : Prop where
  pool : Pool m' role'
  tree : Tree m' role' d
  frame : Frame d m role m' role'
  low : m'.pde d 0 = m.pde d 0
  cleared : ∀ k, i ≤ k → k < n → ¬ present (m'.pte d k)
  pte : ∀ k < 2 ^ 20, ¬ (i ≤ k ∧ k < n) → m'.pte d k = m.pte d k
  freed : ∀ pg k, i ≤ k → k < n → role pg = .user d k → role' pg = .free
  role_eq : ∀ pg, (∀ k, i ≤ k → k < n → role pg ≠ .user d k) → role' pg = role pg
  kept : ∀ pg k, role pg = .user d k → ¬ (i ≤ k ∧ k < n) → m'.page pg = m.page pg

theorem Clears.refl (ht : Tree m role d) (hpool : Pool m role) (hle : n ≤ i) : Clears d i n m role m role :=
  ⟨hpool, ht, .refl d m role, rfl, fun k h1 h2 => by omega, fun _ _ _ => rfl,
    fun pg k h1 h2 => by omega, fun _ _ => rfl, fun _ _ _ _ => rfl⟩

theorem user_of_pte (ht : Tree m role d) (hk : k < userPages) (hpte : m.pte d k = pg * pgsize + 7) :
    role pg = .user d k := by
  have h := (ht.user k hk (hpte ▸ present_entry pg)).1
  rw [hpte, entry_div] at h
  exact h

/-- One page more at the beginning. -/
theorem Unmaps.clears {m₁ : Mem} {role₁ : Nat → Role} (h : Unmaps d i pg m role m₁ role₁)
    (ht : Tree m role d) (hrole : role pg = .user d i) (h' : Clears d (i + 1) n m₁ role₁ m' role') (hi : i < n)
    (hn : n ≤ 2 ^ 20) : Clears d i n m role m' role' := by
  have hother : ∀ q, q ≠ pg → role₁ q = role q := by
    intro q hq
    rw [h.role_eq]
    exact Function.update_of_ne hq _ _
  have hpg : role₁ pg = .free := by
    rw [h.role_eq]
    exact Function.update_self _ _ _
  have hpg' : role' pg = .free := by
    refine (h'.role_eq pg fun k _ _ heq => ?_).trans hpg
    rw [hpg] at heq
    exact absurd heq Role.noConfusion
  refine ⟨h'.pool, h'.tree, h.frame.trans h'.frame, h'.low.trans h.low, ?_, ?_, ?_, ?_, ?_⟩
  · intro k hik hkn
    by_cases hk : k = i
    · have hpte := h'.pte k (by omega) (by omega)
      rw [hpte, h.pte k (by omega), if_pos hk]
      exact not_present_zero
    · exact h'.cleared k (by omega) hkn
  · intro k hk hnot
    rw [h'.pte k hk (by omega), h.pte k hk, if_neg (by omega)]
  · intro q k hik hkn hq
    by_cases hqpg : q = pg
    · rw [hqpg]
      exact hpg'
    · by_cases hk : k = i
      · -- Only one page is at place `i`.
        rw [hk] at hq
        have heq := (ht.userOf q i hq).2.symm.trans (ht.userOf pg i hrole).2
        refine absurd ?_ hqpg
        simp only [pgsize] at heq
        omega
      · exact h'.freed q k (by omega) hkn ((hother q hqpg).trans hq)
  · intro q hq
    have hqpg : q ≠ pg := by
      intro heq
      rw [heq] at hq
      exact hq i le_rfl hi hrole
    refine (h'.role_eq q fun k hik hkn => ?_).trans (hother q hqpg)
    rw [hother q hqpg]
    exact hq k (by omega) hkn
  · intro q k hq hnot
    have hqpg : q ≠ pg := by
      intro heq
      rw [heq, hrole] at hq
      have hk := (Role.user.inj hq).2
      omega
    rw [h'.kept q k ((hother q hqpg).trans hq) (by omega)]
    exact h.kept q k hq (by omega)

/-- A place at the beginning that is empty. -/
theorem Clears.skip (h : Clears d (i + 1) n m role m' role') (ht : Tree m role d) (hi : i < n) (hn : n ≤ 2 ^ 20)
    (habsent : ¬ present (m.pte d i)) : Clears d i n m role m' role' := by
  have hnone : ∀ q, role q ≠ .user d i := by
    intro q hq
    rw [(ht.userOf q i hq).2] at habsent
    exact habsent (present_entry q)
  refine ⟨h.pool, h.tree, h.frame, h.low, ?_, ?_, ?_, ?_, ?_⟩
  · intro k hik hkn
    by_cases hk : k = i
    · rw [hk, h.pte i (hi.trans_le hn) (by omega)]
      exact habsent
    · exact h.cleared k (by omega) hkn
  · exact fun k hk hnot => h.pte k hk (by omega)
  · intro q k hik hkn hq
    by_cases hk : k = i
    · rw [hk] at hq
      exact absurd hq (hnone q)
    · exact h.freed q k (by omega) hkn hq
  · exact fun q hq => h.role_eq q fun k hik hkn => hq k (by omega) hkn
  · exact fun q k hq hnot => h.kept q k hq (by omega)

theorem next_page (hi : i < userPages) : (i * pgsize + pgsize) % uintSize = (i + 1) * pgsize := by
  simp only [pgsize, uintSize, userPages] at *
  omega

theorem user_addr (hk : k < userPages) : k * pgsize % uintSize = k * pgsize := by
  refine Nat.mod_eq_of_lt ?_
  simp only [pgsize, uintSize, userPages] at *
  omega

theorem page_le_iff {j : Nat} : i * pgsize ≤ j * pgsize ↔ i ≤ j := by
  simp only [pgsize]
  omega

theorem deallocLoop_clears {turns : Nat} (ht : Tree m role d) (hpool : Pool m role) (hlow : present (m.pde d 0))
    (hn : n ≤ userPages) (hpos : 0 < n) (hturns : n - i < turns) :
    ∃ m' role', deallocLoop d ((n - 1) * pgsize) turns (i * pgsize) m = .ok ((), m') ∧
      Clears d i n m role m' role' := by
  have hmax : n ≤ 2 ^ 20 := hn.trans (by decide)
  induction turns generalizing i m role with
  | zero => omega
  | succ turns ih =>
    by_cases hi : i < n
    · have hle : i * pgsize ≤ (n - 1) * pgsize := page_le_iff.mpr (by omega)
      have hiu : i < userPages := by omega
      by_cases hpresent : present (m.pte d i)
      · obtain ⟨hrole, hmod⟩ := ht.user i hiu hpresent
        have hpte : m.pte d i = m.pte d i / pgsize * pgsize + 7 := by
          have hdiv := Nat.div_add_mod' (m.pte d i) pgsize
          omega
        have hram := hpool.ram _ (.inr (by rw [hrole]; exact Option.some_ne_none d))
        have hunmap := ht.unmap hpool hlow hiu hpte
        obtain ⟨m', role', hrun, hclears⟩ := ih hunmap.tree hunmap.pool (hunmap.low.symm ▸ hlow)
          (i := i + 1) (by omega)
        refine ⟨m', role', ?_, hunmap.clears ht hrole hclears hi hmax⟩
        rw [deallocLoop, if_pos hle, run_bind (deallocPage_present hlow hiu hpte hram), next_page hiu]
        exact hrun
      · obtain ⟨m', role', hrun, hclears⟩ := ih ht hpool hlow (i := i + 1) (by omega)
        refine ⟨m', role', ?_, hclears.skip ht hi hmax hpresent⟩
        rw [deallocLoop, if_pos hle, run_bind (deallocPage_absent (by omega) hpresent), next_page hiu]
        exact hrun
    · refine ⟨m, role, ?_, .refl ht hpool (by omega)⟩
      rw [deallocLoop, if_neg fun hle => hi ?_]
      · rfl
      · have := page_le_iff.mp hle
        omega

/-- The loop comes, over places that are empty, to a page that is not in the pool. -/
theorem deallocLoop_panics {turns j last : Nat} (hempty : ∀ k, i ≤ k → k < j → ¬ present (m.pte d k))
    (hij : i ≤ j) (hj : j ≤ last) (hlast : last < 2 ^ 20) (hpresent : present (m.pte d j))
    (hram : ¬ Ram (m.pte d j / pgsize)) (hturns : j - i < turns) :
    deallocLoop d (last * pgsize) turns (i * pgsize) m = .error (.panic "kfree") := by
  induction turns generalizing i with
  | zero => omega
  | succ turns ih =>
    rw [deallocLoop, if_pos (page_le_iff.mpr (by omega))]
    by_cases hi : i = j
    · rw [hi]
      exact run_bind_error (deallocPage_panic (by omega) hpresent hram)
    · have hnext : (i * pgsize + pgsize) % uintSize = (i + 1) * pgsize := by
        simp only [pgsize, uintSize]
        omega
      rw [run_bind (deallocPage_absent (by omega) (hempty i le_rfl (by omega))), hnext]
      exact ih (fun k hk => hempty k (by omega)) (by omega) (by omega)

/-! Sizes. -/

/-- The number of pages of a size. -/
def pagesOf (sz : Nat) : Nat := (sz + pgsize - 1) / pgsize

theorem pagesOf_le {sz : Nat} (h : sz ≤ userTop) : pagesOf sz ≤ userPages := by
  simp only [pagesOf, pgsize, userTop, userPages] at *
  omega

theorem pagesOf_mono {a b : Nat} (h : a ≤ b) : pagesOf a ≤ pagesOf b :=
  Nat.div_le_div_right (by omega)

theorem pgroundup_eq {sz : Nat} (h : sz ≤ userTop) : pgroundup sz = pagesOf sz * pgsize := by
  rw [pgroundup, pagesOf, Nat.mod_eq_of_lt]
  simp only [pgsize, userTop, uintSize] at *
  omega

theorem pgrounddown_pred {sz : Nat} (hpos : 0 < sz) (h : sz ≤ userTop) :
    pgrounddown ((sz + uintSize - 1) % uintSize) = (pagesOf sz - 1) * pgsize := by
  simp only [pgrounddown, pagesOf, pgsize, userTop, uintSize] at *
  omega

theorem pagesOf_pos {sz : Nat} (hpos : 0 < sz) : 0 < pagesOf sz := by
  simp only [pagesOf, pgsize]
  omega

theorem maxTurns_eq : maxTurns = 2 ^ 20 - 1 + 2 := by decide

theorem userPages_lt_maxTurns : userPages < maxTurns := by decide

theorem lt_pagesOf {va sz : Nat} (h : va < pagesOf sz * pgsize) : va / pgsize < pagesOf sz :=
  (Nat.div_lt_iff_lt_mul (by decide)).mpr h

theorem deallocuvm_clears {oldsz newsz : Nat} (ht : Tree m role d) (hpool : Pool m role)
    (hlow : present (m.pde d 0)) (hnew : newsz < oldsz) (hold : oldsz ≤ userTop) :
    ∃ m' role', deallocuvm d oldsz newsz m = .ok (newsz, m') ∧
      Clears d (pagesOf newsz) (pagesOf oldsz) m role m' role' := by
  have hpages := pagesOf_le hold
  have hturns : pagesOf oldsz - pagesOf newsz < maxTurns :=
    (Nat.sub_le _ _).trans_lt (hpages.trans_lt userPages_lt_maxTurns)
  obtain ⟨m', role', hrun, hclears⟩ :=
    deallocLoop_clears ht hpool hlow hpages (pagesOf_pos (by omega)) hturns
  refine ⟨m', role', ?_, hclears⟩
  rw [deallocuvm, pgrounddown_pred (by omega) hold, pgroundup_eq (by omega), run_bind hrun, if_pos hnew]
  rfl

/-! Bytes. -/

/-- The byte at a user address, if its page is present. -/
def Mem.byte (m : Mem) (d va : Nat) : Option UInt8 :=
  if present (m.pte d (va / pgsize)) then some (m.page (m.pte d (va / pgsize) / pgsize) (va % pgsize)) else none

theorem div_lt_userPages {va : Nat} (h : va < userTop) : va / pgsize < userPages := by
  simp only [userTop, pgsize, userPages] at *
  omega

/-- Outside of the range cleared the bytes are the same. -/
theorem Clears.byte {va : Nat} (h : Clears d i n m role m' role') (ht : Tree m role d)
    (hva : va / pgsize < userPages) (hnot : ¬ (i ≤ va / pgsize ∧ va / pgsize < n)) :
    m'.byte d va = m.byte d va := by
  unfold Mem.byte
  rw [h.pte _ (lt_max hva) hnot]
  by_cases hpresent : present (m.pte d (va / pgsize))
  · rw [if_pos hpresent, if_pos hpresent, h.kept _ _ (ht.user _ hva hpresent).1 hnot]
  · rw [if_neg hpresent, if_neg hpresent]

end Xv6.Vm
