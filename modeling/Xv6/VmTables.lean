import Xv6.VmMap

/-! Page directories and page tables. `walkpgdir` makes tables on its way, `setupkvm` builds an address space that
has the mappings of the kernel, and `freevm` gives an address space up. -/

namespace Xv6.Vm

open LibExcept LibWord Fs Function

variable {m m' : Mem} {role role' : Nat → Role} {d i j k n pg r c : Nat} {rest : List Nat}

/-! Adding a table. -/

/-- Page `r`, zeroed, becomes the table for entry `i` of the directory. -/
def Mem.addTable (m : Mem) (d i r : Nat) (rest : List Nat) : Mem :=
  ({ m with free := rest }.setPage r Block.zero).setWord ⟨d, i⟩ (r * pgsize + 7)

theorem walkpgdir_create (hk : k < 2 ^ 20) (habsent : ¬ present (m.pde d (k / 1024))) (hfree : m.free = r :: rest) :
    walkpgdir d (k * pgsize) true m = .ok (some ⟨r, k % 1024⟩, m.addTable d (k / 1024) r rest) := by
  have hword : ¬ present (m.word ⟨d, k / 1024⟩) := habsent
  show (if present (m.word ⟨d, pdx (k * pgsize)⟩) then _ else _ : Code (Option Pte)) m = _
  rw [pdx_page hk, ptx_page, if_neg hword, if_neg (by decide), run_bind (kalloc_cons hfree)]
  show Except.ok (_, Mem.setWord _ _ (r * pgsize ||| PTE_P ||| PTE_W ||| PTE_U)) = _
  rw [Nat.or_assoc, Nat.or_assoc, or_low r (show PTE_P ||| (PTE_W ||| PTE_U) < pgsize by decide)]
  rfl

theorem walkpgdir_full (hk : k < 2 ^ 20) (habsent : ¬ present (m.pde d (k / 1024))) (hfree : m.free = []) :
    walkpgdir d (k * pgsize) true m = .ok (none, m) := by
  have hword : ¬ present (m.word ⟨d, k / 1024⟩) := habsent
  show (if present (m.word ⟨d, pdx (k * pgsize)⟩) then _ else _ : Code (Option Pte)) m = _
  rw [pdx_page hk, if_neg hword, if_neg (by decide), run_bind (kalloc_nil hfree)]
  rfl

/-- Tables have been added to the address space, from the first `c` free pages. -/
structure Builds (d c : Nat) (m : Mem) (role : Nat → Role) (m' : Mem) (role' : Nat → Role) : Prop where
  pool : Pool m' role'
  tree : Tree m' role' d
  frame : Frame d m role m' role'
  free : m'.free = m.free.drop c
  roles : ∀ pg, role' pg = role pg ∨ role pg = .free ∧ ∃ i, role' pg = .table d i

theorem Builds.refl (ht : Tree m role d) (hpool : Pool m role) : Builds d 0 m role m role :=
  ⟨hpool, ht, .refl d m role, rfl, fun _ => .inl rfl⟩

theorem Builds.trans {c' : Nat} {m₁ : Mem} {role₁ : Nat → Role} (h : Builds d c m role m₁ role₁)
    (h' : Builds d c' m₁ role₁ m' role') : Builds d (c + c') m role m' role' := by
  refine ⟨h'.pool, h'.tree, h.frame.trans h'.frame, ?_, fun q => ?_⟩
  · rw [h'.free, h.free, List.drop_drop]
  · grind [h.roles, h'.roles]

theorem addTable_pde (hd : d ≠ r) (hr : r * pgsize + 7 < uintSize) (j : Nat) :
    (m.addTable d i r rest).pde d j = if j = i then r * pgsize + 7 else m.pde d j := by
  have hpage : (m.addTable d i r rest).page d = (m.page d).setWord i (r * pgsize + 7) :=
    (update_self _ _ _).trans (congrArg (fun b => Block.setWord b i _) (setPage_of_ne _ hd))
  rw [Mem.pde, Mem.word, hpage]
  by_cases hj : j = i
  · rw [if_pos hj, hj]
    exact word_setWord_self hr
  · rw [if_neg hj]
    exact word_setWord_of_ne hj

theorem entry_lt (hram : Ram r) : r * pgsize + 7 < uintSize := by
  obtain ⟨-, h⟩ := hram
  simp only [pgsize, uintSize]
  omega

theorem addTable_page (hpg : pg ≠ d) (hr : pg ≠ r) : (m.addTable d i r rest).page pg = m.page pg :=
  (setWord_of_ne _ hpg).trans (setPage_of_ne _ hr)

section AddTable

variable (ht : Tree m role d) (hpool : Pool m role) (habsent : ¬ present (m.pde d i)) (hfree : m.free = r :: rest)
include ht hpool habsent hfree

theorem Tree.addTable_pte (hk : k < 2 ^ 20) : (m.addTable d i r rest).pte d k = m.pte d k := by
  have hrfree : role r = .free := (hpool.free r).mp (hfree ▸ List.mem_cons_self)
  have hd : d ≠ r := by
    intro heq
    have h := ht.dir
    rw [heq, hrfree] at h
    cases h
  have hpde : (m.addTable d i r rest).pde d (k / 1024) = _ :=
    addTable_pde hd (entry_lt (hpool.ram r (.inl hrfree))) (k / 1024)
  unfold Mem.pte
  rw [hpde]
  by_cases hi : k / 1024 = i
  · have hpage : (m.addTable d i r rest).page r = Block.zero :=
      (setWord_of_ne _ hd.symm).trans (setPage_self _ _ _)
    rw [if_pos hi, if_pos (present_entry r), entry_div, hi, if_neg habsent, Mem.word, hpage]
    exact zero_word
  · rw [if_neg hi]
    by_cases hpresent : present (m.pde d (k / 1024))
    · have hrole := (ht.table _ (by omega) hpresent).1
      have hne : ∀ x, role x ≠ .table d (k / 1024) → m.pde d (k / 1024) / pgsize ≠ x := by
        intro x hx heq
        rw [heq] at hrole
        exact hx hrole
      rw [if_pos hpresent, if_pos hpresent, Mem.word, addTable_page (hne d ?_) (hne r ?_)]
      · rfl
      · rw [ht.dir]
        exact Role.noConfusion
      · rw [hrfree]
        exact Role.noConfusion
    · rw [if_neg hpresent, if_neg hpresent]

theorem Tree.addTable (hi : i < 1024) :
    Builds d 1 m role (m.addTable d i r rest) (update role r (.table d i)) := by
  have hrfree : role r = .free := (hpool.free r).mp (hfree ▸ List.mem_cons_self)
  have hne : ∀ q, role q ≠ .free → q ≠ r := by
    intro q hq heq
    rw [heq] at hq
    exact hq hrfree
  have hrole : ∀ q, q ≠ r → update role r (.table d i) q = role q := fun q hq =>
    update_of_ne hq _ _
  have hd : d ≠ r := hne d (by rw [ht.dir]; exact Role.noConfusion)
  have hpde : ∀ j, (m.addTable d i r rest).pde d j = if j = i then r * pgsize + 7 else m.pde d j :=
    addTable_pde hd (entry_lt (hpool.ram r (.inl hrfree)))
  have hpte : ∀ k < userPages, (m.addTable d i r rest).pte d k = m.pte d k := fun k hk =>
    ht.addTable_pte hpool habsent hfree (lt_max hk)
  refine ⟨?_, ⟨?_, ?_, ?_, ?_, ?_⟩, ⟨?_, ?_⟩, ?_, ?_⟩
  · refine hpool.kalloc hfree Role.noConfusion (fun e he => .inl ?_) (fun e he => by cases he) rfl
    rw [← Option.some.inj he]
    exact ht.dir
  · rw [hrole d hd]
    exact ht.dir
  · intro j hj hpresent
    rw [hpde] at hpresent ⊢
    by_cases hji : j = i
    · rw [if_pos hji, entry_div, update_self, hji]
      exact ⟨rfl, entry_mod r⟩
    · grind [ht.table]
  · intro q j hq
    rw [hpde]
    by_cases hqr : q = r
    · grind
    · rw [hrole q hqr] at hq
      obtain ⟨hj, heq⟩ := ht.tableOf q j hq
      have hji : j ≠ i := by
        intro hji
        rw [hji] at heq
        rw [heq] at habsent
        exact habsent (present_entry q)
      rw [if_neg hji]
      exact ⟨hj, heq⟩
  · grind [ht.user]
  · grind [ht.userOf]
  · intro q hq howner
    have hqd : q ≠ d := by
      intro heq
      rw [heq, ht.dir] at howner
      exact howner rfl
    exact ⟨hrole q (hne q hq), addTable_page hqd (hne q hq)⟩
  · intro q hq howner
    refine hrole q fun heq => howner ?_
    rw [heq, update_self]
    rfl
  · rw [hfree]
    rfl
  · grind

end AddTable

/-! Mapping a range for the kernel. -/

/-- An entry for the kernel is written. -/
theorem Tree.enter {w : Nat} (ht : Tree m role d) (hpool : Pool m role) (hk : userPages ≤ k) (hk' : k < 2 ^ 20)
    (hpresent : present (m.pde d (k / 1024))) (hw : w < uintSize) :
    Builds d 0 m role (m.setWord ⟨m.pde d (k / 1024) / pgsize, k % 1024⟩ w) role ∧
      (∀ j < 2 ^ 20, (m.setWord ⟨m.pde d (k / 1024) / pgsize, k % 1024⟩ w).pte d j =
        if j = k then w else m.pte d j) ∧
      ∀ j, (m.setWord ⟨m.pde d (k / 1024) / pgsize, k % 1024⟩ w).pde d j = m.pde d j := by
  have hrole := (ht.table (k / 1024) (by omega) hpresent).1
  generalize m.pde d (k / 1024) / pgsize = t at hrole
  have hdir : (m.setWord ⟨t, k % 1024⟩ w).page d = m.page d := by
    refine setWord_of_ne w fun heq => ?_
    have hd := ht.dir
    rw [show d = t from heq, hrole] at hd
    cases hd
  have hpde := pde_congr hdir
  have hpte : ∀ j < 2 ^ 20, (m.setWord ⟨t, k % 1024⟩ w).pte d j = if j = k then w else m.pte d j := by
    intro j hj
    rw [ht.pte_setWord hrole (by omega) hw hj, show 1024 * (k / 1024) + k % 1024 = k by omega]
  have huser : ∀ j < userPages, (m.setWord ⟨t, k % 1024⟩ w).pte d j = m.pte d j := by
    intro j hj
    rw [hpte j (lt_max hj), if_neg (by omega)]
  refine ⟨⟨hpool.setPages rfl, ⟨ht.dir, ?_, ?_, ?_, ?_⟩, ⟨?_, fun _ _ _ => rfl⟩, rfl, fun _ => .inl rfl⟩, hpte,
    hpde⟩
  · intro j hj hpresent
    rw [hpde] at hpresent ⊢
    exact ht.table j hj hpresent
  · intro q j hq
    rw [hpde]
    exact ht.tableOf q j hq
  · intro j hj hpresent
    rw [huser j hj] at hpresent ⊢
    exact ht.user j hj hpresent
  · intro q j hq
    obtain ⟨hj, heq⟩ := ht.userOf q j hq
    exact ⟨hj, (huser j hj).trans heq⟩
  · intro q hq howner
    refine ⟨rfl, setWord_of_ne w fun heq => howner ?_⟩
    rw [show q = t from heq, hrole]
    rfl

/-- The pages from `i` to below `n` have been mapped for the kernel. -/
structure Enters (d i n c : Nat) (m : Mem) (role : Nat → Role) (m' : Mem) (role' : Nat → Role) : Prop where
  builds : Builds d c m role m' role'
  pte : ∀ k < 2 ^ 20, m'.pte d k = if i ≤ k ∧ k < n then k * pgsize + 3 else m.pte d k
  pde : ∀ j < 1024, present (m'.pde d j) ↔ present (m.pde d j) ∨ i / 1024 ≤ j ∧ j ≤ (n - 1) / 1024

theorem Enters.trans {l c' : Nat} {m₁ : Mem} {role₁ : Nat → Role} (h : Enters d i l c m role m₁ role₁)
    (h' : Enters d l n c' m₁ role₁ m' role') (hil : i < l) (hln : l < n) :
    Enters d i n (c + c') m role m' role' := by
  refine ⟨h.builds.trans h'.builds, fun k hk => ?_, fun j hj => ?_⟩
  · grind [h'.pte, h.pte]
  · rw [h'.pde j hj, h.pde j hj, or_assoc]
    refine or_congr_right ?_
    omega

/-- The number of tables missing for the pages from `i` to below `n`, of which at most the first exists. -/
def Mem.missing (m : Mem) (d i n : Nat) : Nat :=
  (n - 1) / 1024 - i / 1024 + if present (m.pde d (i / 1024)) then 0 else 1

/-- A turn of the loop of `mappages`, once the table is there. -/
theorem mapLoop_walk {turns last : Nat}
    (hwalk : walkpgdir d (k * pgsize) true m = .ok (some ⟨m'.pde d (k / 1024) / pgsize, k % 1024⟩, m'))
    (hpresent : present (m'.pde d (k / 1024))) (habsent : ¬ present (m'.pte d k)) :
    mapLoop d last PTE_W (turns + 1) (k * pgsize) (k * pgsize) m =
      if k * pgsize = last then
        .ok (true, m'.setWord ⟨m'.pde d (k / 1024) / pgsize, k % 1024⟩ (k * pgsize + 3))
      else mapLoop d last PTE_W turns ((k * pgsize + pgsize) % uintSize) ((k * pgsize + pgsize) % uintSize)
        (m'.setWord ⟨m'.pde d (k / 1024) / pgsize, k % 1024⟩ (k * pgsize + 3)) := by
  rw [pte_eq hpresent] at habsent
  rw [mapLoop, run_bind hwalk]
  show (if present (m'.word _) then _ else _ : Code Bool) m' = _
  rw [if_neg habsent, Nat.or_assoc, or_low k (show PTE_W ||| PTE_P < pgsize by decide)]
  by_cases hlast : k * pgsize = last
  · rw [if_pos hlast, if_pos hlast]
    rfl
  · rw [if_neg hlast, if_neg hlast]
    rfl

theorem kernel_entry_lt (hk : k < 2 ^ 20) : k * pgsize + 3 < uintSize := by
  simp only [pgsize, uintSize]
  omega

theorem missing_one (m : Mem) (d k : Nat) :
    m.missing d k (k + 1) = if present (m.pde d (k / 1024)) then 0 else 1 := by
  rw [Mem.missing, Nat.add_sub_cancel, Nat.sub_self, Nat.zero_add]

/-- A turn of the loop of `mappages`. -/
theorem mapLoop_turn (ht : Tree m role d) (hpool : Pool m role) (hk : userPages ≤ k) (hk' : k < 2 ^ 20)
    (habsent : ¬ present (m.pte d k)) (henough : m.missing d k (k + 1) ≤ m.free.length) :
    ∃ m' role', Enters d k (k + 1) (m.missing d k (k + 1)) m role m' role' ∧ ∀ last turns,
      mapLoop d last PTE_W (turns + 1) (k * pgsize) (k * pgsize) m =
        if k * pgsize = last then .ok (true, m')
        else mapLoop d last PTE_W turns ((k * pgsize + pgsize) % uintSize) ((k * pgsize + pgsize) % uintSize) m' := by
  have hentry : ∀ j, (j = k ↔ k ≤ j ∧ j < k + 1) := fun j => by omega
  by_cases hpresent : present (m.pde d (k / 1024))
  · obtain ⟨hbuilds, hpte, hpde⟩ := ht.enter hpool hk hk' hpresent (kernel_entry_lt hk')
    refine ⟨_, role, ⟨?_, fun j hj => ?_, fun j hj => ?_⟩, fun last turns =>
      mapLoop_walk (walkpgdir_present hk' hpresent) hpresent habsent⟩
    · rw [missing_one, if_pos hpresent]
      exact hbuilds
    · grind
    · rw [hpde j, Nat.add_sub_cancel]
      refine ⟨.inl, fun h => h.elim id fun hj => ?_⟩
      rw [show j = k / 1024 by omega]
      exact hpresent
  · rw [missing_one, if_neg hpresent] at henough
    obtain ⟨r, rest, hfree⟩ : ∃ r rest, m.free = r :: rest :=
      List.exists_cons_of_length_pos (by omega)
    have hrfree : role r = .free := (hpool.free r).mp (hfree ▸ List.mem_cons_self)
    have hd : d ≠ r := by
      intro heq
      have h := ht.dir
      rw [heq, hrfree] at h
      cases h
    have htables := ht.addTable hpool hpresent hfree (by omega)
    have hpde₁ : ∀ j, (m.addTable d (k / 1024) r rest).pde d j = if j = k / 1024 then r * pgsize + 7 else m.pde d j :=
      addTable_pde hd (entry_lt (hpool.ram r (.inl hrfree)))
    have hpte₁ : ∀ j < 2 ^ 20, (m.addTable d (k / 1024) r rest).pte d j = m.pte d j := fun j hj =>
      ht.addTable_pte hpool hpresent hfree hj
    have hpresent₁ : present ((m.addTable d (k / 1024) r rest).pde d (k / 1024)) := by
      rw [hpde₁, if_pos rfl]
      exact present_entry r
    have hwalk := walkpgdir_create hk' hpresent hfree
    have hr : r = (m.addTable d (k / 1024) r rest).pde d (k / 1024) / pgsize := by
      rw [hpde₁, if_pos rfl, entry_div]
    nth_rewrite 1 [hr] at hwalk
    obtain ⟨hbuilds, hpte, hpde⟩ :=
      htables.tree.enter htables.pool hk hk' hpresent₁ (kernel_entry_lt hk')
    refine ⟨_, update role r (.table d (k / 1024)), ⟨?_, fun j hj => ?_, fun j hj => ?_⟩,
      fun last turns => mapLoop_walk hwalk hpresent₁ (by rw [hpte₁ k hk']; exact habsent)⟩
    · rw [missing_one, if_neg hpresent]
      exact htables.trans hbuilds
    · grind
    · grind

/-- Without a free page for the table the loop ends. -/
theorem mapLoop_full {last turns : Nat} (hk' : k < 2 ^ 20) (hnot : ¬ m.missing d k (k + 1) ≤ m.free.length) :
    m.free = [] ∧ mapLoop d last PTE_W (turns + 1) (k * pgsize) (k * pgsize) m = .ok (false, m) := by
  rw [missing_one] at hnot
  by_cases hpresent : present (m.pde d (k / 1024))
  · rw [if_pos hpresent] at hnot
    omega
  · rw [if_neg hpresent] at hnot
    have hfree : m.free = [] := List.length_eq_zero_iff.mp (by omega)
    refine ⟨hfree, ?_⟩
    rw [mapLoop, run_bind (walkpgdir_full hk' hpresent hfree)]
    rfl

/-- The tables missing for a range are that of the first page and those of the others. -/
theorem Enters.missing (h : Enters d i (i + 1) c m role m' role') (hin : i + 1 < n) (hn : n ≤ 2 ^ 20)
    (hpdes : ∀ j, i / 1024 < j → j ≤ (n - 1) / 1024 → ¬ present (m.pde d j)) :
    m.missing d i n = m.missing d i (i + 1) + m'.missing d (i + 1) n := by
  rw [missing_one, Mem.missing, Mem.missing]
  have hpde := h.pde ((i + 1) / 1024) (by omega)
  rw [Nat.add_sub_cancel] at hpde
  by_cases hsame : (i + 1) / 1024 = i / 1024
  · rw [hsame] at hpde ⊢
    rw [if_pos (hpde.mpr (.inr ⟨le_rfl, le_rfl⟩))]
    omega
  · grind

theorem mapLoop_spec {turns : Nat} (ht : Tree m role d) (hpool : Pool m role) (hi : userPages ≤ i) (hin : i < n)
    (hn : n ≤ 2 ^ 20) (hempty : ∀ k, i ≤ k → k < n → ¬ present (m.pte d k))
    (hpdes : ∀ j, i / 1024 < j → j ≤ (n - 1) / 1024 → ¬ present (m.pde d j)) (hturns : n - i ≤ turns) :
    if m.missing d i n ≤ m.free.length then
      ∃ m' role', mapLoop d ((n - 1) * pgsize) PTE_W turns (i * pgsize) (i * pgsize) m = .ok (true, m') ∧
        Enters d i n (m.missing d i n) m role m' role'
    else ∃ m' role', mapLoop d ((n - 1) * pgsize) PTE_W turns (i * pgsize) (i * pgsize) m = .ok (false, m') ∧
        Builds d m.free.length m role m' role' := by
  induction turns generalizing i m role with
  | zero => omega
  | succ turns ih =>
    by_cases henough : m.missing d i (i + 1) ≤ m.free.length
    · obtain ⟨m₁, role₁, henters, hrun⟩ :=
        mapLoop_turn ht hpool hi (by omega) (hempty i le_rfl hin) henough
      rw [hrun]
      by_cases hlast : i + 1 = n
      · grind
      · have hne : ¬ i * pgsize = (n - 1) * pgsize := by
          simp only [pgsize]
          omega
        have hnext : (i * pgsize + pgsize) % uintSize = (i + 1) * pgsize := by
          simp only [pgsize, uintSize]
          omega
        have hmissing := henters.missing (n := n) (by omega) hn hpdes
        have hstep := ih henters.builds.tree henters.builds.pool (by omega) (by omega : i + 1 < n)
          (fun k hk hkn => by
            rw [henters.pte k (by omega), if_neg (by omega)]
            exact hempty k (by omega) hkn)
          (fun j hj hjn => by
            rw [henters.pde j (by omega), Nat.add_sub_cancel]
            exact fun hor => hor.elim (hpdes j (by omega) hjn) (by omega))
          (by omega)
        have hlength : m₁.free.length = m.free.length - m.missing d i (i + 1) := by
          rw [henters.builds.free, List.length_drop]
        rw [if_neg hne, hnext]
        by_cases hall : m.missing d i n ≤ m.free.length
        · rw [if_pos (by omega)] at hstep
          rw [if_pos hall]
          obtain ⟨m', role', heq, henters'⟩ := hstep
          refine ⟨m', role', heq, ?_⟩
          rw [hmissing]
          exact henters.trans henters' (by omega) (by omega)
        · rw [if_neg (by omega)] at hstep
          rw [if_neg hall]
          obtain ⟨m', role', heq, hbuilds⟩ := hstep
          refine ⟨m', role', heq, ?_⟩
          have htrans := henters.builds.trans hbuilds
          rw [hlength, Nat.add_sub_cancel' henough] at htrans
          exact htrans
    · obtain ⟨hfree, hrun⟩ : m.free = [] ∧
          mapLoop d ((n - 1) * pgsize) PTE_W (turns + 1) (i * pgsize) (i * pgsize) m = .ok (false, m) :=
        mapLoop_full (by omega) henough
      have hnone : ¬ m.missing d i n ≤ m.free.length := by
        rw [missing_one] at henough
        unfold Mem.missing
        omega
      rw [if_neg hnone, hrun, hfree]
      exact ⟨m, role, rfl, .refl ht hpool⟩

/-! `setupkvm`. -/

/-- A zeroed free page as page directory. -/
theorem Pool.newDir (hpool : Pool m role) (hfree : m.free = d :: rest) :
    Pool ({ m with free := rest }.setPage d Block.zero) (update role d (.dir d)) ∧
      Tree ({ m with free := rest }.setPage d Block.zero) (update role d (.dir d)) d ∧
      Frame d m role ({ m with free := rest }.setPage d Block.zero) (update role d (.dir d)) ∧
      ∀ j, ({ m with free := rest }.setPage d Block.zero).pde d j = 0 := by
  have hdfree : role d = .free := (hpool.free d).mp (hfree ▸ List.mem_cons_self)
  have hrole : ∀ q, q ≠ d → update role d (.dir d) q = role q := fun q hq =>
    update_of_ne hq _ _
  have hpde : ∀ j, ({ m with free := rest }.setPage d Block.zero).pde d j = 0 := by
    intro j
    rw [Mem.pde, Mem.word, setPage_self]
    exact zero_word
  have hpte : ∀ k, ({ m with free := rest }.setPage d Block.zero).pte d k = 0 := by
    intro k
    rw [Mem.pte, hpde, if_neg not_present_zero]
  -- No page has belonged to the directory before.
  have hnone : ∀ q x, x.owner = some d → x ≠ .dir d → update role d (.dir d) q ≠ x := by grind [hpool.owned]
  refine ⟨?_, ⟨update_self _ _ _, ?_, ?_, ?_, ?_⟩, ⟨?_, ?_⟩, hpde⟩
  · exact hpool.kalloc hfree Role.noConfusion (fun e he => .inr ⟨rfl, (Option.some.inj he).symm⟩)
      (fun e he => Role.dir.inj he) rfl
  · intro j _ hpresent
    rw [hpde] at hpresent
    exact absurd hpresent not_present_zero
  · exact fun q j hq => absurd hq (hnone q _ rfl Role.noConfusion)
  · intro k _ hpresent
    rw [hpte] at hpresent
    exact absurd hpresent not_present_zero
  · exact fun q k hq => absurd hq (hnone q _ rfl Role.noConfusion)
  · intro q hq _
    have hqd : q ≠ d := by
      intro heq
      rw [heq] at hq
      exact hq hdfree
    exact ⟨hrole q hqd, setPage_of_ne _ hqd⟩
  · intro q _ howner
    refine hrole q fun heq => howner ?_
    rw [heq, update_self]
    rfl

theorem mappages_range {size : Nat} (hin : i < n) (hn : n ≤ 2 ^ 20) (hsize : size = (n - i) * pgsize) :
    mappages d (i * pgsize) size (i * pgsize) PTE_W =
      mapLoop d ((n - 1) * pgsize) PTE_W maxTurns (i * pgsize) (i * pgsize) := by
  have hlast : pgrounddown ((i * pgsize + size + uintSize - 1) % uintSize) = (n - 1) * pgsize := by
    rw [hsize]
    simp only [pgrounddown, pgsize, uintSize]
    omega
  have hfirst : pgrounddown (i * pgsize) = i * pgsize := by
    simp only [pgrounddown, pgsize]
    omega
  rw [mappages, hlast, hfirst]

/-- The entry the kernel has for a page in every address space. -/
def kernelEntry (k : Nat) : Nat :=
  if userPages ≤ k ∧ k < 4096 ∨ 0xFE000 ≤ k ∧ k < 2 ^ 20 then k * pgsize + 3 else 0

/-- An address space with the mappings of the kernel only has been built from free pages. -/
structure Kvm (d : Nat) (m : Mem) (role : Nat → Role) (m' : Mem) (role' : Nat → Role) : Prop where
  pool : Pool m' role'
  tree : Tree m' role' d
  frame : Frame d m role m' role'
  new : role d = .free
  pte : ∀ k < 2 ^ 20, m'.pte d k = kernelEntry k
  free : m'.free = m.free.drop 13

theorem Frame.kept_all (h : Frame d m role m' role') (hpool : Pool m role) (hd : role d = .free) :
    ∀ pg, role pg ≠ .free → role' pg = role pg ∧ m'.page pg = m.page pg := by
  intro pg hpg
  refine h.kept pg hpg fun howner => ?_
  have hdir := hpool.owned pg d howner
  rw [hd] at hdir
  cases hdir

theorem Builds.fails {m₁ : Mem} {role₁ : Nat → Role} (h : Builds d m₁.free.length m₁ role₁ m' role')
    (hframe : Frame d m role m₁ role₁) (hpool : Pool m role) (hd : role d = .free) :
    Pool m' role' ∧ m'.free = [] ∧ ∀ pg, role pg ≠ .free → role' pg = role pg ∧ m'.page pg = m.page pg := by
  refine ⟨h.pool, ?_, (hframe.trans h.frame).kept_all hpool hd⟩
  rw [h.free, List.drop_length]

/-- What `setupkvm` does once it has a directory. -/
def kernelMappings (d : Nat) : Code (Option Nat) := do
  if ← mappages d userTop 0x60000 userTop PTE_W then
    if ← mappages d 0x100000 (phystop - 0x100000) 0x100000 PTE_W then
      if ← mappages d 0xFE000000 0x2000000 0xFE000000 PTE_W then pure (some d)
      else pure none
    else pure none
  else pure none

theorem setupkvm_cons (hfree : m.free = d :: rest) :
    setupkvm m = kernelMappings d ({ m with free := rest }.setPage d Block.zero) := by
  rw [setupkvm, run_bind (kalloc_cons hfree)]
  rfl

theorem mappages_low : mappages d userTop 0x60000 userTop PTE_W =
    mapLoop d ((256 - 1) * pgsize) PTE_W maxTurns (160 * pgsize) (160 * pgsize) :=
  mappages_range (i := 160) (n := 256) (by decide) (by decide) (by decide)

theorem mappages_memory : mappages d 0x100000 (phystop - 0x100000) 0x100000 PTE_W =
    mapLoop d ((4096 - 1) * pgsize) PTE_W maxTurns (256 * pgsize) (256 * pgsize) :=
  mappages_range (i := 256) (n := 4096) (by decide) (by decide) (by decide)

theorem mappages_devices : mappages d 0xFE000000 0x2000000 0xFE000000 PTE_W =
    mapLoop d ((2 ^ 20 - 1) * pgsize) PTE_W maxTurns (0xFE000 * pgsize) (0xFE000 * pgsize) :=
  mappages_range (i := 0xFE000) (n := 2 ^ 20) (by decide) (by decide) (by decide)

/-- The mapping of memory, below the devices. -/
theorem mappages_memory_spec {m₀ : Mem} (h : Enters d 160 256 c m₀ role' m role) (hpde : ∀ j, m₀.pde d j = 0) :
    if 3 ≤ m.free.length then
      ∃ m' role', mappages d 0x100000 (phystop - 0x100000) 0x100000 PTE_W m = .ok (true, m') ∧
        Enters d 256 4096 3 m role m' role'
    else ∃ m' role', mappages d 0x100000 (phystop - 0x100000) 0x100000 PTE_W m = .ok (false, m') ∧
        Builds d m.free.length m role m' role' := by
  have hpde' : ∀ j < 1024, present (m.pde d j) ↔ j = 0 := by
    intro j hj
    rw [h.pde j hj, hpde]
    exact ⟨fun hor => hor.elim (fun h0 => absurd h0 not_present_zero) (by omega), fun h0 => .inr (by omega)⟩
  have hmissing : m.missing d 256 4096 = 3 := by
    rw [Mem.missing, if_pos ((hpde' _ (by decide)).mpr (by decide))]
  rw [mappages_memory, ← hmissing]
  refine mapLoop_spec h.builds.tree h.builds.pool (by decide) (by decide) (by decide) (fun k hk hk' => ?_)
    (fun j hj hj' => ?_) (by decide)
  · rw [h.pte k (by omega), if_neg (by omega), Mem.pte, hpde, if_neg not_present_zero]
    exact not_present_zero
  · rw [hpde' j (by omega)]
    omega

/-- The mapping of the devices. -/
theorem mappages_devices_spec {m₀ : Mem} (h : Enters d 160 4096 c m₀ role' m role) (hpde : ∀ j, m₀.pde d j = 0) :
    if 8 ≤ m.free.length then
      ∃ m' role', mappages d 0xFE000000 0x2000000 0xFE000000 PTE_W m = .ok (true, m') ∧
        Enters d 0xFE000 (2 ^ 20) 8 m role m' role'
    else ∃ m' role', mappages d 0xFE000000 0x2000000 0xFE000000 PTE_W m = .ok (false, m') ∧
        Builds d m.free.length m role m' role' := by
  have habsent : ∀ j < 1024, 3 < j → ¬ present (m.pde d j) := by
    intro j hj hj'
    rw [h.pde j hj, hpde]
    exact fun hor => hor.elim not_present_zero (by omega)
  have hmissing : m.missing d 0xFE000 (2 ^ 20) = 8 := by
    rw [Mem.missing, if_neg (habsent _ (by decide) (by decide))]
    decide
  rw [mappages_devices, ← hmissing]
  refine mapLoop_spec h.builds.tree h.builds.pool (by decide) (by decide) (by decide) (fun k hk hk' => ?_)
    (fun j hj hj' => habsent j (by omega) (by omega)) (by decide)
  rw [h.pte k hk', if_neg (by omega), Mem.pte, hpde, if_neg not_present_zero]
  exact not_present_zero

theorem kernelMappings_spec (ht : Tree m role d) (hpool : Pool m role) (hpde : ∀ j, m.pde d j = 0) :
    if 12 ≤ m.free.length then
      ∃ m' role', kernelMappings d m = .ok (some d, m') ∧ Builds d 12 m role m' role' ∧
        ∀ k < 2 ^ 20, m'.pte d k = kernelEntry k
    else ∃ m' role', kernelMappings d m = .ok (none, m') ∧ Builds d m.free.length m role m' role' := by
  have hpte : ∀ k, m.pte d k = 0 := by
    intro k
    rw [Mem.pte, hpde, if_neg not_present_zero]
  have hmissing : m.missing d 160 256 = 1 := by
    rw [Mem.missing, hpde, if_neg not_present_zero]
  have hfirst := mapLoop_spec ht hpool (show userPages ≤ 160 by decide) (show 160 < 256 by decide) (by decide)
    (fun k _ _ => by rw [hpte]; exact not_present_zero) (fun j _ _ => by rw [hpde]; exact not_present_zero)
    (show 256 - 160 ≤ maxTurns by decide)
  rw [hmissing, ← mappages_low] at hfirst
  by_cases h₁ : 1 ≤ m.free.length
  · rw [if_pos h₁] at hfirst
    obtain ⟨m₁, role₁, hrun₁, henters₁⟩ := hfirst
    have hfree₁ : m₁.free.length = m.free.length - 1 := by rw [henters₁.builds.free, List.length_drop]
    have hsecond := mappages_memory_spec henters₁ hpde
    rw [kernelMappings, run_bind hrun₁]
    by_cases h₂ : 3 ≤ m₁.free.length
    · rw [if_pos h₂] at hsecond
      obtain ⟨m₂, role₂, hrun₂, henters₂⟩ := hsecond
      have henters := henters₁.trans henters₂ (by decide) (by decide)
      have hfree₂ : m₂.free.length = m.free.length - 4 := by rw [henters.builds.free, List.length_drop]
      have hthird := mappages_devices_spec henters hpde
      rw [if_pos rfl, run_bind hrun₂]
      by_cases h₃ : 8 ≤ m₂.free.length
      · rw [if_pos h₃] at hthird
        obtain ⟨m₃, role₃, hrun₃, henters₃⟩ := hthird
        rw [if_pos (by omega), if_pos rfl, run_bind hrun₃]
        refine ⟨m₃, role₃, rfl, henters.builds.trans henters₃.builds, fun k hk => ?_⟩
        rw [henters₃.pte k hk, henters.pte k hk, hpte, kernelEntry]
        by_cases hdev : 0xFE000 ≤ k ∧ k < 2 ^ 20
        · rw [if_pos hdev, if_pos (.inr hdev)]
        · rw [if_neg hdev]
          refine if_congr ?_ rfl rfl
          simp only [userPages]
          omega
      · rw [if_neg h₃] at hthird
        obtain ⟨m₃, role₃, hrun₃, hbuilds⟩ := hthird
        rw [if_neg (by omega), if_pos rfl, run_bind hrun₃]
        have htrans := henters.builds.trans hbuilds
        rw [hfree₂, show 1 + 3 + (m.free.length - 4) = m.free.length by omega] at htrans
        exact ⟨m₃, role₃, rfl, htrans⟩
    · rw [if_neg h₂] at hsecond
      obtain ⟨m₂, role₂, hrun₂, hbuilds⟩ := hsecond
      rw [if_neg (by omega), if_pos rfl, run_bind hrun₂]
      have htrans := henters₁.builds.trans hbuilds
      rw [hfree₁, Nat.add_sub_cancel' h₁] at htrans
      exact ⟨m₂, role₂, rfl, htrans⟩
  · rw [if_neg h₁] at hfirst
    obtain ⟨m₁, role₁, hrun₁, hbuilds⟩ := hfirst
    rw [if_neg (by omega), kernelMappings, run_bind hrun₁]
    exact ⟨m₁, role₁, rfl, hbuilds⟩

theorem setupkvm_spec (hpool : Pool m role) :
    if 13 ≤ m.free.length then ∃ d m' role', setupkvm m = .ok (some d, m') ∧ Kvm d m role m' role'
    else ∃ m' role', setupkvm m = .ok (none, m') ∧ Pool m' role' ∧ m'.free = [] ∧
      ∀ pg, role pg ≠ .free → role' pg = role pg ∧ m'.page pg = m.page pg := by
  cases hfree : m.free with
  | nil =>
    rw [if_neg (by decide), setupkvm, run_bind (kalloc_nil hfree)]
    exact ⟨m, role, rfl, hpool, hfree, fun _ _ => ⟨rfl, rfl⟩⟩
  | cons d rest =>
    have hd : role d = .free := (hpool.free d).mp (hfree ▸ List.mem_cons_self)
    obtain ⟨hpool₁, htree₁, hframe₁, hpde₁⟩ := hpool.newDir hfree
    have hspec := kernelMappings_spec htree₁ hpool₁ hpde₁
    rw [setupkvm_cons hfree, List.length_cons]
    by_cases henough : 12 ≤ (Mem.setPage { m with free := rest } d Block.zero).free.length
    · rw [if_pos henough] at hspec
      rw [if_pos (show 13 ≤ rest.length + 1 from Nat.succ_le_succ henough)]
      obtain ⟨m', role', hrun, hbuilds, hpte⟩ := hspec
      refine ⟨d, m', role', hrun, hbuilds.pool, hbuilds.tree, hframe₁.trans hbuilds.frame, hd, hpte, ?_⟩
      rw [hbuilds.free, hfree]
      rfl
    · rw [if_neg henough] at hspec
      rw [if_neg (show ¬ 13 ≤ rest.length + 1 from fun h => henough (Nat.le_of_succ_le_succ h))]
      obtain ⟨m', role', hrun, hbuilds⟩ := hspec
      exact ⟨m', role', hrun, hbuilds.fails hframe₁ hpool hd⟩

/-! `freevm`. -/

/-- The tables of the first `n` entries have been freed. -/
structure Releases (d n : Nat) (m : Mem) (role : Nat → Role) (m' : Mem) (role' : Nat → Role) : Prop where
  pool : Pool m' role'
  frame : Frame d m role m' role'
  page : m'.page d = m.page d
  freed : ∀ pg j, role pg = .table d j → j < n → role' pg = .free
  role_eq : ∀ pg, (∀ j < n, role pg ≠ .table d j) → role' pg = role pg

/-- What `kfree` does to a table of the address space. -/
theorem Releases.kfree {m₀ : Mem} {role₀ : Nat → Role} (h : Releases d n m₀ role₀ m role) (ht : Tree m₀ role₀ d)
    (hr : role₀ r = .table d n) :
    Ram r ∧ Releases d (n + 1) m₀ role₀ { m.setPage r (fun _ => 1) with free := r :: m.free }
      (update role r .free) := by
  have hr' : role r = .table d n := by
    refine (h.role_eq r fun j hj heq => ?_).trans hr
    rw [hr] at heq
    exact absurd (Role.table.inj heq).2 (by omega)
  have hram : Ram r := h.pool.ram r (.inr (by rw [hr']; exact Option.some_ne_none d))
  have hrole : ∀ q, q ≠ r → update role r .free q = role q := fun q hq => update_of_ne hq _ _
  have hdr : d ≠ r := by
    intro heq
    have hd := ht.dir
    rw [heq, hr] at hd
    cases hd
  refine ⟨hram, ?_, ⟨?_, ?_⟩, ?_, ?_, ?_⟩
  · grind [h.pool.kfree, h.pool.owned]
  · intro q hq howner
    have hqr : q ≠ r := by
      intro heq
      rw [heq, hr] at howner
      exact howner rfl
    obtain ⟨hrole', hpage⟩ := h.frame.kept q hq howner
    exact ⟨(hrole q hqr).trans hrole', (setPage_of_ne _ hqr).trans hpage⟩
  · grind [h.frame.back]
  · exact (setPage_of_ne _ hdr).trans h.page
  · intro q j hq hj
    by_cases hqr : q = r
    · rw [hqr, update_self]
    · rw [hrole q hqr]
      have hjn : j ≠ n := by
        intro hjn
        rw [hjn] at hq
        have heq := (ht.tableOf q n hq).2.symm.trans (ht.tableOf r n hr).2
        refine hqr ?_
        simp only [pgsize] at heq
        omega
      exact h.freed q j hq (by omega)
  · grind [h.role_eq]

/-- An entry without a table. -/
theorem Releases.skip {m₀ : Mem} {role₀ : Nat → Role} (h : Releases d n m₀ role₀ m role) (ht : Tree m₀ role₀ d)
    (habsent : ¬ present (m₀.pde d n)) : Releases d (n + 1) m₀ role₀ m role := by
  refine ⟨h.pool, h.frame, h.page, fun q j hq hj => ?_, fun q hq => h.role_eq q fun j hj => hq j (by omega)⟩
  by_cases hjn : j = n
  · rw [hjn] at hq
    rw [(ht.tableOf q n hq).2] at habsent
    exact absurd (present_entry q) habsent
  · exact h.freed q j hq (by omega)

theorem freeTables_releases {m₀ : Mem} {role₀ : Nat → Role} (ht : Tree m₀ role₀ d) (hk : k ≤ 1024)
    (h : Releases d (1024 - k) m₀ role₀ m role) :
    ∃ m' role', freeTables d k m = .ok ((), m') ∧ Releases d 1024 m₀ role₀ m' role' := by
  induction k generalizing m role with
  | zero => exact ⟨m, role, rfl, h⟩
  | succ k ih =>
    have hnext : 1024 - (k + 1) + 1 = 1024 - k := by omega
    have hpde : m.word ⟨d, 1024 - (k + 1)⟩ = m₀.pde d (1024 - (k + 1)) := pde_congr h.page _
    have hstep : freeTables d (k + 1) m =
        (if present (m₀.pde d (1024 - (k + 1))) then do
            kfree (m₀.pde d (1024 - (k + 1)) / pgsize)
            freeTables d k
          else freeTables d k : Code Unit) m := by
      rw [← hpde]
      rfl
    rw [hstep]
    by_cases hpresent : present (m₀.pde d (1024 - (k + 1)))
    · obtain ⟨hram, hreleases⟩ := h.kfree ht (ht.table _ (by omega) hpresent).1
      rw [hnext] at hreleases
      obtain ⟨m', role', hrun, hall⟩ := ih (by omega) hreleases
      refine ⟨m', role', ?_, hall⟩
      rw [if_pos hpresent, run_bind (kfree_run hram)]
      exact hrun
    · have hskip := h.skip ht hpresent
      rw [hnext] at hskip
      rw [if_neg hpresent]
      exact ih (by omega) hskip

/-- The roles after an address space has been given up. -/
def dropOwner (d : Nat) (role : Nat → Role) (pg : Nat) : Role :=
  if (role pg).owner = some d then .free else role pg

theorem Role.owner_cases {x : Role} (h : x.owner = some d) :
    x = .dir d ∨ (∃ j, x = .table d j) ∨ ∃ k, x = .user d k := by
  cases x with
  | free => cases h
  | dir e =>
    cases h
    exact .inl rfl
  | table e j =>
    cases h
    exact .inr (.inl ⟨j, rfl⟩)
  | user e k =>
    cases h
    exact .inr (.inr ⟨k, rfl⟩)
  | other => cases h

/-- All user pages and all tables have been freed. -/
theorem Clears.releases {m₁ : Mem} {role₁ : Nat → Role} (ht : Tree m role d)
    (h : Clears d 0 userPages m role m₁ role₁) (h' : Releases d 1024 m₁ role₁ m' role') (hpg : pg ≠ d) :
    role' pg = dropOwner d role pg := by
  have hkept : (∀ k, role pg ≠ .user d k) → role₁ pg = role pg := fun hne =>
    h.role_eq pg fun k _ _ => hne k
  unfold dropOwner
  by_cases howner : (role pg).owner = some d
  · rw [if_pos howner]
    rcases Role.owner_cases howner with hdir | ⟨j, htable⟩ | ⟨k, huser⟩
    · grind [h.pool.dir]
    · grind [h'.freed, ht.tableOf]
    · have hfree := h.freed pg k (Nat.zero_le k) (ht.userOf pg k huser).1 huser
      refine (h'.role_eq pg fun j _ => ?_).trans hfree
      rw [hfree]
      exact Role.noConfusion
  · rw [if_neg howner]
    have hrole := hkept fun k huser => howner (by rw [huser]; rfl)
    refine (h'.role_eq pg fun j _ htable => howner ?_).trans hrole
    rw [← hrole, htable]
    rfl

theorem freevm_spec (ht : Tree m role d) (hpool : Pool m role) (hlow : present (m.pde d 0)) :
    ∃ m', freevm d m = .ok ((), m') ∧ Pool m' (dropOwner d role) ∧ Frame d m role m' (dropOwner d role) := by
  obtain ⟨m₁, role₁, hrun₁, hclears⟩ := deallocuvm_clears ht hpool hlow (show 0 < userTop by decide) le_rfl
  rw [show pagesOf 0 = 0 by decide, show pagesOf userTop = userPages by decide] at hclears
  have hstart : Releases d 0 m₁ role₁ m₁ role₁ :=
    ⟨hclears.pool, .refl d m₁ role₁, rfl, fun _ j _ hj => absurd hj (Nat.not_lt_zero j), fun _ _ => rfl⟩
  obtain ⟨m₂, role₂, hrun₂, hreleases⟩ := freeTables_releases (k := 1024) hclears.tree le_rfl hstart
  have hdir : role₂ d = .dir d := by
    refine (hreleases.role_eq d fun j _ => ?_).trans hclears.tree.dir
    rw [hclears.tree.dir]
    exact Role.noConfusion
  have hram : Ram d := hreleases.pool.ram d (.inr (by rw [hdir]; exact Option.some_ne_none d))
  have hrole : update role₂ d .free = dropOwner d role := by
    funext pg
    by_cases hpg : pg = d
    · rw [hpg, update_self, dropOwner, ht.dir]
      exact (if_pos rfl).symm
    · rw [update_of_ne hpg]
      exact hclears.releases ht hreleases hpg
  have hnone : ∀ q, (role₂ q).owner = some d → q = d := by
    intro q hq
    by_contra hqd
    rw [hclears.releases ht hreleases hqd, dropOwner] at hq
    split_ifs at hq with howner
    · cases hq
    · exact howner hq
  refine ⟨{ m₂.setPage d (fun _ => 1) with free := d :: m₂.free }, ?_, ?_, ?_⟩
  · rw [freevm, run_bind hrun₁, run_bind hrun₂]
    exact kfree_run hram
  · rw [← hrole]
    exact hreleases.pool.kfree (fun _ => 1) (by rw [hdir]; exact Role.noConfusion) hram hnone
  · refine (hclears.frame.trans hreleases.frame).trans ⟨fun q hq howner => ?_, fun q hq howner => ?_⟩
    · have hqd : q ≠ d := by
        intro heq
        rw [heq, hdir] at howner
        exact howner rfl
      rw [← hrole, update_of_ne hqd]
      exact ⟨rfl, setPage_of_ne _ hqd⟩
    · by_cases hqd : q = d
      · rw [← hrole, hqd, update_self] at hq
        exact absurd rfl hq
      · rw [← hrole, update_of_ne hqd]

end Xv6.Vm
