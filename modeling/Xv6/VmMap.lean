import Xv6.VmClear

/-! Adding user pages to an address space, `allocuvm`. It maps zeroed pages one after the other, and when memory
runs out it unmaps those it has mapped. -/

namespace Xv6.Vm

open LibExcept LibWord Fs

variable {m m' : Mem} {role role' : Nat → Role} {d i j k n pg : Nat}

theorem or_low {b : Nat} (pg : Nat) (hb : b < pgsize) : pg * pgsize ||| b = pg * pgsize + b := by
  have h : pg <<< 12 + b = pg <<< 12 ||| b := Nat.shiftLeft_add_eq_or_of_lt hb pg
  rw [Nat.shiftLeft_eq] at h
  exact h.symm

/-- `mappages` of one user page. -/
theorem mappages_user (hlow : present (m.pde d 0)) (hk : k < userPages) (habsent : ¬ present (m.pte d k)) :
    mappages d (k * pgsize) pgsize (pg * pgsize) (PTE_W ||| PTE_U) m =
      .ok (true, m.setWord ⟨m.low d, k⟩ (pg * pgsize + 7)) := by
  have hlast : pgrounddown ((k * pgsize + pgsize + uintSize - 1) % uintSize) = k * pgsize := by
    simp only [pgrounddown, pgsize, uintSize, userPages] at *
    omega
  have hfirst : pgrounddown (k * pgsize) = k * pgsize := by
    simp only [pgrounddown, pgsize]
    omega
  obtain ⟨turns, hturns⟩ : ∃ turns, maxTurns = turns + 1 := ⟨2 ^ 20, rfl⟩
  rw [mappages, hlast, hfirst, hturns, mapLoop, run_bind (walkpgdir_user hlow hk)]
  show (if present (m.word ⟨m.low d, k⟩) then _ else _ : Code Bool) m = _
  rw [word_user hlow hk, if_neg habsent, Nat.or_assoc,
    or_low pg (show PTE_W ||| PTE_U ||| PTE_P < pgsize by decide), if_pos rfl]
  rfl

/-! Adding a range of pages. -/

/-- Zeroed pages have been mapped from `i` to below `j`. -/
structure Adds (d i j : Nat) (m : Mem) (role : Nat → Role) (m' : Mem) (role' : Nat → Role) : Prop where
  pool : Pool m' role'
  tree : Tree m' role' d
  frame : Frame d m role m' role'
  low : m'.pde d 0 = m.pde d 0
  added : ∀ k, i ≤ k → k < j → present (m'.pte d k) ∧ m'.page (m'.pte d k / pgsize) = Block.zero
  pte : ∀ k < 2 ^ 20, ¬ (i ≤ k ∧ k < j) → m'.pte d k = m.pte d k
  roles : ∀ pg, role' pg = role pg ∨ role pg = .free ∧ ∃ k, i ≤ k ∧ k < j ∧ role' pg = .user d k
  kept : ∀ pg k, role pg = .user d k → m'.page pg = m.page pg
  free : m'.free = m.free.drop (j - i)

theorem Adds.refl (ht : Tree m role d) (hpool : Pool m role) (hle : j ≤ i) : Adds d i j m role m role := by
  refine ⟨hpool, ht, .refl d m role, rfl, fun k h1 h2 => by omega, fun _ _ _ => rfl, fun _ => .inl rfl,
    fun _ _ _ => rfl, ?_⟩
  rw [Nat.sub_eq_zero_of_le hle]
  rfl

/-- One page more at the end. -/
theorem Adds.snoc {m₁ : Mem} {role₁ : Nat → Role} (h : Adds d i j m role m₁ role₁) (hij : i ≤ j)
    (hj : j < userPages) (h' : Maps d j pg Block.zero m₁ role₁ m' role') : Adds d i (j + 1) m role m' role' := by
  have hother : ∀ q, q ≠ pg → role' q = role₁ q := by
    intro q hq
    rw [h'.role_eq]
    exact Function.update_of_ne hq _ _
  have hpgfree : role₁ pg = .free := (h.pool.free pg).mp (h'.free ▸ List.mem_cons_self)
  refine ⟨h'.pool, h'.tree, h.frame.trans h'.frame, h'.low.trans h.low, ?_, ?_, ?_, ?_, ?_⟩
  · intro k hik hkj
    have hku : k < userPages := by omega
    rw [h'.pte k (lt_max hku)]
    by_cases hk : k = j
    · rw [if_pos hk, entry_div]
      exact ⟨present_entry pg, h'.new⟩
    · rw [if_neg hk]
      obtain ⟨hpresent, hzero⟩ := h.added k hik (by omega)
      rw [h'.kept _ k (h.tree.user k hku hpresent).1]
      exact ⟨hpresent, hzero⟩
  · intro k hk hnot
    rw [h'.pte k hk, if_neg (by omega)]
    exact h.pte k hk (by omega)
  · intro q
    by_cases hq : q = pg
    · rw [hq]
      right
      refine ⟨?_, j, hij, by omega, ?_⟩
      · rcases h.roles pg with heq | ⟨hfree, -⟩
        · exact heq.symm.trans hpgfree
        · exact hfree
      · rw [h'.role_eq]
        exact Function.update_self _ _ _
    · rw [hother q hq]
      rcases h.roles q with heq | ⟨hfree, k, hik, hkj, hrole⟩
      · exact .inl heq
      · exact .inr ⟨hfree, k, hik, by omega, hrole⟩
  · intro q k hq
    have hq₁ : role₁ q = .user d k := by
      rcases h.roles q with heq | ⟨hfree, -⟩
      · exact heq.trans hq
      · rw [hq] at hfree
        cases hfree
    exact (h'.kept q k hq₁).trans (h.kept q k hq)
  · have hdrop : m₁.free.drop 1 = m'.free := by
      rw [h'.free]
      rfl
    rw [← hdrop, h.free, List.drop_drop, show j + 1 - i = j - i + 1 by omega]

/-- The address space and the free pages are as before. -/
structure Restores (d : Nat) (m : Mem) (role : Nat → Role) (m' : Mem) : Prop where
  pool : Pool m' role
  tree : Tree m' role d
  frame : Frame d m role m' role
  low : m'.pde d 0 = m.pde d 0
  presence : ∀ k < 2 ^ 20, present (m'.pte d k) ↔ present (m.pte d k)
  pte : ∀ k < 2 ^ 20, present (m.pte d k) → m'.pte d k = m.pte d k
  above : ∀ k < 2 ^ 20, userPages ≤ k → m'.pte d k = m.pte d k
  kept : ∀ pg k, role pg = .user d k → m'.page pg = m.page pg
  length : m'.free.length = m.free.length

theorem Pool.free_length (h : Pool m role) (h' : Pool m' role) : m.free.length = m'.free.length :=
  ((List.perm_ext_iff_of_nodup h.nodup h'.nodup).mpr fun pg => (h.free pg).trans (h'.free pg).symm).length_eq

/-- What was added is cleared. -/
theorem Adds.restores {m₁ : Mem} {role₁ : Nat → Role} (h : Adds d i j m role m₁ role₁)
    (h' : Clears d i n m₁ role₁ m' role') (hjn : j ≤ n) (hn : n ≤ userPages) (ht : Tree m role d)
    (hpool : Pool m role) (hempty : ∀ k, i ≤ k → k < n → ¬ present (m.pte d k)) : Restores d m role m' := by
  have hrole : role' = role := by
    funext pg
    rcases h.roles pg with heq | ⟨hfree, k, hik, hkj, huser⟩
    · rw [← heq]
      refine h'.role_eq pg fun k hik hkn huser => ?_
      rw [heq] at huser
      have hpte := (ht.userOf pg k huser).2
      refine hempty k hik hkn ?_
      rw [hpte]
      exact present_entry pg
    · rw [hfree]
      exact h'.freed pg k hik (by omega) huser
  rw [hrole] at h'
  refine ⟨h'.pool, h'.tree, h.frame.trans h'.frame, h'.low.trans h.low, ?_, ?_, ?_, ?_, h'.pool.free_length hpool⟩
  · intro k hk
    by_cases hin : i ≤ k ∧ k < n
    · exact iff_of_false (h'.cleared k hin.1 hin.2) (hempty k hin.1 hin.2)
    · rw [h'.pte k hk hin, h.pte k hk (by omega)]
  · intro k hk hpresent
    have hin : ¬ (i ≤ k ∧ k < n) := fun hin => hempty k hin.1 hin.2 hpresent
    rw [h'.pte k hk hin, h.pte k hk (by omega)]
  · intro k hk hku
    rw [h'.pte k hk (by omega), h.pte k hk (by omega)]
  · intro pg k hpg
    have hpte := (ht.userOf pg k hpg).2
    have hin : ¬ (i ≤ k ∧ k < n) := by
      intro hin
      refine hempty k hin.1 hin.2 ?_
      rw [hpte]
      exact present_entry pg
    have hpg₁ : role₁ pg = .user d k := by
      rcases h.roles pg with heq | ⟨hfree, -⟩
      · exact heq.trans hpg
      · rw [hpg] at hfree
        cases hfree
    exact (h'.kept pg k hpg₁ hin).trans (h.kept pg k hpg)

/-- The first page of the free list, zeroed, becomes page `i`. -/
theorem Tree.map_run {rest : List Nat} (ht : Tree m role d) (hpool : Pool m role) (hlow : present (m.pde d 0))
    (hk : k < userPages) (habsent : ¬ present (m.pte d k)) (hfree : m.free = pg :: rest) (data : Block) :
    mappages d (k * pgsize) pgsize (pg * pgsize) (PTE_W ||| PTE_U) ({ m with free := rest }.setPage pg data) =
      .ok (true, m.map d k pg rest data) := by
  have hpgfree : role pg = .free := (hpool.free pg).mp (hfree ▸ List.mem_cons_self)
  have hdir : role pg ≠ .dir d := by
    rw [hpgfree]
    exact Role.noConfusion
  have htable : ∀ i, role pg ≠ .table d i := by
    intro i
    rw [hpgfree]
    exact Role.noConfusion
  have hdpg : d ≠ pg := by
    intro heq
    have h := ht.dir
    rw [heq] at h
    exact hdir (h.trans (by rw [heq]))
  have hpde : Mem.pde ({ m with free := rest }.setPage pg data) d 0 = m.pde d 0 :=
    pde_congr (setPage_of_ne data hdpg) 0
  have hpte : Mem.pte ({ m with free := rest }.setPage pg data) d k = m.pte d k :=
    ht.pte_setPage data hdir htable (lt_max hk)
  have hrun : mappages d (k * pgsize) pgsize (pg * pgsize) (PTE_W ||| PTE_U) _ = .ok (true, _) :=
    mappages_user (by rw [hpde]; exact hlow) hk (by rw [hpte]; exact habsent)
  rw [Mem.low, hpde] at hrun
  exact hrun

/-- The pages of the range are mapped while there are free pages; otherwise the mapping of the range is undone. -/
theorem allocLoop_spec {oldsz newsz turns : Nat} {m₀ : Mem} {role₀ : Nat → Role}
    (h : Adds d (pagesOf oldsz) i m₀ role₀ m role) (ht : Tree m₀ role₀ d) (hpool : Pool m₀ role₀)
    (hlow : present (m.pde d 0)) (hold : pagesOf oldsz ≤ i) (hi : i ≤ pagesOf newsz) (hlt : oldsz < newsz) (hnew : newsz ≤ userTop)
    (hempty : ∀ k, pagesOf oldsz ≤ k → k < pagesOf newsz → ¬ present (m₀.pte d k))
    (hturns : pagesOf newsz - i < turns) :
    if pagesOf newsz - i ≤ m.free.length then
      ∃ m' role', allocLoop d oldsz newsz ((pagesOf newsz - 1) * pgsize) turns (i * pgsize) m =
          .ok (newsz, m') ∧ Adds d (pagesOf oldsz) (pagesOf newsz) m₀ role₀ m' role'
    else ∃ m', allocLoop d oldsz newsz ((pagesOf newsz - 1) * pgsize) turns (i * pgsize) m = .ok (0, m') ∧
          Restores d m₀ role₀ m' := by
  have hpages := pagesOf_le hnew
  have hpos : 0 < pagesOf newsz := pagesOf_pos (by omega)
  induction turns generalizing i m role with
  | zero => omega
  | succ turns ih =>
    by_cases hend : i = pagesOf newsz
    · have hstop : ¬ i * pgsize ≤ (pagesOf newsz - 1) * pgsize := by
        rw [page_le_iff]
        omega
      rw [if_pos (by omega), allocLoop, if_neg hstop, if_pos hlt]
      rw [hend] at h
      exact ⟨m, role, rfl, h⟩
    · have hgo : i * pgsize ≤ (pagesOf newsz - 1) * pgsize := page_le_iff.mpr (by omega)
      have hiu : i < userPages := by omega
      have habsent : ¬ present (m.pte d i) := by
        rw [h.pte i (lt_max hiu) (by omega)]
        exact hempty i hold (by omega)
      rw [allocLoop, if_pos hgo]
      cases hfree : m.free with
      | nil =>
        rw [run_bind (kalloc_nil hfree), if_neg (by rw [List.length_nil]; omega)]
        obtain ⟨m', role', hrun, hclears⟩ := deallocuvm_clears h.tree h.pool hlow hlt hnew
        refine ⟨m', ?_, h.restores hclears hi hpages ht hpool hempty⟩
        exact (run_bind hrun).trans rfl
      | cons pg rest =>
        have hmaps := h.tree.map Block.zero h.pool hlow hiu habsent hfree
        have hstep := ih (h.snoc hold hiu hmaps) (by rw [hmaps.low]; exact hlow) (by omega) (by omega)
          (by omega)
        have hmap := h.tree.map_run h.pool hlow hiu habsent hfree Block.zero
        have hiff : pagesOf newsz - i ≤ (pg :: rest).length ↔
            pagesOf newsz - (i + 1) ≤ (m.map d i pg rest Block.zero).free.length := by
          show _ ↔ _ ≤ rest.length
          rw [List.length_cons]
          omega
        have hrun : ∀ x, allocLoop d oldsz newsz ((pagesOf newsz - 1) * pgsize) turns ((i + 1) * pgsize)
            (m.map d i pg rest Block.zero) = x →
            (do
              fill pg Block.zero
              let _ ← mappages d (i * pgsize) pgsize (pg * pgsize) (PTE_W ||| PTE_U)
              allocLoop d oldsz newsz ((pagesOf newsz - 1) * pgsize) turns
                ((i * pgsize + pgsize) % uintSize) : Code Nat) { m with free := rest } = x := by
          intro x hx
          rw [run_bind (show fill pg Block.zero _ = .ok ((), _) from rfl), run_bind hmap, next_page hiu]
          exact hx
        rw [run_bind (kalloc_cons hfree)]
        by_cases hlen : pagesOf newsz - i ≤ (pg :: rest).length
        · rw [if_pos (hiff.mp hlen)] at hstep
          rw [if_pos hlen]
          obtain ⟨m', role', heq, hadds⟩ := hstep
          exact ⟨m', role', hrun _ heq, hadds⟩
        · rw [if_neg fun h => hlen (hiff.mpr h)] at hstep
          rw [if_neg hlen]
          obtain ⟨m', heq, hrestores⟩ := hstep
          exact ⟨m', hrun _ heq, hrestores⟩

/-- `allocuvm` between sizes of user memory. -/
theorem allocuvm_spec {oldsz newsz : Nat} (ht : Tree m role d) (hpool : Pool m role) (hlow : present (m.pde d 0))
    (hold : oldsz ≤ userTop) (hpos : 0 < newsz) (hnew : newsz ≤ userTop)
    (hempty : ∀ k, pagesOf oldsz ≤ k → k < pagesOf newsz → ¬ present (m.pte d k)) :
    if pagesOf newsz - pagesOf oldsz ≤ m.free.length then
      ∃ m' role', allocuvm d oldsz newsz m = .ok (max newsz oldsz, m') ∧
        Adds d (pagesOf oldsz) (pagesOf newsz) m role m' role'
    else ∃ m', allocuvm d oldsz newsz m = .ok (0, m') ∧ Restores d m role m' := by
  have hpages := pagesOf_le hnew
  have hpages_pos := pagesOf_pos hpos
  rw [allocuvm, if_neg (show ¬ newsz > userTop by omega), pgrounddown_pred hpos hnew, pgroundup_eq hold]
  by_cases hlt : oldsz < newsz
  · rw [max_eq_left hlt.le]
    have hturns : pagesOf newsz - pagesOf oldsz < maxTurns :=
      (Nat.sub_le _ _).trans_lt (hpages.trans_lt userPages_lt_maxTurns)
    exact allocLoop_spec (.refl ht hpool le_rfl) ht hpool hlow le_rfl (pagesOf_mono hlt.le) hlt hnew hempty hturns
  · have hle : pagesOf newsz ≤ pagesOf oldsz := pagesOf_mono (by omega)
    have hstop : ¬ pagesOf oldsz * pgsize ≤ (pagesOf newsz - 1) * pgsize := by
      rw [page_le_iff]
      omega
    obtain ⟨turns, hturns⟩ : ∃ turns, maxTurns = turns + 1 := ⟨2 ^ 20, rfl⟩
    rw [if_pos (show pagesOf newsz - pagesOf oldsz ≤ m.free.length by omega), hturns, allocLoop, if_neg hstop,
      if_neg hlt, max_eq_right (by omega)]
    exact ⟨m, role, rfl, .refl ht hpool hle⟩

/-- The bytes of the pages that were there before. -/
theorem Adds.byte {va : Nat} (h : Adds d i j m role m' role') (ht : Tree m role d) (hva : va / pgsize < userPages)
    (hnot : ¬ (i ≤ va / pgsize ∧ va / pgsize < j)) : m'.byte d va = m.byte d va := by
  unfold Mem.byte
  rw [h.pte _ (lt_max hva) hnot]
  by_cases hpresent : present (m.pte d (va / pgsize))
  · rw [if_pos hpresent, if_pos hpresent, h.kept _ _ (ht.user _ hva hpresent).1]
  · rw [if_neg hpresent, if_neg hpresent]

theorem Adds.byte_zero {va : Nat} (h : Adds d i j m role m' role') (hi : i ≤ va / pgsize) (hj : va / pgsize < j) :
    m'.byte d va = some 0 := by
  obtain ⟨hpresent, hzero⟩ := h.added _ hi hj
  rw [Mem.byte, if_pos hpresent, hzero]
  rfl

theorem Restores.refl (ht : Tree m role d) (hpool : Pool m role) : Restores d m role m :=
  ⟨hpool, ht, .refl d m role, rfl, fun _ _ => Iff.rfl, fun _ _ _ => rfl, fun _ _ _ => rfl, fun _ _ _ => rfl, rfl⟩

theorem Restores.byte {va : Nat} (h : Restores d m role m') (ht : Tree m role d) (hva : va / pgsize < userPages) :
    m'.byte d va = m.byte d va := by
  unfold Mem.byte
  by_cases hpresent : present (m.pte d (va / pgsize))
  · rw [h.pte _ (lt_max hva) hpresent, if_pos hpresent, if_pos hpresent,
      h.kept _ _ (ht.user _ hva hpresent).1]
  · rw [if_neg hpresent, if_neg fun h' => hpresent ((h.presence _ (lt_max hva)).mp h')]

end Xv6.Vm
