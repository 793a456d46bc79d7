import Xv6.ExecLoad
import Xv6.ExecStack

/-! The beginning and the end of loading: the new address space is made, its stack page is added and written, and
the old address space is given back; or the new one is. -/

namespace Xv6.Exec

open LibExcept LibWord Fs Vm

variable {w w₀ : World} {m : Mem} {role role₀ : Nat → Role} {bytes : List UInt8} {d e sz size i k pg : Nat}
  {path : Str} {argv : List Str} {elf : Elfhdr} {p : Process}

/-! Stores to one page. -/

/-- What a page holds after stores that stay in it. -/
def pageAfter (pg : Nat) (b : Block) (pokes : List Poke) : Block :=
  pokes.foldl (fun b x => b.write (x.addr - pg * pgsize) x.bytes.length (x.bytes.getD · 0)) b

theorem write_nil (b : Block) (o : Nat) (src : Nat → UInt8) : b.write o 0 src = b := by
  funext x
  rw [Block.write, if_neg (by omega)]

theorem setPage_page (m : Mem) (pg : Nat) : m.setPage pg (m.page pg) = m := by
  unfold Mem.setPage
  rw [Function.update_eq_self]

theorem setPage_setPage (m : Mem) (pg : Nat) (a b : Block) : (m.setPage pg a).setPage pg b = m.setPage pg b := by
  unfold Mem.setPage
  rw [Function.update_idem]

/-- A byte and then the bytes after it. -/
theorem write_cons (b : Block) (o : Nat) (c : UInt8) (bs : List UInt8) :
    Block.write (Function.update b o c) (o + 1) bs.length (bs.getD · 0) =
      b.write o (c :: bs).length ((c :: bs).getD · 0) := by
  funext x
  unfold Block.write
  rw [List.length_cons]
  by_cases hx : x = o
  · rw [hx, if_neg (by omega), if_pos (by omega), Function.update_self, Nat.sub_self]
    rfl
  · rw [Function.update_of_ne hx]
    by_cases hin : o + 1 ≤ x ∧ x < o + 1 + bs.length
    · rw [if_pos hin, if_pos (by omega), show x - o = x - (o + 1) + 1 by omega]
      exact (List.getD_cons_succ).symm
    · rw [if_neg hin, if_neg (by omega)]

theorem pokeBytes_inside {o : Nat} {bs : List UInt8} (hpg : pg < 4096) (ho : o + bs.length ≤ pgsize) :
    pokeBytes m (pg * pgsize + o) bs = m.setPage pg ((m.page pg).write o bs.length (bs.getD · 0)) := by
  induction bs generalizing m o with
  | nil =>
    rw [pokeBytes, List.length_nil, write_nil, setPage_page]
  | cons c bs ih =>
    rw [List.length_cons] at ho
    have hdiv : (pg * pgsize + o) / pgsize = pg := by
      simp only [pgsize] at *
      omega
    have hmod : (pg * pgsize + o) % pgsize = o := by
      simp only [pgsize] at *
      omega
    have hnext : (pg * pgsize + o + 1) % uintSize = pg * pgsize + (o + 1) := by
      have hlt : pg * pgsize + (o + 1) < uintSize := by
        simp only [pgsize, uintSize] at *
        omega
      rw [Nat.add_assoc, Nat.mod_eq_of_lt hlt]
    rw [pokeBytes, hdiv, hmod, hnext, ih (by omega), setPage_self, setPage_setPage, write_cons]

/-- Stores that stay in a page change nothing else. -/
theorem pokeAll_inside {pokes : List Poke} (hpg : pg < 4096) (h : ∀ x ∈ pokes, Inside pg x) :
    pokeAll m pokes = m.setPage pg (pageAfter pg (m.page pg) pokes) := by
  induction pokes generalizing m with
  | nil => exact (setPage_page m pg).symm
  | cons x pokes ih =>
    obtain ⟨hlo, hhi⟩ := h x List.mem_cons_self
    have hx : pokeBytes m x.addr x.bytes =
        m.setPage pg ((m.page pg).write (x.addr - pg * pgsize) x.bytes.length (x.bytes.getD · 0)) := by
      rw [← pokeBytes_inside hpg (by omega), Nat.add_sub_cancel' hlo]
    show pokeAll (pokeBytes m x.addr x.bytes) pokes = _
    rw [ih fun y hy => h y (List.mem_cons_of_mem x hy), hx, setPage_self, setPage_setPage]
    rfl

/-! The new address space. -/

/-- After `setupkvm` the program has no user pages yet. -/
theorem Loading.begin {m' : Mem} (h : Kvm d w₀.mem role₀ m' role) (hfree : 13 ≤ w₀.mem.free.length)
    (hstores : w.stores = w₀.stores) : Loading w₀ role₀ d 0 { w with mem := m' } role := by
  refine ⟨⟨h.pool, h.tree, Nat.zero_le _, fun k hk => ?_, fun k _ hk' => h.pte k hk'⟩, h.frame, h.new, ?_,
    fun s hs => .inl (hstores ▸ hs)⟩
  · rw [h.pte k (lt_max hk), kernelEntry_user hk]
    exact iff_of_false not_present_zero (show ¬ k < pagesOf 0 from Nat.not_lt_zero k)
  · show m'.free.length + (13 + 0) = _
    rw [h.free, List.length_drop]
    omega

theorem Filled.begin (bytes : List UInt8) (d : Nat) (w : World) : Filled bytes [] d 0 w :=
  ⟨fun va hva => absurd hva (Nat.not_lt_zero va), fun _ hph => absurd hph List.not_mem_nil⟩

/-- The label `bad` gives the new address space and the inode back. -/
theorem Loading.bad (h : Loading w₀ role₀ d sz w role) (hheld : Held w₀ w) :
    Returns (fun r w' => r = (-1, p) ∧ w'.stores = w.stores) (Exec.bad (some d) p) w := by
  obtain ⟨m', hrun, -⟩ := freevm_spec h.live.tree h.live.pool h.live.low
  refine Returns.seq ⟨_, _, vm_run hrun, rfl⟩ fun _ w' (hw' : w' = { w with mem := m' }) => ?_
  rw [hw']
  refine (hheld.setMem m' w.stores).iunlockput.seq fun _ w'' hpost => ?_
  exact returns_pure ⟨rfl, hpost.2.2⟩

theorem bad_none (hheld : Held w₀ w) :
    Returns (fun r w' => r = (-1, p) ∧ w'.stores = w.stores) (Exec.bad none p) w :=
  hheld.iunlockput.seq fun _ _ hpost => returns_pure ⟨rfl, hpost.2.2⟩

/-! The stack page. -/

theorem pagesOf_mul (n : Nat) : pagesOf (n * pgsize) = n := by
  simp only [pagesOf, pgsize]
  omega

/-- The address space has the same pages when its size is rounded up. -/
theorem Loading.roundup (h : Loading w₀ role₀ d sz w role) : Loading w₀ role₀ d (pagesOf sz * pgsize) w role := by
  have hpages := pagesOf_mul (pagesOf sz)
  refine ⟨⟨h.live.pool, h.live.tree, ?_, fun k hk => ?_, h.live.kernel⟩, h.frame, h.new, ?_, h.stores⟩
  · show pagesOf sz * pgsize ≤ userTop
    exact Nat.mul_le_mul_right pgsize (pagesOf_le h.live.size)
  · show _ ↔ k < pagesOf (pagesOf sz * pgsize)
    rw [hpages]
    exact h.live.user k hk
  · rw [hpages]
    exact h.free

/-- The page for the stack is added. -/
theorem Loading.stackPage (h : Loading w₀ role₀ d sz w role) (hspan : pagesOf sz < userPages)
    (hfree : w.mem.free ≠ []) :
    Returns (fun x w' => x = pagesOf sz * pgsize + pgsize ∧
        (∃ role', Loading w₀ role₀ d (pagesOf sz * pgsize + pgsize) w' role') ∧ SameInode w w' ∧
        ∀ va < userTop, w'.mem.byte d va =
          if pagesOf sz * pgsize ≤ va ∧ va < pagesOf sz * pgsize + pgsize then some 0 else w.mem.byte d va)
      (vm (allocuvm d (pgroundup sz) ((pgroundup sz + pgsize) % uintSize))) w := by
  have hround : pgroundup sz = pagesOf sz * pgsize := pgroundup_eq h.live.size
  have hsucc : pagesOf sz * pgsize + pgsize = (pagesOf sz + 1) * pgsize := (Nat.succ_mul _ _).symm
  have hmod : (pgroundup sz + pgsize) % uintSize = pagesOf sz * pgsize + pgsize := by
    rw [hround, next_page hspan, hsucc]
  have hpages : pagesOf (pagesOf sz * pgsize + pgsize) = pagesOf sz + 1 := by
    rw [hsucc]
    exact pagesOf_mul _
  have hlength := List.length_pos_iff.mpr hfree
  have hpos : 0 < pgsize := by decide
  have htop : pagesOf sz * pgsize + pgsize ≤ userTop := by
    rw [hsucc]
    exact Nat.mul_le_mul_right pgsize hspan
  rw [hmod, hround]
  have hgrow := h.roundup.grow (by omega) htop (by rw [hpages, pagesOf_mul]; omega)
  rw [hpages, pagesOf_mul, max_eq_left (by omega), ← hsucc] at hgrow
  exact hgrow

theorem uva2ka_run (h : Live m role ⟨d, sz⟩) (hmem : w.mem = m) (hk : k < pagesOf sz)
    (hpte : m.pte d k = pg * pgsize + 7) : uva2ka d (k * pgsize) w = .ok (pg, w) := by
  have hku : k < userPages := hk.trans_le (pagesOf_le h.size)
  have hwalk : vm (walkpgdir d (k * pgsize) false) w = .ok (some ⟨m.low d, k⟩, w) := by
    rw [← hmem]
    exact vm_run (walkpgdir_user (hmem ▸ h.low) hku)
  have hload : vm (load ⟨m.low d, k⟩) w = .ok (pg * pgsize + 7, w) := by
    refine vm_run ?_
    show Except.ok (w.mem.word ⟨m.low d, k⟩, w.mem) = _
    rw [hmem, word_user h.low hku, hpte]
  refine (run_bind hwalk).trans ((run_bind hload).trans ?_)
  rw [entry_div]
  rfl

section Untouched

variable {m' : Mem} {role' : Nat → Role}

theorem frame_page (h : Frame e m role m' role') (hne : d ≠ e) (hpg : (role pg).owner = some d) :
    m'.page pg = m.page pg := by
  refine (h.kept pg (fun hfree => ?_) fun heq => hne ?_).2
  · rw [hfree] at hpg
    cases hpg
  · rw [hpg] at heq
    exact Option.some.inj heq

theorem frame_pte (h : Frame e m role m' role') (hne : d ≠ e) (ht : Tree m role d) (hk : k < 2 ^ 20) :
    m'.pte d k = m.pte d k := by
  refine ht.pte_congr (frame_page h hne ?_) (fun pg i hpg => frame_page h hne ?_) hk
  · rw [ht.dir]
    rfl
  · rw [hpg]
    rfl

theorem frame_byte {va : Nat} (h : Frame e m role m' role') (hne : d ≠ e) (ht : Tree m role d)
    (hva : va / pgsize < userPages) : m'.byte d va = m.byte d va := by
  unfold Mem.byte
  rw [frame_pte h hne ht (lt_max hva)]
  by_cases hpresent : present (m.pte d (va / pgsize))
  · rw [if_pos hpresent, if_pos hpresent, frame_page h hne]
    rw [(ht.user _ hva hpresent).1]
    rfl
  · rw [if_neg hpresent, if_neg hpresent]

theorem frame_live {p : Vm.Proc} (h : Frame e m role m' role') (hne : p.pgdir ≠ e) (hlive : Live m role p)
    (hpool : Pool m' role') : Live m' role' p := by
  refine ⟨hpool, hlive.tree.frame h hne, hlive.size, fun k hk => ?_, fun k hk hk' => ?_⟩
  · rw [frame_pte h hne hlive.tree (lt_max hk)]
    exact hlive.user k hk
  · rw [frame_pte h hne hlive.tree hk']
    exact hlive.kernel k hk hk'

end Untouched

/-- What `exec` gives to the process. -/
def newProcess (path : Str) (argv : List Str) (elf : Elfhdr) (d top : Nat) : Process :=
  ⟨⟨d, top⟩, programName path, elf.entry, sub32 (sub32 (sub32 (argpOf top argv) 4) 4) 4⟩

/-- With room and a page for the stack `exec` succeeds; below the stack the bytes are those that were loaded. -/
theorem Loading.finish (h : Loading w₀ role₀ d sz w role) (hlive : Live w₀.mem role₀ p.vm)
    (hspan : pagesOf sz < userPages) (hfree : w.mem.free ≠ []) (hfits : Fits argv) :
    Returns (fun r w' => r = (0, newProcess path argv elf d (pagesOf sz * pgsize + pgsize)) ∧
        (∀ s ∈ w'.stores, s ∈ w₀.stores ∨ Allotted w₀ d s) ∧
        (∀ va < pagesOf sz * pgsize, w'.mem.byte d va = w.mem.byte d va) ∧
        ∃ pg b, pg < 4096 ∧ ∀ o < pgsize, w'.mem.byte d (pagesOf sz * pgsize + o) =
          some (pageAfter pg b (stackPokes pg (pagesOf sz * pgsize) (pagesOf sz * pgsize + pgsize) argv) o))
      (Exec.finish path argv p elf d sz) w := by
  have hne : p.vm.pgdir ≠ d := by
    intro heq
    have hdir := hlive.tree.dir
    rw [heq, h.new] at hdir
    cases hdir
  have hround : pgroundup sz = pagesOf sz * pgsize := pgroundup_eq h.live.size
  have hpos : 0 < pgsize := by decide
  unfold Exec.finish
  refine (h.stackPage hspan hfree).seq fun x w₁ hpost => ?_
  obtain ⟨rfl, ⟨role₁, h₁⟩, -, hbyte₁⟩ := hpost
  rw [if_neg (by omega), hround]
  have hsucc : pagesOf sz * pgsize + pgsize = (pagesOf sz + 1) * pgsize := (Nat.succ_mul _ _).symm
  have hlast : pagesOf sz < pagesOf (pagesOf sz * pgsize + pgsize) := by
    rw [hsucc, pagesOf_mul]
    exact Nat.lt_succ_self _
  obtain ⟨pg, hpte, hrole⟩ := present_user h₁.live hlast
  have hpg : pg < 4096 := by
    refine (h₁.live.pool.ram pg (.inr ?_)).2
    rw [hrole]
    exact Option.some_ne_none d
  have hpage : StackPage pg (pagesOf sz * pgsize) := ⟨hpg, h₁.live.size⟩
  have huva : Returns (fun x w' => x = pg ∧ w' = w₁) (uva2ka d (pagesOf sz * pgsize)) w₁ :=
    ⟨_, _, uva2ka_run h₁.live rfl hlast hpte, rfl, rfl⟩
  refine huva.seq fun x w' hpost => ?_
  obtain ⟨rfl, rfl⟩ := hpost
  -- The stores change the stack page only; so both address spaces are still there.
  obtain ⟨data, hdata⟩ : ∃ data, pageAfter x (w'.mem.page x)
    (stackPokes x (pagesOf sz * pgsize) (pagesOf sz * pgsize + pgsize) argv) = data := ⟨_, rfl⟩
  have hpoke := pokeAll_inside (m := w'.mem) hpg (stackPokes_inside hpage hfits)
  rw [hdata] at hpoke
  have hlive₂ := live_setPage h₁.live hrole data
  have hframe₂ := writes_frame h₁.frame hrole data
  have hold := frame_live hframe₂ hne hlive hlive₂.pool
  obtain ⟨m₃, hrun, -, hframe₃⟩ := freevm_spec hold.tree hold.pool hold.low
  have hmodify : (modify fun w =>
      { w with mem := pokeAll w.mem (stackPokes x (pagesOf sz * pgsize) (pagesOf sz * pgsize + pgsize) argv) } :
      Code Unit) w' =
      .ok ((), { w' with mem := w'.mem.setPage x data }) := by
    rw [← hpoke]
    rfl
  have hbyte₃ : ∀ va < userTop, m₃.byte d va =
      if va / pgsize = pagesOf sz then some (data (va % pgsize)) else w'.mem.byte d va := by
    intro va hva
    rw [frame_byte hframe₃ hne.symm hlive₂.tree (div_lt_userPages hva)]
    exact byte_setPage h₁.live hlast hpte hva data
  refine ⟨_, { w' with mem := m₃ }, ?_, rfl, h₁.stores, fun va hva => ?_, x, w'.mem.page x, hpg, fun o ho => ?_⟩
  · exact (run_bind hmodify).trans ((run_bind (vm_run hrun)).trans rfl)
  · have hdiv := lt_pagesOf hva
    have hva' := pages_lt_userTop h.live.size hva
    show m₃.byte d va = _
    rw [hbyte₃ va hva', if_neg (by omega), hbyte₁ va hva', if_neg (by omega)]
  · have htop : pagesOf sz * pgsize + o < userTop := (Nat.add_lt_add_left ho _).trans_le h₁.live.size
    have hdiv : (pagesOf sz * pgsize + o) / pgsize = pagesOf sz := by
      simp only [pgsize] at ho ⊢
      omega
    have hmod : (pagesOf sz * pgsize + o) % pgsize = o := by
      simp only [pgsize] at ho ⊢
      omega
    show m₃.byte d _ = _
    rw [hbyte₃ _ htop, if_pos hdiv, hmod, hdata]

end Xv6.Exec
