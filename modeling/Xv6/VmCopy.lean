import Xv6.VmProc

/-! `copyuvm`, by which `fork` copies the memory of a process into a new address space. -/

namespace Xv6.Vm

open LibExcept LibWord Fs

variable {m m' : Mem} {role role' : Nat → Role} {d e j k pg : Nat} {p : Proc}

theorem Kvm.low (h : Kvm d m role m' role') : present (m'.pde d 0) := by
  by_contra habsent
  have hpte := h.pte userPages (by decide)
  rw [Mem.pte, show userPages / 1024 = 0 by decide, if_neg habsent] at hpte
  exact absurd hpte (by decide)

/-- Pages that were not free are as they were. -/
def Keeps (m : Mem) (role : Nat → Role) (m' : Mem) (role' : Nat → Role) : Prop :=
  ∀ pg, role pg ≠ .free → role' pg = role pg ∧ m'.page pg = m.page pg

theorem Keeps.pte (h : Keeps m role m' role') (ht : Tree m role e) (hk : k < 2 ^ 20) : m'.pte e k = m.pte e k := by
  refine ht.pte_congr (h e ?_).2 (fun pg i hpg => (h pg ?_).2) hk
  · rw [ht.dir]
    exact Role.noConfusion
  · rw [hpg]
    exact Role.noConfusion

theorem Keeps.user (h : Keeps m role m' role') (ht : Tree m role e) (hk : k < userPages)
    (hpresent : present (m.pte e k)) : m'.page (m.pte e k / pgsize) = m.page (m.pte e k / pgsize) := by
  refine (h _ ?_).2
  rw [(ht.user k hk hpresent).1]
  exact Role.noConfusion

theorem Keeps.byte {va : Nat} (h : Keeps m role m' role') (ht : Tree m role e) (hva : va / pgsize < userPages) :
    m'.byte e va = m.byte e va := by
  unfold Mem.byte
  rw [h.pte ht (lt_max hva)]
  by_cases hpresent : present (m.pte e (va / pgsize))
  · rw [if_pos hpresent, if_pos hpresent, h.user ht hva hpresent]
  · rw [if_neg hpresent, if_neg hpresent]

/-- The first `j` pages of address space `e` have been copied to `d`, which was built for them. -/
structure Copies (e d j : Nat) (m : Mem) (role : Nat → Role) (m' : Mem) (role' : Nat → Role) : Prop where
  pool : Pool m' role'
  tree : Tree m' role' d
  frame : Frame d m role m' role'
  new : role d = .free
  low : present (m'.pde d 0)
  copied : ∀ k < j, present (m'.pte d k) ∧ m'.page (m'.pte d k / pgsize) = m.page (m.pte e k / pgsize)
  rest : ∀ k < 2 ^ 20, j ≤ k → m'.pte d k = kernelEntry k
  free : m'.free = m.free.drop (13 + j)

theorem Copies.keeps (h : Copies e d j m role m' role') (hpool : Pool m role) : Keeps m role m' role' :=
  h.frame.kept_all hpool h.new

theorem Kvm.copies (h : Kvm d m role m' role') (e : Nat) : Copies e d 0 m role m' role' :=
  ⟨h.pool, h.tree, h.frame, h.new, h.low, fun k hk => absurd hk (Nat.not_lt_zero k), fun k hk _ => h.pte k hk,
    h.free⟩

theorem kernelEntry_user (hk : k < userPages) : kernelEntry k = 0 := by
  refine if_neg ?_
  simp only [userPages] at *
  omega

/-- One page more is copied. -/
theorem Copies.snoc {m₁ : Mem} {role₁ : Nat → Role} {data : Block} (h : Copies e d j m role m₁ role₁)
    (hj : j < userPages) (hdata : data = m.page (m.pte e j / pgsize)) (h' : Maps d j pg data m₁ role₁ m' role') :
    Copies e d (j + 1) m role m' role' := by
  refine ⟨h'.pool, h'.tree, h.frame.trans h'.frame, h.new, by rw [h'.low]; exact h.low, ?_, ?_, ?_⟩
  · intro k hk
    have hku : k < userPages := by omega
    rw [h'.pte k (lt_max hku)]
    by_cases hkj : k = j
    · rw [if_pos hkj, entry_div, h'.new, hdata, hkj]
      exact ⟨present_entry pg, rfl⟩
    · rw [if_neg hkj]
      obtain ⟨hpresent, hpage⟩ := h.copied k (by omega)
      rw [h'.kept _ k (h.tree.user k hku hpresent).1]
      exact ⟨hpresent, hpage⟩
  · intro k hk hjk
    rw [h'.pte k hk, if_neg (by omega)]
    exact h.rest k hk (by omega)
  · have hdrop : m₁.free.drop 1 = m'.free := by
      rw [h'.free]
      rfl
    rw [← hdrop, h.free, List.drop_drop, Nat.add_assoc]

theorem page_lt_iff {sz : Nat} : k * pgsize < sz ↔ k < pagesOf sz := by
  simp only [pagesOf, pgsize]
  omega

/-- A turn of the loop that finds a free page. -/
theorem copyLoop_turn {sz turns entry : Nat} {rest : List Nat} (ht : Tree m role d) (hpool : Pool m role)
    (hlowd : present (m.pde d 0)) (habsent : ¬ present (m.pte d k)) (hlow : present (m.pde e 0))
    (hku : k < userPages) (hgo : k * pgsize < sz) (hentry : m.pte e k = entry) (hpresent : present entry)
    (hfree : m.free = pg :: rest) :
    copyLoop e d sz (turns + 1) (k * pgsize) m =
      copyLoop e d sz turns ((k + 1) * pgsize) (m.map d k pg rest (m.page (entry / pgsize))) := by
  have hload : (load ⟨m.low e, k⟩ : Code Nat) m = .ok (entry, m) := by
    show Except.ok (m.word ⟨m.low e, k⟩, m) = _
    rw [word_user hlow hku, hentry]
  rw [copyLoop, if_pos hgo]
  refine (run_bind (walkpgdir_user hlow hku)).trans ((run_bind hload).trans ?_)
  rw [if_pos hpresent]
  refine (run_bind (kalloc_cons hfree)).trans ?_
  refine (run_bind (show (get : Code Mem) _ = .ok (_, _) from rfl)).trans ?_
  refine (run_bind (show fill pg (m.page (entry / pgsize)) _ = .ok ((), _) from rfl)).trans ?_
  refine (run_bind (ht.map_run hpool hlowd hku habsent hfree (m.page (entry / pgsize)))).trans ?_
  rw [next_page hku]
  rfl

theorem copyLoop_full {sz turns entry : Nat} (hlow : present (m.pde e 0)) (hku : k < userPages)
    (hgo : k * pgsize < sz) (hentry : m.pte e k = entry) (hpresent : present entry) (hfree : m.free = []) :
    copyLoop e d sz (turns + 1) (k * pgsize) m = .ok (false, m) := by
  have hload : (load ⟨m.low e, k⟩ : Code Nat) m = .ok (entry, m) := by
    show Except.ok (m.word ⟨m.low e, k⟩, m) = _
    rw [word_user hlow hku, hentry]
  rw [copyLoop, if_pos hgo]
  refine (run_bind (walkpgdir_user hlow hku)).trans ((run_bind hload).trans ?_)
  rw [if_pos hpresent]
  exact (run_bind (kalloc_nil hfree)).trans rfl

/-- The pages are copied while there are free pages. -/
theorem copyLoop_spec {turns : Nat} {m₀ : Mem} {role₀ : Nat → Role} (hlive : Live m₀ role₀ p)
    (h : Copies p.pgdir d k m₀ role₀ m role) (hk : k ≤ pagesOf p.sz) (hturns : pagesOf p.sz - k < turns) :
    if pagesOf p.sz - k ≤ m.free.length then
      ∃ m' role', copyLoop p.pgdir d p.sz turns (k * pgsize) m = .ok (true, m') ∧
        Copies p.pgdir d (pagesOf p.sz) m₀ role₀ m' role'
    else ∃ j m' role', copyLoop p.pgdir d p.sz turns (k * pgsize) m = .ok (false, m') ∧
        Copies p.pgdir d j m₀ role₀ m' role' := by
  have hpages := pagesOf_le hlive.size
  induction turns generalizing k m role with
  | zero => omega
  | succ turns ih =>
    by_cases hend : k = pagesOf p.sz
    · have hstop : ¬ k * pgsize < p.sz := by
        rw [page_lt_iff]
        omega
      rw [if_pos (by omega), copyLoop, if_neg hstop]
      rw [hend] at h
      exact ⟨m, role, rfl, h⟩
    · have hgo : k * pgsize < p.sz := page_lt_iff.mpr (by omega)
      have hku : k < userPages := by omega
      have hkeeps := h.keeps hlive.pool
      have hpte : m.pte p.pgdir k = m₀.pte p.pgdir k := hkeeps.pte hlive.tree (lt_max hku)
      have hpresent : present (m₀.pte p.pgdir k) := (hlive.user k hku).mpr (by omega)
      have hlow : present (m.pde p.pgdir 0) := by
        rw [pde_congr (hkeeps p.pgdir (by rw [hlive.tree.dir]; exact Role.noConfusion)).2]
        exact hlive.low
      have habsent : ¬ present (m.pte d k) := by
        rw [h.rest k (lt_max hku) le_rfl, kernelEntry_user hku]
        exact not_present_zero
      cases hfree : m.free with
      | nil =>
        rw [if_neg (by rw [List.length_nil]; omega), copyLoop_full hlow hku hgo hpte hpresent hfree]
        exact ⟨k, m, role, rfl, h⟩
      | cons pg rest =>
        have hmaps := h.tree.map (m.page (m₀.pte p.pgdir k / pgsize)) h.pool h.low hku habsent hfree
        have hstep := ih (h.snoc hku (hkeeps.user hlive.tree hku hpresent) hmaps) (by omega) (by omega)
        have hlength : (m.map d k pg rest (m.page (m₀.pte p.pgdir k / pgsize))).free.length = rest.length := rfl
        rw [copyLoop_turn h.tree h.pool h.low habsent hlow hku hgo hpte hpresent hfree, List.length_cons]
        rw [hlength] at hstep
        by_cases henough : pagesOf p.sz - (k + 1) ≤ rest.length
        · rw [if_pos henough] at hstep
          rw [if_pos (by omega)]
          exact hstep
        · rw [if_neg henough] at hstep
          rw [if_neg (by omega)]
          exact hstep

/-- What `fork` needs of `copyuvm`: `d` is an address space with the same user pages as the process, each in a
page of its own that was free, and with the kernel's mappings; the pages of the process are untouched. -/
structure Copied (m : Mem) (p : Proc) (d : Nat) (m' : Mem) : Prop where
  presence : ∀ k < userPages, present (m'.pte d k) ↔ present (m.pte p.pgdir k)
  fresh : ∀ k < pagesOf p.sz, ∃ pg ∈ m.free, m'.pte d k = pg * pgsize + 7 ∧
    m'.page pg = m.page (m.pte p.pgdir k / pgsize)
  distinct : ∀ k < pagesOf p.sz, ∀ l < pagesOf p.sz, m'.pte d k = m'.pte d l → k = l
  kernel : ∃ m₁, setupkvm m = .ok (some d, m₁) ∧
    ∀ k, userPages ≤ k → k < 2 ^ 20 → m'.pte d k = m₁.pte d k
  pte : ∀ k < 2 ^ 20, m'.pte p.pgdir k = m.pte p.pgdir k
  page : ∀ pg, pg ∉ m.free → m'.page pg = m.page pg
  byte : ∀ va < userTop, m'.byte d va = m.byte p.pgdir va ∧ m'.byte p.pgdir va = m.byte p.pgdir va
  apart : ∀ k < pagesOf p.sz, ∀ data, ∀ va < userTop,
    (m'.setPage (m'.pte d k / pgsize) data).byte p.pgdir va = m'.byte p.pgdir va ∧
    (m'.setPage (m'.pte p.pgdir k / pgsize) data).byte d va = m'.byte d va

/-- A page of one address space is written. -/
theorem Tree.byte_setPage {va : Nat} (ht : Tree m role d) (data : Block) (hva : va / pgsize < userPages)
    (howner : (role pg).owner ≠ some d) : (m.setPage pg data).byte d va = m.byte d va := by
  have hpte : (m.setPage pg data).pte d (va / pgsize) = m.pte d (va / pgsize) := by
    refine ht.pte_setPage data (fun heq => howner ?_) (fun i heq => howner ?_) (lt_max hva)
    · rw [heq]
      rfl
    · rw [heq]
      rfl
  unfold Mem.byte
  rw [hpte]
  by_cases hpresent : present (m.pte d (va / pgsize))
  · rw [if_pos hpresent, if_pos hpresent, setPage_of_ne data fun heq => howner ?_]
    rw [← heq, (ht.user _ hva hpresent).1]
    rfl
  · rw [if_neg hpresent, if_neg hpresent]

theorem Copies.copied_all (hlive : Live m role p) (h : Copies p.pgdir d (pagesOf p.sz) m role m' role')
    (hkvm : ∃ m₁ role₁, setupkvm m = .ok (some d, m₁) ∧ Kvm d m role m₁ role₁) : Copied m p d m' := by
  have hpages := pagesOf_le hlive.size
  have hkeeps := h.keeps hlive.pool
  have hne : p.pgdir ≠ d := by
    intro heq
    have hd := hlive.tree.dir
    rw [heq, h.new] at hd
    cases hd
  have hparent : Tree m' role' p.pgdir := hlive.tree.frame h.frame hne
  have hpresence : ∀ k < userPages, present (m'.pte d k) ↔ present (m.pte p.pgdir k) := by
    intro k hk
    rw [hlive.user k hk]
    by_cases hlt : k < pagesOf p.sz
    · exact iff_of_true (h.copied k hlt).1 hlt
    · rw [h.rest k (lt_max hk) (by omega), kernelEntry_user hk]
      exact iff_of_false not_present_zero hlt
  have hrole : ∀ k < pagesOf p.sz, role' (m'.pte d k / pgsize) = .user d k := fun k hk =>
    (h.tree.user k (by omega) (h.copied k hk).1).1
  have hentry : ∀ k < pagesOf p.sz, m'.pte d k = m'.pte d k / pgsize * pgsize + 7 := by
    intro k hk
    have hmod := (h.tree.user k (by omega) (h.copied k hk).1).2
    have hdiv := Nat.div_add_mod' (m'.pte d k) pgsize
    omega
  refine ⟨hpresence, ?_, ?_, ?_, fun k hk => hkeeps.pte hlive.tree hk, ?_, ?_, ?_⟩
  · intro k hk
    refine ⟨m'.pte d k / pgsize, ?_, hentry k hk, (h.copied k hk).2⟩
    by_contra hmem
    have hused := (hkeeps _ fun hfree => hmem ((hlive.pool.free _).mpr hfree)).1
    rw [hrole k hk] at hused
    have hdir := hlive.pool.owned _ d (by rw [← hused]; rfl)
    rw [h.new] at hdir
    cases hdir
  · intro k hk l hl heq
    have hk' := hrole k hk
    rw [heq, hrole l hl] at hk'
    exact (Role.user.inj hk').2.symm
  · obtain ⟨m₁, role₁, hrun, hkvm⟩ := hkvm
    refine ⟨m₁, hrun, fun k hk hk' => ?_⟩
    rw [h.rest k hk' (by omega), hkvm.pte k hk']
  · exact fun pg hpg => (hkeeps pg fun hfree => hpg ((hlive.pool.free pg).mpr hfree)).2
  · intro va hva
    have hva' := div_lt_userPages hva
    refine ⟨?_, hkeeps.byte hlive.tree hva'⟩
    unfold Mem.byte
    by_cases hlt : va / pgsize < pagesOf p.sz
    · obtain ⟨hpresent, hpage⟩ := h.copied _ hlt
      rw [if_pos hpresent, if_pos ((hpresence _ hva').mp hpresent), hpage]
    · have habsent : ¬ present (m.pte p.pgdir (va / pgsize)) := by
        rw [hlive.user _ hva']
        exact hlt
      rw [if_neg habsent, if_neg fun hpresent => habsent ((hpresence _ hva').mp hpresent)]
  · intro k hk data va hva
    have hva' := div_lt_userPages hva
    refine ⟨hparent.byte_setPage data hva' ?_, h.tree.byte_setPage data hva' ?_⟩
    · rw [hrole k hk]
      exact fun heq => hne (Option.some.inj heq).symm
    · have hpresent : present (m'.pte p.pgdir k) := by
        rw [hkeeps.pte hlive.tree (lt_max (by omega))]
        exact (hlive.user k (by omega)).mpr hk
      rw [(hparent.user k (by omega) hpresent).1]
      exact fun heq => hne (Option.some.inj heq)

/-- `copyuvm` succeeds when there are pages for the directory, the tables and the copies. -/
theorem copyuvm_spec (h : Live m role p) :
    if 13 + pagesOf p.sz ≤ m.free.length then
      ∃ d m' role', copyuvm p.pgdir p.sz m = .ok (some d, m') ∧
        Copies p.pgdir d (pagesOf p.sz) m role m' role' ∧
        ∃ m₁ role₁, setupkvm m = .ok (some d, m₁) ∧ Kvm d m role m₁ role₁
    else ∃ m' role', copyuvm p.pgdir p.sz m = .ok (none, m') ∧ Pool m' role' ∧ Keeps m role m' role' := by
  have hkvm := setupkvm_spec h.pool
  have hpages := pagesOf_le h.size
  by_cases h₁ : 13 ≤ m.free.length
  · rw [if_pos h₁] at hkvm
    obtain ⟨d, m₁, role₁, hrun₁, hkvm⟩ := hkvm
    have hturns : pagesOf p.sz - 0 < maxTurns := (Nat.sub_le _ _).trans_lt (hpages.trans_lt userPages_lt_maxTurns)
    have hloop := copyLoop_spec h (hkvm.copies p.pgdir) (Nat.zero_le _) hturns
    have hlength : m₁.free.length = m.free.length - 13 := by rw [hkvm.free, List.length_drop]
    rw [copyuvm, run_bind hrun₁]
    rw [Nat.zero_mul, Nat.sub_zero] at hloop
    by_cases h₂ : pagesOf p.sz ≤ m₁.free.length
    · rw [if_pos h₂] at hloop
      obtain ⟨m', role', hrun₂, hcopies⟩ := hloop
      rw [if_pos (by omega)]
      exact ⟨d, m', role', (run_bind hrun₂).trans rfl, hcopies, m₁, role₁, hrun₁, hkvm⟩
    · rw [if_neg h₂] at hloop
      obtain ⟨j, m₂, role₂, hrun₂, hcopies⟩ := hloop
      obtain ⟨m', hrun₃, hpool, hframe⟩ := freevm_spec hcopies.tree hcopies.pool hcopies.low
      rw [if_neg (by omega)]
      refine ⟨m', _, ?_, hpool, (hcopies.frame.trans hframe).kept_all h.pool hcopies.new⟩
      refine (run_bind hrun₂).trans ?_
      exact (run_bind hrun₃).trans rfl
  · rw [if_neg h₁] at hkvm
    obtain ⟨m', role', hrun₁, hpool, -, hkeeps⟩ := hkvm
    rw [if_neg (by omega), copyuvm, run_bind hrun₁]
    exact ⟨m', role', rfl, hpool, hkeeps⟩

end Xv6.Vm
