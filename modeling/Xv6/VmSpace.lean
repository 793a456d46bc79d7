import Xv6.Vm

/-! Address spaces. Every page of memory has one role: it is free, a page directory, a table or a user page of
an address space, or something else. A page directory with its tables is a tree in which every table and every
user page has the role of its place, so that no page is in two places. -/

namespace Xv6.Vm

open LibWord Fs Function

/-- What a page is used for. An address space is named by its page directory. -/
inductive Role where
  | free
  | dir (d : Nat)
  | table (d i : Nat)
  | user (d k : Nat)
  | other

def Role.owner : Role → Option Nat
  | free => none
  | dir d => some d
  | table d _ => some d
  | user d _ => some d
  | other => none

variable {m m' : Mem} {role role' : Nat → Role} {d e i k pg : Nat}

def Mem.pde (m : Mem) (d i : Nat) : Nat := m.word ⟨d, i⟩

/-- The entry for page `k` of the address space, 0 if there is no table for it. -/
def Mem.pte (m : Mem) (d k : Nat) : Nat :=
  if present (m.pde d (k / 1024)) then m.word ⟨m.pde d (k / 1024) / pgsize, k % 1024⟩ else 0

/-- The pages below `USERTOP`. -/
def userPages : Nat := 160

/-- What `kinit` and `kfree` let into the free list. -/
def Ram (pg : Nat) : Prop := 256 ≤ pg ∧ pg < 4096

structure Pool (m : Mem) (role : Nat → Role) : Prop where
  nodup : m.free.Nodup
  free : ∀ pg, pg ∈ m.free ↔ role pg = .free
  ram : ∀ pg, (role pg = .free ∨ (role pg).owner ≠ none) → Ram pg
  owned : ∀ pg e, (role pg).owner = some e → role e = .dir e
  dir : ∀ pg e, role pg = .dir e → pg = e

/-- A page directory and what it leads to. -/
structure Tree (m : Mem) (role : Nat → Role) (d : Nat) : Prop where
  dir : role d = .dir d
  table : ∀ i < 1024, present (m.pde d i) →
    role (m.pde d i / pgsize) = .table d i ∧ m.pde d i % pgsize = 7
  tableOf : ∀ pg i, role pg = .table d i → i < 1024 ∧ m.pde d i = pg * pgsize + 7
  user : ∀ k < userPages, present (m.pte d k) → role (m.pte d k / pgsize) = .user d k ∧ m.pte d k % pgsize = 7
  userOf : ∀ pg k, role pg = .user d k → k < userPages ∧ m.pte d k = pg * pgsize + 7

/-- Other address spaces, and pages of other use, are left alone. -/
structure Frame (d : Nat) (m : Mem) (role : Nat → Role) (m' : Mem) (role' : Nat → Role) : Prop where
  kept : ∀ pg, role pg ≠ .free → (role pg).owner ≠ some d → role' pg = role pg ∧ m'.page pg = m.page pg
  back : ∀ pg, role' pg ≠ .free → (role' pg).owner ≠ some d → role' pg = role pg

theorem Frame.refl (d : Nat) (m : Mem) (role : Nat → Role) : Frame d m role m role :=
  ⟨fun _ _ _ => ⟨rfl, rfl⟩, fun _ _ _ => rfl⟩

theorem Frame.trans {m₁ : Mem} {role₁ : Nat → Role} (h : Frame d m role m₁ role₁)
    (h' : Frame d m₁ role₁ m' role') : Frame d m role m' role' := by
  refine ⟨fun pg hfree howner => ?_, fun pg hfree howner => ?_⟩
  · obtain ⟨hrole, hpage⟩ := h.kept pg hfree howner
    obtain ⟨hrole', hpage'⟩ := h'.kept pg (hrole ▸ hfree) (hrole ▸ howner)
    exact ⟨hrole'.trans hrole, hpage'.trans hpage⟩
  · have hrole' := h'.back pg hfree howner
    exact hrole'.trans (h.back pg (hrole' ▸ hfree) (hrole' ▸ howner))

theorem pde_congr (h : m'.page d = m.page d) (i : Nat) : m'.pde d i = m.pde d i := by
  unfold Mem.pde Mem.word
  rw [h]

/-- The entries depend on the directory and the tables only. -/
theorem Tree.pte_congr (ht : Tree m role d) (hdir : m'.page d = m.page d)
    (htable : ∀ pg i, role pg = .table d i → m'.page pg = m.page pg) (hk : k < 2 ^ 20) :
    m'.pte d k = m.pte d k := by
  unfold Mem.pte
  rw [pde_congr hdir]
  by_cases hpresent : present (m.pde d (k / 1024))
  · rw [if_pos hpresent, if_pos hpresent]
    have htab := (ht.table (k / 1024) (by omega) hpresent).1
    unfold Mem.word
    rw [htable _ _ htab]
  · rw [if_neg hpresent, if_neg hpresent]

/-- An address space that a frame leaves alone. -/
theorem Tree.frame (ht : Tree m role e) (hframe : Frame d m role m' role') (hne : e ≠ d) : Tree m' role' e := by
  have howner : ∀ pg, (role pg).owner = some e → role' pg = role pg ∧ m'.page pg = m.page pg := by
    intro pg hpg
    refine hframe.kept pg (fun hfree => ?_) fun heq => hne ?_
    · rw [hfree] at hpg
      exact absurd hpg.symm (Option.some_ne_none e)
    · rw [hpg] at heq
      exact Option.some.inj heq
  have hback : ∀ pg, (role' pg).owner = some e → role' pg = role pg := by
    intro pg hpg
    refine hframe.back pg (fun hfree => ?_) fun heq => hne ?_
    · rw [hfree] at hpg
      exact absurd hpg.symm (Option.some_ne_none e)
    · rw [hpg] at heq
      exact Option.some.inj heq
  have hdir := howner e (by rw [ht.dir]; rfl)
  have htable : ∀ pg i, role pg = .table e i → m'.page pg = m.page pg := fun pg i hpg =>
    (howner pg (by rw [hpg]; rfl)).2
  have hpte : ∀ k < userPages, m'.pte e k = m.pte e k := fun k hk =>
    ht.pte_congr hdir.2 htable (hk.trans (by decide))
  refine ⟨hdir.1.trans ht.dir, ?_, ?_, ?_, ?_⟩
  · intro i hi hpresent
    rw [pde_congr hdir.2] at hpresent ⊢
    obtain ⟨hrole, hmod⟩ := ht.table i hi hpresent
    exact ⟨(howner _ (by rw [hrole]; rfl)).1.trans hrole, hmod⟩
  · intro pg i hpg
    rw [pde_congr hdir.2]
    exact ht.tableOf pg i ((hback pg (by rw [hpg]; rfl)).symm.trans hpg)
  · intro k hk hpresent
    rw [hpte k hk] at hpresent ⊢
    obtain ⟨hrole, hmod⟩ := ht.user k hk hpresent
    exact ⟨(howner _ (by rw [hrole]; rfl)).1.trans hrole, hmod⟩
  · intro pg k hpg
    obtain ⟨hk, heq⟩ := ht.userOf pg k ((hback pg (by rw [hpg]; rfl)).symm.trans hpg)
    exact ⟨hk, (hpte k hk).trans heq⟩

/-! Changes of single pages and entries. -/

theorem setPage_of_ne {r : Nat} (data : Block) (h : pg ≠ r) : (m.setPage r data).page pg = m.page pg :=
  update_of_ne h _ _

theorem setPage_self (m : Mem) (r : Nat) (data : Block) : (m.setPage r data).page r = data :=
  update_self _ _ _

theorem setWord_of_ne {x : Pte} (w : Nat) (h : pg ≠ x.page) : (m.setWord x w).page pg = m.page pg :=
  update_of_ne h _ _

theorem Pool.setPages (h : Pool m role) (hfree : m'.free = m.free) : Pool m' role :=
  ⟨hfree ▸ h.nodup, fun pg => by rw [hfree]; exact h.free pg, h.ram, h.owned, h.dir⟩

/-- A page that nothing else belongs to is freed. -/
theorem Pool.kfree (data : Block) (h : Pool m role) (hfree : role pg ≠ .free) (hram : Ram pg)
    (hdir : ∀ q, (role q).owner = some pg → q = pg) :
    Pool { m.setPage pg data with free := pg :: m.free } (update role pg .free) := by
  have hrole : ∀ q, q ≠ pg → update role pg .free q = role q := fun q hq =>
    update_of_ne hq _ _
  refine ⟨List.nodup_cons.mpr ⟨fun hmem => hfree ((h.free pg).mp hmem), h.nodup⟩, fun q => ?_, fun q hq => ?_,
    fun q e he => ?_, fun q e he => ?_⟩
  · by_cases hq : q = pg
    · rw [hq, update_self]
      exact iff_of_true List.mem_cons_self rfl
    · rw [hrole q hq, ← h.free q]
      exact ⟨fun hmem => (List.mem_cons.mp hmem).resolve_left hq, List.mem_cons_of_mem _⟩
  · by_cases hqpg : q = pg
    · rw [hqpg]
      exact hram
    · rw [hrole q hqpg] at hq
      exact h.ram q hq
  · by_cases hq : q = pg
    · rw [hq, update_self] at he
      cases he
    · rw [hrole q hq] at he
      have hepg : e ≠ pg := fun heq => hq (hdir q (heq ▸ he))
      rw [hrole e hepg]
      exact h.owned q e he
  · by_cases hq : q = pg
    · rw [hq, update_self] at he
      cases he
    · rw [hrole q hq] at he
      exact h.dir q e he

/-- The first free page is put to use. -/
theorem Pool.kalloc {x : Role} {rest : List Nat} (h : Pool m role) (hfree : m.free = pg :: rest)
    (hx : x ≠ .free) (howned : ∀ e, x.owner = some e → role e = .dir e ∨ x = .dir pg ∧ e = pg)
    (hdir : ∀ e, x = .dir e → pg = e) (hm' : m'.free = rest) : Pool m' (update role pg x) := by
  have hpgfree : role pg = .free := (h.free pg).mp (hfree ▸ List.mem_cons_self)
  have hnodup : pg ∉ rest ∧ rest.Nodup := List.nodup_cons.mp (hfree ▸ h.nodup)
  have hrole : ∀ q, q ≠ pg → update role pg x q = role q := fun q hq => update_of_ne hq _ _
  have hne : ∀ e, role e = .dir e → e ≠ pg := by
    intro e he heq
    rw [heq, hpgfree] at he
    cases he
  refine ⟨hm' ▸ hnodup.2, fun q => ?_, fun q hq => ?_, fun q e he => ?_, fun q e he => ?_⟩
  · rw [hm']
    by_cases hq : q = pg
    · rw [hq, update_self]
      exact iff_of_false hnodup.1 hx
    · rw [hrole q hq, ← h.free q, hfree, List.mem_cons]
      exact ⟨.inr, fun hor => hor.resolve_left hq⟩
  · by_cases hqpg : q = pg
    · rw [hqpg]
      exact h.ram pg (.inl hpgfree)
    · rw [hrole q hqpg] at hq
      exact h.ram q hq
  · by_cases hq : q = pg
    · rw [hq, update_self] at he
      rcases howned e he with hdir' | ⟨hx', rfl⟩
      · rw [hrole e (hne e hdir')]
        exact hdir'
      · rw [update_self]
        exact hx'
    · rw [hrole q hq] at he
      have hdir' := h.owned q e he
      rw [hrole e (hne e hdir')]
      exact hdir'
  · by_cases hq : q = pg
    · rw [hq, update_self] at he
      exact hq.trans (hdir e he)
    · rw [hrole q hq] at he
      exact h.dir q e he

/-- An entry of a table is written. -/
theorem Tree.pte_setWord {t j w : Nat} (ht : Tree m role d) (hrole : role t = .table d i) (hj : j < 1024)
    (hw : w < uintSize) (hk : k < 2 ^ 20) :
    (m.setWord ⟨t, j⟩ w).pte d k = if k = 1024 * i + j then w else m.pte d k := by
  have hdir : (m.setWord ⟨t, j⟩ w).page d = m.page d := by
    refine setWord_of_ne w fun heq => ?_
    have hd := ht.dir
    rw [show d = t from heq, hrole] at hd
    exact absurd hd Role.noConfusion
  obtain ⟨hi, hpde⟩ := ht.tableOf t i hrole
  unfold Mem.pte
  rw [pde_congr hdir]
  by_cases hki : k / 1024 = i
  · have hpage : m.pde d i / pgsize = t := by
      rw [hpde]
      simp only [pgsize]
      omega
    have hpresent : present (m.pde d i) := by
      rw [hpde]
      simp only [present, pgsize]
      omega
    rw [hki, if_pos hpresent, if_pos hpresent, hpage]
    have hword : (m.setWord ⟨t, j⟩ w).page t = (m.page t).setWord j w := update_self _ _ _
    unfold Mem.word
    rw [hword]
    by_cases hkj : k % 1024 = j
    · rw [if_pos (by omega), hkj]
      exact word_setWord_self hw
    · rw [if_neg (by omega)]
      exact word_setWord_of_ne hkj
  · rw [if_neg (show ¬ k = 1024 * i + j by omega)]
    by_cases hpresent : present (m.pde d (k / 1024))
    · rw [if_pos hpresent, if_pos hpresent]
      have htab := (ht.table (k / 1024) (by omega) hpresent).1
      unfold Mem.word
      rw [setWord_of_ne w fun heq => ?_]
      rw [show m.pde d (k / 1024) / pgsize = t from heq, hrole] at htab
      exact hki (Role.table.inj htab).2.symm
    · rw [if_neg hpresent, if_neg hpresent]

theorem Tree.pte_setPage {r : Nat} (ht : Tree m role d) (data : Block) (hdir : role r ≠ .dir d)
    (htable : ∀ i, role r ≠ .table d i) (hk : k < 2 ^ 20) : (m.setPage r data).pte d k = m.pte d k := by
  refine ht.pte_congr (setPage_of_ne data fun heq => hdir ?_) (fun pg i hpg => ?_) hk
  · rw [← heq]
    exact ht.dir
  · refine setPage_of_ne data fun heq => htable i ?_
    rw [← heq]
    exact hpg

/-- The table for the first four megabytes. -/
def Mem.low (m : Mem) (d : Nat) : Nat := m.pde d 0 / pgsize

/-- `kfree` of a page, and its entry erased. -/
def Mem.unmap (m : Mem) (d k pg : Nat) : Mem :=
  Mem.setWord { m.setPage pg (fun _ => 1) with free := pg :: m.free } ⟨m.low d, k⟩ 0

/-- A page taken off the free list, filled and entered. -/
def Mem.map (m : Mem) (d k pg : Nat) (rest : List Nat) (data : Block) : Mem :=
  Mem.setWord ({ m with free := rest }.setPage pg data) ⟨m.low d, k⟩ (pg * pgsize + 7)

theorem entry_div (pg : Nat) : (pg * pgsize + 7) / pgsize = pg := by
  simp only [pgsize]
  omega

theorem entry_mod (pg : Nat) : (pg * pgsize + 7) % pgsize = 7 := by
  simp only [pgsize]
  omega

theorem present_entry (pg : Nat) : present (pg * pgsize + 7) := by
  simp only [present, pgsize]
  omega

theorem not_present_zero : ¬ present 0 := by decide

theorem Tree.low_role (ht : Tree m role d) (hlow : present (m.pde d 0)) : role (m.low d) = .table d 0 :=
  (ht.table 0 (by decide) hlow).1

/-- What one page of the address space being unmapped does. -/
structure Unmaps (d k pg : Nat) (m : Mem) (role : Nat → Role) (m' : Mem) (role' : Nat → Role) : Prop where
  pool : Pool m' role'
  tree : Tree m' role' d
  frame : Frame d m role m' role'
  low : m'.pde d 0 = m.pde d 0
  pte : ∀ k' < 2 ^ 20, m'.pte d k' = if k' = k then 0 else m.pte d k'
  free : m'.free = pg :: m.free
  role_eq : role' = update role pg .free
  kept : ∀ pg' k', role pg' = .user d k' → k' ≠ k → m'.page pg' = m.page pg'

/-- An entry for a user page is replaced. -/
theorem Tree.replace {w : Nat} (ht : Tree m role d) (hk : k < userPages) (hdirpage : m'.page d = m.page d)
    (hdir : role' d = .dir d) (htable : ∀ q i, role' q = .table d i ↔ role q = .table d i)
    (huser : ∀ q k', k' ≠ k → (role' q = .user d k' ↔ role q = .user d k'))
    (hpte : ∀ k' < 2 ^ 20, m'.pte d k' = if k' = k then w else m.pte d k')
    (hnew : ¬ present w ∧ (∀ q, role' q ≠ .user d k) ∨
      ∃ r, w = r * pgsize + 7 ∧ ∀ q, role' q = .user d k ↔ q = r) : Tree m' role' d := by
  have hmax : ∀ k' < userPages, k' < 2 ^ 20 := fun k' hk' => hk'.trans (by decide)
  refine ⟨hdir, ?_, ?_, ?_, ?_⟩
  · intro i hi hpresent
    rw [pde_congr hdirpage] at hpresent ⊢
    obtain ⟨hrole, hmod⟩ := ht.table i hi hpresent
    exact ⟨(htable _ i).mpr hrole, hmod⟩
  · intro q i hq
    rw [pde_congr hdirpage]
    exact ht.tableOf q i ((htable q i).mp hq)
  · intro k' hk' hpresent
    rw [hpte k' (hmax k' hk')] at hpresent ⊢
    by_cases heq : k' = k
    · rw [if_pos heq] at hpresent ⊢
      rcases hnew with ⟨hnot, -⟩ | ⟨r, rfl, hr⟩
      · exact absurd hpresent hnot
      · rw [entry_div, heq]
        exact ⟨(hr r).mpr rfl, entry_mod r⟩
    · rw [if_neg heq] at hpresent ⊢
      obtain ⟨hrole, hmod⟩ := ht.user k' hk' hpresent
      exact ⟨(huser _ k' heq).mpr hrole, hmod⟩
  · intro q k' hq
    by_cases heq : k' = k
    · rw [heq] at hq ⊢
      rcases hnew with ⟨-, hnone⟩ | ⟨r, rfl, hr⟩
      · exact absurd hq (hnone q)
      · rw [hpte k (hmax k hk), if_pos rfl, (hr q).mp hq]
        exact ⟨hk, rfl⟩
    · obtain ⟨hk', hold⟩ := ht.userOf q k' ((huser q k' heq).mp hq)
      rw [hpte k' (hmax k' hk'), if_neg heq]
      exact ⟨hk', hold⟩

/-- The contents of a page that is no directory or table do not matter, nor does the free list. -/
theorem Tree.setPage {r : Nat} (ht : Tree m role d) (data : Block) (free : List Nat) (hdir : role r ≠ .dir d)
    (htable : ∀ i, role r ≠ .table d i) : Tree { m.setPage r data with free := free } role d := by
  have hpte : ∀ k < 2 ^ 20, (m.setPage r data).pte d k = m.pte d k := fun k hk =>
    ht.pte_setPage data hdir htable hk
  have hdirpage : (m.setPage r data).page d = m.page d := by
    refine setPage_of_ne data fun heq => hdir ?_
    rw [← heq]
    exact ht.dir
  have hmax : ∀ k' < userPages, k' < 2 ^ 20 := fun k' hk' => hk'.trans (by decide)
  refine ⟨ht.dir, ?_, ?_, ?_, ?_⟩
  · intro i hi hpresent
    have heq : Mem.pde { m.setPage r data with free := free } d i = m.pde d i := pde_congr hdirpage i
    rw [heq] at hpresent ⊢
    exact ht.table i hi hpresent
  · intro q i hq
    have heq : Mem.pde { m.setPage r data with free := free } d i = m.pde d i := pde_congr hdirpage i
    rw [heq]
    exact ht.tableOf q i hq
  · intro k hk hpresent
    have heq : Mem.pte { m.setPage r data with free := free } d k = m.pte d k := hpte k (hmax k hk)
    rw [heq] at hpresent ⊢
    exact ht.user k hk hpresent
  · intro q k hq
    obtain ⟨hk, hold⟩ := ht.userOf q k hq
    exact ⟨hk, (hpte k (hmax k hk)).trans hold⟩

/-- An entry of the first table is written after another page. -/
theorem Tree.pte_low {r w : Nat} (ht : Tree m role d) (hlow : present (m.pde d 0)) (data : Block) (free : List Nat)
    (hdir : role r ≠ .dir d) (htable : ∀ i, role r ≠ .table d i) (hk : k < userPages) (hw : w < uintSize) :
    ∀ k' < 2 ^ 20, (Mem.setWord { m.setPage r data with free := free } ⟨m.low d, k⟩ w).pte d k' =
      if k' = k then w else m.pte d k' := by
  intro k' hk'
  have hkt : k < 1024 := hk.trans (by decide)
  rw [(ht.setPage data free hdir htable).pte_setWord (ht.low_role hlow) hkt hw hk', Nat.mul_zero,
    Nat.zero_add]
  exact congrArg (ite (k' = k) w) (ht.pte_setPage data hdir htable hk')

theorem Tree.unmap (ht : Tree m role d) (hpool : Pool m role) (hlow : present (m.pde d 0)) (hk : k < userPages)
    (hpte : m.pte d k = pg * pgsize + 7) :
    Unmaps d k pg m role (m.unmap d k pg) (update role pg .free) := by
  have huser : role pg = .user d k := by
    have h := (ht.user k hk (hpte ▸ present_entry pg)).1
    rw [hpte, entry_div] at h
    exact h
  have hlowrole := ht.low_role hlow
  have hne : ∀ q, role q ≠ .user d k → q ≠ pg := by
    intro q hq heq
    rw [heq] at hq
    exact hq huser
  have hrole : ∀ q, q ≠ pg → update role pg .free q = role q := fun q hq =>
    update_of_ne hq _ _
  have hpage : ∀ q, q ≠ pg → role q ≠ .table d 0 → (m.unmap d k pg).page q = m.page q := by
    intro q hq hq'
    have htab : q ≠ m.low d := by
      intro heq
      rw [heq] at hq'
      exact hq' hlowrole
    exact (setWord_of_ne 0 htab).trans (setPage_of_ne _ hq)
  have hdne : d ≠ pg := hne d (by rw [ht.dir]; exact Role.noConfusion)
  have hdirpage : (m.unmap d k pg).page d = m.page d :=
    hpage d hdne (by rw [ht.dir]; exact Role.noConfusion)
  have hpte' : ∀ k' < 2 ^ 20, (m.unmap d k pg).pte d k' = if k' = k then 0 else m.pte d k' :=
    ht.pte_low hlow _ _ (by rw [huser]; exact Role.noConfusion)
      (fun i => by rw [huser]; exact Role.noConfusion) hk (by decide)
  have hroles : ∀ q x, x ≠ .free → x ≠ .user d k →
      (update role pg .free q = x ↔ role q = x) := by
    intro q x hfree hx
    by_cases hq : q = pg
    · rw [hq, update_self, huser]
      exact ⟨fun h => absurd h.symm hfree, fun h => absurd h.symm hx⟩
    · rw [hrole q hq]
  refine ⟨?_, ?_, ⟨?_, ?_⟩, pde_congr hdirpage 0, hpte', rfl, rfl, ?_⟩
  · have hram := hpool.ram pg (.inr (by rw [huser]; exact Option.some_ne_none d))
    refine (hpool.kfree (fun _ => 1) (by rw [huser]; exact Role.noConfusion) hram
      fun q hq => ?_).setPages rfl
    have hdir := hpool.owned q pg hq
    rw [huser] at hdir
    cases hdir
  · refine ht.replace hk hdirpage ?_ (fun q i => ?_) (fun q k' hk' => ?_) hpte' (.inl ⟨not_present_zero, ?_⟩)
    · rw [hrole d hdne]
      exact ht.dir
    · exact hroles q _ Role.noConfusion Role.noConfusion
    · exact hroles q _ Role.noConfusion fun heq => hk' (Role.user.inj heq).2
    · intro q hq
      by_cases hqpg : q = pg
      · rw [hqpg, update_self] at hq
        exact absurd hq Role.noConfusion
      · rw [hrole q hqpg] at hq
        have heq := (ht.userOf q k hq).2
        rw [hpte] at heq
        refine hqpg ?_
        simp only [pgsize] at heq
        omega
  · intro q hfree howner
    have hqpg : q ≠ pg := by
      intro heq
      rw [heq, huser] at howner
      exact howner rfl
    refine ⟨hrole q hqpg, hpage q hqpg fun htab => ?_⟩
    rw [htab] at howner
    exact howner rfl
  · intro q hfree howner
    refine hrole q fun heq => hfree ?_
    rw [heq, update_self]
  · intro q k' hq hk'
    refine hpage q (fun heq => hk' ?_) (by rw [hq]; exact Role.noConfusion)
    rw [heq, huser] at hq
    exact (Role.user.inj hq).2.symm

/-- What one page being added to the address space does. -/
structure Maps (d k pg : Nat) (data : Block) (m : Mem) (role : Nat → Role) (m' : Mem) (role' : Nat → Role) :
    Prop where
  pool : Pool m' role'
  tree : Tree m' role' d
  frame : Frame d m role m' role'
  low : m'.pde d 0 = m.pde d 0
  pte : ∀ k' < 2 ^ 20, m'.pte d k' = if k' = k then pg * pgsize + 7 else m.pte d k'
  free : m.free = pg :: m'.free
  role_eq : role' = update role pg (.user d k)
  kept : ∀ pg' k', role pg' = .user d k' → m'.page pg' = m.page pg'
  new : m'.page pg = data

theorem Tree.map {rest : List Nat} (data : Block) (ht : Tree m role d) (hpool : Pool m role)
    (hlow : present (m.pde d 0)) (hk : k < userPages) (hpte : ¬ present (m.pte d k))
    (hfree : m.free = pg :: rest) :
    Maps d k pg data m role (m.map d k pg rest data) (update role pg (.user d k)) := by
  have hpgfree : role pg = .free := (hpool.free pg).mp (hfree ▸ List.mem_cons_self)
  have hram := hpool.ram pg (.inl hpgfree)
  have hlowrole := ht.low_role hlow
  have hne : ∀ q, role q ≠ .free → q ≠ pg := by
    intro q hq heq
    rw [heq] at hq
    exact hq hpgfree
  have hrole : ∀ q, q ≠ pg → update role pg (.user d k) q = role q := fun q hq =>
    update_of_ne hq _ _
  have hpage : ∀ q, q ≠ pg → role q ≠ .table d 0 → (m.map d k pg rest data).page q = m.page q := by
    intro q hq hq'
    have htab : q ≠ m.low d := by
      intro heq
      rw [heq] at hq'
      exact hq' hlowrole
    exact (setWord_of_ne _ htab).trans (setPage_of_ne _ hq)
  have hdne : d ≠ pg := hne d (by rw [ht.dir]; exact Role.noConfusion)
  have hdirpage : (m.map d k pg rest data).page d = m.page d :=
    hpage d hdne (by rw [ht.dir]; exact Role.noConfusion)
  have hpte' : ∀ k' < 2 ^ 20, (m.map d k pg rest data).pte d k' =
      if k' = k then pg * pgsize + 7 else m.pte d k' := by
    refine ht.pte_low hlow data rest (by rw [hpgfree]; exact Role.noConfusion)
      (fun i => by rw [hpgfree]; exact Role.noConfusion) hk ?_
    have hlt := hram.2
    simp only [pgsize, uintSize]
    omega
  have hroles : ∀ q x, x ≠ .free → x ≠ .user d k →
      (update role pg (.user d k) q = x ↔ role q = x) := by
    intro q x hfree' hx
    by_cases hq : q = pg
    · rw [hq, update_self, hpgfree]
      exact ⟨fun h => absurd h.symm hx, fun h => absurd h.symm hfree'⟩
    · rw [hrole q hq]
  refine ⟨?_, ?_, ⟨?_, ?_⟩, pde_congr hdirpage 0, hpte', hfree, rfl, ?_, ?_⟩
  · refine hpool.kalloc hfree Role.noConfusion (fun e he => .inl ?_) (fun e he => by cases he) rfl
    rw [← Option.some.inj he]
    exact ht.dir
  · refine ht.replace hk hdirpage ?_ (fun q i => ?_) (fun q k' hk' => ?_) hpte' (.inr ⟨pg, rfl, ?_⟩)
    · rw [hrole d hdne]
      exact ht.dir
    · exact hroles q _ Role.noConfusion Role.noConfusion
    · exact hroles q _ Role.noConfusion fun heq => hk' (Role.user.inj heq).2
    · intro q
      refine ⟨fun hq => ?_, fun heq => ?_⟩
      · by_contra hqpg
        rw [hrole q hqpg] at hq
        rw [(ht.userOf q k hq).2] at hpte
        exact hpte (present_entry q)
      · rw [heq, update_self]
  · intro q hq howner
    have hqpg := hne q hq
    refine ⟨hrole q hqpg, hpage q hqpg fun htab => ?_⟩
    rw [htab] at howner
    exact howner rfl
  · intro q hq howner
    refine hrole q fun heq => howner ?_
    rw [heq, update_self]
    rfl
  · intro q k' hq
    exact hpage q (hne q (by rw [hq]; exact Role.noConfusion)) (by rw [hq]; exact Role.noConfusion)
  · have hpgtab : pg ≠ m.low d := by
      intro heq
      rw [heq, hlowrole] at hpgfree
      exact absurd hpgfree Role.noConfusion
    exact (setWord_of_ne _ hpgtab).trans (setPage_self _ _ _)

end Xv6.Vm
