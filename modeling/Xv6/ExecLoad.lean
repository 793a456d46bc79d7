import Xv6.ExecInode
import Xv6.VmCopy

/-! Loading a program. While the segments of the program are loaded, the new address space is that of a process of
the size reached so far, and no page that was in use before the call is touched. -/

namespace Xv6.Exec

open LibExcept LibWord Fs Vm

variable {w w₀ : World} {m : Mem} {role role₀ : Nat → Role} {bytes : List UInt8} {d sz size addr offset i j k pg : Nat}
  {p : Vm.Proc}

/-! Writing a user page. -/

theorem present_user (h : Live m role p) (hk : k < pagesOf p.sz) : ∃ pg, m.pte p.pgdir k = pg * pgsize + 7 ∧
    role pg = .user p.pgdir k := by
  have hku : k < userPages := hk.trans_le (pagesOf_le h.size)
  obtain ⟨hrole, hmod⟩ := h.tree.user k hku ((h.user k hku).mpr hk)
  refine ⟨m.pte p.pgdir k / pgsize, ?_, hrole⟩
  have hdiv := Nat.div_add_mod' (m.pte p.pgdir k) pgsize
  omega

theorem live_setPage (h : Live m role p) (hrole : role pg = .user p.pgdir k) (data : Block) :
    Live (m.setPage pg data) role p := by
  have hdir : role pg ≠ .dir p.pgdir := by
    rw [hrole]
    exact Role.noConfusion
  have htable : ∀ i, role pg ≠ .table p.pgdir i := by
    intro i
    rw [hrole]
    exact Role.noConfusion
  have hpte : ∀ k < 2 ^ 20, (m.setPage pg data).pte p.pgdir k = m.pte p.pgdir k := fun k hk =>
    h.tree.pte_setPage data hdir htable hk
  refine ⟨h.pool.setPages rfl, h.tree.setPage data m.free hdir htable, h.size, fun k hk => ?_, fun k hk hk' => ?_⟩
  · rw [hpte k (lt_max hk)]
    exact h.user k hk
  · rw [hpte k hk']
    exact h.kernel k hk hk'

/-- The bytes of the address space after one of its pages has been written. -/
theorem byte_setPage {va : Nat} (h : Live m role p) (hk : k < pagesOf p.sz) (hpte : m.pte p.pgdir k = pg * pgsize + 7)
    (hva : va < userTop) (data : Block) :
    (m.setPage pg data).byte p.pgdir va =
      if va / pgsize = k then some (data (va % pgsize)) else m.byte p.pgdir va := by
  have hva' := div_lt_userPages hva
  have hku : k < userPages := hk.trans_le (pagesOf_le h.size)
  have hrole := user_of_pte h.tree hku hpte
  have hpte' : (m.setPage pg data).pte p.pgdir (va / pgsize) = m.pte p.pgdir (va / pgsize) := by
    refine h.tree.pte_setPage data ?_ (fun i => ?_) (lt_max hva')
    · rw [hrole]
      exact Role.noConfusion
    · rw [hrole]
      exact Role.noConfusion
  unfold Mem.byte
  rw [hpte']
  by_cases heq : va / pgsize = k
  · rw [if_pos heq, heq, hpte, if_pos (present_entry pg), entry_div, setPage_self]
  · rw [if_neg heq]
    by_cases hpresent : present (m.pte p.pgdir (va / pgsize))
    · rw [if_pos hpresent, if_pos hpresent, setPage_of_ne]
      intro hpg
      have hrole' := (h.tree.user _ hva' hpresent).1
      rw [hpg, hrole] at hrole'
      exact heq (Role.user.inj hrole').2.symm
    · rw [if_neg hpresent, if_neg hpresent]

/-! The state while segments are loaded. -/

/-- A store to a page that was free before the call and is now a user page of the new address space. -/
def Allotted (w₀ : World) (d : Nat) (s : Store) : Prop :=
  s.pgdir = d ∧ s.page ∈ w₀.mem.free ∧ ∃ k < userPages, s.mem.pte d k = s.page * pgsize + 7

/-- The inode and what the call holds of it are the same. -/
structure SameInode (w w' : World) : Prop where
  ip : w'.ip = w.ip
  refs : w'.refs = w.refs
  locked : w'.locked = w.locked
  foul : w'.foul = w.foul

theorem SameInode.refl (w : World) : SameInode w w := ⟨rfl, rfl, rfl, rfl⟩

theorem SameInode.trans {w₁ w₂ : World} (h : SameInode w w₁) (h' : SameInode w₁ w₂) : SameInode w w₂ :=
  ⟨h'.ip.trans h.ip, h'.refs.trans h.refs, h'.locked.trans h.locked, h'.foul.trans h.foul⟩

theorem SameInode.held (h : SameInode w₀.taken w) (hbusy : w₀.ip.busy = false) (hrefs : w₀.refs = 0)
    (hfoul : w₀.foul = false) : Held w₀ w := by
  have htaken := held_taken hbusy hrefs hfoul
  refine ⟨?_, ?_, hbusy, h.refs.trans htaken.refs, h.locked.trans htaken.locked, h.foul.trans htaken.foul⟩
  · rw [h.ip]
    exact htaken.ref
  · rw [h.ip]
    exact htaken.busy

/-- The new address space `d` has the size `sz`; the pages taken from the free list are those of the directory, the
tables and the user pages. -/
structure Loading (w₀ : World) (role₀ : Nat → Role) (d sz : Nat) (w : World) (role : Nat → Role) : Prop where
  live : Live w.mem role ⟨d, sz⟩
  frame : Frame d w₀.mem role₀ w.mem role
  new : role₀ d = .free
  free : w.mem.free.length + (13 + pagesOf sz) = w₀.mem.free.length
  stores : ∀ s ∈ w.stores, s ∈ w₀.stores ∨ Allotted w₀ d s

theorem Loading.congr {w' : World} (h : Loading w₀ role₀ d sz w role) (hmem : w'.mem = w.mem)
    (hstores : w'.stores = w.stores) : Loading w₀ role₀ d sz w' role := by
  obtain ⟨hlive, hframe, hnew, hfree, hallotted⟩ := h
  rw [← hmem] at hlive hframe hfree
  rw [← hstores] at hallotted
  exact ⟨hlive, hframe, hnew, hfree, hallotted⟩

theorem Loading.free_before (h : Loading w₀ role₀ d sz w role) (hpool : Pool w₀.mem role₀)
    (hrole : role pg = .user d k) : pg ∈ w₀.mem.free := by
  rw [hpool.free pg]
  by_contra hused
  have hkept := (h.frame.kept_all hpool h.new pg hused).1
  have hdir := hpool.owned pg d (by rw [← hkept, hrole]; rfl)
  rw [h.new] at hdir
  cases hdir

theorem writes_frame {m₀ : Mem} (h : Frame d m₀ role₀ m role) (hrole : role pg = .user d k)
    (data : Block) : Frame d m₀ role₀ (m.setPage pg data) role := by
  refine ⟨fun q hq howner => ?_, h.back⟩
  obtain ⟨hkept, hpage⟩ := h.kept q hq howner
  refine ⟨hkept, (setPage_of_ne data fun heq => howner ?_).trans hpage⟩
  rw [← hkept, heq, hrole]
  rfl

/-- The bytes of the address space after bytes have been stored at the beginning of a page. -/
theorem byte_write {va : Nat} (h : Live m role p) (hk : k < pagesOf p.sz) (hpte : m.pte p.pgdir k = pg * pgsize + 7)
    (hva : va < userTop) (bs : List UInt8) (hbs : bs.length ≤ pgsize) :
    (m.setPage pg ((m.page pg).write 0 bs.length (bs.getD · 0))).byte p.pgdir va =
      if k * pgsize ≤ va ∧ va < k * pgsize + bs.length then some (bs.getD (va - k * pgsize) 0)
      else m.byte p.pgdir va := by
  rw [byte_setPage h hk hpte hva, Block.write]
  by_cases hpage : va / pgsize = k
  · have hmod : va % pgsize = va - k * pgsize := by
      have hdiv := Nat.div_add_mod' va pgsize
      rw [hpage] at hdiv
      omega
    have hle : k * pgsize ≤ va := by
      rw [← hpage]
      exact Nat.div_mul_le_self va pgsize
    rw [if_pos hpage, Nat.zero_add, Nat.sub_zero]
    by_cases hin : va % pgsize < bs.length
    · rw [if_pos ⟨Nat.zero_le _, hin⟩, if_pos ⟨hle, by omega⟩, hmod]
    · rw [if_neg fun hand => hin hand.2, if_neg (by omega), Mem.byte, hpage, hpte, if_pos (present_entry pg), entry_div]
  · rw [if_neg hpage, if_neg]
    rintro ⟨hlo, hhi⟩
    refine hpage (Nat.div_eq_of_lt_le hlo ?_)
    rw [Nat.succ_mul]
    omega

/-- Bytes are stored at the beginning of a page of the program. -/
theorem Loading.storePage (h : Loading w₀ role₀ d sz w role) (hpool : Pool w₀.mem role₀) (hk : k < pagesOf sz)
    (hpte : w.mem.pte d k = pg * pgsize + 7) (bs : List UInt8) (hbs : bs.length ≤ pgsize) :
    Returns (fun _ w' => Loading w₀ role₀ d sz w' role ∧ SameInode w w' ∧
        ∀ va < userTop, w'.mem.byte d va =
          if k * pgsize ≤ va ∧ va < k * pgsize + bs.length then some (bs.getD (va - k * pgsize) 0)
          else w.mem.byte d va) (Exec.storePage d pg bs) w := by
  have hku : k < userPages := hk.trans_le (pagesOf_le h.live.size)
  have hrole : role pg = .user d k := user_of_pte h.live.tree hku hpte
  by_cases hnil : bs = []
  · refine ⟨(), w, ?_, h, .refl w, fun va hva => ?_⟩
    · show Except.ok ((), if bs = [] then w else _) = _
      rw [if_pos hnil]
    · rw [hnil, List.length_nil, if_neg (by omega)]
  · refine ⟨(), { w with
        mem := w.mem.setPage pg ((w.mem.page pg).write 0 bs.length (bs.getD · 0))
        stores := ⟨d, pg, w.mem⟩ :: w.stores }, ?_,
      ⟨live_setPage h.live hrole _, writes_frame h.frame hrole _, h.new, h.free, ?_⟩, ⟨rfl, rfl, rfl, rfl⟩,
      fun va hva => byte_write h.live hk hpte hva bs hbs⟩
    · show Except.ok ((), if bs = [] then w else _) = _
      rw [if_neg hnil]
    · intro s hs
      rcases List.mem_cons.mp hs with rfl | hs
      · exact .inr ⟨rfl, h.free_before hpool hrole, k, hku, hpte⟩
      · exact h.stores s hs

theorem vm_run {α : Type} {x : Vm.Code α} {a : α} {m : Mem} (hx : x w.mem = .ok (a, m)) :
    vm x w = .ok (a, { w with mem := m }) := by
  unfold vm
  rw [hx]

/-- `readi` of at most a page of a file. -/
theorem readi_page {off n : Nat} (hfile : w.ip.file = .disk bytes) (hbytes : bytes.length + pgsize < uintSize)
    (hn : n ≤ pgsize) :
    readi off n w = .ok (if bytes.length < off then none else some ((bytes.drop off).take n), w) := by
  rw [readi_disk hfile]
  refine congrArg (fun r => Except.ok (r, w)) (if_congr ?_ rfl rfl)
  refine ⟨fun hor => hor.elim id fun hwrap => ?_, .inl⟩
  by_contra hle
  rw [Nat.mod_eq_of_lt (by omega)] at hwrap
  omega

theorem getD_page {off n t : Nat} (ht : t < ((bytes.drop off).take n).length) :
    ((bytes.drop off).take n).getD t 0 = bytes.getD (off + t) 0 := by
  rw [List.length_take] at ht
  rw [List.getD_eq_getElem?_getD, List.getElem?_take_of_lt (by omega), List.getElem?_drop,
    List.getD_eq_getElem?_getD]

/-- A page of the program is read from the file. -/
theorem Loading.loadPage {off n : Nat} (h : Loading w₀ role₀ d sz w role) (hpool : Pool w₀.mem role₀)
    (hfile : w.ip.file = .disk bytes) (hbytes : bytes.length + pgsize < uintSize) (hk : k < pagesOf sz)
    (hpte : w.mem.pte d k = pg * pgsize + 7) (hpos : 0 < n) (hn : n ≤ pgsize) :
    Returns (fun ok w' => Loading w₀ role₀ d sz w' role ∧ SameInode w w' ∧ (ok = true ↔ off + n ≤ bytes.length) ∧
        (ok = true → ∀ va < userTop, w'.mem.byte d va =
          if k * pgsize ≤ va ∧ va < k * pgsize + n then some (bytes.getD (off + (va - k * pgsize)) 0)
          else w.mem.byte d va)) (Exec.loadPage d pg off n) w := by
  have hread : readi off n w = _ := readi_page hfile hbytes hn
  by_cases hend : bytes.length < off
  · rw [if_pos hend] at hread
    refine ⟨false, w, (run_bind hread).trans rfl, h, .refl w, iff_of_false (by decide) (by omega), ?_⟩
    intro hok
    cases hok
  · rw [if_neg hend] at hread
    have hlength : ((bytes.drop off).take n).length = min n (bytes.length - off) := by
      rw [List.length_take, List.length_drop]
    obtain ⟨_, w', hstore, hload, hsame, hbyte⟩ := h.storePage hpool hk hpte ((bytes.drop off).take n) (by omega)
    refine ⟨_, w', (run_bind hread).trans ((run_bind hstore).trans rfl), hload, hsame, ?_, fun hok va hva => ?_⟩
    · rw [beq_iff_eq, hlength]
      omega
    · grind

/-- A turn of the loop of `loaduvm` at a page that is present. -/
theorem loadLoop_turn {turns n : Nat} {ok : Bool} {w' : World} (hlive : Live w.mem role ⟨d, size⟩)
    (hi : i * pgsize < sz) (hK : j + i < pagesOf size) (hpte : w.mem.pte d (j + i) = pg * pgsize + 7)
    (hn : (if sz - i * pgsize < pgsize then sz - i * pgsize else pgsize) = n)
    (hpage : Exec.loadPage d pg ((offset + i * pgsize) % uintSize) n w = .ok (ok, w')) :
    Exec.loadLoop d (j * pgsize) offset sz (turns + 1) (i * pgsize) w =
      if ok then Exec.loadLoop d (j * pgsize) offset sz turns ((i + 1) * pgsize) w' else .ok (false, w') := by
  have hu := pagesOf_le hlive.size
  have hku : j + i < userPages := hK.trans_le hu
  have haddr : (j * pgsize + i * pgsize) % uintSize = (j + i) * pgsize := by
    rw [← Nat.add_mul]
    exact user_addr hku
  have hnext : (i * pgsize + pgsize) % uintSize = (i + 1) * pgsize := next_page (by omega)
  have hwalk : vm (walkpgdir d ((j + i) * pgsize) false) w = .ok (some ⟨w.mem.low d, j + i⟩, w) :=
    vm_run (walkpgdir_user hlive.low hku)
  have hload : vm (load ⟨w.mem.low d, j + i⟩) w = .ok (pg * pgsize + 7, w) := by
    refine vm_run ?_
    show Except.ok (w.mem.word ⟨w.mem.low d, j + i⟩, w.mem) = _
    rw [word_user hlive.low hku, hpte]
  rw [Exec.loadLoop, if_pos hi, haddr, hn, hnext]
  refine (run_bind hwalk).trans ((run_bind hload).trans ?_)
  rw [entry_div]
  refine (run_bind hpage).trans ?_
  cases ok with
  | false => rfl
  | true => rfl

/-- The loop of `loaduvm` over pages that are present: it ends with all of the segment loaded, if the file has it. -/
theorem Loading.loadLoop {turns : Nat} (h : Loading w₀ role₀ d size w role) (hpool : Pool w₀.mem role₀)
    (hfile : w.ip.file = .disk bytes) (hbytes : bytes.length + pgsize < uintSize) (hoffset : offset < uintSize)
    (hspan : j * pgsize + sz ≤ pagesOf size * pgsize)
    (hprev : i = 0 ∨ sz ≤ i * pgsize ∨ offset + i * pgsize ≤ bytes.length) (hturns : pagesOf sz - i < turns) :
    Returns (fun ok w' => Loading w₀ role₀ d size w' role ∧ SameInode w w' ∧
        (ok = true ↔ sz ≤ i * pgsize ∨ offset + sz ≤ bytes.length) ∧
        (ok = true → ∀ va < userTop, w'.mem.byte d va =
          if (j + i) * pgsize ≤ va ∧ va < j * pgsize + sz then some (bytes.getD (offset + (va - j * pgsize)) 0)
          else w.mem.byte d va))
      (Exec.loadLoop d (j * pgsize) offset sz turns (i * pgsize)) w := by
  induction turns generalizing i w with
  | zero => omega
  | succ turns ih =>
    by_cases hi : i * pgsize < sz
    · have hK : j + i < pagesOf size := by
        have hlt : (j + i) * pgsize < pagesOf size * pgsize := by
          rw [Nat.add_mul]
          omega
        exact Nat.lt_of_mul_lt_mul_right hlt
      obtain ⟨pg, hpte, -⟩ := present_user h.live hK
      obtain ⟨n, hn⟩ : ∃ n, (if sz - i * pgsize < pgsize then sz - i * pgsize else pgsize) = n := ⟨_, rfl⟩
      have hnle : 0 < n ∧ n ≤ pgsize ∧ i * pgsize + n ≤ sz ∧ (n = pgsize ∨ i * pgsize + n = sz) := by
        have hpos : 0 < pgsize := by decide
        split_ifs at hn with hshort
        · omega
        · omega
      have hoff : (offset + i * pgsize) % uintSize = offset + i * pgsize := by
        refine Nat.mod_eq_of_lt ?_
        rcases hprev with rfl | hle | hle
        · omega
        · omega
        · omega
      have hpage : Returns _ (Exec.loadPage d pg (offset + i * pgsize) n) w :=
        h.loadPage hpool hfile hbytes hK hpte hnle.1 hnle.2.1
      obtain ⟨ok, w₁, hrun, hload, hsame, hok, hbyte⟩ := hpage
      rw [← hoff] at hrun
      have hturn : Exec.loadLoop d (j * pgsize) offset sz (turns + 1) (i * pgsize) w = _ :=
        loadLoop_turn h.live hi hK hpte hn hrun
      cases ok with
      | false =>
        have hshort : ¬ offset + i * pgsize + n ≤ bytes.length := fun hle => by
          have hfalse := hok.mpr hle
          cases hfalse
        refine ⟨false, w₁, hturn, hload, hsame, iff_of_false (by decide) (by omega), fun hfalse => ?_⟩
        cases hfalse
      | true =>
        have hfull := hok.mp rfl
        have hipages := page_lt_iff.mp hi
        obtain ⟨ok', w', hrun', hload', hsame', hok', hbyte'⟩ := ih (i := i + 1) hload (hsame.ip ▸ hfile)
          (by rw [Nat.succ_mul]; omega) (by omega)
        refine ⟨ok', w', hturn.trans hrun', hload', hsame.trans hsame', ?_, fun hall va hva => ?_⟩
        · rw [hok', Nat.succ_mul]
          omega
        · have hnext : (j + (i + 1)) * pgsize = (j + i) * pgsize + pgsize := by
            rw [← Nat.add_assoc, Nat.succ_mul]
          have hbase : (j + i) * pgsize = j * pgsize + i * pgsize := Nat.add_mul j i pgsize
          rw [hbyte' hall va hva, hbyte rfl va hva, hnext]
          by_cases hlater : (j + i) * pgsize + pgsize ≤ va ∧ va < j * pgsize + sz
          · rw [if_pos hlater, if_pos (by omega)]
          · rw [if_neg hlater]
            by_cases hhere : (j + i) * pgsize ≤ va ∧ va < (j + i) * pgsize + n
            · grind
            · rw [if_neg hhere, if_neg (by omega)]
    · refine ⟨true, w, ?_, h, .refl w, iff_of_true rfl (.inl (by omega)), fun _ va hva => ?_⟩
      · rw [Exec.loadLoop, if_neg hi]
        rfl
      · rw [if_neg]
        rw [Nat.add_mul]
        omega

/-- `loaduvm` of a range of pages that are present. -/
theorem Loading.loaduvm {n : Nat} (h : Loading w₀ role₀ d size w role) (hpool : Pool w₀.mem role₀)
    (hfile : w.ip.file = .disk bytes) (hbytes : bytes.length + pgsize < uintSize) (hoffset : offset < uintSize)
    (halign : addr % pgsize = 0) (hspan : n = 0 ∨ addr + n ≤ pagesOf size * pgsize) :
    Returns (fun ok w' => Loading w₀ role₀ d size w' role ∧ SameInode w w' ∧
        (ok = true ↔ n = 0 ∨ offset + n ≤ bytes.length) ∧
        (ok = true → ∀ va < userTop, w'.mem.byte d va =
          if addr ≤ va ∧ va < addr + n then some (bytes.getD (offset + (va - addr)) 0) else w.mem.byte d va))
      (Exec.loaduvm d addr offset n) w := by
  have haddr : addr / pgsize * pgsize = addr := by
    have hdiv := Nat.div_add_mod' addr pgsize
    omega
  unfold Exec.loaduvm
  rw [if_neg (not_not.mpr halign)]
  by_cases hzero : n = 0
  · obtain ⟨turns, hturns⟩ : ∃ turns, maxTurns = turns + 1 := ⟨2 ^ 20, rfl⟩
    refine ⟨true, w, ?_, h, .refl w, iff_of_true rfl (.inl hzero), fun _ va _ => ?_⟩
    · rw [hturns, Exec.loadLoop, hzero, if_neg (Nat.lt_irrefl 0)]
      rfl
    · rw [if_neg (by omega)]
  · have hspan' : addr / pgsize * pgsize + n ≤ pagesOf size * pgsize := by
      rw [haddr]
      exact hspan.resolve_left hzero
    have hpages : pagesOf n ≤ pagesOf size := by
      refine (pagesOf_mono (show n ≤ pagesOf size * pgsize by omega)).trans (le_of_eq ?_)
      simp only [pagesOf, pgsize]
      omega
    have hturns : pagesOf n - 0 < maxTurns :=
      (Nat.sub_le _ _).trans_lt ((hpages.trans (pagesOf_le h.live.size)).trans_lt userPages_lt_maxTurns)
    have hloop := h.loadLoop hpool hfile hbytes hoffset hspan' (.inl rfl) hturns
    rw [Nat.add_zero, Nat.zero_mul, haddr] at hloop
    refine hloop.mono fun ok w' hpost => ?_
    obtain ⟨hload, hsame, hok, hbyte⟩ := hpost
    refine ⟨hload, hsame, hok.trans ?_, hbyte⟩
    rw [Nat.le_zero]

/-! The pages of a segment. -/

theorem Loading.empty (h : Loading w₀ role₀ d sz w role) (hk : pagesOf sz ≤ k) (hku : k < userPages) :
    ¬ present (w.mem.pte d k) := by
  rw [h.live.user k hku]
  exact not_lt.mpr hk

/-- `allocuvm` during the loading, when there are pages enough. -/
theorem Loading.grow {top : Nat} (h : Loading w₀ role₀ d sz w role) (hpos : 0 < top) (htop : top ≤ userTop)
    (hfree : pagesOf top - pagesOf sz ≤ w.mem.free.length) :
    Returns (fun x w' => x = max top sz ∧ (∃ role', Loading w₀ role₀ d (max top sz) w' role') ∧ SameInode w w' ∧
        ∀ va < userTop, w'.mem.byte d va =
          if pagesOf sz * pgsize ≤ va ∧ va < pagesOf top * pgsize then some 0 else w.mem.byte d va)
      (vm (allocuvm d sz top)) w := by
  have hpages := pagesOf_le htop
  have hspec := allocuvm_spec h.live.tree h.live.pool h.live.low h.live.size hpos htop
    fun k hk hlt => h.empty hk (hlt.trans_le hpages)
  rw [if_pos hfree] at hspec
  obtain ⟨m', role', hrun, hadds⟩ := hspec
  refine ⟨_, _, vm_run hrun, rfl, ⟨role', ⟨hadds.live h.live htop, h.frame.trans hadds.frame, h.new, ?_, h.stores⟩⟩,
    ⟨rfl, rfl, rfl, rfl⟩, fun va hva => ?_⟩
  · show m'.free.length + (13 + pagesOf (max top sz)) = _
    have hbefore := h.free
    have hdrop : m'.free = w.mem.free.drop (pagesOf top - pagesOf sz) := hadds.free
    rw [hdrop, List.length_drop, pagesOf_max]
    omega
  · have hva' := div_lt_userPages hva
    have hiff : pagesOf sz * pgsize ≤ va ∧ va < pagesOf top * pgsize ↔
        pagesOf sz ≤ va / pgsize ∧ va / pgsize < pagesOf top := by
      rw [Nat.le_div_iff_mul_le (by decide), Nat.div_lt_iff_lt_mul (by decide)]
    by_cases hin : pagesOf sz ≤ va / pgsize ∧ va / pgsize < pagesOf top
    · rw [if_pos (hiff.mpr hin)]
      exact hadds.byte_zero hin.1 hin.2
    · rw [if_neg fun hand => hin (hiff.mp hand)]
      exact hadds.byte h.live.tree hva' hin

/-- Without enough pages, or above `USERTOP`, it fails. -/
theorem Loading.full {top : Nat} (h : Loading w₀ role₀ d sz w role) (hpos : 0 < top)
    (hnot : ¬ (top ≤ userTop ∧ pagesOf top - pagesOf sz ≤ w.mem.free.length)) :
    Returns (fun x w' => x = 0 ∧ Loading w₀ role₀ d sz w' role ∧ SameInode w w') (vm (allocuvm d sz top)) w := by
  by_cases htop : top ≤ userTop
  · have hpages := pagesOf_le htop
    have hspec := allocuvm_spec h.live.tree h.live.pool h.live.low h.live.size hpos htop
      fun k hk hlt => h.empty hk (hlt.trans_le hpages)
    rw [if_neg fun hfree => hnot ⟨htop, hfree⟩] at hspec
    obtain ⟨m', hrun, hrestores⟩ := hspec
    refine ⟨_, _, vm_run hrun, rfl, ⟨hrestores.live h.live, h.frame.trans hrestores.frame, h.new, ?_, h.stores⟩,
      ⟨rfl, rfl, rfl, rfl⟩⟩
    exact (congrArg (· + (13 + pagesOf sz)) hrestores.length).trans h.free
  · have hrun : allocuvm d sz top w.mem = .ok (0, w.mem) := by
      rw [allocuvm, if_pos (by omega)]
      rfl
    exact ⟨_, _, vm_run hrun, rfl, h, .refl w⟩

/-! What the program headers ask for. -/

/-- The end of a segment, as `exec` computes it. -/
def Proghdr.top (ph : Proghdr) : Nat := (ph.va + ph.memsz) % uintSize

/-- The program header at an offset of the file. -/
def headerAt (bytes : List UInt8) (off : Nat) : Option Proghdr :=
  if off + proghdrSize ≤ bytes.length then some (.ofBlock (ofBytes ((bytes.drop off).take proghdrSize))) else none

/-- The size after a segment, with so many pages for the program; none when it cannot be loaded. -/
def segmentSize (bytes : List UInt8) (room : Nat) (ph : Proghdr) (sz : Nat) : Option Nat :=
  if ph.type ≠ elfProgLoad then some sz
  else if ph.memsz < ph.filesz then none
  else if ¬ (ph.top ≤ userTop ∧ pagesOf ph.top ≤ room) then none
  else if ph.filesz = 0 ∨ ph.offset + ph.filesz ≤ bytes.length then some (max ph.top sz)
  else none

/-- A segment that is loaded ends above 0, begins at a page, and its bytes are in the pages up to its end or to the
size reached before. -/
def SegmentSafe (room : Nat) (ph : Proghdr) (sz : Nat) : Prop :=
  ph.type = elfProgLoad → ph.filesz ≤ ph.memsz →
    0 < ph.top ∧ (ph.top ≤ userTop ∧ pagesOf ph.top ≤ room →
      ph.va % pgsize = 0 ∧ (ph.filesz = 0 ∨ ph.va + ph.filesz ≤ pagesOf (max ph.top sz) * pgsize))

/-- The bytes that a segment has from the file. -/
def Proghdr.Covers (ph : Proghdr) (va : Nat) : Prop :=
  ph.type = elfProgLoad ∧ ph.va ≤ va ∧ va < ph.va + ph.filesz

instance (ph : Proghdr) (va : Nat) : Decidable (ph.Covers va) := inferInstanceAs (Decidable (_ ∧ _))

/-- The byte at an address: that of the last segment, in the order of the headers, that has it from the file. -/
def imageByte (bytes : List UInt8) (phs : List Proghdr) (va : Nat) : UInt8 :=
  (phs.reverse.find? fun ph => ph.Covers va).elim 0 fun ph => bytes.getD (ph.offset + (va - ph.va)) 0

theorem imageByte_snoc (bytes : List UInt8) (phs : List Proghdr) (ph : Proghdr) (va : Nat) :
    imageByte bytes (phs ++ [ph]) va =
      if ph.Covers va then bytes.getD (ph.offset + (va - ph.va)) 0 else imageByte bytes phs va := by
  unfold imageByte
  rw [List.reverse_append, List.reverse_singleton, List.singleton_append, List.find?_cons]
  by_cases hcovers : ph.Covers va
  · rw [decide_eq_true hcovers, if_pos hcovers]
    rfl
  · rw [decide_eq_false hcovers, if_neg hcovers]

/-- The address space has the bytes of the segments loaded so far. -/
structure Filled (bytes : List UInt8) (phs : List Proghdr) (d sz : Nat) (w : World) : Prop where
  byte : ∀ va < pagesOf sz * pgsize, w.mem.byte d va = some (imageByte bytes phs va)
  inside : ∀ ph ∈ phs, ∀ va, ph.Covers va → va < pagesOf sz * pgsize

theorem Filled.zero {phs : List Proghdr} {va : Nat} (h : Filled bytes phs d sz w) (hva : pagesOf sz * pgsize ≤ va) :
    imageByte bytes phs va = 0 := by
  have hnone : (phs.reverse.find? fun ph => ph.Covers va) = none := by
    rw [List.find?_eq_none]
    intro ph hph hcovers
    have hlt := h.inside ph (List.mem_reverse.mp hph) va (of_decide_eq_true hcovers)
    omega
  rw [imageByte, hnone]
  rfl

theorem pages_lt_userTop {va : Nat} (hsz : sz ≤ userTop) (hva : va < pagesOf sz * pgsize) : va < userTop := by
  have hpages := pagesOf_le hsz
  simp only [userPages, userTop, pgsize] at *
  omega

/-- The bytes after a segment has got its pages and its bytes from the file. -/
theorem Filled.snoc {phs : List Proghdr} {ph : Proghdr} {w₁ w₂ : World} (h : Filled bytes phs d sz w)
    (hload : ph.type = elfProgLoad) (htop : max ph.top sz ≤ userTop)
    (hspan : ph.filesz = 0 ∨ ph.va + ph.filesz ≤ pagesOf (max ph.top sz) * pgsize)
    (hbyte₁ : ∀ va < userTop, w₁.mem.byte d va =
      if pagesOf sz * pgsize ≤ va ∧ va < pagesOf ph.top * pgsize then some 0 else w.mem.byte d va)
    (hbyte₂ : ∀ va < userTop, w₂.mem.byte d va =
      if ph.va ≤ va ∧ va < ph.va + ph.filesz then some (bytes.getD (ph.offset + (va - ph.va)) 0)
      else w₁.mem.byte d va) : Filled bytes (phs ++ [ph]) d (max ph.top sz) w₂ := by
  have hmax : pagesOf sz * pgsize ≤ pagesOf (max ph.top sz) * pgsize :=
    Nat.mul_le_mul_right _ (pagesOf_mono (le_max_right _ _))
  refine ⟨fun va hva => ?_, fun ph' hph' va hcovers => ?_⟩
  · have hva' := pages_lt_userTop htop hva
    rw [hbyte₂ va hva', imageByte_snoc]
    by_cases hin : ph.va ≤ va ∧ va < ph.va + ph.filesz
    · rw [if_pos hin, if_pos ⟨hload, hin⟩]
    · rw [if_neg hin, if_neg fun hcovers => hin hcovers.2, hbyte₁ va hva']
      by_cases hold : va < pagesOf sz * pgsize
      · rw [if_neg (by omega), h.byte va hold]
      · grind [h.zero]
  · rcases List.mem_append.mp hph' with hph' | hph'
    · exact (h.inside ph' hph' va hcovers).trans_le hmax
    · rw [List.mem_singleton.mp hph'] at hcovers
      obtain ⟨-, hlo, hhi⟩ := hcovers
      rcases hspan with hzero | hspan
      · omega
      · omega

theorem Filled.skip {phs : List Proghdr} {ph : Proghdr} (h : Filled bytes phs d sz w) (hload : ph.type ≠ elfProgLoad) :
    Filled bytes (phs ++ [ph]) d sz w := by
  refine ⟨fun va hva => ?_, fun ph' hph' va hcovers => ?_⟩
  · rw [imageByte_snoc, if_neg fun hcovers => hload hcovers.1]
    exact h.byte va hva
  · rcases List.mem_append.mp hph' with hph' | hph'
    · exact h.inside ph' hph' va hcovers
    · rw [List.mem_singleton.mp hph'] at hcovers
      exact absurd hcovers.1 hload

/-- A segment has been loaded as far as possible, and all of it if `r` is the new size. -/
structure Progress (w₀ : World) (role₀ : Nat → Role) (bytes : List UInt8) (phs : List Proghdr) (d : Nat) (w : World)
    (r : Option Nat) (w' : World) : Prop where
  same : SameInode w w'
  load : ∃ sz role, Loading w₀ role₀ d sz w' role ∧ ∀ s, r = some s → s = sz
  filled : ∀ s, r = some s → Filled bytes phs d s w'

theorem Loading.stopped {phs : List Proghdr} {w' : World} (h : Loading w₀ role₀ d sz w' role) (hsame : SameInode w w') :
    Progress w₀ role₀ bytes phs d w none w' := by
  refine ⟨hsame, ⟨sz, role, h, fun s hs => ?_⟩, fun s hs => ?_⟩
  · cases hs
  · cases hs

theorem Loading.reached {phs : List Proghdr} {w' : World} (h : Loading w₀ role₀ d sz w' role) (hsame : SameInode w w')
    (hfilled : Filled bytes phs d sz w') : Progress w₀ role₀ bytes phs d w (some sz) w' := by
  refine ⟨hsame, ⟨sz, role, h, fun s hs => (Option.some.inj hs).symm⟩, fun s hs => ?_⟩
  rw [← Option.some.inj hs]
  exact hfilled

/-- A turn of the loop over the headers. -/
theorem Loading.loadSegment {phs : List Proghdr} {ph : Proghdr} {room : Nat} (h : Loading w₀ role₀ d sz w role)
    (hpool : Pool w₀.mem role₀) (hfile : w.ip.file = .disk bytes) (hbytes : bytes.length + pgsize < uintSize)
    (hoffset : ph.offset < uintSize) (hroom : 13 + room = w₀.mem.free.length) (hsafe : SegmentSafe room ph sz)
    (hfilled : Filled bytes phs d sz w) :
    Returns (fun r w' => r = segmentSize bytes room ph sz ∧
      Progress w₀ role₀ bytes (phs ++ [ph]) d w r w') (Exec.loadSegment d ph sz) w := by
  unfold Exec.loadSegment segmentSize
  by_cases hload : ph.type = elfProgLoad
  · rw [if_neg (not_not.mpr hload), if_neg (not_not.mpr hload)]
    by_cases hless : ph.memsz < ph.filesz
    · rw [if_pos hless, if_pos hless]
      exact returns_pure ⟨rfl, h.stopped (.refl w)⟩
    · rw [if_neg hless, if_neg hless]
      obtain ⟨hpos, hsafe⟩ := hsafe hload (not_lt.mp hless)
      have hfree : pagesOf ph.top - pagesOf sz ≤ w.mem.free.length ↔ pagesOf ph.top ≤ room := by
        have htotal := h.free
        omega
      by_cases hgrants : ph.top ≤ userTop ∧ pagesOf ph.top ≤ room
      · rw [if_neg (not_not.mpr hgrants)]
        obtain ⟨halign, hspan⟩ := hsafe hgrants
        refine (h.grow hpos hgrants.1 (hfree.mpr hgrants.2)).seq fun x w₁ hpost => ?_
        obtain ⟨rfl, ⟨role₁, hload₁⟩, hsame₁, hbyte₁⟩ := hpost
        rw [if_neg (Nat.ne_of_gt (lt_max_of_lt_left hpos))]
        refine (hload₁.loaduvm hpool (hsame₁.ip ▸ hfile) hbytes hoffset halign hspan).seq fun ok w₂ hpost => ?_
        obtain ⟨hload₂, hsame₂, hok, hbyte₂⟩ := hpost
        cases ok with
        | false =>
          have hshort : ¬ (ph.filesz = 0 ∨ ph.offset + ph.filesz ≤ bytes.length) := fun hor => by
            have hfalse := hok.mpr hor
            cases hfalse
          rw [if_neg hshort]
          exact returns_pure ⟨rfl, hload₂.stopped (hsame₁.trans hsame₂)⟩
        | true =>
          rw [if_pos (hok.mp rfl)]
          have hfilled₂ := hfilled.snoc hload (max_le hgrants.1 h.live.size) hspan hbyte₁ (hbyte₂ rfl)
          exact returns_pure ⟨rfl, hload₂.reached (hsame₁.trans hsame₂) hfilled₂⟩
      · rw [if_pos hgrants]
        refine (h.full hpos fun hand => hgrants ⟨hand.1, hfree.mp hand.2⟩).seq fun x w₁ hpost => ?_
        obtain ⟨rfl, hload₁, hsame₁⟩ := hpost
        rw [if_pos rfl]
        exact returns_pure ⟨rfl, hload₁.stopped hsame₁⟩
  · rw [if_pos hload, if_pos hload]
    exact returns_pure ⟨rfl, h.reached (.refl w) (hfilled.skip hload)⟩

/-! The loop over the program headers. -/

/-- The headers that can be read, of `k` from an offset on. -/
def headersFrom (bytes : List UInt8) : Nat → Nat → List Proghdr
  | 0, _ => []
  | k + 1, off => (headerAt bytes off).elim [] fun ph => ph :: headersFrom bytes k ((off + proghdrSize) % uintSize)

/-- The size after `k` headers; none when one of them cannot be read or loaded. -/
def loadsSize (bytes : List UInt8) (room : Nat) : Nat → Nat → Nat → Option Nat
  | 0, _, sz => some sz
  | k + 1, off, sz => (headerAt bytes off).bind fun ph =>
    (segmentSize bytes room ph sz).bind (loadsSize bytes room k ((off + proghdrSize) % uintSize))

/-- Every segment that the loop comes to is safe. -/
def LoadsSafe (bytes : List UInt8) (room : Nat) : Nat → Nat → Nat → Prop
  | 0, _, _ => True
  | k + 1, off, sz => ∀ ph ∈ headerAt bytes off, SegmentSafe room ph sz ∧
      ∀ size ∈ segmentSize bytes room ph sz, LoadsSafe bytes room k ((off + proghdrSize) % uintSize) size

theorem readProghdr_disk {off : Nat} (hfile : w.ip.file = .disk bytes) (hbytes : bytes.length + pgsize < uintSize) :
    Exec.readProghdr off w = .ok (headerAt bytes off, w) := by
  have hread : readi off proghdrSize w = _ := readi_page hfile hbytes (by decide)
  have hlength : ((bytes.drop off).take proghdrSize).length = min proghdrSize (bytes.length - off) := by
    rw [List.length_take, List.length_drop]
  unfold headerAt
  by_cases hend : bytes.length < off
  · rw [if_pos hend] at hread
    rw [if_neg (by omega)]
    exact run_bind hread
  · rw [if_neg hend] at hread
    refine (run_bind hread).trans ?_
    refine congrArg (fun r => Except.ok (r, w)) ?_
    by_cases hall : off + proghdrSize ≤ bytes.length
    · rw [if_pos hall, if_neg (not_not.mpr (by omega))]
    · rw [if_neg hall, if_pos (by omega)]

theorem word_lt (b : Block) (j : Nat) : b.word j < uintSize := by
  have h0 := (b (4 * j)).toNat_lt
  have h1 := (b (4 * j + 1)).toNat_lt
  have h2 := (b (4 * j + 2)).toNat_lt
  have h3 := (b (4 * j + 3)).toNat_lt
  simp only [Block.word, uintSize]
  omega

theorem headerAt_offset {off : Nat} {ph : Proghdr} (h : headerAt bytes off = some ph) : ph.offset < uintSize := by
  unfold headerAt at h
  split_ifs at h with hall
  cases h
  exact word_lt _ 1

theorem Loading.loadSegments {phs : List Proghdr} {room off : Nat} (h : Loading w₀ role₀ d sz w role)
    (hpool : Pool w₀.mem role₀) (hfile : w.ip.file = .disk bytes) (hbytes : bytes.length + pgsize < uintSize)
    (hroom : 13 + room = w₀.mem.free.length) (hsafe : LoadsSafe bytes room k off sz)
    (hfilled : Filled bytes phs d sz w) :
    Returns (fun r w' => r = loadsSize bytes room k off sz ∧
      Progress w₀ role₀ bytes (phs ++ headersFrom bytes k off) d w r w') (Exec.loadSegments d k off sz) w := by
  induction k generalizing off sz w role phs with
  | zero =>
    rw [headersFrom, List.append_nil]
    exact returns_pure ⟨rfl, h.reached (.refl w) hfilled⟩
  | succ k ih =>
    have hread : Returns (fun r w' => r = headerAt bytes off ∧ w' = w) (Exec.readProghdr off) w :=
      ⟨_, w, readProghdr_disk hfile hbytes, rfl, rfl⟩
    rw [Exec.loadSegments, loadsSize, headersFrom]
    refine hread.seq fun r w' hpost => ?_
    obtain ⟨rfl, rfl⟩ := hpost
    cases hhdr : headerAt bytes off with
    | none => exact returns_pure ⟨rfl, h.stopped (.refl w')⟩
    | some ph =>
      obtain ⟨hseg, hrest⟩ := hsafe ph hhdr
      refine (h.loadSegment hpool hfile hbytes (headerAt_offset hhdr) hroom hseg hfilled).seq fun r w₁ hpost => ?_
      obtain ⟨rfl, hprogress⟩ := hpost
      obtain ⟨sz₁, role₁, hload₁, hsz₁⟩ := hprogress.load
      rw [Option.bind_some, Option.elim_some]
      cases hsize : segmentSize bytes room ph sz with
      | none => exact returns_pure ⟨rfl, hload₁.stopped hprogress.same⟩
      | some size =>
        rw [Option.bind_some]
        rw [← hsz₁ size hsize] at hload₁
        refine (ih hload₁ (hprogress.same.ip ▸ hfile) (hrest size hsize) (hprogress.filled size hsize)).mono
          fun r w₂ hpost => ?_
        obtain ⟨hr, hlast⟩ := hpost
        rw [List.append_assoc] at hlast
        exact ⟨hr, hprogress.same.trans hlast.same, hlast.load, hlast.filled⟩

end Xv6.Exec
