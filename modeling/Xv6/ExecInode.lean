import Xv6.Exec
import Xv6.VmClear

/-! The inode of the program during `exec`. It is held from `ilock` to the first `iunlockput`, and `bad` gives it up
as well; so `bad` must not be reached after the first one. -/

namespace Xv6.Exec

open LibExcept LibWord Fs Vm

/-! No function of vm.c stops with the panic of `iunlock`. -/

/-- The stops that are not the panic of `iunlock`. -/
def Quiet (stop : Stop) : Prop := stop ≠ .panic "iunlock"

section Quiet

variable {m : Mem} {d va k a pa last perm : Nat}

theorem quiet_load (x : Pte) : Leads Quiet (fun _ _ => True) (load x) m := trivial

theorem quiet_kfree (v : Nat) : Leads Quiet (fun _ _ => True) (kfree v) m := by
  unfold kfree
  split_ifs
  · exact (by decide : Stop.panic "kfree" ≠ .panic "iunlock")
  · trivial

theorem quiet_walkpgdir (create : Bool) : Leads Quiet (fun _ _ => True) (walkpgdir d va create) m := by
  unfold walkpgdir
  refine Leads.andThen trivial fun pde m => ?_
  split_ifs
  · trivial
  · trivial
  · refine Leads.andThen trivial fun r m => ?_
    cases r with
    | none => trivial
    | some r => trivial

theorem quiet_mapLoop : Leads Quiet (fun _ _ => True) (mapLoop d last perm k a pa) m := by
  induction k generalizing a pa m with
  | zero => exact (by decide : Stop.endless ≠ .panic "iunlock")
  | succ k ih =>
    unfold mapLoop
    refine (quiet_walkpgdir true).andThen fun pte m => ?_
    cases pte with
    | none => trivial
    | some pte =>
      refine Leads.andThen trivial fun entry m => ?_
      split_ifs
      · exact (by decide : Stop.panic "remap" ≠ .panic "iunlock")
      · exact Leads.andThen trivial fun _ _ => trivial
      · exact Leads.andThen trivial fun _ m => ih

theorem quiet_mappages {la size : Nat} : Leads Quiet (fun _ _ => True) (mappages d la size pa perm) m :=
  quiet_mapLoop

theorem quiet_setupkvm : Leads Quiet (fun _ _ => True) setupkvm m := by
  unfold setupkvm
  refine Leads.andThen trivial fun pgdir m => ?_
  cases pgdir with
  | none => trivial
  | some pgdir =>
    refine Leads.andThen trivial fun _ m => quiet_mappages.andThen fun b m => ?_
    cases b with
    | false => trivial
    | true =>
      refine quiet_mappages.andThen fun b m => ?_
      cases b with
      | false => trivial
      | true =>
        refine quiet_mappages.andThen fun b m => ?_
        cases b with
        | false => trivial
        | true => trivial

theorem quiet_deallocPage : Leads Quiet (fun _ _ => True) (deallocPage d a) m := by
  unfold deallocPage
  refine (quiet_walkpgdir false).andThen fun pte m => ?_
  cases pte with
  | none => trivial
  | some pte =>
    refine Leads.andThen trivial fun entry m => ?_
    split_ifs
    · exact (by decide : Stop.panic "kfree" ≠ .panic "iunlock")
    · exact (quiet_kfree _).andThen fun _ _ => trivial
    · trivial

theorem quiet_deallocLoop : Leads Quiet (fun _ _ => True) (deallocLoop d last k a) m := by
  induction k generalizing a m with
  | zero => exact (by decide : Stop.endless ≠ .panic "iunlock")
  | succ k ih =>
    unfold deallocLoop
    split_ifs
    · exact quiet_deallocPage.andThen fun _ m => ih
    · trivial

theorem quiet_deallocuvm {oldsz newsz : Nat} : Leads Quiet (fun _ _ => True) (deallocuvm d oldsz newsz) m :=
  quiet_deallocLoop.andThen fun _ _ => trivial

theorem quiet_allocLoop {oldsz newsz : Nat} : Leads Quiet (fun _ _ => True) (allocLoop d oldsz newsz last k a) m := by
  induction k generalizing a m with
  | zero => exact (by decide : Stop.endless ≠ .panic "iunlock")
  | succ k ih =>
    unfold allocLoop
    by_cases hle : a ≤ last
    · rw [if_pos hle]
      refine Leads.andThen trivial fun mem m => ?_
      cases mem with
      | none => exact quiet_deallocuvm.andThen fun _ _ => trivial
      | some mem => exact Leads.andThen trivial fun _ m => quiet_mappages.andThen fun _ m => ih
    · rw [if_neg hle]
      trivial

theorem quiet_allocuvm {oldsz newsz : Nat} : Leads Quiet (fun _ _ => True) (allocuvm d oldsz newsz) m := by
  unfold allocuvm
  split_ifs
  · trivial
  · exact quiet_allocLoop

theorem quiet_freeTables : Leads Quiet (fun _ _ => True) (freeTables d k) m := by
  induction k generalizing m with
  | zero => trivial
  | succ k ih =>
    unfold freeTables
    refine Leads.andThen trivial fun pde m => ?_
    split_ifs
    · exact (quiet_kfree _).andThen fun _ m => ih
    · exact ih

theorem quiet_freevm : Leads Quiet (fun _ _ => True) (freevm d) m :=
  quiet_deallocuvm.andThen fun _ _ => quiet_freeTables.andThen fun _ _ => quiet_kfree d

end Quiet

/-! Holding the inode. -/

variable {w w₀ : World} {path : Str} {argv : List Str} {garbage : Block} {p : Process} {pgdir size : Nat}
  {elf : Elfhdr}

/-- The call holds the lock, and a reference more than there were before it. -/
structure Held (w₀ w : World) : Prop where
  ref : w.ip.ref = w₀.ip.ref + 1
  busy : w.ip.busy = true
  before : w₀.ip.busy = false
  refs : w.refs = 1
  locked : w.locked = true
  foul : w.foul = false

/-- The inode is as it was before the call, and nothing else has been given up. -/
structure Released (w₀ w : World) : Prop where
  ref : w.ip.ref = w₀.ip.ref
  busy : w.ip.busy = w₀.ip.busy
  refs : w.refs = 0
  locked : w.locked = false
  foul : w.foul = false

theorem Held.setMem (h : Held w₀ w) (m : Mem) (stores : List Store) :
    Held w₀ { w with mem := m, stores := stores } :=
  ⟨h.ref, h.busy, h.before, h.refs, h.locked, h.foul⟩

theorem leads_vm {α : Type} {allowed : Stop → Prop} {post : α → World → Prop} {x : Vm.Code α}
    (hx : Leads allowed (fun a m => post a { w with mem := m }) x w.mem) : Leads allowed post (vm x) w := by
  unfold Leads vm at *
  cases hrun : x w.mem with
  | error stop =>
    rw [hrun] at hx
    exact hx
  | ok y =>
    rw [hrun] at hx
    exact hx

theorem Held.vm {α : Type} {x : Vm.Code α} (h : Held w₀ w) (hx : Leads Quiet (fun _ _ => True) x w.mem) :
    Leads Quiet (fun _ w' => Held w₀ w') (Exec.vm x) w :=
  leads_vm (hx.mono fun _ m _ => h.setMem m w.stores)

theorem iunlock_run (hbusy : w.ip.busy = true) (href : 0 < w.ip.ref) : iunlock w =
    .ok ((), { w with ip := { w.ip with busy := false }, locked := false, foul := w.foul || !w.locked }) := by
  show (if w.ip.busy = false ∨ w.ip.ref < 1 then _ else _ : Code Unit) w = _
  rw [if_neg]
  · rfl
  · rw [hbusy]
    exact fun hor => hor.elim (by decide) (by omega)

theorem ilock_run (hbusy : w.ip.busy = false) (href : 0 < w.ip.ref) :
    ilock w = .ok ((), { w with ip := { w.ip with busy := true }, locked := true }) := by
  show (if w.ip.ref < 1 then _ else if w.ip.busy = true then _ else _ : Code Unit) w = _
  rw [if_neg (by omega), hbusy, if_neg (by decide)]
  rfl

theorem readi_disk {bytes : List UInt8} (hfile : w.ip.file = .disk bytes) (off n : Nat) : readi off n w =
    .ok (if bytes.length < off ∨ (off + n) % uintSize < off then none else some ((bytes.drop off).take n), w) := by
  refine (run_bind (show (get : Code World) w = .ok (w, w) from rfl)).trans ?_
  rw [hfile]
  show (if bytes.length < off ∨ (off + n) % uintSize < off then pure none else pure _ : Code _) w = _
  split_ifs
  · rfl
  · rfl

theorem readi_nil (hfile : w.ip.file = .device []) (off n : Nat) : readi off n w = .ok (none, w) := by
  refine (run_bind (show (get : Code World) w = .ok (w, w) from rfl)).trans ?_
  rw [hfile]
  rfl

theorem readi_cons {r : Option (List UInt8)} {reads : List (Option (List UInt8))}
    (hfile : w.ip.file = .device (r :: reads)) (hbusy : w.ip.busy = true) (href : 0 < w.ip.ref) (off n : Nat) :
    readi off n w = .ok (r.map (·.take n),
      { w with ip := { w.ip with busy := true, file := .device reads }, locked := true,
               foul := w.foul || !w.locked }) := by
  refine (run_bind (show (get : Code World) w = .ok (w, w) from rfl)).trans ?_
  rw [hfile]
  have hlock : ilock { w with ip := { w.ip with busy := false }, locked := false, foul := w.foul || !w.locked } =
      .ok ((), { w with ip := { w.ip with busy := true }, locked := true, foul := w.foul || !w.locked }) :=
    ilock_run rfl href
  exact (run_bind (iunlock_run hbusy href)).trans ((run_bind hlock).trans rfl)

theorem ilock_busy (hbusy : w.ip.busy = true) (href : 0 < w.ip.ref) : ilock w = .error .endless := by
  show (if w.ip.ref < 1 then panic "ilock" else if w.ip.busy = true then throw .endless else _ : Code Unit) w = _
  rw [if_neg (by omega), if_pos hbusy]
  rfl

/-- `readi` returns, with the inode held as before. -/
theorem Held.readi (h : Held w₀ w) (off n : Nat) :
    Returns (fun _ w' => Held w₀ w' ∧ w'.mem = w.mem ∧ w'.stores = w.stores) (Exec.readi off n) w := by
  cases hfile : w.ip.file with
  | disk bytes => exact ⟨_, w, readi_disk hfile off n, h, rfl, rfl⟩
  | device reads =>
    cases reads with
    | nil => exact ⟨none, w, readi_nil hfile off n, h, rfl, rfl⟩
    | cons r reads =>
      have href : 0 < w.ip.ref := by
        rw [h.ref]
        exact Nat.succ_pos _
      refine ⟨_, _, readi_cons hfile h.busy href off n, ⟨h.ref, rfl, h.before, h.refs, rfl, ?_⟩, rfl, rfl⟩
      rw [h.foul, h.locked]
      rfl

theorem Held.readi_leads (h : Held w₀ w) (off n : Nat) :
    Leads Quiet (fun _ w' => Held w₀ w') (Exec.readi off n) w :=
  (h.readi off n).leads.mono fun _ _ hpost => hpost.1

theorem Held.storePage (h : Held w₀ w) (d page : Nat) (bytes : List UInt8) :
    Leads Quiet (fun _ w' => Held w₀ w') (Exec.storePage d page bytes) w := by
  show Held w₀ (if bytes = [] then w else _)
  split_ifs
  · exact h
  · exact h.setMem _ _

theorem Held.loadPage (h : Held w₀ w) (d page offset n : Nat) :
    Leads Quiet (fun _ w' => Held w₀ w') (Exec.loadPage d page offset n) w := by
  refine (h.readi_leads _ _).seq fun r w h => ?_
  cases r with
  | none => exact h
  | some bytes => exact (h.storePage d page bytes).seq fun _ w h => h

theorem Held.loadLoop {addr offset sz k i : Nat} (h : Held w₀ w) :
    Leads Quiet (fun _ w' => Held w₀ w') (Exec.loadLoop pgdir addr offset sz k i) w := by
  induction k generalizing i w with
  | zero => exact (by decide : Stop.endless ≠ .panic "iunlock")
  | succ k ih =>
    unfold Exec.loadLoop
    by_cases hi : i < sz
    · rw [if_pos hi]
      refine (h.vm (quiet_walkpgdir false)).seq fun pte w h => ?_
      cases pte with
      | none => exact (by decide : Stop.panic "loaduvm: address should exist\n" ≠ .panic "iunlock")
      | some pte =>
        refine (h.vm (quiet_load pte)).seq fun pa w h => ?_
        refine (h.loadPage _ _ _ _).seq fun ok w h => ?_
        cases ok with
        | false => exact h
        | true => exact ih h
    · rw [if_neg hi]
      exact h

theorem Held.loaduvm {addr offset sz : Nat} (h : Held w₀ w) :
    Leads Quiet (fun _ w' => Held w₀ w') (Exec.loaduvm pgdir addr offset sz) w := by
  unfold Exec.loaduvm
  split_ifs
  · exact (by decide : Stop.panic "loaduvm: addr must be page aligned\n" ≠ .panic "iunlock")
  · exact h.loadLoop

theorem Held.loadSegment {ph : Proghdr} {sz : Nat} (h : Held w₀ w) :
    Leads Quiet (fun _ w' => Held w₀ w') (Exec.loadSegment pgdir ph sz) w := by
  unfold Exec.loadSegment
  split_ifs
  · exact h
  · exact h
  · refine (h.vm quiet_allocuvm).seq fun sz w h => ?_
    split_ifs
    · exact h
    · exact h.loaduvm.seq fun _ w h => h

theorem Held.readProghdr (h : Held w₀ w) (off : Nat) :
    Leads Quiet (fun _ w' => Held w₀ w') (Exec.readProghdr off) w := by
  refine (h.readi_leads _ _).seq fun r w h => ?_
  cases r with
  | none => exact h
  | some bytes => exact h

theorem Held.loadSegments {k off sz : Nat} (h : Held w₀ w) :
    Leads Quiet (fun _ w' => Held w₀ w') (Exec.loadSegments pgdir k off sz) w := by
  induction k generalizing off sz w with
  | zero => exact h
  | succ k ih =>
    refine (h.readProghdr off).seq fun ph w h => ?_
    cases ph with
    | none => exact h
    | some ph =>
      refine h.loadSegment.seq fun sz w h => ?_
      cases sz with
      | none => exact h
      | some sz => exact ih h

theorem Held.loadElf (h : Held w₀ w) : Leads Quiet (fun _ w' => Held w₀ w') (Exec.loadElf elf) w := by
  unfold Exec.loadElf
  split_ifs
  · exact h
  · refine (h.vm quiet_setupkvm).seq fun pgdir w h => ?_
    cases pgdir with
    | none => exact h
    | some pgdir =>
      refine h.loadSegments.seq fun size w h => ?_
      cases size with
      | none => exact h
      | some size => exact h

theorem Held.loadProgram (h : Held w₀ w) : Leads Quiet (fun _ w' => Held w₀ w') (Exec.loadProgram garbage) w := by
  have hhdr : Leads Quiet (fun _ w' => Held w₀ w') (readElfhdr garbage) w := by
    refine (h.readi_leads _ _).seq fun r w h => ?_
    cases r with
    | none => exact h
    | some bytes => exact h
  refine hhdr.seq fun elf w h => ?_
  cases elf with
  | none => exact h
  | some elf => exact h.loadElf

/-! Giving the inode up. -/

/-- `iput` of a reference that the call has. -/
theorem iput_run (hbusy : w.ip.busy = false) (hrefs : w.refs = 1) (hfoul : w.foul = false) :
    Returns (fun _ w' => w'.ip.ref = w.ip.ref - 1 ∧ w'.ip.busy = false ∧ w'.refs = 0 ∧ w'.locked = w.locked ∧
      w'.foul = false ∧ w'.mem = w.mem ∧ w'.stores = w.stores) iput w := by
  have hput : (w.foul || w.refs == 0) = false := by
    rw [hfoul, hrefs]
    rfl
  have hzero : w.refs - 1 = 0 := by rw [hrefs]
  by_cases hlast : w.ip.ref = 1 ∧ w.ip.nlink = 0
  · refine ⟨(), w.drop { w.ip with ref := 0, file := .disk [] }, ?_, ?_, hbusy, hzero, rfl, hput, rfl, rfl⟩
    · show (if w.ip.ref = 1 ∧ w.ip.nlink = 0 then if w.ip.busy = true then _ else _ else _ : Code Unit) w = _
      rw [if_pos hlast, hbusy, if_neg (by decide)]
      rfl
    · rw [hlast.1]
      rfl
  · refine ⟨(), w.drop { w.ip with ref := w.ip.ref - 1 }, ?_, rfl, hbusy, hzero, rfl, hput, rfl, rfl⟩
    show (if w.ip.ref = 1 ∧ w.ip.nlink = 0 then _ else _ : Code Unit) w = _
    rw [if_neg hlast]
    rfl

/-- `iunlockput` of an inode that is held. -/
theorem Held.iunlockput (h : Held w₀ w) :
    Returns (fun _ w' => Released w₀ w' ∧ w'.mem = w.mem ∧ w'.stores = w.stores) Exec.iunlockput w := by
  have href : 0 < w.ip.ref := by
    rw [h.ref]
    exact Nat.succ_pos _
  have hfoul : (w.foul || !w.locked) = false := by
    rw [h.foul, h.locked]
    rfl
  have hput : Returns _ iput { w with ip := { w.ip with busy := false }, locked := false,
                                      foul := w.foul || !w.locked } := iput_run rfl h.refs hfoul
  obtain ⟨_, w', hrun, href', hbusy', hrefs', hlocked', hfoul', hmem', hstores'⟩ := hput
  refine ⟨(), w', (run_bind (iunlock_run h.busy href)).trans hrun, ⟨?_, ?_, hrefs', hlocked', hfoul'⟩, hmem', hstores'⟩
  · rw [href']
    exact (congrArg (· - 1) h.ref).trans (Nat.add_sub_cancel _ _)
  · rw [hbusy', h.before]

/-- What the label `bad` is for: the inode is held there. -/
theorem Held.bad (h : Held w₀ w) (d : Option Nat) :
    Leads Quiet (fun r w' => r = (-1, p) ∧ Released w₀ w') (Exec.bad d p) w := by
  have hend : ∀ w, Held w₀ w →
      Leads Quiet (fun r w' => r = (-1, p) ∧ Released w₀ w') (Exec.iunlockput >>= fun _ => pure (-1, p)) w := by
    intro w h
    exact h.iunlockput.leads.seq fun _ w h => ⟨rfl, h.1⟩
  unfold Exec.bad
  cases d with
  | none => exact hend w h
  | some d => exact (h.vm quiet_freevm).seq fun _ w h => hend w h

/-! The rest of `exec`. -/

theorem pgroundup_idem (hspan : pgroundup size + pgsize ≤ userTop) : pgroundup (pgroundup size) = pgroundup size := by
  simp only [pgroundup, pgsize, uintSize, userTop] at *
  omega

attribute [local irreducible] allocuvm

/-- `allocuvm` of one page, whatever the memory is like: if there is a free page it does not fail. -/
theorem allocuvm_page {m : Mem} {d : Nat} (hspan : pgroundup size + pgsize ≤ userTop) (hfree : m.free ≠ []) :
    Leads Quiet (fun sz _ => sz = pgroundup size + pgsize)
      (allocuvm d (pgroundup size) (pgroundup size + pgsize)) m := by
  obtain ⟨pg, rest, hcons⟩ := List.exists_cons_of_ne_nil hfree
  have hlast : pgrounddown ((pgroundup size + pgsize + uintSize - 1) % uintSize) = pgroundup size := by
    simp only [pgrounddown, pgroundup, pgsize, uintSize, userTop] at *
    omega
  have hnext : ¬ (pgroundup size + pgsize) % uintSize ≤ pgroundup size := by
    simp only [pgsize, uintSize, userTop] at *
    omega
  obtain ⟨turns, hturns⟩ : ∃ turns, maxTurns = turns + 2 := ⟨2 ^ 20 - 1, maxTurns_eq⟩
  rw [allocuvm, if_neg (by omega), hlast, pgroundup_idem hspan, hturns, allocLoop, if_pos le_rfl]
  have hkalloc : Returns (fun r _ => r = some pg) kalloc m := ⟨_, _, kalloc_cons hcons, rfl⟩
  refine hkalloc.leads.seq fun r m hr => ?_
  rw [hr]
  refine Leads.andThen trivial fun _ m => quiet_mappages.andThen fun _ m => ?_
  have hgrows : pgroundup size + pgsize > pgroundup size := by
    have hpos : 0 < pgsize := by decide
    omega
  rw [allocLoop, if_neg hnext, if_pos hgrows]
  exact rfl

theorem quiet_uva2ka {d uva : Nat} (hfoul : w.foul = false) :
    Leads Quiet (fun _ w' => w'.foul = false) (uva2ka d uva) w := by
  have hwalk : Leads Quiet (fun _ w' => w'.foul = false) (vm (walkpgdir d uva false)) w :=
    leads_vm ((quiet_walkpgdir false).mono fun _ _ _ => hfoul)
  refine hwalk.seq fun pte w hfoul => ?_
  cases pte with
  | none => exact hfoul
  | some pte =>
    have hload : Leads Quiet (fun _ w' => w'.foul = false) (vm (load pte)) w :=
      leads_vm ((quiet_load pte).mono fun _ _ _ => hfoul)
    exact hload.seq fun _ w hfoul => hfoul

/-- With room and a page for the stack `exec` succeeds from there on, unless the kernel panics. -/
theorem finish_clean (hfoul : w.foul = false) (hspan : pgroundup size + pgsize ≤ userTop) (hfree : w.mem.free ≠ []) :
    Leads Quiet (fun r w' => r.1 = 0 ∧ w'.foul = false) (finish path argv p elf pgdir size) w := by
  have hmod : (pgroundup size + pgsize) % uintSize = pgroundup size + pgsize := by
    refine Nat.mod_eq_of_lt ?_
    simp only [pgsize, uintSize, userTop] at *
    omega
  have halloc : Leads Quiet (fun sz w' => sz ≠ 0 ∧ w'.foul = false)
      (vm (allocuvm pgdir (pgroundup size) ((pgroundup size + pgsize) % uintSize))) w := by
    refine leads_vm ?_
    rw [hmod]
    refine (allocuvm_page hspan hfree).mono fun sz _ hsz => ⟨?_, hfoul⟩
    have hpos : 0 < pgsize := by decide
    omega
  refine halloc.seq fun sz w hsz => ?_
  obtain ⟨hsz, hfoul⟩ := hsz
  rw [if_neg hsz]
  refine (quiet_uva2ka hfoul).seq fun mem w hfoul => ?_
  have hpoke : Leads Quiet (fun _ w' => w'.foul = false)
      (modify fun w => { w with mem := pokeAll w.mem (stackPokes mem (pgroundup size) sz argv) } : Code Unit) w :=
    hfoul
  refine hpoke.seq fun _ w hfoul => ?_
  have hfreevm : Leads Quiet (fun _ w' => w'.foul = false) (vm (freevm p.vm.pgdir)) w :=
    leads_vm (quiet_freevm.mono fun _ _ _ => hfoul)
  exact hfreevm.seq fun _ w hfoul => ⟨rfl, hfoul⟩

theorem namei_found (hfound : w.found = true) : namei w =
    .ok (true, { w with ip := { w.ip with ref := w.ip.ref + 1 }, refs := w.refs + 1 }) := by
  show (if w.found = true then _ else _ : Code Bool) w = _
  rw [if_pos hfound]
  rfl

theorem namei_missing (hfound : ¬ w.found = true) : namei w = .ok (false, w) := by
  show (if w.found = true then _ else _ : Code Bool) w = _
  rw [if_neg hfound]
  rfl

/-- After `namei` and `ilock`. -/
def World.taken (w : World) : World :=
  { w with ip := { w.ip with ref := w.ip.ref + 1, busy := true }, refs := w.refs + 1, locked := true }

theorem held_taken (hbusy : w.ip.busy = false) (hrefs : w.refs = 0) (hfoul : w.foul = false) : Held w w.taken := by
  refine ⟨rfl, rfl, hbusy, ?_, rfl, hfoul⟩
  show w.refs + 1 = 1
  rw [hrefs]

theorem ilock_found (hbusy : w.ip.busy = false) :
    ilock { w with ip := { w.ip with ref := w.ip.ref + 1 }, refs := w.refs + 1 } = .ok ((), w.taken) :=
  ilock_run hbusy (Nat.succ_pos _)

theorem exec_taken (hfound : w.found = true) (hbusy : w.ip.busy = false) :
    exec path argv garbage p w = (loadProgram garbage >>= afterLoad path argv p) w.taken :=
  (run_bind (namei_found hfound)).trans (run_bind (ilock_found hbusy))

theorem exec_waits (hfound : w.found = true) (hbusy : w.ip.busy = true) :
    exec path argv garbage p w = .error .endless :=
  (run_bind (namei_found hfound)).trans (run_bind_error (ilock_busy hbusy (Nat.succ_pos _)))

theorem exec_missing (hfound : ¬ w.found = true) : exec path argv garbage p w = .ok ((-1, p), w) :=
  run_bind (namei_missing hfound)

end Xv6.Exec
