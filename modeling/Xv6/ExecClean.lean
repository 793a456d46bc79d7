import Xv6.ExecSafe

/-! A failing `exec` gives back what it holds, and nothing else; only the last failure, when there is no page or no room
for the stack, comes after the inode has been given up. -/

namespace Xv6.Exec

open LibExcept LibWord Fs Vm

variable {w w₀ : World} {role role₀ : Nat → Role} {bytes : List UInt8} {garbage : Block} {path : Str}
  {argv : List Str} {p : Process}

/-- The part of `exec` before the inode is given up. -/
def untilLoaded (garbage : Block) : Code Loaded := do
  let _ ← namei
  ilock
  loadProgram garbage

/-- Whenever the program has been loaded there is room below `USERTOP` and a free page for the stack. -/
def StackAvailable (garbage : Block) (w : World) : Prop :=
  ∀ elf pgdir size w', untilLoaded garbage w = .ok (.done elf pgdir size, w') →
    pgroundup size + pgsize ≤ userTop ∧ w'.mem.free ≠ []

/-- No call unlocks or puts an inode that it does not hold, and one that returns -1 leaves the process and the inode
as they were. -/
def Clean (x : Code (Int × Process)) (p : Process) (w : World) : Prop :=
  Leads Quiet (fun r w' => (r.1 = -1 → r.2 = p ∧ w'.ip.ref = w.ip.ref ∧ w'.ip.busy = w.ip.busy) ∧ w'.foul = false)
    x w

theorem untilLoaded_taken (hfound : w.found = true) (hbusy : w.ip.busy = false) :
    untilLoaded garbage w = loadProgram garbage w.taken :=
  (run_bind (namei_found hfound)).trans (run_bind (ilock_found hbusy))

attribute [local irreducible] allocuvm

/-- The condition holds on files with safe segments and a page for the stack. -/
theorem FileSafe.stackAvailable (hsafe : FileSafe bytes w.mem.free.length) (hpool : Pool w.mem role)
    (hfound : w.found = true) (hbusy : w.ip.busy = false) (hfile : w.ip.file = .disk bytes)
    (hbytes : bytes.length + pgsize < uintSize) : StackAvailable garbage w := by
  intro elf pgdir size w' hrun
  rw [untilLoaded_taken hfound hbusy] at hrun
  have hreturns : Returns _ (loadProgram garbage) w.taken := loadProgram_outcome hpool hfile hbytes hsafe.loads
  obtain ⟨l, w'', hrun', -, hl⟩ := hreturns
  rw [hrun'] at hrun
  obtain ⟨rfl, rfl⟩ := Prod.mk.inj (Except.ok.inj hrun)
  cases hl with
  | done hsize hload =>
    obtain ⟨hspan, hfree⟩ := hsafe.stack size hsize
    refine ⟨?_, fun hnil => ?_⟩
    · rw [pgroundup_eq hload.live.size, ← Nat.succ_mul]
      exact Nat.mul_le_mul_right pgsize hspan
    · have htotal := hload.free
      rw [hnil, List.length_nil] at htotal
      omega

attribute [local irreducible] exec

theorem iunlock_idle (hbusy : w.ip.busy = false) : iunlock w = .error (.panic "iunlock") := by
  show (if w.ip.busy = false ∨ w.ip.ref < 1 then panic "iunlock" else _ : Code Unit) w = _
  rw [if_pos (.inl hbusy)]
  rfl

theorem Loading.bad_idle {d sz : Nat} (h : Loading w₀ role₀ d sz w role) (hbusy : w.ip.busy = false) :
    Exec.bad (some d) p w = .error (.panic "iunlock") := by
  obtain ⟨m', hrun, -⟩ := freevm_spec h.live.tree h.live.pool h.live.low
  have hidle : iunlock { w with mem := m' } = .error (.panic "iunlock") := iunlock_idle hbusy
  exact (run_bind (vm_run hrun)).trans (run_bind_error (run_bind_error hidle))

/-- The stack of a program that has been loaded cannot be had. -/
theorem Loading.finish_idle {elf : Elfhdr} {d size : Nat} (h : Loading w₀ role₀ d size w role)
    (hbusy : w.ip.busy = false) (hnot : ¬ (pagesOf size < userPages ∧ pagesOf size + 13 < w₀.mem.free.length)) :
    Exec.finish path argv p elf d size w = .error (.panic "iunlock") := by
  have hround : pgroundup size = pagesOf size * pgsize := pgroundup_eq h.live.size
  have hsucc : pagesOf size * pgsize + pgsize = (pagesOf size + 1) * pgsize := (Nat.succ_mul _ _).symm
  have hpages := pagesOf_le h.live.size
  have hmod : (pgroundup size + pgsize) % uintSize = (pagesOf size + 1) * pgsize := by
    have hlt : (pagesOf size + 1) * pgsize < uintSize := by
      simp only [userPages, pgsize, uintSize] at *
      omega
    rw [hround, hsucc, Nat.mod_eq_of_lt hlt]
  have htotal := h.free
  have hnot' : ¬ ((pagesOf size + 1) * pgsize ≤ userTop ∧
      pagesOf ((pagesOf size + 1) * pgsize) - pagesOf (pagesOf size * pgsize) ≤ w.mem.free.length) := by
    rw [pagesOf_mul, pagesOf_mul]
    rintro ⟨hle, hfree⟩
    have hlt : pagesOf size + 1 ≤ userPages := Nat.le_of_mul_le_mul_right hle (by decide)
    omega
  unfold Exec.finish
  rw [hmod, hround]
  refine (h.roundup.full (by rw [← hsucc]; exact Nat.add_pos_right _ (by decide)) hnot').seq_error fun x w₁ hpost => ?_
  obtain ⟨rfl, hload, hsame⟩ := hpost
  rw [if_pos rfl]
  exact hload.bad_idle (hsame.ip ▸ hbusy)

/-- `exec` gives up an inode that it does not hold, when the program has been loaded and there is no room or no page
for its stack. -/
theorem exec_stackless {size : Nat} (hpool : Pool w.mem role) (hfound : w.found = true) (hbusy : w.ip.busy = false)
    (hrefs : w.refs = 0) (hfoul : w.foul = false) (hfile : w.ip.file = .disk bytes)
    (hbytes : bytes.length + pgsize < uintSize)
    (hloads : LoadsSafe bytes (w.mem.free.length - 13) (elfOf bytes).phnum (elfOf bytes).phoff 0)
    (hsize : imageSize bytes w.mem.free.length = some size)
    (hnot : ¬ (pagesOf size < userPages ∧ pagesOf size + 13 < w.mem.free.length)) :
    exec path argv garbage p w = .error (.panic "iunlock") := by
  refine (exec_taken hfound hbusy).trans ?_
  refine (loadProgram_outcome hpool hfile hbytes hloads).seq_error fun l w₁ hpost => ?_
  obtain ⟨hsame, hl⟩ := hpost
  have hheld := hsame.held hbusy hrefs hfoul
  cases hl with
  | early hnone =>
    rw [hsize] at hnone
    cases hnone
  | late hnone =>
    rw [hsize] at hnone
    cases hnone
  | done hsome hload =>
    rw [hsize] at hsome
    cases hsome
    refine hheld.iunlockput.seq_error fun _ w₂ hpost => ?_
    obtain ⟨hreleased, hmem, hstores⟩ := hpost
    exact (hload.congr hmem hstores).finish_idle (hreleased.busy.trans hbusy) hnot

end Xv6.Exec
