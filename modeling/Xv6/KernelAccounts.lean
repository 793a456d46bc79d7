import Xv6.KernelOps

/-! The fields of `struct proc` that `trap`, `allocproc`, `exit`, `wait` and `nice` keep for scheduling
and accounting, and what each operation of the kernel makes of them. -/

namespace Xv6.Kernel

open LibWord

structure Account where
  ctime : Int
  etime : Int
  rtime : Int
  priority : Int
  deriving DecidableEq, Repr

def account (p : Proc) : Account := ⟨p.ctime, p.etime, p.rtime, p.priority⟩

/-- The account of a process after an `Op`. -/
def Op.account (cur : Option Slot) (d : Data) (p : Slot) (o : Op) : Account :=
  let old := Kernel.account (d.proc p)
  match o with
  | .stampCtime np =>
    if p = np then { old with ctime := toInt d.ticks, rtime := 0, priority := 0 } else old
  | .stampEtime => if cur = some p then { old with etime := toInt d.ticks } else old
  | .reap np _ => if p = np ∧ cur.isSome then ⟨0, 0, 0, 0⟩ else old
  | .nice => if cur = some p then { old with priority := 1 - old.priority } else old
  | .trapTail user timer =>
    if cur = some p ∧ ((d.proc p).killed && user) = false ∧ Charged (d.proc p) timer then
      { old with rtime := incr32 old.rtime }
    else old
  | _ => old

/-- No account differs. -/
def SameAccounts (t u : Table) : Prop := ∀ p, account (u p) = account (t p)

section Table

variable {t u v : Table}

theorem SameAccounts.trans (h : SameAccounts t u) (h' : SameAccounts u v) : SameAccounts t v :=
  fun p => (h' p).trans (h p)

theorem SameAccounts.update {p : Slot} {q : Proc} (hq : account q = account (t p)) :
    SameAccounts t (Function.update t p q) := by
  intro r
  by_cases hr : r = p
  · subst hr
    rwa [Function.update_self]
  · rw [Function.update_of_ne hr]

theorem sameAccounts_wakeup1 (t : Table) (chan : Option Chan) : SameAccounts t (wakeup1 t chan) := by
  intro p
  rw [wakeup1]
  split <;> rfl

theorem sameAccounts_exitTable (self : Slot) (t : Table) :
    SameAccounts t (exitTable initproc self t) := by
  have hone : ∀ t a, SameAccounts t (reparentOne initproc self t a) := by
    intro t a
    have hpass : SameAccounts t (Function.update t a { t a with parent := some initproc }) := .update rfl
    by_cases ha : (t a).parent = some self
    · rcases reparentOne_of_eq initproc self ha with h | h <;> rw [h]
      · exact hpass
      · exact hpass.trans (sameAccounts_wakeup1 _ _)
    · rw [reparentOne_of_ne initproc self ha]
      exact fun _ => rfl
  have hall : ∀ (l : List Slot) t, SameAccounts t (l.foldl (reparentOne initproc self) t) := by
    intro l
    induction l with
    | nil => exact fun _ _ => rfl
    | cons a l ih => exact fun t => (hone t a).trans (ih _)
  have hpassed : SameAccounts t (passed initproc self t) := (sameAccounts_wakeup1 _ _).trans (hall _ _)
  rw [exitTable_eq]
  generalize passed initproc self t = u at hpassed
  exact hpassed.trans (.update rfl)

theorem sameAccounts_killTable (pid : Int) (t : Table) : SameAccounts t (killTable pid t) := by
  unfold killTable
  split
  · exact fun _ => rfl
  · exact .update rfl

end Table

section Write

variable {policy : Policy} {cur : Option Slot} {choice : Choice} {d : Data} {o : Op}

theorem onCur_account {f : Proc → Proc} {g : Account → Account} (hf : ∀ p, account (f p) = g (account p))
    (cur : Option Slot) (p : Slot) :
    account ((d.onCur cur f).proc p) =
      if cur = some p then g (account (d.proc p)) else account (d.proc p) := by
  cases cur with
  | none => rfl
  | some q =>
    by_cases hp : p = q
    · subst hp
      simp [Data.onCur, Data.setProc, hf]
    · have hqp : ¬q = p := fun h => hp h.symm
      simp [Data.onCur, Data.setProc, hp, hqp]

theorem sameAccounts_onCur {f : Proc → Proc} (hf : ∀ p, account (f p) = account p) :
    SameAccounts d.proc (d.onCur cur f).proc := by
  intro p
  rw [onCur_account (g := id) hf]
  split <;> rfl

theorem setProc_account {np : Slot} {f : Proc → Proc} {g : Account → Account}
    (hf : ∀ p, account (f p) = g (account p)) (p : Slot) :
    account ((d.setProc np f).proc p) =
      if p = np then g (account (d.proc p)) else account (d.proc p) := by
  by_cases hp : p = np
  · subst hp
    simp [Data.setProc, hf]
  · simp [Data.setProc, hp]

theorem write_account (policy : Policy) (cur : Option Slot) (choice : Choice) (d : Data) (o : Op)
    (p : Slot) : account ((write policy cur choice d o).proc p) = o.account cur d p := by
  cases o with
  | wakeup1 chan => exact sameAccounts_wakeup1 _ _ p
  | setRunnable | goSleep | clearChan | fault => exact sameAccounts_onCur (by exact fun _ => rfl) p
  | allocScan =>
    simp only [write]
    split
    · rfl
    · exact SameAccounts.update (t := d.proc) (by rfl) p
  | kallocStack np =>
    simp only [write]
    split <;> rfl
  | stampCtime np =>
    exact setProc_account
      (f := fun p => { p with ctime := toInt d.ticks, rtime := 0, priority := 0 })
      (g := fun a => { a with ctime := toInt d.ticks, rtime := 0, priority := 0 }) (fun _ => rfl) p
  | copyuvm np =>
    simp only [write]
    split
    · exact SameAccounts.update (t := d.proc) (by rfl) p
    · rfl
  | free np | forkRun np => exact SameAccounts.update (t := d.proc) (by rfl) p
  | exitScan =>
    cases cur with
    | none => rfl
    | some q => exact sameAccounts_exitTable q d.proc p
  | stampEtime => exact onCur_account (g := fun a => { a with etime := toInt d.ticks }) (by exact fun _ => rfl) cur p
  | reap np two =>
    cases cur with
    | none => simp [write, Op.account]
    | some q =>
      have h : account ((d.setProc np Proc.clear).proc p) = if p = np then _ else _ :=
        setProc_account (g := fun _ => ⟨0, 0, 0, 0⟩) (fun _ => rfl) p
      simpa [write, Op.account] using h
  | kill pid => exact sameAccounts_killTable _ _ p
  | nice => exact onCur_account (g := fun a => { a with priority := 1 - a.priority }) (by exact fun _ => rfl) cur p
  | trapTail user timer =>
    cases cur with
    | none => simp [write, Op.account]
    | some q =>
      have h : account ((d.setProc q fun p => { p with rtime := incr32 p.rtime }).proc p) =
          if p = q then _ else _ :=
        setProc_account (g := fun a => { a with rtime := incr32 a.rtime }) (fun _ => rfl) p
      by_cases hp : p = q
      · subst hp
        by_cases hskip : ((d.proc p).killed && user) = true ∨ ¬Charged (d.proc p) timer
        · have hno : ¬(((d.proc p).killed && user) = false ∧ Charged (d.proc p) timer) := by
            rintro ⟨hkilled, hcharged⟩
            rw [hkilled] at hskip
            exact hskip.elim (by simp) fun h => h hcharged
          simp only [write, Op.account, if_pos hskip, true_and, if_neg hno]
        · have hyes : ((d.proc p).killed && user) = false ∧ Charged (d.proc p) timer := by
            push Not at hskip
            exact ⟨by simpa using hskip.1, hskip.2⟩
          simp only [write, Op.account, if_neg hskip, true_and, if_pos hyes]
          simpa using h
      · have hqp : ¬(some q = some p) := fun h => hp (Option.some.inj h).symm
        simp only [hp, if_false] at h
        simp only [write, Op.account, hqp, false_and, if_false]
        split
        · rfl
        · exact h
  | trapLow =>
    cases cur with
    | none => rfl
    | some q =>
      simp only [write]
      split <;> rfl
  | incTicks | doExit | waitScan | sleepStart | sleepLoop | trapKilled | checkKilled | kmemWork | dups
  | fileWork | work | intrWork => rfl

end Write

end Xv6.Kernel
