import Xv6.KernelMachine

/-! A typing of kernel code. The type of a point of a kernel stack says which spinlocks are held there,
whether the current process has already left the state `RUNNING`, and what the code found out about
the table under `ptable.lock` and still relies on. Every instruction turns one such type into another;
a stack is well typed if its instructions fit together and it ends in user space without a lock. -/

namespace Xv6.Kernel

/-- What code that holds `ptable.lock` has found in the table: the zombie child it is going to free,
that the process has no zombie child, or that a process is `RUNNABLE`. -/
inductive Known where
  | nothing
  | zombie (np : Slot)
  | noZombie (p : Slot)
  | runnable (p : Slot)
  deriving DecidableEq, Repr

structure Ctx where
  held : List Lock := []
  parked : Bool := false
  known : Known := .nothing
  deriving DecidableEq, Repr

/-- One lock is held. -/
def Ctx.on (l : Lock) : Ctx := { held := [l] }

/-- The state of the process has been changed, and `sched` is to come. -/
def Ctx.parking : Ctx := { held := [.ptable], parked := true }

/-- The order in which locks are nested: those of other subsystems and `tickslock`, then
`ptable.lock`, then `kmem.lock`. -/
def Lock.rank : Lock → Nat
  | .other _ | .tickslock => 0
  | .ptable => 1
  | .kmem => 2

/-- The nestings that occur. Only `clockticks()` under `ptable.lock`, in `exit` and in the FAIR2Q
scheduler, is against the order. -/
def Nests (held : List Lock) (l : Lock) : Prop :=
  (∀ h ∈ held, h.rank < l.rank) ∨ (held = [.ptable] ∧ l = .tickslock)

instance (held : List Lock) (l : Lock) : Decidable (Nests held l) :=
  inferInstanceAs (Decidable (_ ∨ _))

/-- `wait` goes to sleep on its own process after it has found no zombie child. -/
def sleepKnown : Chan → Known
  | .proc p => .noZombie p
  | .ticks | .obj _ => .nothing

/-- What an `Op` requires. `wakeup1` and the calls of `kalloc` and `kfree` are made under different
locks. -/
def Op.Fits (x : Ctx) : Op → Prop
  | .wakeup1 _ => .ptable ∈ x.held ∧ x.parked = false ∧ x.known = .nothing
  | .kmemWork => Nests x.held .kmem
  | .goSleep chan => x = { held := [.ptable], known := sleepKnown chan }
  | .reap np _ => x = { held := [.ptable], known := .zombie np }
  | .stampEtime => x = { held := [.tickslock, .ptable], parked := true }
  | .setRunnable | .exitScan | .clearChan | .kill _ | .nice | .allocScan | .waitScan _ =>
    x = .on .ptable
  | .stampCtime _ | .incTicks | .sleepStart _ | .sleepLoop _ _ => x = .on .tickslock
  | .work n | .intrWork n => x = .on (.other n)
  | .kallocStack _ | .copyuvm _ | .free _ | .forkRun _ | .doExit | .fault | .trapTail _ _ | .trapLow
  | .trapKilled _ | .checkKilled | .dups | .fileWork => x = {}

/-- The type behind an `Op` and the code it pushes. -/
def Op.post (x : Ctx) : Op → Ctx
  | .setRunnable | .exitScan | .goSleep _ => .parking
  | .reap _ _ => .on .ptable
  | .allocScan | .waitScan _ | .sleepStart _ | .sleepLoop _ _ | .work _ | .intrWork _ => {}
  | _ => x

def Instr.Fits (x : Ctx) : Instr → Prop
  | .acquire l => Nests x.held l
  | .release l => l ∈ x.held ∧ (l = .ptable → x.parked = false)
  | .sched => x = .parking
  | .iret | .schedTop => x = {}
  | .schedRet _ | .scanSlot _ | .afterSwtch _ => x = .on .ptable
  | .fairRatio p _ => x = { held := [.tickslock, .ptable], known := .runnable p }
  | .op o => o.Fits x
  | .spin _ | .panic => False

def Instr.post (x : Ctx) : Instr → Ctx
  | .acquire l => { x with held := l :: x.held }
  | .release l =>
    { x with held := x.held.erase l, known := if l = .ptable then .nothing else x.known }
  | .sched | .schedRet _ => .on .ptable
  | .fairRatio _ _ => { held := [.tickslock, .ptable] }
  | .op o => o.post x
  | _ => {}

/-- The slot an instruction of `fork` works on before the process in it can run. -/
def Instr.owns : Instr → Option Slot
  | .op (.kallocStack np) | .op (.copyuvm np) | .op (.free np) | .op (.forkRun np) => some np
  | _ => none

/-- The slots a stack is creating a process in. -/
def owned (k : Code) : List Slot := k.filterMap Instr.owns

/-- What `wait` knows after its scan of the table. -/
def waitKnown (d : Data) (cur : Option Slot) : Known :=
  match cur with
  | some p =>
    match findZombie p d.proc with
    | some np => .zombie np
    | none => .noZombie p
  | none => .nothing

/-- The type right behind an `Op`, before the code it pushes. -/
def Op.mid (x : Ctx) (cur : Option Slot) (d : Data) : Op → Ctx
  | .setRunnable | .exitScan | .goSleep _ => .parking
  | .reap _ _ => .on .ptable
  | .waitScan _ => { held := [.ptable], known := waitKnown d cur }
  | _ => x

/-- Well-typed code. Nothing is required behind a `panic`; an exiting process is not in `fork`. -/
def Typed : Ctx → Code → Prop
  | x, [] => x = {}
  | x, i :: k =>
    i = .panic ∨ (i.Fits x ∧ (i = .op .exitScan → owned k = []) ∧ Typed (i.post x) k)

/-- The type of a stack a cpu is executing on, where `acquire` may have come to its loop. -/
def Stacked (x : Ctx) : Code → Prop
  | .spin l :: k => Typed x (.acquire l :: k)
  | k => Typed x k

/-- The `pushcli` of a lock that is not yet held. -/
def spins : Code → Nat
  | .spin _ :: _ => 1
  | _ => 0

attribute [simp] Ctx.on Ctx.parking Lock.rank Op.Fits Op.post Instr.Fits Instr.post Instr.owns

theorem owned_append (k m : Code) : owned (k ++ m) = owned k ++ owned m := List.filterMap_append

@[simp] theorem owned_nil : owned [] = [] := rfl

@[simp] theorem owned_cons (i : Instr) (k : Code) : owned (i :: k) = i.owns.toList ++ owned k := by
  unfold owned
  rw [List.filterMap_cons]
  cases i.owns <;> rfl

theorem Typed.panic (x : Ctx) (k : Code) : Typed x (.panic :: k) := Or.inl rfl

theorem Typed.not_spin {x : Ctx} {k : Code} {l : Lock} : ¬Typed x (.spin l :: k) := by
  simp [Typed, Instr.Fits]

theorem Typed.stacked {x : Ctx} {k : Code} (h : Typed x k) : Stacked x k ∧ spins k = 0 := by
  cases k with
  | nil => exact ⟨h, rfl⟩
  | cons i k =>
    cases i with
    | spin l => exact absurd h Typed.not_spin
    | _ => exact ⟨h, rfl⟩

theorem Typed.op {x : Ctx} {o : Op} {k : Code} (h : Typed x (.op o :: k)) :
    o.Fits x ∧ (o = .exitScan → owned k = []) ∧ Typed (o.post x) k := by
  rw [Typed] at h
  simpa using h

section Blocks

variable {x : Ctx} {k : Code}

theorem exit_typed : Typed {} exit := by
  simp [exit, clockticks, Typed, Nests]

theorem wakeup_typed {lk : Lock} (hlk : lk.rank = 0) (chan : Chan) (hk : Typed (.on lk) k) :
    Typed (.on lk) (wakeup chan ++ k) := by
  cases lk with
  | ptable | kmem => cases hlk
  | tickslock | other n => simpa [wakeup, Typed, Nests] using hk

theorem yieldCpu_typed (hk : Typed {} k) : Typed {} (yieldCpu ++ k) := by
  simpa [yieldCpu, Typed, Nests] using hk

theorem sleep_typed {lk : Lock} (hlk : lk.rank = 0) {chan : Chan} (hchan : sleepKnown chan = .nothing)
    (hk : Typed (.on lk) k) : Typed (.on lk) (sleep chan lk ++ k) := by
  cases lk with
  | ptable | kmem => cases hlk
  | tickslock | other n => simpa [sleep, Typed, Nests, hchan] using hk

theorem sleep_ptable_typed {p : Slot} (hk : Typed (.on .ptable) k) :
    Typed { held := [.ptable], known := .noZombie p } (sleep (.proc p) .ptable ++ k) := by
  simpa [sleep, Typed, sleepKnown] using hk

theorem kmem_typed (hkmem : Nests x.held .kmem) (hk : Typed x k) :
    Typed x (.acquire .kmem :: .release .kmem :: k) := by
  simpa [Typed, hkmem] using hk

end Blocks

variable {policy : Policy} {cur : Option Slot} {choice : Choice} {d : Data}

theorem waitNext_typed {p : Slot} {two : Bool} {k : Code} (hk : Typed {} k) :
    Typed { held := [.ptable], known := waitKnown d (some p) } (waitNext d p two ++ k) := by
  cases hz : findZombie p d.proc with
  | some np => simpa [waitNext, waitKnown, hz, Typed, Nests] using hk
  | none =>
    simp only [waitNext, waitKnown, hz]
    by_cases hret : haveKids p d.proc = false ∨ (d.proc p).killed = true
    · rw [if_pos hret]
      simpa [Typed] using hk
    · rw [if_neg hret, List.append_assoc]
      apply sleep_ptable_typed
      simpa [Typed] using hk

theorem trapNext_typed {p : Slot} {user timer : Bool} {k : Code} (hk : Typed {} k) :
    Typed {} ((trapNext policy d p user timer).on k) := by
  have htail : Typed {} (.op (.trapKilled user) :: k) := by simpa [Typed] using hk
  have hlow : Typed {} ((if policy = .rr then [] else [.op .trapLow]) ++ .op (.trapKilled user) :: k) := by
    split
    · exact htail
    · simpa [Typed] using hk
  unfold trapNext
  split
  · simp [Next.on, Typed]
  · split
    · simp only [Next.on, List.append_assoc]
      split
      · exact yieldCpu_typed hlow
      · exact hlow
    · exact htail

theorem next_typed {x : Ctx} {o : Op} {k : Code} (h : Typed x (.op o :: k)) :
    Typed (o.mid x cur d) ((next policy cur choice d o).on k) := by
  obtain ⟨hfits, -, hk⟩ := h.op
  cases o with
  | wakeup1 | setRunnable | goSleep | clearChan | stampCtime | free | forkRun | exitScan | stampEtime
  | reap | kill | nice | incTicks | fault => exact hk
  | allocScan =>
    simp only [next, Op.mid]
    simp only [Op.Fits] at hfits
    subst hfits
    cases findUnused d.proc <;> simpa [Next.on, Typed, Nests] using hk
  | kallocStack np =>
    simp only [next, Op.mid]
    simp only [Op.Fits] at hfits
    subst hfits
    split <;> simpa [Next.on, clockticks, Typed, Nests] using hk
  | copyuvm np =>
    simp only [next, Op.mid]
    simp only [Op.Fits] at hfits
    subst hfits
    split <;> simpa [Next.on, Typed, Nests] using hk
  | doExit =>
    simp only [next, Op.mid]
    simp only [Op.Fits] at hfits
    subst hfits
    split
    · exact Typed.panic _ _
    · exact exit_typed
  | waitScan two =>
    cases cur with
    | none => simpa [next, Op.mid, Next.on, Typed] using hk
    | some p => exact waitNext_typed hk
  | sleepStart n =>
    simp only [Op.Fits] at hfits
    subst hfits
    simpa [next, Op.mid, Next.on, Typed] using hk
  | sleepLoop ticks0 n =>
    simp only [next, Op.mid]
    simp only [Op.Fits] at hfits
    subst hfits
    have hret : Typed (.on .tickslock) (.release .tickslock :: k) := by simpa [Typed] using hk
    split
    · split
      · exact hret
      · simp only [Next.on, List.append_assoc]
        apply sleep_typed rfl rfl
        simpa [Typed] using hk
    · exact hret
  | trapTail user timer =>
    simp only [Op.Fits] at hfits
    subst hfits
    cases cur with
    | none => exact hk
    | some p => exact trapNext_typed hk
  | trapLow =>
    simp only [next, Op.mid]
    simp only [Op.Fits] at hfits
    subst hfits
    cases cur with
    | none => exact hk
    | some p =>
      simp only [Next.on]
      split
      · exact yieldCpu_typed hk
      · exact hk
  | trapKilled user | checkKilled =>
    simp only [next, Op.mid]
    simp only [Op.Fits] at hfits
    subst hfits
    split
    · simp [Next.on, Typed]
    · exact hk
  | kmemWork =>
    simp only [next, Op.mid]
    split
    · exact hk
    · exact kmem_typed hfits h
  | dups =>
    simp only [next, Op.mid]
    simp only [Op.Fits] at hfits
    subst hfits
    cases choice <;> simpa [Next.on, Typed, Nests] using hk
  | fileWork =>
    simp only [next, Op.mid]
    simp only [Op.Fits] at hfits
    subst hfits
    cases choice <;> simpa [Next.on, Typed, Nests] using hk
  | work n =>
    simp only [next, Op.mid]
    simp only [Op.Fits] at hfits
    subst hfits
    have hret : Typed (.on (.other n)) (.release (.other n) :: k) := by simpa [Typed] using hk
    cases choice with
    | ok | fail | lock => exact hret
    | wake a => 
      simp only [Next.on, List.append_assoc]
      exact wakeup_typed rfl _ h
    | sleep a =>
      simp only [Next.on, List.append_assoc]
      exact sleep_typed rfl rfl h
  | intrWork n =>
    simp only [next, Op.mid]
    simp only [Op.Fits] at hfits
    subst hfits
    have hret : Typed (.on (.other n)) (.release (.other n) :: k) := by simpa [Typed] using hk
    cases choice with
    | ok | fail | lock | sleep => exact hret
    | wake a => 
      simp only [Next.on, List.append_assoc]
      exact wakeup_typed rfl _ h

/-! What the kernel's entries put on a stack. -/

section Entries

variable {k : Code}

theorem timerTrap_typed (cpu0 user : Bool) (hk : Typed {} k) :
    Typed {} (timerTrap cpu0 user ++ k) := by
  have htail : Typed {} (.op (.trapTail user true) :: .iret :: k) := by simpa [Typed] using hk
  cases cpu0 with
  | false => exact htail
  | true => simpa [timerTrap, wakeup, Typed, Nests] using hk

theorem deviceTrap_typed (n : Nat) (user : Bool) (hk : Typed {} k) :
    Typed {} (deviceTrap n user ++ k) := by
  simpa [deviceTrap, Typed, Nests] using hk

theorem faultTrap_typed (hk : Typed {} k) : Typed {} (faultTrap ++ k) := by
  simpa [faultTrap, Typed] using hk

theorem syscallTrap_typed (call : Syscall) : Typed {} (syscallTrap call) := by
  cases call <;> simp [syscallTrap, syscall, Typed, Nests]

theorem forkret_typed : Typed (.on .ptable) forkret := by
  simp [forkret, Typed]

end Entries

/-! The slots a stack owns, after an `Op`. -/

theorem owned_sleep (chan : Chan) (lk : Lock) : owned (sleep chan lk) = [] := by
  unfold sleep
  split <;> rfl

theorem owned_waitNext (p : Slot) (two : Bool) : owned (waitNext d p two) = [] := by
  unfold waitNext
  cases findZombie p d.proc with
  | some np => rfl
  | none =>
    by_cases hret : haveKids p d.proc = false ∨ (d.proc p).killed = true
    · rw [if_pos hret]
      rfl
    · rw [if_neg hret, owned_append, owned_sleep]
      rfl

theorem owned_trapNext (p : Slot) (user timer : Bool) (k : Code) :
    (owned ((trapNext policy d p user timer).on k)).Sublist (owned k) := by
  unfold trapNext
  split
  · exact List.nil_sublist _
  · split
    · have hpushed : owned ((if Quantum policy (d.proc p) (LibWord.incr32 d.clockticks) then yieldCpu
          else []) ++ (if policy = .rr then [] else [.op .trapLow]) ++ [.op (.trapKilled user)]) = [] := by
        split <;> split <;> rfl
      rw [Next.on, owned_append, hpushed, List.nil_append]
    · exact List.Sublist.refl _

theorem owned_next_allocScan (k : Code) :
    owned ((next policy cur choice d .allocScan).on k) = (findUnused d.proc).toList ++ owned k := by
  unfold next
  cases findUnused d.proc <;> rfl

/-- Only `allocproc` adds to the slots a stack owns. -/
theorem owned_next {o : Op} (ho : o ≠ .allocScan) (k : Code) :
    (owned ((next policy cur choice d o).on k)).Sublist (owned (.op o :: k)) := by
  have hk : (owned k).Sublist (owned (.op o :: k)) := by
    rw [owned_cons]
    exact List.sublist_append_right _ _
  cases o with
  | allocScan => exact absurd rfl ho
  | wakeup1 | setRunnable | goSleep | clearChan | stampCtime | free | forkRun | exitScan | stampEtime
  | reap | kill | nice | incTicks | fault | sleepStart => exact hk
  | kallocStack np | copyuvm np | kmemWork =>
    simp only [next]
    split <;> exact List.Sublist.refl _
  | doExit =>
    simp only [next]
    split <;> exact List.nil_sublist _
  | waitScan two =>
    cases cur with
    | none => exact hk
    | some p =>
      change (owned (waitNext d p two ++ k)).Sublist _
      rw [owned_append, owned_waitNext]
      exact hk
  | sleepLoop ticks0 n =>
    have hsleep : owned (sleep .ticks .tickslock ++ [.op (.sleepLoop ticks0 n)] ++ k) = owned k := by
      rw [owned_append, owned_append, owned_sleep]
      rfl
    simp only [next]
    split
    · split
      · exact hk
      · rw [Next.on, hsleep]
        exact hk
    · exact hk
  | trapTail user timer =>
    cases cur with
    | none => exact hk
    | some p => exact owned_trapNext p user timer k
  | trapLow =>
    cases cur with
    | none => exact hk
    | some p =>
      simp only [next]
      split <;> exact hk
  | trapKilled user | checkKilled =>
    simp only [next]
    split
    · exact List.nil_sublist _
    · exact hk
  | dups | fileWork | intrWork n =>
    cases choice <;> exact hk
  | work n =>
    cases choice with
    | ok | fail | lock | wake => exact hk
    | sleep a =>
      change (owned (sleep (.obj a) (.other n) ++ [.op (.work n)] ++ k)).Sublist _
      rw [owned_append, owned_append, owned_sleep]
      exact hk

end Xv6.Kernel
