import Xv6.KernelCode
import Xv6.LibRun

/-! The kernel as a machine: any number of cpus, each on the stack of its scheduler or on the kernel
stack of the process it runs. A step is one instruction of one cpu, the entry to a system call or to a
fault from user space, or an interrupt taken by a cpu that has interrupts enabled. -/

namespace Xv6.Kernel

open LibWord

/-- How the kernel was compiled, the rounding of the division of two `double`s, and the memory
behind the process table, which the RR2Q scheduler may read. -/
structure Config where
  policy : Policy
  divide : Int → Int → Rat
  beyond : Nat → Proc

/-- Memory from `ptable.proc` on, as a sequence of `struct proc`. -/
def Config.memory (cfg : Config) (t : Table) (n : Nat) : Proc :=
  if h : n < nproc then t ⟨n, h⟩ else cfg.beyond n

/-- The locals of `scheduler` under RR2Q and under FAIR2Q. -/
structure Locals where
  rr2q : Rr2q.Locals := {}
  fair2q : Fair2q.Locals := {}

/-- `struct cpu`, the interrupt flag, the scheduler's stack and its locals. `onScheduler` says which
stack the cpu is on: the scheduler's or that of `proc`. -/
structure Cpu where
  proc : Option Slot := none
  onScheduler : Bool := true
  code : Code := [.schedTop]
  ncli : Nat := 0
  intena : Bool := false
  intr : Bool := false
  locals : Locals := {}

structure State (ncpu : Nat) where
  lock : Lock → Option (Fin ncpu)
  cpu : Fin ncpu → Cpu
  data : Data

variable {ncpu : Nat}

/-- The stack a cpu is executing on. -/
def State.stack (s : State ncpu) (c : Fin ncpu) : Code :=
  if (s.cpu c).onScheduler then (s.cpu c).code
  else
    match (s.cpu c).proc with
    | some p => s.data.stack p
    | none => []

def State.setCpu (s : State ncpu) (c : Fin ncpu) (f : Cpu → Cpu) : State ncpu :=
  { s with cpu := Function.update s.cpu c (f (s.cpu c)) }

def State.setStack (s : State ncpu) (c : Fin ncpu) (code : Code) : State ncpu :=
  if (s.cpu c).onScheduler then s.setCpu c fun u => { u with code := code }
  else
    match (s.cpu c).proc with
    | some p => { s with data := { s.data with stack := Function.update s.data.stack p code } }
    | none => s

def State.setLock (s : State ncpu) (l : Lock) (holder : Option (Fin ncpu)) : State ncpu :=
  { s with lock := Function.update s.lock l holder }

/-- `pushcli`. -/
def Cpu.pushcli (u : Cpu) : Cpu :=
  { u with intr := false, ncli := u.ncli + 1, intena := if u.ncli = 0 then u.intr else u.intena }

/-- `popcli`, where it does not panic. -/
def Cpu.popcli (u : Cpu) : Cpu :=
  { u with ncli := u.ncli - 1, intr := (u.ncli - 1 == 0) && u.intena }

/-- What `scheduler` does at a slot: go on, compare a ratio, switch to a process (and go on at the
slot `next` after it), or follow a pointer that is not into the table. -/
inductive Decision where
  | skip
  | ratio (high : Bool)
  | switch (q : Slot) (next : Nat)
  | wild
  deriving DecidableEq

/-- The body of the inner loop up to the dispatch, with the locals it leaves. -/
def examineSlot (cfg : Config) (t : Table) (l : Locals) (p : Slot) : Decision × Locals :=
  match cfg.policy with
  | .rr => (if (t p).state ≠ .runnable then .skip else .switch p (p.val + 1), l)
  | .rr2q =>
    let e := Rr2q.examine (cfg.memory t) l.rr2q p.val
    let l := { l with rr2q := e.locals }
    match e.chosen with
    | none => (.skip, l)
    | some q =>
      if h : q < nproc then (.switch ⟨q, h⟩ (e.locals.lastHighPri.getD 0 + 1), l) else (.wild, l)
  | .fair2q =>
    let e := Fair2q.examine (t p) l.fair2q
    let l := { l with fair2q := e.2 }
    match e.1 with
    | .ratio high => (.ratio high, l)
    | .choose (some q) => (.switch q (q.val + 1), l)
    | .choose none => (.wild, l)
    | .skip => (.skip, l)

/-- The switch to a process. -/
def State.dispatch (s : State ncpu) (c : Fin ncpu) (q : Slot) (l : Locals) (code : Code) :
    State ncpu :=
  { s with
    data := s.data.setProc q fun p => { p with state := .running }
    cpu := Function.update s.cpu c
      { s.cpu c with proc := some q, onScheduler := false, code := code, locals := l } }

def scan (cfg : Config) (s : State ncpu) (c : Fin ncpu) (p : Slot) (k : Code) : State ncpu :=
  let e := examineSlot cfg s.data.proc (s.cpu c).locals p
  let goOn code := (s.setStack c code).setCpu c fun u => { u with locals := e.2 }
  match e.1 with
  | .skip => goOn (.scanSlot (p.val + 1) :: k)
  | .ratio high => goOn (clockticks (.fairRatio p high) ++ .scanSlot (p.val + 1) :: k)
  | .switch q next => s.dispatch c q e.2 (.afterSwtch next :: k)
  | .wild => goOn [.panic]

/-- `sched`: the process leaves the cpu to its scheduler, unless a check fails. -/
def sched (s : State ncpu) (c : Fin ncpu) (k : Code) : State ncpu :=
  match (s.cpu c).proc with
  | none => s.setStack c [.panic]
  | some p =>
    if s.lock .ptable = some c ∧ (s.cpu c).ncli = 1 ∧ (s.data.proc p).state ≠ .running ∧
        (s.cpu c).intr = false then
      (s.setStack c (.schedRet (s.cpu c).intena :: k)).setCpu c fun u => { u with onScheduler := true }
    else s.setStack c [.panic]

/-- `release`: it panics if the cpu does not hold the lock, and in `popcli`. -/
def release (s : State ncpu) (c : Fin ncpu) (l : Lock) (k : Code) : State ncpu :=
  if s.lock l = some c then
    let s := s.setLock l none
    if (s.cpu c).intr = true ∨ (s.cpu c).ncli = 0 then s.setStack c [.panic]
    else (s.setStack c k).setCpu c Cpu.popcli
  else s.setStack c [.panic]

/-- One instruction of a cpu, with the rest of its stack. A cpu whose lock is taken keeps spinning: it
makes no step. -/
def execInstr (cfg : Config) (s : State ncpu) (c : Fin ncpu) (choice : Choice) (k : Code) :
    Instr → Option (State ncpu)
  | .acquire l =>
    let code := if s.lock l = some c then [.panic] else .spin l :: k
    some ((s.setStack c code).setCpu c Cpu.pushcli)
  | .spin l => if s.lock l = none then some ((s.setLock l (some c)).setStack c k) else none
  | .release l => some (release s c l k)
  | .sched => some (sched s c k)
  | .schedRet intena => some ((s.setStack c k).setCpu c fun u => { u with intena := intena })
  | .iret => some ((s.setStack c k).setCpu c fun u => { u with intr := true })
  | .panic => some ((s.setStack c [.panic]).setCpu c fun u => { u with intr := false })
  | .schedTop =>
    some ((s.setStack c (.acquire .ptable :: .scanSlot 0 :: k)).setCpu c
      fun u => { u with intr := true })
  | .scanSlot p =>
    some (if h : p < nproc then scan cfg s c ⟨p, h⟩ k
      else s.setStack c (.release .ptable :: .schedTop :: k))
  | .fairRatio p high =>
    let r := Fair2q.ratio cfg.divide (toInt s.data.ticks) (s.data.proc p)
    some ((s.setStack c k).setCpu c fun u =>
      { u with locals := { u.locals with fair2q := Fair2q.record u.locals.fair2q high p r } })
  | .afterSwtch n =>
    some ((s.setStack c (.scanSlot n :: k)).setCpu c fun u => { u with proc := none })
  | .op o =>
    let cur := (s.cpu c).proc
    some ({ s with data := write cfg.policy cur choice s.data o }.setStack c
      ((next cfg.policy cur choice s.data o).on k))

def exec (cfg : Config) (s : State ncpu) (c : Fin ncpu) (choice : Choice) : Option (State ncpu) :=
  match s.stack c with
  | [] => none
  | i :: k => execInstr cfg s c choice k i

/-- In user space: on the stack of a process, which is empty. -/
def State.InUser (s : State ncpu) (c : Fin ncpu) : Prop :=
  (s.cpu c).onScheduler = false ∧ s.stack c = []

instance (s : State ncpu) (c : Fin ncpu) : Decidable (s.InUser c) :=
  inferInstanceAs (Decidable (_ ∧ _))

/-- An interrupt: its handler runs on the current stack, with interrupts disabled. -/
def State.interrupt (s : State ncpu) (c : Fin ncpu) (handler : Code) : State ncpu :=
  (s.setStack c (handler ++ s.stack c)).setCpu c fun u => { u with intr := false }

/-- The kernel's steps: an instruction, or an entry to the kernel. -/
inductive Act (ncpu : Nat) where
  | exec (c : Fin ncpu) (choice : Choice)
  | syscall (c : Fin ncpu) (call : Syscall)
  | fault (c : Fin ncpu)
  | timer (c : Fin ncpu)
  | device (c : Fin ncpu) (n : Nat)
  deriving DecidableEq

def step (cfg : Config) (s : State ncpu) : Act ncpu → Option (State ncpu)
  | .exec c choice => exec cfg s c choice
  | .syscall c call => if s.InUser c then some (s.setStack c (syscallTrap call)) else none
  | .fault c => if s.InUser c then some (s.interrupt c faultTrap) else none
  | .timer c =>
    if (s.cpu c).intr = true then
      some (s.interrupt c (timerTrap (decide (c.val = 0)) (decide (s.InUser c))))
    else none
  | .device c n =>
    if (s.cpu c).intr = true then some (s.interrupt c (deviceTrap n (decide (s.InUser c)))) else none

/-- After `userinit`: init is `RUNNABLE`, a slot without a process has no stack to return to, and
every cpu enters `scheduler`. -/
def boot : State ncpu where
  lock := fun _ => none
  cpu := fun _ => {}
  data :=
    { proc := fun p => if p = initproc then { state := .runnable, pid := 1 } else {}
      stack := fun p => if p = initproc then forkret else [.panic]
      gen := fun p => if p = initproc then 1 else 0
      nextpid := 2
      ticks := 0
      clockticks := 0
      log := [] }

/-- The steps that meet a condition on the state before them. -/
def Step (cfg : Config) (guard : State ncpu → Act ncpu → Prop) (s t : State ncpu) : Prop :=
  ∃ a, guard s a ∧ step cfg s a = some t

/-- The states the machine can reach by steps that meet the condition. -/
def Reaches (cfg : Config) (guard : State ncpu → Act ncpu → Prop) : State ncpu → Prop :=
  LibRun.Reachable (· = boot) (Step cfg guard)

/-- The machine run on a list of steps; it stops where one is impossible or fails a check. -/
def run (cfg : Config) (check : State ncpu → Act ncpu → Bool) (s : State ncpu) :
    List (Act ncpu) → Option (State ncpu)
  | [] => some s
  | a :: rest =>
    if check s a then
      match step cfg s a with
      | some t => run cfg check t rest
      | none => none
    else none

theorem Reaches.run {cfg : Config} {guard : State ncpu → Act ncpu → Prop}
    {check : State ncpu → Act ncpu → Bool} (hcheck : ∀ s a, check s a = true → guard s a)
    {s t : State ncpu} (hs : Reaches cfg guard s) {acts : List (Act ncpu)}
    (hrun : run cfg check s acts = some t) : Reaches cfg guard t := by
  induction acts generalizing s with
  | nil => exact Option.some.inj hrun ▸ hs
  | cons a rest ih =>
    rw [Kernel.run] at hrun
    split at hrun
    · rename_i hpass
      split at hrun
      · rename_i u hstep
        exact ih (.next hs ⟨a, hcheck s a hpass, hstep⟩) hrun
      · cases hrun
    · cases hrun

section History

variable {γ : Type} {cfg : Config} {guard : State ncpu → Act ncpu → Prop}
  {watch : State ncpu → Act ncpu → γ → γ} {start : γ}

/-- A step together with a history of the run, which depends on the state before the step. -/
def WatchedStep (cfg : Config) (guard : State ncpu → Act ncpu → Prop)
    (watch : State ncpu → Act ncpu → γ → γ) (x y : State ncpu × γ) : Prop :=
  ∃ a, guard x.1 a ∧ step cfg x.1 a = some y.1 ∧ y.2 = watch x.1 a x.2

/-- The states the machine can reach, with their histories. -/
def Watched (cfg : Config) (guard : State ncpu → Act ncpu → Prop)
    (watch : State ncpu → Act ncpu → γ → γ) (start : γ) : State ncpu × γ → Prop :=
  LibRun.Reachable (· = (boot, start)) (WatchedStep cfg guard watch)

theorem Watched.reaches {x : State ncpu × γ} (hx : Watched cfg guard watch start x) :
    Reaches cfg guard x.1 := by
  induction hx with
  | start h => exact .start (congrArg Prod.fst h)
  | next _ hstep ih =>
    obtain ⟨a, hguard, hstep, -⟩ := hstep
    exact .next ih ⟨a, hguard, hstep⟩

/-- What holds of the machine and the history at the start and is kept by every step holds throughout. -/
theorem Watched.invariant {I : State ncpu → γ → Prop} {s : State ncpu} {g : γ}
    (hstart : I boot start)
    (hstep : ∀ s g a t, Reaches cfg guard s → I s g → guard s a → step cfg s a = some t → I t (watch s a g))
    (hs : Watched cfg guard watch start (s, g)) : I s g := by
  refine LibRun.Reachable.invariant (P := fun x => I x.1 x.2) ?_ ?_ hs
  · rintro _ rfl
    exact hstart
  · rintro x y hx h ⟨a, hguard, hxy, hy⟩
    rw [hy]
    exact hstep _ _ a _ (Watched.reaches hx) h hguard hxy

/-- `run` with a history. -/
def watchedRun (cfg : Config) (check : State ncpu → Act ncpu → Bool)
    (watch : State ncpu → Act ncpu → γ → γ) (x : State ncpu × γ) :
    List (Act ncpu) → Option (State ncpu × γ)
  | [] => some x
  | a :: rest =>
    if check x.1 a then
      match step cfg x.1 a with
      | some t => watchedRun cfg check watch (t, watch x.1 a x.2) rest
      | none => none
    else none

theorem Watched.run {check : State ncpu → Act ncpu → Bool}
    (hcheck : ∀ s a, check s a = true → guard s a) {x y : State ncpu × γ}
    (hx : Watched cfg guard watch start x) {acts : List (Act ncpu)}
    (hrun : watchedRun cfg check watch x acts = some y) : Watched cfg guard watch start y := by
  induction acts generalizing x with
  | nil => exact Option.some.inj hrun ▸ hx
  | cons a rest ih =>
    rw [watchedRun] at hrun
    split at hrun
    · rename_i hpass
      split at hrun
      · rename_i u hstep
        exact ih (.next hx ⟨a, hcheck x.1 a hpass, hstep, rfl⟩) hrun
      · cases hrun
    · cases hrun

end History

/-! For runs of a concrete machine. -/

/-- The machines below have one cpu or two. -/
instance oneCpu : NeZero (1 : Nat) := ⟨Nat.one_ne_zero⟩

instance twoCpus : NeZero (2 : Nat) := ⟨Nat.succ_ne_zero 1⟩

/-- The kernel compiled with a policy; the parameters that other policies use are arbitrary. -/
def plain (policy : Policy) : Config := { policy := policy, divide := fun _ _ => 0, beyond := fun _ => {} }

/-- Some instructions of one cpu. -/
def steps (c : Fin 2) (n : Nat) : List (Act 2) := List.replicate n (.exec c .ok)

end Xv6.Kernel
