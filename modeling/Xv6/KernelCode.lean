import Xv6.SchedFair2q
import Xv6.SchedRr2q

/-! The kernel code of `proc.c`, `trap.c`, `spinlock.c` and `sysproc.c` as instruction lists. A kernel
stack is the list of what is still to be done on it. The spinlock operations and the context switch
are instructions of their own; what is done to the process table between them is an `Op`. An
instruction with a branch or a loop replaces itself by the code of the branch taken. -/

namespace Xv6.Kernel

open LibWord

/-- `SCHEDFLAG`. -/
inductive Policy where
  | rr
  | rr2q
  | fair2q
  deriving DecidableEq, Repr

/-- The spinlocks. `other` are those of the other subsystems (`bcache.lock`, `icache.lock`, `idelock`,
`input.lock`, the lock of a pipe), under which `sleep` and `wakeup` are called. -/
inductive Lock where
  | ptable
  | tickslock
  | kmem
  | other (n : Nat)
  deriving DecidableEq, Repr

/-- Statements on the process table, on `ticks` and on the counter of `trap`, executed for the current
process `proc`. The last ones stand for code of other subsystems: any number of `kalloc` and `kfree`
calls, the reference counting of `fork`, and everything done under a lock of another subsystem. -/
inductive Op where
  | wakeup1 (chan : Chan)
  | setRunnable
  | goSleep (chan : Chan)
  | clearChan
  | allocScan
  | kallocStack (np : Slot)
  | stampCtime (np : Slot)
  | copyuvm (np : Slot)
  | free (np : Slot)
  | forkRun (np : Slot)
  | doExit
  | exitScan
  | stampEtime
  | waitScan (two : Bool)
  | reap (np : Slot) (two : Bool)
  | kill (pid : Int)
  | nice
  | incTicks
  | sleepStart (n : Nat)
  | sleepLoop (ticks0 n : Nat)
  | fault
  | trapTail (user timer : Bool)
  | trapLow
  | trapKilled (user : Bool)
  | checkKilled
  | kmemWork
  | dups
  | fileWork
  | work (n : Nat)
  | intrWork (n : Nat)
  deriving DecidableEq, Repr

inductive Instr where
  /-- `acquire` up to its loop: `pushcli` and the check for a recursive acquire. -/
  | acquire (l : Lock)
  /-- The `xchg` loop of `acquire`. -/
  | spin (l : Lock)
  | release (l : Lock)
  /-- The checks of `sched` and the switch to the scheduler. -/
  | sched
  /-- Behind the switch in `sched`. -/
  | schedRet (intena : Bool)
  /-- Return from a trap; interrupts were enabled before it. -/
  | iret
  | panic
  /-- The head of the outer loop of `scheduler`. -/
  | schedTop
  /-- The inner loop of `scheduler` at a slot. -/
  | scanSlot (p : Nat)
  /-- FAIR2Q: the comparison of a process's ratio, with the ticks just read. -/
  | fairRatio (p : Slot) (high : Bool)
  /-- Behind the switch in `scheduler`; the scan goes on at the given slot. -/
  | afterSwtch (next : Nat)
  | op (o : Op)
  deriving DecidableEq, Repr

abbrev Code := List Instr

/-- `clockticks()`: the tick count is read, and here also used, under `tickslock`. -/
def clockticks (use : Instr) : Code := [.acquire .tickslock, use, .release .tickslock]

def wakeup (chan : Chan) : Code := [.acquire .ptable, .op (.wakeup1 chan), .release .ptable]

/-- `yield()`. -/
def yieldCpu : Code := [.acquire .ptable, .op .setRunnable, .sched, .release .ptable]

def sleep (chan : Chan) (lk : Lock) : Code :=
  if lk = .ptable then [.op (.goSleep chan), .sched, .op .clearChan]
  else [.acquire .ptable, .release lk, .op (.goSleep chan), .sched, .op .clearChan,
    .release .ptable, .acquire lk]

/-- `exit` behind the check for init: close the files, become a zombie, leave for good. -/
def exit : Code :=
  [.op .fileWork, .acquire .ptable, .op .exitScan] ++ clockticks (.op .stampEtime) ++ [.sched, .panic]

/-- What a new process does when it is first scheduled: `forkret`, then `trapret`. -/
def forkret : Code := [.release .ptable, .iret]

/-- `trap` for the timer interrupt. -/
def timerTrap (cpu0 user : Bool) : Code :=
  (if cpu0 then [.acquire .tickslock, .op .incTicks] ++ wakeup .ticks ++ [.release .tickslock]
    else []) ++ [.op (.trapTail user true), .iret]

/-- `trap` for a device interrupt, whose handler takes a lock of its own. -/
def deviceTrap (n : Nat) (user : Bool) : Code :=
  [.acquire (.other n), .op (.intrWork n), .op (.trapTail user false), .iret]

/-- `trap` for a fault in user space. -/
def faultTrap : Code := [.op .fault, .op (.trapTail true false), .iret]

/-- The system calls that reach the process table; `other` stands for the rest of them. -/
inductive Syscall where
  | fork
  | exit
  | wait
  | wait2
  | kill (pid : Int)
  | sleep (n : Nat)
  | uptime
  | nice
  | other
  deriving DecidableEq, Repr

def syscall : Syscall → Code
  | .fork => [.acquire .ptable, .op .allocScan]
  | .exit => [.op .doExit]
  | .wait => [.acquire .ptable, .op (.waitScan false)]
  | .wait2 => [.acquire .ptable, .op (.waitScan true)]
  | .kill pid => [.acquire .ptable, .op (.kill pid), .release .ptable]
  | .sleep n => [.acquire .tickslock, .op (.sleepStart n)]
  | .uptime => [.acquire .tickslock, .release .tickslock]
  | .nice => [.acquire .ptable, .op .nice, .release .ptable]
  | .other => [.op .fileWork]

/-- `trap` for a system call. -/
def syscallTrap (call : Syscall) : Code :=
  .op .checkKilled :: (syscall call ++ [.op .checkKilled, .iret])

/-- What decides the branches the model leaves open: whether memory can be had, and what the code of
the other subsystems does next. -/
inductive Choice where
  | ok
  | fail
  | lock (n : Nat)
  | wake (address : Nat)
  | sleep (address : Nat)
  deriving DecidableEq, Repr

/-- History. A process is a slot together with the number of times the slot has been allocated. A
return of `wait` or `wait2` records the caller, the parent field of the child at that moment, and the
times `wait2` stores. -/
inductive Event where
  | exited (p : Slot) (gen : Nat) (pid : Int)
  | reaped (caller : Slot) (parent : Option Slot) (p : Slot) (gen : Nat) (pid : Int)
      (times : Option (Int × Int))
  deriving DecidableEq, Repr

/-- The shared data of the kernel, the kernel stacks of the processes, and the history. -/
structure Data where
  proc : Table
  stack : Slot → Code
  gen : Slot → Nat
  nextpid : Int
  ticks : Nat
  clockticks : Int
  log : List Event

/-- `initproc`: the slot `allocproc` finds first. -/
def initproc : Slot := ⟨0, nproc_pos⟩

def Data.setProc (d : Data) (p : Slot) (f : Proc → Proc) : Data :=
  { d with proc := Function.update d.proc p (f (d.proc p)) }

/-- An assignment to fields of `proc`. -/
def Data.onCur (d : Data) (cur : Option Slot) (f : Proc → Proc) : Data :=
  match cur with
  | some p => d.setProc p f
  | none => d

/-- `trap`: the first test of the counter after a clock tick. -/
def Quantum (policy : Policy) (p : Proc) (clockticks : Int) : Prop :=
  match policy with
  | .rr => clockticks = quanta
  | .rr2q | .fair2q => clockticks = quanta ∧ p.priority = 0

instance (policy : Policy) (p : Proc) (n : Int) : Decidable (Quantum policy p n) :=
  match policy with
  | .rr => inferInstanceAs (Decidable (n = quanta))
  | .rr2q | .fair2q => inferInstanceAs (Decidable (n = quanta ∧ p.priority = 0))

/-- `trap`: the second test, for a process of low priority. -/
def LowQuantum (p : Proc) (clockticks : Int) : Prop := clockticks = 2 * quanta ∧ p.priority = 1

instance (p : Proc) (n : Int) : Decidable (LowQuantum p n) := inferInstanceAs (Decidable (_ ∧ _))

/-- `trap`: whether a clock tick is charged to the current process. -/
def Charged (p : Proc) (timer : Bool) : Prop := p.state = .running ∧ timer = true

instance (p : Proc) (timer : Bool) : Decidable (Charged p timer) :=
  inferInstanceAs (Decidable (_ ∧ _))

/-- The data after an `Op`. -/
def write (policy : Policy) (cur : Option Slot) (choice : Choice) (d : Data) : Op → Data
  | .wakeup1 chan => { d with proc := Xv6.wakeup1 d.proc (some chan) }
  | .setRunnable => d.onCur cur fun p => { p with state := .runnable }
  | .goSleep chan => d.onCur cur fun p => { p with chan := some chan, state := .sleeping }
  | .clearChan => d.onCur cur fun p => { p with chan := none }
  | .allocScan =>
    match findUnused d.proc with
    | none => d
    | some np =>
      { d.setProc np fun p => { p with state := .embryo, pid := d.nextpid } with
        nextpid := incr32 d.nextpid, gen := Function.update d.gen np (d.gen np + 1) }
  | .kallocStack np =>
    if choice = .ok then { d with stack := Function.update d.stack np forkret } else d
  | .stampCtime np => d.setProc np fun p => { p with ctime := toInt d.ticks, rtime := 0, priority := 0 }
  | .copyuvm np => if choice = .ok then d.setProc np fun p => { p with parent := cur } else d
  | .free np => d.setProc np fun p => { p with state := .unused }
  | .forkRun np => d.setProc np fun p => { p with state := .runnable }
  | .exitScan =>
    match cur with
    | some p =>
      { d with proc := exitTable initproc p d.proc,
               log := .exited p (d.gen p) (d.proc p).pid :: d.log }
    | none => d
  | .stampEtime => d.onCur cur fun p => { p with etime := toInt d.ticks }
  | .reap np two =>
    match cur with
    | some q =>
      let child := d.proc np
      let times := (child.etime - child.ctime - child.rtime, child.rtime)
      { d.setProc np Proc.clear with
        log := .reaped q child.parent np (d.gen np) child.pid (if two then some times else none) ::
          d.log }
    | none => d
  | .kill pid => { d with proc := killTable pid d.proc }
  | .nice => d.onCur cur fun p => { p with priority := 1 - p.priority }
  | .incTicks => { d with ticks := (d.ticks + 1) % uintSize }
  | .fault => d.onCur cur fun p => { p with killed := true }
  | .trapTail user timer =>
    match cur with
    | none => d
    | some p =>
      if ((d.proc p).killed && user) = true ∨ ¬Charged (d.proc p) timer then d
      else
        let n := incr32 d.clockticks
        { d.setProc p fun p => { p with rtime := incr32 p.rtime } with
          clockticks := if Quantum policy (d.proc p) n then 0 else n }
  | .trapLow =>
    match cur with
    | none => d
    | some p => if LowQuantum (d.proc p) d.clockticks then { d with clockticks := 0 } else d
  | .doExit | .waitScan _ | .sleepStart _ | .sleepLoop _ _ | .trapKilled _ | .checkKilled
  | .kmemWork | .dups | .fileWork | .work _ | .intrWork _ => d

/-- How the current stack goes on: with more code on top, or (`exit` does not return) with new code
only. -/
inductive Next where
  | push (code : Code)
  | become (code : Code)

def Next.on : Next → Code → Code
  | .push code, rest => code ++ rest
  | .become code, _ => code

def killed (d : Data) (cur : Option Slot) : Bool :=
  match cur with
  | some p => (d.proc p).killed
  | none => false

/-- What `wait` and `wait2` do after a scan of the table. -/
def waitNext (d : Data) (p : Slot) (two : Bool) : Code :=
  match findZombie p d.proc with
  | some np => [.op .kmemWork, .op (.reap np two), .release .ptable]
  | none =>
    if haveKids p d.proc = false ∨ (d.proc p).killed = true then [.release .ptable]
    else sleep (.proc p) .ptable ++ [.op (.waitScan two)]

/-- What `trap` does after the handler. -/
def trapNext (policy : Policy) (d : Data) (p : Slot) (user timer : Bool) : Next :=
  if ((d.proc p).killed && user) = true then .become [.op .doExit]
  else if Charged (d.proc p) timer then
    .push ((if Quantum policy (d.proc p) (incr32 d.clockticks) then yieldCpu else []) ++
      (if policy = .rr then [] else [.op .trapLow]) ++ [.op (.trapKilled user)])
  else .push [.op (.trapKilled user)]

/-- The code after an `Op`, chosen on the data before it. -/
def next (policy : Policy) (cur : Option Slot) (choice : Choice) (d : Data) : Op → Next
  | .allocScan =>
    match findUnused d.proc with
    | none => .push [.release .ptable]
    | some np => .push [.release .ptable, .acquire .kmem, .release .kmem, .op (.kallocStack np)]
  | .kallocStack np =>
    if choice = .ok then
      .push (clockticks (.op (.stampCtime np)) ++ [.op .kmemWork, .op (.copyuvm np)])
    else .push [.op (.free np)]
  | .copyuvm np =>
    if choice = .ok then .push [.op .dups, .op (.forkRun np)]
    else .push [.acquire .kmem, .release .kmem, .op (.free np)]
  | .doExit => .become (if cur = some initproc then [.panic] else exit)
  | .waitScan two =>
    match cur with
    | some p => .push (waitNext d p two)
    | none => .push [.release .ptable]
  | .sleepStart n => .push [.op (.sleepLoop d.ticks n)]
  | .sleepLoop ticks0 n =>
    if (d.ticks + uintSize - ticks0) % uintSize < n then
      if killed d cur = true then .push [.release .tickslock]
      else .push (sleep .ticks .tickslock ++ [.op (.sleepLoop ticks0 n)])
    else .push [.release .tickslock]
  | .trapTail user timer =>
    match cur with
    | some p => trapNext policy d p user timer
    | none => .push []
  | .trapLow =>
    match cur with
    | some p => .push (if LowQuantum (d.proc p) d.clockticks then yieldCpu else [])
    | none => .push []
  | .trapKilled user => if (killed d cur && user) = true then .become [.op .doExit] else .push []
  | .checkKilled => if killed d cur = true then .become [.op .doExit] else .push []
  | .kmemWork =>
    if choice = .ok then .push [] else .push [.acquire .kmem, .release .kmem, .op .kmemWork]
  | .dups =>
    match choice with
    | .lock n => .push [.acquire (.other n), .release (.other n), .op .dups]
    | _ => .push []
  | .fileWork =>
    match choice with
    | .lock n => .push [.acquire (.other n), .op (.work n), .op .fileWork]
    | .fail => .push [.acquire .kmem, .release .kmem, .op .fileWork]
    | _ => .push []
  | .work n =>
    match choice with
    | .wake a => .push (wakeup (.obj a) ++ [.op (.work n)])
    | .sleep a => .push (sleep (.obj a) (.other n) ++ [.op (.work n)])
    | _ => .push [.release (.other n)]
  | .intrWork n =>
    match choice with
    | .wake a => .push (wakeup (.obj a) ++ [.op (.intrWork n)])
    | _ => .push [.release (.other n)]
  | .wakeup1 _ | .setRunnable | .goSleep _ | .clearChan | .stampCtime _ | .free _ | .forkRun _
  | .exitScan | .stampEtime | .reap _ _ | .kill _ | .nice | .incTicks | .fault => .push []

end Xv6.Kernel
