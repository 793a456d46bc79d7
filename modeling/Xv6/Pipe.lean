import Xv6.LibRing
import Xv6.LibRun
import Xv6.LibSleep

/-! Pipes, pipe.c. Every call works on the pipe under its lock and gives the lock away only to sleep, so a
step of a run takes the lock, or makes one turn of a loop with the lock held. The struct file of an end
is referenced by every process that uses it: the end is closed when nobody is in a call through it, and
it is not used afterwards. -/

namespace Xv6.Pipes

open LibWord LibRing LibSleep Function

def PIPESIZE : Nat := 512

/-- The fields of struct pipe but its lock. -/
structure Pipe where
  data : Nat → UInt8
  nread : Nat
  nwrite : Nat
  readopen : Bool
  writeopen : Bool

namespace Pipe

/-- `p->data[p->nwrite++ % PIPESIZE] = b` -/
def store (b : UInt8) (x : Pipe) : Pipe :=
  { x with data := update x.data (x.nwrite % PIPESIZE) b, nwrite := (x.nwrite + 1) % uintSize }

def next (x : Pipe) : UInt8 := x.data (x.nread % PIPESIZE)

def advance (x : Pipe) : Pipe := { x with nread := (x.nread + 1) % uintSize }

def Full (x : Pipe) : Prop := x.nwrite = (x.nread + PIPESIZE) % uintSize

instance (x : Pipe) : Decidable x.Full := inferInstanceAs (Decidable (_ = _))

def close (writable : Bool) (x : Pipe) : Pipe :=
  if writable then { x with writeopen := false } else { x with readopen := false }

end Pipe

/-- `&p->nread` and `&p->nwrite`. -/
inductive Chan where
  | nread
  | nwrite
  deriving DecidableEq

/-- What a process does with the pipe. `piperead` is in its first loop or in its second one. -/
inductive Task where
  | idle
  | write (addr : Nat → UInt8) (n : Int) (i : Nat)
  | wait (n : Int)
  | copy (n : Int) (dst : List UInt8)
  | close (writable : Bool)

/-- The end a read or write goes through; `true` is the write end. -/
def Task.side : Task → Option Bool
  | write _ _ _ => some true
  | wait _ => some false
  | copy _ _ => some false
  | _ => none

structure State (Proc : Type) where
  pipe : Pipe
  lock : Option Proc
  task : Proc → Task
  asleep : Proc → Option Chan
  killed : Proc → Bool
  /-- The struct file of the end is referenced. -/
  file : Bool → Bool

/-- What a step shows: a byte stored, the end of a call with its result, the page freed. -/
inductive Event (Proc : Type) where
  | store (b : UInt8)
  | wrote (p : Proc) (r : Int)
  | read (p : Proc) (n : Int) (dst : List UInt8) (r : Int)
  | kfree

/-- The calls of a process. -/
inductive Call where
  | write (addr : Nat → UInt8) (n : Int)
  | read (n : Int)
  | close (writable : Bool)

inductive Act (Proc : Type) where
  | call (p : Proc) (c : Call)
  | acquire (p : Proc)
  | run (p : Proc)
  | kill (p : Proc)

variable {Proc : Type} [DecidableEq Proc]

namespace State

/-- `sleep(chan, &p->lock)` -/
def sleep (p : Proc) (chan : Chan) (s : State Proc) : State Proc :=
  { s with lock := none, asleep := update s.asleep p (some chan) }

def wakeup (chan : Chan) (s : State Proc) : State Proc :=
  { s with asleep := LibSleep.wakeup chan s.asleep }

/-- The lock is released and the call returns. -/
def leave (p : Proc) (s : State Proc) : State Proc :=
  { s with lock := none, task := update s.task p .idle }

end State

def pipewrite (p : Proc) (addr : Nat → UInt8) (n : Int) (i : Nat) (s : State Proc) :
    State Proc × List (Event Proc) :=
  if (i : Int) < n then
    if s.pipe.Full then
      if s.pipe.readopen = false ∨ s.killed p = true then (s.leave p, [.wrote p (-1)])
      else ((s.wakeup .nread).sleep p .nwrite, [])
    else
      ({ s with
          pipe := s.pipe.store (addr i)
          task := update s.task p (.write addr n (i + 1)) }, [.store (addr i)])
  else ((s.wakeup .nread).leave p, [.wrote p n])

/-- The first loop of `piperead`. -/
def pipereadWait (p : Proc) (n : Int) (s : State Proc) : State Proc × List (Event Proc) :=
  if s.pipe.nread = s.pipe.nwrite ∧ s.pipe.writeopen = true then
    if s.killed p = true then (s.leave p, [.read p n [] (-1)])
    else (s.sleep p .nread, [])
  else ({ s with task := update s.task p (.copy n []) }, [])

/-- The second loop of `piperead`. -/
def pipereadCopy (p : Proc) (n : Int) (dst : List UInt8) (s : State Proc) :
    State Proc × List (Event Proc) :=
  if (dst.length : Int) < n ∧ s.pipe.nread ≠ s.pipe.nwrite then
    ({ s with
        pipe := s.pipe.advance
        task := update s.task p (.copy n (dst ++ [s.pipe.next])) }, [])
  else ((s.wakeup .nwrite).leave p, [.read p n dst dst.length])

def pipeclose (p : Proc) (writable : Bool) (s : State Proc) : State Proc × List (Event Proc) :=
  let s := ({ s with pipe := s.pipe.close writable }).wakeup (if writable then .nread else .nwrite)
  (s.leave p, if s.pipe.readopen = false ∧ s.pipe.writeopen = false then [.kfree] else [])

/-- A turn of the process that holds the lock. -/
def run (p : Proc) (s : State Proc) : Option (State Proc × List (Event Proc)) :=
  if s.lock = some p then
    match s.task p with
    | .idle => none
    | .write addr n i => some (pipewrite p addr n i s)
    | .wait n => some (pipereadWait p n s)
    | .copy n dst => some (pipereadCopy p n dst s)
    | .close writable => some (pipeclose p writable s)
  else none

/-- A call begins. `fileclose` has dropped the last reference when it calls `pipeclose`. -/
def begin (p : Proc) (s : State Proc) : Call → State Proc
  | .write addr n => { s with task := update s.task p (.write addr n 0) }
  | .read n => { s with task := update s.task p (.wait n) }
  | .close writable =>
    { s with
      task := update s.task p (.close writable)
      file := update s.file writable false }

def Task.isIdle : Task → Bool
  | idle => true
  | _ => false

def step (s : State Proc) : Act Proc → Option (State Proc × List (Event Proc))
  | .call p c => if (s.task p).isIdle = true then some (begin p s c, []) else none
  | .acquire p =>
    if (s.task p).isIdle = false ∧ s.lock = none ∧ s.asleep p = none then
      some ({ s with lock := some p }, [])
    else none
  | .run p => run p s
  | .kill p =>
    some ({ s with
      killed := update s.killed p true
      asleep := update s.asleep p none }, [])

/-- An end is used while its file is referenced, and closed when nobody uses it. -/
def Allowed (s : State Proc) : Act Proc → Prop
  | .call _ (.write _ _) => s.file true = true
  | .call _ (.read _) => s.file false = true
  | .call _ (.close writable) => s.file writable = true ∧ ∀ q, (s.task q).side ≠ some writable
  | _ => True

/-- After `pipealloc`. -/
structure Opened (s : State Proc) : Prop where
  nread : s.pipe.nread = 0
  nwrite : s.pipe.nwrite = 0
  readopen : s.pipe.readopen = true
  writeopen : s.pipe.writeopen = true
  lock : s.lock = none
  task : ∀ p, s.task p = .idle
  asleep : ∀ p, s.asleep p = none
  file : ∀ e, s.file e = true

/-- The runs whose steps are as `guard` says, with what they have shown. -/
def Reaches (guard : State Proc → Act Proc → Prop) : State Proc × List (Event Proc) → Prop :=
  LibRun.Reachable (fun x => Opened x.1 ∧ x.2 = []) fun x y =>
    ∃ a t new, Allowed x.1 a ∧ guard x.1 a ∧ step x.1 a = some (t, new) ∧ y = (t, x.2 ++ new)

/-- The bytes stored by `pipewrite`, in order. -/
def stored (events : List (Event Proc)) : List UInt8 :=
  events.flatMap fun
    | .store b => [b]
    | _ => []

/-- The bytes returned by `piperead`, in order. -/
def returned (events : List (Event Proc)) : List UInt8 :=
  events.flatMap fun
    | .read _ _ dst _ => dst
    | _ => []

end Xv6.Pipes
