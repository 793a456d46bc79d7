import Xv6.LibRun
import Xv6.LibSleep

/-! The buffer cache and the disk driver, bio.c and ide.c. What is done under `bcache.lock` or `idelock` from
`acquire` to `release`, or to a `sleep` that gives the lock away, is one step of a run; sections under the
two locks never touch the same field. The 512 bytes of a sector are a value of type `Data`. The device works
on one command at a time and raises an interrupt when it has done with it. A process that panics stops. -/

namespace Xv6.Buffers

open Function

def NBUF : Nat := 100

abbrev Buf := Fin NBUF

/-- -1 as a `uint`. -/
def noDev : Nat := 2 ^ 32 - 1

structure Slot (Data : Type) where
  busy : Bool
  valid : Bool
  dirty : Bool
  dev : Nat
  sector : Nat
  qnext : Option Buf
  data : Data

/-- What `idestart` tells the device: the drive and the sector on it, and for a write the data. -/
structure Command (Data : Type) where
  drive : Nat
  lba : Nat
  data : Option Data
  deriving DecidableEq

/-- Who has called `iderw`. -/
inductive Caller where
  | bread
  | bwrite
  deriving DecidableEq

/-- Where a process is with a buffer: at the test of B_VALID in `bread`, at the beginning of `iderw`, in its
loop, in `brelse`. -/
inductive Place where
  | test
  | iderw (caller : Caller)
  | wait (caller : Caller)
  | brelse
  deriving DecidableEq

inductive Task where
  | idle
  | bget (dev sector : Nat)
  | work (b : Buf) (place : Place)
  | panic (message : String)
  deriving DecidableEq

structure State (Data Proc : Type) where
  buf : Buf → Slot Data
  /-- The list of all buffers, from `head.next` to `head.prev`. -/
  order : List Buf
  idequeue : Option Buf
  /-- The command the device is working on. -/
  device : Option (Command Data)
  disk : Nat → Nat → Data
  havedisk1 : Bool
  task : Proc → Task
  /-- The buffers that `bread` has returned to a process and it has not passed to `brelse`. -/
  held : Proc → List Buf
  asleep : Proc → Option Buf
  /-- The buffers that have been changed since they were last read or written. -/
  changed : Buf → Bool

/-- What a step shows. -/
inductive Event (Data Proc : Type) where
  | recycle (b : Buf)
  | enqueue (b : Buf)
  | start (b : Buf)
  | complete (b : Buf)
  /-- `ideintr` marks `b` valid after a read of a sector on which the device has `data`. -/
  | fill (b : Buf) (data : Data)
  | iderw (p : Proc) (b : Buf)
  | bread (p : Proc) (dev sector : Nat) (data : Data)
  | bwrite (b : Buf) (dev sector : Nat) (data : Data)
  | change (b : Buf)

inductive Act (Data Proc : Type) where
  | bread (p : Proc) (dev sector : Nat)
  | bwrite (p : Proc) (b : Buf)
  | brelse (p : Proc) (b : Buf)
  | change (p : Proc) (b : Buf) (data : Data)
  | run (p : Proc)
  /-- The device is done and its status register has the value `status`. -/
  | ideintr (status : Nat)

variable {Data Proc : Type} [DecidableEq Proc]

namespace State

def setBuf (b : Buf) (x : Slot Data) (s : State Data Proc) : State Data Proc :=
  { s with buf := update s.buf b x }

def setTask (p : Proc) (x : Task) (s : State Data Proc) : State Data Proc :=
  { s with task := update s.task p x }

def sleep (p : Proc) (b : Buf) (s : State Data Proc) : State Data Proc :=
  { s with asleep := update s.asleep p (some b) }

def wakeup (b : Buf) (s : State Data Proc) : State Data Proc :=
  { s with asleep := LibSleep.wakeup b s.asleep }

end State

/-! ide.c -/

/-- `idewait`, when the device is ready. -/
def idewait (checkerr : Bool) (status : Nat) : Int :=
  if checkerr = true ∧ status &&& (0x20 ||| 0x01) ≠ 0 then -1 else 0

def Slot.command (x : Slot Data) : Command Data where
  drive := x.dev % 2
  lba := x.sector % 2 ^ 28
  data := if x.dirty then some x.data else none

def idestart (b : Buf) (s : State Data Proc) : State Data Proc :=
  { s with device := some (s.buf b).command }

/-- The device carries out a command, unless its status shows an error. -/
def transfer (cmd : Command Data) (status : Nat) (disk : Nat → Nat → Data) : Nat → Nat → Data :=
  match cmd.data with
  | some data =>
    if idewait true status < 0 then disk
    else update disk cmd.drive (update (disk cmd.drive) cmd.lba data)
  | none => disk

def ideintr (cmd : Command Data) (status : Nat) (s : State Data Proc) :
    State Data Proc × List (Event Data Proc) :=
  let s := { s with device := none, disk := transfer cmd status s.disk }
  match s.idequeue with
  | none => (s, [])
  | some b =>
    let x := s.buf b
    let sector := s.disk cmd.drive cmd.lba
    let data := if x.dirty = false ∧ idewait true status ≥ 0 then sector else x.data
    let s := ({ s with idequeue := x.qnext }).setBuf b { x with data := data, valid := true, dirty := false }
    let s := s.wakeup b
    let filled := if x.dirty then [] else [.fill b sector]
    match s.idequeue with
    | none => (s, .complete b :: filled)
    | some c => (idestart c s, .complete b :: filled ++ [.start c])

/-- The end of the list from `b` on. -/
def lastOf (qnext : Buf → Option Buf) : Nat → Buf → Option Buf
  | 0, _ => none
  | fuel + 1, b =>
    match qnext b with
    | none => some b
    | some c => lastOf qnext fuel c

/-- Append `b` to `idequeue`. -/
def append (b : Buf) (s : State Data Proc) : Option (State Data Proc) :=
  let s := s.setBuf b { s.buf b with qnext := none }
  match s.idequeue with
  | none => some { s with idequeue := some b }
  | some head =>
    (lastOf (fun c => (s.buf c).qnext) (NBUF + 1) head).map fun last =>
      s.setBuf last { s.buf last with qnext := some b }

/-- `iderw` returns to its caller. -/
def iderwReturn (p : Proc) (b : Buf) (caller : Caller) (s : State Data Proc) :
    State Data Proc × List (Event Data Proc) :=
  match caller with
  | .bread =>
    ({ s.setTask p .idle with held := update s.held p (b :: s.held p) },
      [.iderw p b, .bread p (s.buf b).dev (s.buf b).sector (s.buf b).data])
  | .bwrite => (s.setTask p .idle, [.iderw p b])

/-- A turn of the loop of `iderw`. -/
def iderwWait (p : Proc) (b : Buf) (caller : Caller) (s : State Data Proc) :
    State Data Proc × List (Event Data Proc) :=
  if (s.buf b).valid = true ∧ (s.buf b).dirty = false then iderwReturn p b caller s
  else ((s.setTask p (.work b (.wait caller))).sleep p b, [])

def iderw (p : Proc) (b : Buf) (caller : Caller) (s : State Data Proc) :
    Option (State Data Proc × List (Event Data Proc)) :=
  let x := s.buf b
  if x.busy = false then some (s.setTask p (.panic "iderw: buf not busy"), [])
  else if x.valid = true ∧ x.dirty = false then some (s.setTask p (.panic "iderw: nothing to do"), [])
  else if x.dev ≠ 0 ∧ s.havedisk1 = false then
    some (s.setTask p (.panic "idrw: ide disk 1 not present"), [])
  else
    (append b s).map fun s =>
      let y := iderwWait p b caller (if s.idequeue = some b then idestart b s else s)
      (y.1, .enqueue b :: (if s.idequeue = some b then [.start b] else []) ++ y.2)

/-! bio.c -/

/-- A turn of the loop of `bget`. -/
def bget (p : Proc) (dev sector : Nat) (s : State Data Proc) :
    State Data Proc × List (Event Data Proc) :=
  match s.order.find? fun b => (s.buf b).dev = dev ∧ (s.buf b).sector = sector with
  | some b =>
    if (s.buf b).busy = false then
      ((s.setBuf b { s.buf b with busy := true }).setTask p (.work b .test), [])
    else (s.sleep p b, [])
  | none =>
    match s.order.reverse.find? fun b => (s.buf b).busy = false with
    | some b =>
      ((s.setBuf b
        { s.buf b with dev := dev, sector := sector, busy := true, valid := false, dirty := false }).setTask
          p (.work b .test), [.recycle b])
    | none => (s.setTask p (.panic "bget: no buffers"), [])

/-- `bread` after `bget`. -/
def breadTest (p : Proc) (b : Buf) (s : State Data Proc) : State Data Proc × List (Event Data Proc) :=
  if (s.buf b).valid = false then (s.setTask p (.work b (.iderw .bread)), [])
  else
    ({ s.setTask p .idle with held := update s.held p (b :: s.held p) },
      [.bread p (s.buf b).dev (s.buf b).sector (s.buf b).data])

def brelse (p : Proc) (b : Buf) (s : State Data Proc) : State Data Proc :=
  ((({ s with order := b :: s.order.erase b }).setBuf b { s.buf b with busy := false }).wakeup b).setTask
    p .idle

def run (p : Proc) (s : State Data Proc) : Option (State Data Proc × List (Event Data Proc)) :=
  if s.asleep p = none then
    match s.task p with
    | .idle => none
    | .bget dev sector => some (bget p dev sector s)
    | .work b .test => some (breadTest p b s)
    | .work b (.iderw caller) => iderw p b caller s
    | .work b (.wait caller) => some (iderwWait p b caller s)
    | .work b .brelse => some (brelse p b s, [])
    | .panic _ => none
  else none

/-- The first part of `bwrite`. -/
def bwrite (p : Proc) (b : Buf) (s : State Data Proc) : State Data Proc × List (Event Data Proc) :=
  if (s.buf b).busy = false then (s.setTask p (.panic "bwrite"), [])
  else
    ({ (s.setBuf b { s.buf b with dirty := true }).setTask p (.work b (.iderw .bwrite)) with
        changed := update s.changed b false },
      [.bwrite b (s.buf b).dev (s.buf b).sector (s.buf b).data])

/-- The first part of `brelse`. -/
def brelseTest (p : Proc) (b : Buf) (s : State Data Proc) : State Data Proc :=
  if (s.buf b).busy = false then s.setTask p (.panic "brelse")
  else { s.setTask p (.work b .brelse) with held := update s.held p ((s.held p).erase b) }

def step (s : State Data Proc) : Act Data Proc → Option (State Data Proc × List (Event Data Proc))
  | .bread p dev sector => if s.task p = .idle then some (s.setTask p (.bget dev sector), []) else none
  | .bwrite p b => if s.task p = .idle ∧ b ∈ s.held p then some (bwrite p b s) else none
  | .brelse p b => if s.task p = .idle ∧ b ∈ s.held p then some (brelseTest p b s, []) else none
  | .change p b data =>
    if s.task p = .idle ∧ b ∈ s.held p then
      some ({ s.setBuf b { s.buf b with data := data } with changed := update s.changed b true },
        [.change b])
    else none
  | .run p => run p s
  | .ideintr status =>
    if status &&& (0x80 ||| 0x40) = 0x40 then s.device.map fun cmd => ideintr cmd status s else none

/-- After `binit` and `ideinit`. -/
structure Booted (s : State Data Proc) : Prop where
  busy : ∀ b, (s.buf b).busy = false
  valid : ∀ b, (s.buf b).valid = false
  dirty : ∀ b, (s.buf b).dirty = false
  dev : ∀ b, (s.buf b).dev = noDev
  order : s.order = (List.finRange NBUF).reverse
  idequeue : s.idequeue = none
  device : s.device = none
  task : ∀ p, s.task p = .idle
  held : ∀ p, s.held p = []
  asleep : ∀ p, s.asleep p = none
  changed : ∀ b, s.changed b = false

/-- The runs whose steps are as `guard` says, with what they have shown. -/
def Reaches (guard : State Data Proc → Act Data Proc → Prop) (disk : Nat → Nat → Data) :
    State Data Proc × List (Event Data Proc) → Prop :=
  LibRun.Reachable (fun x => Booted x.1 ∧ x.1.disk = disk ∧ x.2 = []) fun x y =>
    ∃ a t new, guard x.1 a ∧ step x.1 a = some (t, new) ∧ y = (t, x.2 ++ new)

end Xv6.Buffers
