import Xv6.LibRing
import Xv6.LibRun

/-! Console input of `console.c`. `consoleintr` takes the keys of an interrupt into the ring `input`,
`consoleread` takes committed bytes out of it for its caller and keeps a history of the lines it has
read in `prevCmds`. Both hold `input.lock`, except while a reader sleeps, so the runs interleave the
keys of one interrupt after the other with the loop iterations of the readers. The history indices are
never checked by the code: a byte stored outside `prevCmds` goes to whatever the linked kernel has at
that address, which is the layout of `kernel.sym`. -/

namespace Xv6.Console

open LibWord LibRing Function

def historySize : Nat := 16

def cmdSize : Nat := 100

def inputBuf : Nat := 128

/-- Control-x. -/
def ctrl (x : Char) : UInt8 := UInt8.ofNat (x.toNat - '@'.toNat)

def newline : UInt8 := 10

def carriageReturn : UInt8 := 13

def delete : UInt8 := 0x7f

def keyUp : UInt8 := 226

/-- The CGA text memory, a cell being its character, and the cursor. -/
structure Screen where
  crt : Nat → UInt8
  pos : Nat

namespace Screen

def BACKSPACE : Nat := 0x100

def scroll (t : Screen) : Screen :=
  { crt := fun k =>
      if t.pos - 80 ≤ k ∧ k < 24 * 80 then 0 else if k < 23 * 80 then t.crt (k + 80) else t.crt k
    pos := t.pos - 80 }

/-- The cursor after a character, before the screen is scrolled. -/
def place (c : Nat) (t : Screen) : Screen :=
  if c = 10 then { t with pos := t.pos + (80 - t.pos % 80) }
  else if c = BACKSPACE then { t with pos := if 0 < t.pos then t.pos - 1 else t.pos }
  else { crt := update t.crt t.pos (UInt8.ofNat c), pos := t.pos + 1 }

def cgaputc (c : Nat) (t : Screen) : Screen :=
  let t := place c t
  let t := if 24 ≤ t.pos / 80 then scroll t else t
  { t with crt := update t.crt t.pos 32 }

/-- What `cprintf` does with the bytes of a string. -/
def print (text : List UInt8) (t : Screen) : Screen :=
  text.foldl (fun t c => cgaputc c.toNat t) t

end Screen

inductive Phase where
  | running
  | sleeping
  | woken
  deriving DecidableEq

/-- A call of `consoleread`: its size, what is left of it and the bytes stored at `dst`. -/
structure Reader where
  target : Nat
  n : Nat
  dst : List UInt8
  phase : Phase
  deriving DecidableEq

/-- Who holds `input.lock`. The interrupt handler has its local `ind`. -/
inductive Lock (Proc : Type) where
  | free
  | intr (ind : Nat)
  | read (p : Proc)
  deriving DecidableEq

structure State (Proc : Type) where
  buf : Nat → UInt8
  r : Nat
  w : Nat
  e : Nat
  prevCmds : Nat → UInt8
  indexToDim1 : Int
  indexToDim2 : Int
  currInd1 : Int
  hasInserted : Int
  other : Int → UInt8
  screen : Screen
  lock : Lock Proc
  reader : Proc → Option Reader
  killed : Proc → Bool

/-! Addresses, counted from `prevCmds`. -/

/-- The words of the console's data. -/
inductive Word where
  | indexToDim1
  | indexToDim2
  | hasInserted
  | currInd1
  | r
  | w
  | e
  deriving DecidableEq

/-- From `kernel.sym`: `prevCmds` is at 0x1087c0, `currInd1` at 0x108e00 and `input` at 0x116280, whose
first 52 bytes are the lock. -/
def Word.addr : Word → Int
  | indexToDim1 => -28
  | indexToDim2 => -24
  | hasInserted => -20
  | currInd1 => 1600
  | r => 56180
  | w => 56184
  | e => 56188

def bufAddr : Int := 56052

/-- What is at an address. -/
inductive Cell where
  | cmd (k : Nat)
  | slot (k : Nat)
  | byte (x : Word) (k : Nat)
  | other
  deriving DecidableEq

def cellAt (a : Int) : Cell :=
  if 0 ≤ a ∧ a < 1600 then .cmd a.toNat
  else if bufAddr ≤ a ∧ a < bufAddr + inputBuf then .slot (a - bufAddr).toNat
  else
    match [Word.indexToDim1, .indexToDim2, .hasInserted, .currInd1, .r, .w, .e].find? fun x =>
        decide (x.addr ≤ a ∧ a < x.addr + 4) with
    | some x => .byte x (a - x.addr).toNat
    | none => .other

def byteOf (value : Int) (k : Nat) : UInt8 := UInt8.ofNat (toUint value / 256 ^ k)

def setByte (value : Int) (k : Nat) (c : UInt8) : Int :=
  toInt (toUint value - toUint value / 256 ^ k % 256 * 256 ^ k + c.toNat * 256 ^ k)

variable {Proc : Type}

namespace State

def get (s : State Proc) : Word → Int
  | .indexToDim1 => s.indexToDim1
  | .indexToDim2 => s.indexToDim2
  | .hasInserted => s.hasInserted
  | .currInd1 => s.currInd1
  | .r => s.r
  | .w => s.w
  | .e => s.e

def put (s : State Proc) (value : Int) : Word → State Proc
  | .indexToDim1 => { s with indexToDim1 := value }
  | .indexToDim2 => { s with indexToDim2 := value }
  | .hasInserted => { s with hasInserted := value }
  | .currInd1 => { s with currInd1 := value }
  | .r => { s with r := toUint value }
  | .w => { s with w := toUint value }
  | .e => { s with e := toUint value }

def peek (s : State Proc) (a : Int) : UInt8 :=
  match cellAt a with
  | .cmd k => s.prevCmds k
  | .slot k => s.buf k
  | .byte x k => byteOf (s.get x) k
  | .other => s.other a

def poke (s : State Proc) (a : Int) (c : UInt8) : State Proc :=
  match cellAt a with
  | .cmd k => { s with prevCmds := update s.prevCmds k c }
  | .slot k => { s with buf := update s.buf k c }
  | .byte x k => s.put (setByte (s.get x) k c) x
  | .other => { s with other := update s.other a c }

end State

/-- The address of `prevCmds[i][j]`. -/
def cmdAddr (i j : Int) : Int := cmdSize * i + j

/-- No string is longer than the memory. -/
@[irreducible] def memorySize : Nat := 2 ^ 32

/-- The C string at an address. -/
def textAt (s : State Proc) : Nat → Int → Option (List UInt8)
  | 0, _ => none
  | fuel + 1, a =>
    if s.peek a = 0 then some []
    else (textAt s fuel (a + 1)).map (s.peek a :: ·)

/-! The interrupt handler. -/

/-- `input.e--` and a backspace on the screen. -/
def eraseChar (s : State Proc) : State Proc :=
  { s with e := pred32 s.e, screen := s.screen.cgaputc Screen.BACKSPACE }

/-- The loop of `^U`, at most as often as there are bytes after `input.w`. -/
def eraseWhile : Nat → State Proc → State Proc
  | 0, s => s
  | k + 1, s =>
    if s.e ≠ s.w ∧ s.buf (pred32 s.e % inputBuf) ≠ newline then eraseWhile k (eraseChar s) else s

def eraseLine (s : State Proc) : State Proc := eraseWhile (sub32 s.e s.w) s

/-- `input.buf[input.e++ % INPUT_BUF] = c`. -/
def append (c : UInt8) (s : State Proc) : State Proc :=
  { s with buf := update s.buf (s.e % inputBuf) c, e := (s.e + 1) % uintSize }

/-- The loop of the history keys, from column `ind` of the row on. -/
def copyCmd : Nat → Nat → State Proc → Option (Nat × State Proc)
  | 0, _, _ => none
  | fuel + 1, ind, s =>
    let c := s.peek (cmdAddr s.currInd1 ind)
    if c = 0 then some (ind, s) else copyCmd fuel (ind + 1) (append c s)

/-- The row the next history key shows. -/
def olderCmd (s : State Proc) : Int :=
  if s.currInd1 ≠ 0 then s.currInd1 - 1
  else if s.hasInserted < 16 then s.indexToDim1 - 1
  else 15

/-- The history keys. All three branches print row `currInd1`. -/
def historyKey (ind : Nat) (s : State Proc) : Option (Nat × State Proc) :=
  if s.hasInserted = 0 then some (ind, s)
  else do
    let (ind, s) ← copyCmd memorySize ind (eraseLine s)
    let text ← textAt s memorySize (cmdAddr s.currInd1 0)
    some (ind, { s with screen := s.screen.print text, currInd1 := olderCmd s })

/-- `wakeup(&input.r)`. -/
def wakeup (s : State Proc) : State Proc :=
  { s with reader := fun p => (s.reader p).map fun rd =>
      if rd.phase = .sleeping then { rd with phase := .woken } else rd }

/-- An ordinary key for which there is room, with the carriage return already replaced. -/
def acceptKey (c : UInt8) (s : State Proc) : State Proc :=
  let s := append c s
  let s := { s with screen := s.screen.cgaputc c.toNat }
  if c = newline ∨ c = ctrl 'D' ∨ s.e = (s.r + inputBuf) % uintSize then
    wakeup { s with w := s.e }
  else s

def plainKey (c : UInt8) (s : State Proc) : State Proc :=
  if c ≠ 0 ∧ sub32 s.e s.r < inputBuf then
    acceptKey (if c = carriageReturn then newline else c) s
  else s

def isHistoryKey (c : UInt8) : Bool := c = ctrl 'I' ∨ c = keyUp

/-- One turn of the loop of `consoleintr`; `listing` is what `procdump` would print. -/
def handleKey (ind : Nat) (c : UInt8) (listing : List UInt8) (s : State Proc) :
    Option (Nat × State Proc) :=
  if c = ctrl 'P' then some (ind, { s with screen := s.screen.print listing })
  else if c = ctrl 'U' then some (ind, eraseLine s)
  else if c = ctrl 'H' ∨ c = delete then some (ind, if s.e ≠ s.w then eraseChar s else s)
  else if isHistoryKey c then historyKey ind s
  else some (ind, plainKey c s)

/-! The readers. -/

/-- What happens in a step, as far as the readers are concerned: a byte is taken from the ring for
good, a byte is stored at a reader's `dst`, a call returns its bytes or -1. -/
inductive Event (Proc : Type) where
  | taken (c : UInt8)
  | stored (p : Proc) (c : UInt8)
  | returned (p : Proc) (value : Option (List UInt8))
  deriving DecidableEq

/-- The row `consoleread` stores `c` in. -/
def cmdRow (s : State Proc) (c : UInt8) : Int :=
  if (c ≠ ctrl 'D' ∧ c ≠ newline) ∧ historySize ≤ s.indexToDim1 then 0 else s.indexToDim1

/-- The history part of `consoleread`. -/
def record (c : UInt8) (s : State Proc) : State Proc :=
  if c ≠ ctrl 'D' ∧ c ≠ newline then
    let s := if historySize ≤ s.indexToDim1 then { s with indexToDim1 := 0 } else s
    let s := s.poke (cmdAddr s.indexToDim1 s.indexToDim2) c
    { s with indexToDim2 := incr32 s.indexToDim2 }
  else
    let s := s.poke (cmdAddr s.indexToDim1 s.indexToDim2) 0
    { s with
      indexToDim2 := 0, currInd1 := s.indexToDim1, indexToDim1 := incr32 s.indexToDim1
      hasInserted := incr32 s.hasInserted }

variable [DecidableEq Proc]

def setReader (p : Proc) (rd : Option Reader) (s : State Proc) : State Proc :=
  { s with reader := update s.reader p rd }

/-- `release(&input.lock)` and the return of the call. -/
def finish (p : Proc) (s : State Proc) : State Proc := { setReader p none s with lock := .free }

/-- One turn of the loop of `consoleread`, or its end. -/
def readStep (p : Proc) (rd : Reader) (s : State Proc) : State Proc × List (Event Proc) :=
  if rd.n = 0 then (finish p s, [.returned p (some rd.dst)])
  else if s.r = s.w then
    if s.killed p then (finish p s, [.returned p none])
    else ({ setReader p (some { rd with phase := .sleeping }) s with lock := .free }, [])
  else
    let c := s.buf (s.r % inputBuf)
    let s := record c { s with r := (s.r + 1) % uintSize }
    if c = ctrl 'D' then
      if rd.n < rd.target then
        (finish p { s with r := pred32 s.r }, [.returned p (some rd.dst)])
      else (finish p s, [.taken c, .returned p (some rd.dst)])
    else
      let rd := { rd with n := rd.n - 1, dst := rd.dst ++ [c] }
      if c = newline then (finish p s, [.taken c, .stored p c, .returned p (some rd.dst)])
      else (setReader p (some rd) s, [.taken c, .stored p c])

/-- The steps: an interrupt begins, a key of it is handled, it ends; a process calls `consoleread`, the
reader that holds the lock goes on, a woken reader gets the lock again; a process is killed. -/
inductive Act (Proc : Type) where
  | enter
  | key (c : UInt8) (listing : List UInt8)
  | leave
  | read (p : Proc) (n : Int)
  | go
  | wake (p : Proc)
  | kill (p : Proc)

def step (s : State Proc) : Act Proc → Option (State Proc × List (Event Proc))
  | .enter => if s.lock = .free then some ({ s with lock := .intr 0 }, []) else none
  | .key c listing =>
    match s.lock with
    | .intr ind => (handleKey ind c listing s).map fun x => ({ x.2 with lock := .intr x.1 }, [])
    | _ => none
  | .leave =>
    match s.lock with
    | .intr _ => some ({ s with lock := .free }, [])
    | _ => none
  | .read p n =>
    if s.lock = .free ∧ s.reader p = none then
      some ({ setReader p (some ⟨n.toNat, n.toNat, [], .running⟩) s with lock := .read p }, [])
    else none
  | .go =>
    match s.lock with
    | .read p =>
      match s.reader p with
      | some rd => some (readStep p rd s)
      | none => none
    | _ => none
  | .wake p =>
    match s.reader p with
    | some rd =>
      if s.lock = .free ∧ rd.phase = .woken then
        some ({ setReader p (some { rd with phase := .running }) s with lock := .read p }, [])
      else none
    | none => none
  | .kill p =>
    some ({ s with
      killed := update s.killed p true
      reader := update s.reader p ((s.reader p).map fun rd =>
        if rd.phase = .sleeping then { rd with phase := .woken } else rd) }, [])

/-- The static data as loaded: all zero. The cursor is where the BIOS left it, above the last line
of the screen. -/
structure Booted (s : State Proc) : Prop where
  ring : s.r = 0 ∧ s.w = 0 ∧ s.e = 0
  cmds : ∀ k, s.prevCmds k = 0
  rows : s.indexToDim1 = 0 ∧ s.indexToDim2 = 0 ∧ s.currInd1 = 0 ∧ s.hasInserted = 0
  cursor : s.screen.pos < 24 * 80
  idle : s.lock = .free ∧ ∀ p, s.reader p = none

/-- The states of the runs whose steps all meet the guard. -/
def Reaches (guard : State Proc → Act Proc → Prop) : State Proc → Prop :=
  LibRun.Reachable Booted fun s t => ∃ a events, guard s a ∧ step s a = some (t, events)

/-- The states of such runs with what an observer notes of the steps. -/
def Observed {Note : Type} (guard : State Proc → Act Proc → Prop)
    (observe : Note → State Proc → Act Proc → List (Event Proc) → Note) (start : Note) :
    State Proc × Note → Prop :=
  LibRun.Reachable (fun x => Booted x.1 ∧ x.2 = start) fun x y =>
    ∃ a events, guard x.1 a ∧ step x.1 a = some (y.1, events) ∧ y.2 = observe x.2 x.1 a events

section Runs

variable {Note : Type} {guard : State Proc → Act Proc → Prop}
  {observe : Note → State Proc → Act Proc → List (Event Proc) → Note} {start : Note}

theorem Observed.boot {s : State Proc} (h : Booted s) : Observed guard observe start (s, start) :=
  .start ⟨h, rfl⟩

/-- What holds at boot and is kept by every step that meets the guard. -/
theorem Observed.invariant {I : State Proc → Note → Prop} (hstart : ∀ s, Booted s → I s start)
    (hstep : ∀ s note a t events, I s note → guard s a → step s a = some (t, events) →
      I t (observe note s a events)) {s : State Proc} {note : Note}
    (h : Observed guard observe start (s, note)) : I s note := by
  apply LibRun.Reachable.invariant (P := fun x => I x.1 x.2) _ _ h
  · rintro ⟨s, note⟩ ⟨hboot, hnote⟩
    exact hnote ▸ hstart s hboot
  · rintro ⟨s, note⟩ ⟨t, note'⟩ - hI ⟨a, events, hguard, hst, hnote⟩
    exact hnote ▸ hstep s note a t events hI hguard hst

theorem Observed.reaches {s : State Proc} {note : Note}
    (h : Observed guard observe start (s, note)) : Reaches guard s := by
  apply LibRun.Reachable.invariant (P := fun x => Reaches guard x.1) _ _ h
  · exact fun _ hx => .start hx.1
  · rintro x y - hx ⟨a, events, hguard, hst, -⟩
    exact .next hx ⟨a, events, hguard, hst⟩

/-- A state and a note after a list of steps that meet the guard. -/
def runs (guard : State Proc → Act Proc → Prop) [∀ s a, Decidable (guard s a)]
    (observe : Note → State Proc → Act Proc → List (Event Proc) → Note) (s : State Proc) (note : Note) :
    List (Act Proc) → Option (State Proc × Note)
  | [] => some (s, note)
  | a :: rest =>
    if guard s a then
      (step s a).bind fun x => runs guard observe x.1 (observe note s a x.2) rest
    else none

theorem Observed.runs [∀ s a, Decidable (guard s a)] {s t : State Proc} {note note' : Note}
    {acts : List (Act Proc)} (h : Observed guard observe start (s, note))
    (hruns : runs guard observe s note acts = some (t, note')) :
    Observed guard observe start (t, note') := by
  induction acts generalizing s note with
  | nil =>
    cases hruns
    exact h
  | cons a rest ih =>
    rw [Console.runs] at hruns
    split_ifs at hruns with hguard
    obtain ⟨⟨u, events⟩, hst, hrest⟩ := Option.bind_eq_some_iff.mp hruns
    exact ih (.next h ⟨a, events, hguard, hst, rfl⟩) hrest

end Runs

/-- A machine with one process, as loaded. -/
def bootState : State Unit :=
  { buf := fun _ => 0, r := 0, w := 0, e := 0, prevCmds := fun _ => 0
    indexToDim1 := 0, indexToDim2 := 0, currInd1 := 0, hasInserted := 0, other := fun _ => 0
    screen := ⟨fun _ => 0, 0⟩, lock := .free, reader := fun _ => none, killed := fun _ => false }

theorem booted_bootState : Booted bootState :=
  ⟨⟨rfl, rfl, rfl⟩, fun _ => rfl, ⟨rfl, rfl, rfl, rfl⟩, by decide, rfl, fun _ => rfl⟩

/-- One interrupt with some keys. -/
def typing (keys : List UInt8) : List (Act Unit) :=
  .enter :: keys.map (fun c => .key c []) ++ [.leave]

/-- A call of `consoleread` and some turns of its loop. -/
def reading (n : Int) (turns : Nat) : List (Act Unit) := .read () n :: List.replicate turns .go

/-- The committed bytes no reader has taken yet. -/
def unread (s : State Proc) : List UInt8 := window inputBuf s.buf s.r (sub32 s.w s.r)

/-- The bytes typed but not committed. -/
def pending (s : State Proc) : List UInt8 := window inputBuf s.buf s.w (sub32 s.e s.w)

/-- The byte the reader holding the lock is about to take. -/
def nextByte (s : State Proc) : Option UInt8 :=
  match s.lock with
  | .read p =>
    match s.reader p with
    | some rd => if rd.n = 0 ∨ s.r = s.w then none else some (s.buf (s.r % inputBuf))
    | none => none
  | _ => none

/-- The address `consoleread` stores a byte of the history at. -/
def recordAddr (s : State Proc) (c : UInt8) : Int := cmdAddr (cmdRow s c) s.indexToDim2

/-- The reader's next store goes into `prevCmds`. -/
def StoresInside (s : State Proc) : Prop :=
  ∀ c ∈ nextByte s, 0 ≤ recordAddr s c ∧ recordAddr s c < historySize * cmdSize

end Xv6.Console
