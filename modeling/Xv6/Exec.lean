import Xv6.Vm

/-! `exec`, exec.c, with `loaduvm` and `uva2ka` of vm.c and `sys_exec`. The program is read from the inode that the
path names; the inode is given by its entry in the inode cache and by what reading it yields. The argument strings
are those in the memory of the caller. -/

namespace Xv6.Exec

open LibWord Fs Vm

/-- What reading an inode yields: the bytes of a file or a directory, or what the driver of a device gives to each
read. -/
inductive File where
  | disk (bytes : List UInt8)
  | device (reads : List (Option (List UInt8)))

/-- The inode that the path names. -/
structure Inode where
  ref : Nat
  busy : Bool
  nlink : Nat
  file : File

/-- A store of `loaduvm`: the page it goes to, with the page directory and the memory before it. -/
structure Store where
  pgdir : Nat
  page : Nat
  mem : Mem

/-- The state. `found` tells whether the path names an inode; `refs` counts the references to it and `locked` tells
whether the lock that this call of `exec` holds; `foul` is set when it gives up one that it does not hold. The
stores of `loaduvm` are recorded. -/
structure World where
  mem : Mem
  found : Bool
  ip : Inode
  refs : Nat
  locked : Bool
  foul : Bool
  stores : List Store

abbrev Code := StateT World (Except Stop)

def panic {α : Type} (message : String) : Code α := throw (.panic message)

/-- A function of vm.c. -/
def vm {α : Type} (x : Vm.Code α) : Code α := fun w =>
  match x w.mem with
  | .ok (a, m) => .ok (a, { w with mem := m })
  | .error stop => .error stop

/-! fs.c -/

/-- `namei`, which tells whether there is an inode; it then holds a reference to it. -/
def namei : Code Bool := do
  let w ← get
  if w.found then do
    set { w with ip := { w.ip with ref := w.ip.ref + 1 }, refs := w.refs + 1 }
    pure true
  else pure false

/-- `ilock`. Without other processes nobody unlocks the inode for which it would wait. -/
def ilock : Code Unit := do
  let w ← get
  if w.ip.ref < 1 then panic "ilock"
  else if w.ip.busy then throw .endless
  else set { w with ip := { w.ip with busy := true }, locked := true }

def iunlock : Code Unit := do
  let w ← get
  if w.ip.busy = false ∨ w.ip.ref < 1 then panic "iunlock"
  else set { w with ip := { w.ip with busy := false }, locked := false, foul := w.foul || !w.locked }

/-- A reference is given up. -/
def World.drop (w : World) (ip : Inode) : World :=
  { w with ip := ip, refs := w.refs - 1, foul := w.foul || w.refs == 0 }

/-- `iput`. The inode is valid, since it has been locked. -/
def iput : Code Unit := do
  let w ← get
  if w.ip.ref = 1 ∧ w.ip.nlink = 0 then
    if w.ip.busy then panic "iput busy"
    else set (w.drop { w.ip with ref := 0, file := .disk [] })
  else set (w.drop { w.ip with ref := w.ip.ref - 1 })

def iunlockput : Code Unit := do
  iunlock
  iput

/-- `readi`: the bytes it copies, or -1 (`none`). The driver of a device unlocks the inode while it waits; a device
without a driver has no reads. -/
def readi (off n : Nat) : Code (Option (List UInt8)) := do
  let w ← get
  match w.ip.file with
  | .disk bytes =>
    if bytes.length < off ∨ (off + n) % uintSize < off then pure none
    else pure (some ((bytes.drop off).take n))
  | .device [] => pure none
  | .device (r :: reads) => do
    iunlock
    ilock
    modify fun w => { w with ip := { w.ip with file := .device reads } }
    pure (r.map (·.take n))

/-! vm.c -/

/-- The bytes read go to the beginning of a page. -/
def storePage (pgdir page : Nat) (bytes : List UInt8) : Code Unit :=
  modify fun w =>
    if bytes = [] then w
    else { w with
      mem := w.mem.setPage page ((w.mem.page page).write 0 bytes.length (bytes.getD · 0)),
      stores := ⟨pgdir, page, w.mem⟩ :: w.stores }

/-- `readi` into a page, which tells whether it gave all `n` bytes. -/
def loadPage (pgdir page offset n : Nat) : Code Bool := do
  match ← readi offset n with
  | none => pure false
  | some bytes => do
    storePage pgdir page bytes
    pure (bytes.length == n)

def loadLoop (pgdir addr offset sz : Nat) : Nat → Nat → Code Bool
  | 0, _ => throw .endless
  | k + 1, i =>
    if i < sz then do
      match ← vm (walkpgdir pgdir ((addr + i) % uintSize) false) with
      | none => panic "loaduvm: address should exist\n"
      | some pte => do
        let pa ← vm (load pte)
        if ← loadPage pgdir (pa / pgsize) ((offset + i) % uintSize)
            (if sz - i < pgsize then sz - i else pgsize) then
          loadLoop pgdir addr offset sz k ((i + pgsize) % uintSize)
        else pure false
    else pure true

def loaduvm (pgdir addr offset sz : Nat) : Code Bool :=
  if addr % pgsize ≠ 0 then panic "loaduvm: addr must be page aligned\n"
  else loadLoop pgdir addr offset sz maxTurns 0

/-- `uva2ka`, of a page; 0 if there is no entry. -/
def uva2ka (pgdir uva : Nat) : Code Nat := do
  match ← vm (walkpgdir pgdir uva false) with
  | none => pure 0
  | some pte => do
    let pa ← vm (load pte)
    pure (pa / pgsize)

/-! exec.c -/

/-- The size of `struct elfhdr`. -/
def elfhdrSize : Nat := 52

/-- The size of `struct proghdr`. -/
def proghdrSize : Nat := 32

def elfMagic : Nat := 0x464C457F

def elfProgLoad : Nat := 1

/-- The fields of `struct elfhdr` that `exec` uses. -/
structure Elfhdr where
  magic : Nat
  entry : Nat
  phoff : Nat
  phnum : Nat

def Elfhdr.ofBlock (b : Block) : Elfhdr where
  magic := b.word 0
  entry := b.word 6
  phoff := b.word 7
  phnum := (b 44).toNat + 2 ^ 8 * (b 45).toNat

/-- The fields of `struct proghdr` that `exec` uses. -/
structure Proghdr where
  type : Nat
  offset : Nat
  va : Nat
  filesz : Nat
  memsz : Nat

def Proghdr.ofBlock (b : Block) : Proghdr where
  type := b.word 0
  offset := b.word 1
  va := b.word 2
  filesz := b.word 4
  memsz := b.word 5

/-- The header is read into a local variable, which is left as it was when `readi` fails: -1 is not less than
`sizeof(elf)`, which is unsigned. -/
def readElfhdr (garbage : Block) : Code (Option Elfhdr) := do
  match ← readi 0 elfhdrSize with
  | none => pure (some (.ofBlock garbage))
  | some bytes => pure (if bytes.length < elfhdrSize then none else some (.ofBlock (ofBytes bytes)))

def readProghdr (off : Nat) : Code (Option Proghdr) := do
  match ← readi off proghdrSize with
  | none => pure none
  | some bytes => pure (if bytes.length ≠ proghdrSize then none else some (.ofBlock (ofBytes bytes)))

/-- A turn of the loop over the program headers, once the header has been read; it gives the new size, unless `exec`
goes to `bad`. -/
def loadSegment (pgdir : Nat) (ph : Proghdr) (sz : Nat) : Code (Option Nat) :=
  if ph.type ≠ elfProgLoad then pure (some sz)
  else if ph.memsz < ph.filesz then pure none
  else do
    let sz ← vm (allocuvm pgdir sz ((ph.va + ph.memsz) % uintSize))
    if sz = 0 then pure none
    else do
      let ok ← loaduvm pgdir ph.va ph.offset ph.filesz
      pure (if ok then some sz else none)

def loadSegments (pgdir : Nat) : Nat → Nat → Nat → Code (Option Nat)
  | 0, _, sz => pure (some sz)
  | k + 1, off, sz => do
    match ← readProghdr off with
    | none => pure none
    | some ph => do
      match ← loadSegment pgdir ph sz with
      | none => pure none
      | some sz => loadSegments pgdir k ((off + proghdrSize) % uintSize) sz

/-- A string, without the zero byte at its end. -/
abbrev Str := List UInt8

/-- A store to the stack page by its address in the kernel. -/
structure Poke where
  addr : Nat
  bytes : List UInt8

/-- The bytes of a `uint`. -/
def wordBytes (a : Nat) : List UInt8 := [byteOf a 0, byteOf a 1, byteOf a 2, byteOf a 3]

/-- The sum of the lengths of the strings with their zero bytes. -/
def argBytes (argv : List Str) : Nat := (argv.map fun s => s.length + 1).sum

/-- `arglen`, rounded up to words. -/
def arglen (argv : List Str) : Nat := (argBytes argv + 3) / 4 * 4

/-- The address in the kernel of user address `va` of the stack page. -/
def kaddr (mem spbottom va : Nat) : Nat := sub32 ((mem * pgsize + va) % uintSize) spbottom

/-- The loop that copies the strings, from the last to the first. -/
def stringPokes (mem spbottom argp : Nat) : List Str → Nat → List Poke
  | [], _ => []
  | s :: rest, sp =>
    ⟨kaddr mem spbottom (sub32 sp (s.length + 1)), s ++ [0]⟩ ::
      ⟨(kaddr mem spbottom argp + 4 * rest.length) % uintSize, wordBytes (sub32 sp (s.length + 1))⟩ ::
      stringPokes mem spbottom argp rest (sub32 sp (s.length + 1))

/-- `argp`: where the array of pointers goes. -/
def argpOf (sz : Nat) (argv : List Str) : Nat := sub32 (sub32 sz (arglen argv)) (4 * (argv.length + 1))

/-- The stores that build the stack, in their order. -/
def stackPokes (mem spbottom sz : Nat) (argv : List Str) : List Poke :=
  let argp := argpOf sz argv
  ⟨(kaddr mem spbottom argp + 4 * argv.length) % uintSize, wordBytes 0⟩ ::
    stringPokes mem spbottom argp argv.reverse sz ++
    [⟨kaddr mem spbottom (sub32 argp 4), wordBytes argp⟩,
      ⟨kaddr mem spbottom (sub32 (sub32 argp 4) 4), wordBytes argv.length⟩,
      ⟨kaddr mem spbottom (sub32 (sub32 (sub32 argp 4) 4) 4), wordBytes 0xffffffff⟩]

/-- Bytes are stored one after the other. -/
def pokeBytes (m : Mem) (addr : Nat) : List UInt8 → Mem
  | [] => m
  | c :: rest =>
    pokeBytes (m.setPage (addr / pgsize) (Function.update (m.page (addr / pgsize)) (addr % pgsize) c))
      ((addr + 1) % uintSize) rest

def pokeAll (m : Mem) (pokes : List Poke) : Mem := pokes.foldl (fun m s => pokeBytes m s.addr s.bytes) m

/-- The name of the program: what follows the last slash of the path, cut by `safestrcpy` to 15 bytes. -/
def programName (path : Str) : Str := ((path.reverse.takeWhile (· ≠ slash)).reverse).take 15

/-- The fields of `struct proc` and of its trap frame that `exec` sets. -/
structure Process where
  vm : Vm.Proc
  name : Str
  eip : Nat
  esp : Nat

/-- The label `bad`. -/
def bad (pgdir : Option Nat) (p : Process) : Code (Int × Process) := do
  match pgdir with
  | none => pure ()
  | some d => Exec.vm (freevm d)
  iunlockput
  pure (-1, p)

/-- `exec` from the allocation of the stack on. -/
def finish (path : Str) (argv : List Str) (p : Process) (elf : Elfhdr) (pgdir size : Nat) :
    Code (Int × Process) := do
  let spbottom := pgroundup size
  let sz ← vm (allocuvm pgdir spbottom ((spbottom + pgsize) % uintSize))
  if sz = 0 then bad (some pgdir) p
  else do
    let mem ← uva2ka pgdir spbottom
    modify fun w => { w with mem := pokeAll w.mem (stackPokes mem spbottom sz argv) }
    vm (freevm p.vm.pgdir)
    pure (0, ⟨⟨pgdir, sz⟩, programName path, elf.entry, sub32 (sub32 (sub32 (argpOf sz argv) 4) 4) 4⟩)

/-- How the part of `exec` ends that reads the program: it goes to `bad`, with or without a page directory, or it
has the header, the page directory and the size. -/
inductive Loaded where
  | bad (pgdir : Option Nat)
  | done (elf : Elfhdr) (pgdir size : Nat)

/-- `exec` from the test of the header to the end of the loop over the program headers. -/
def loadElf (elf : Elfhdr) : Code Loaded :=
  if elf.magic ≠ elfMagic then pure (.bad none)
  else do
    match ← vm setupkvm with
    | none => pure (.bad none)
    | some pgdir => do
      match ← loadSegments pgdir elf.phnum elf.phoff 0 with
      | none => pure (.bad (some pgdir))
      | some size => pure (.done elf pgdir size)

/-- `exec` up to the end of the loop, with what the local variable `elf` holds before it is read. -/
def loadProgram (garbage : Block) : Code Loaded := do
  match ← readElfhdr garbage with
  | none => pure (.bad none)
  | some elf => loadElf elf

/-- `exec` once the program has been read. -/
def afterLoad (path : Str) (argv : List Str) (p : Process) : Loaded → Code (Int × Process)
  | .bad pgdir => bad pgdir p
  | .done elf pgdir size => do
    iunlockput
    finish path argv p elf pgdir size

def exec (path : Str) (argv : List Str) (garbage : Block) (p : Process) : Code (Int × Process) := do
  if ← namei then do
    ilock
    let loaded ← loadProgram garbage
    afterLoad path argv p loaded
  else pure (-1, p)

/-! sysfile.c -/

/-- The loop of `fetchstr`, over at most `k` bytes. -/
def fetchFrom (u : UserMem) : Nat → Nat → Option Str
  | 0, _ => none
  | k + 1, s => if u.byte s = 0 then some [] else (fetchFrom u k (s + 1)).map (u.byte s :: ·)

def fetchstr (u : UserMem) (addr : Nat) : Option Str :=
  if u.sz ≤ addr then none else fetchFrom u (u.sz - addr) addr

def argstr (u : UserMem) (n : Nat) : Option Str := (argint u n).bind (fetchstr u)

/-- The loop of `sys_exec`, for the last `k` entries of `argv[20]`. -/
def fetchArgv (u : UserMem) (uargv : Nat) : Nat → Nat → Option (List Str)
  | 0, _ => none
  | k + 1, i =>
    (fetchint u ((uargv + 4 * i) % uintSize)).bind fun uarg =>
      if uarg = 0 then some []
      else (fetchstr u uarg).bind fun s => (fetchArgv u uargv k (i + 1)).map (s :: ·)

/-- The path and the argument vector that `sys_exec` passes on. -/
def execArgs (u : UserMem) : Option (Str × List Str) :=
  (argstr u 0).bind fun path => (argint u 1).bind fun uargv =>
    (fetchArgv u uargv 20 0).map fun argv => (path, argv)

def sysExec (u : UserMem) (garbage : Block) (p : Process) : Code (Int × Process) :=
  match execArgs u with
  | none => pure (-1, p)
  | some (path, argv) => exec path argv garbage p

end Xv6.Exec
