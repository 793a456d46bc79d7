import Xv6.FsBlocks
import Xv6.SyscallArgs

/-! Virtual memory, vm.c, over the allocator of kalloc.c. Physical memory is a sequence of pages of bytes, page
directories and page tables among them; a pointer to a page is given by the number of the page, and a
pointer to an entry of a table by page and index. The free list is a list of pages. A function that
panics stops, and so does one whose loop never ends. -/

namespace Xv6.Vm

open LibWord Fs

def pgsize : Nat := 4096

/-- `PHYSTOP`. -/
def phystop : Nat := 0x1000000

/-- `PGROUNDUP`, of a `uint`. -/
def pgroundup (a : Nat) : Nat := (a + pgsize - 1) % uintSize / pgsize * pgsize

def pgrounddown (a : Nat) : Nat := a / pgsize * pgsize

def pdx (va : Nat) : Nat := va / 2 ^ 22 % 1024

def ptx (va : Nat) : Nat := va / 2 ^ 12 % 1024

def PTE_P : Nat := 1

def PTE_W : Nat := 2

def PTE_U : Nat := 4

/-- `entry & PTE_P` -/
def present (entry : Nat) : Prop := entry % 2 = 1

instance (entry : Nat) : Decidable (present entry) := inferInstanceAs (Decidable (_ = _))

structure Mem where
  page : Nat → Block
  free : List Nat

inductive Stop where
  | panic (message : String)
  | endless
  deriving DecidableEq

abbrev Code := StateT Mem (Except Stop)

def panic {α : Type} (message : String) : Code α := throw (.panic message)

/-- A pointer to an entry of a page directory or page table. -/
structure Pte where
  page : Nat
  index : Nat
  deriving DecidableEq

def Mem.word (m : Mem) (x : Pte) : Nat := (m.page x.page).word x.index

def Mem.setWord (m : Mem) (x : Pte) (word : Nat) : Mem :=
  { m with page := Function.update m.page x.page ((m.page x.page).setWord x.index word) }

def Mem.setPage (m : Mem) (page : Nat) (data : Block) : Mem :=
  { m with page := Function.update m.page page data }

def load (x : Pte) : Code Nat := do return (← get).word x

def store (x : Pte) (word : Nat) : Code Unit := modify fun m => m.setWord x word

/-- `memset` or `memmove` of a whole page. -/
def fill (page : Nat) (data : Block) : Code Unit := modify fun m => m.setPage page data

/-! kalloc.c -/

def kfree (v : Nat) : Code Unit :=
  if v * pgsize < 1024 * 1024 ∨ v * pgsize ≥ phystop then panic "kfree"
  else modify fun m => { m.setPage v (fun _ => 1) with free := v :: m.free }

/-- The first page of the free list. -/
def Mem.kalloc (m : Mem) : Option Nat × Mem :=
  match m.free with
  | [] => (none, m)
  | r :: rest => (some r, { m with free := rest })

def kalloc : Code (Option Nat) := modifyGet Mem.kalloc

/-! vm.c -/

def walkpgdir (pgdir va : Nat) (create : Bool) : Code (Option Pte) := do
  let pde ← load ⟨pgdir, pdx va⟩
  if present pde then pure (some ⟨pde / pgsize, ptx va⟩)
  else if create = false then pure none
  else do
    match ← kalloc with
    | none => pure none
    | some r => do
      fill r Block.zero
      store ⟨pgdir, pdx va⟩ (r * pgsize ||| PTE_P ||| PTE_W ||| PTE_U)
      pure (some ⟨r, ptx va⟩)

/-- More turns than there are pages in the address space. -/
def maxTurns : Nat := 2 ^ 20 + 1

/-- The loop of `mappages`. -/
def mapLoop (pgdir last perm : Nat) : Nat → Nat → Nat → Code Bool
  | 0, _, _ => throw .endless
  | k + 1, a, pa => do
    match ← walkpgdir pgdir a true with
    | none => pure false
    | some pte => do
      if present (← load pte) then panic "remap"
      else do
        store pte (pa ||| perm ||| PTE_P)
        if a = last then pure true
        else mapLoop pgdir last perm k ((a + pgsize) % uintSize) ((pa + pgsize) % uintSize)

def mappages (pgdir la size pa perm : Nat) : Code Bool :=
  mapLoop pgdir (pgrounddown ((la + size + uintSize - 1) % uintSize)) perm maxTurns (pgrounddown la) pa

def setupkvm : Code (Option Nat) := do
  match ← kalloc with
  | none => pure none
  | some pgdir => do
    fill pgdir Block.zero
    if ← mappages pgdir userTop 0x60000 userTop PTE_W then
      if ← mappages pgdir 0x100000 (phystop - 0x100000) 0x100000 PTE_W then
        if ← mappages pgdir 0xFE000000 0x2000000 0xFE000000 PTE_W then pure (some pgdir)
        else pure none
      else pure none
    else pure none

/-- A turn of the loop of `deallocuvm`. -/
def deallocPage (pgdir a : Nat) : Code Unit := do
  match ← walkpgdir pgdir a false with
  | none => pure ()
  | some pte => do
    let entry ← load pte
    if present entry then
      if entry / pgsize = 0 then panic "kfree"
      else do
        kfree (entry / pgsize)
        store pte 0
    else pure ()

def deallocLoop (pgdir last : Nat) : Nat → Nat → Code Unit
  | 0, _ => throw .endless
  | k + 1, a =>
    if a ≤ last then do
      deallocPage pgdir a
      deallocLoop pgdir last k ((a + pgsize) % uintSize)
    else pure ()

def deallocuvm (pgdir oldsz newsz : Nat) : Code Nat := do
  deallocLoop pgdir (pgrounddown ((oldsz + uintSize - 1) % uintSize)) maxTurns (pgroundup newsz)
  pure (if newsz < oldsz then newsz else oldsz)

def allocLoop (pgdir oldsz newsz last : Nat) : Nat → Nat → Code Nat
  | 0, _ => throw .endless
  | k + 1, a =>
    if a ≤ last then do
      match ← kalloc with
      | none => do
        let _ ← deallocuvm pgdir newsz oldsz
        pure 0
      | some mem => do
        fill mem Block.zero
        let _ ← mappages pgdir a pgsize (mem * pgsize) (PTE_W ||| PTE_U)
        allocLoop pgdir oldsz newsz last k ((a + pgsize) % uintSize)
    else pure (if newsz > oldsz then newsz else oldsz)

def allocuvm (pgdir oldsz newsz : Nat) : Code Nat :=
  if newsz > userTop then pure 0
  else
    allocLoop pgdir oldsz newsz (pgrounddown ((newsz + uintSize - 1) % uintSize)) maxTurns
      (pgroundup oldsz)

/-- The loop of `freevm`, for the last `k` entries. -/
def freeTables (pgdir : Nat) : Nat → Code Unit
  | 0 => pure ()
  | k + 1 => do
    let pde ← load ⟨pgdir, 1024 - (k + 1)⟩
    if present pde then do
      kfree (pde / pgsize)
      freeTables pgdir k
    else freeTables pgdir k

def freevm (pgdir : Nat) : Code Unit := do
  let _ ← deallocuvm pgdir userTop 0
  freeTables pgdir 1024
  kfree pgdir

/-- The loop of `copyuvm`; it tells whether all pages were copied. -/
def copyLoop (pgdir d sz : Nat) : Nat → Nat → Code Bool
  | 0, _ => throw .endless
  | k + 1, i =>
    if i < sz then do
      match ← walkpgdir pgdir i false with
      | none => panic "copyuvm: pte should exist\n"
      | some pte => do
        let entry ← load pte
        if present entry then do
          match ← kalloc with
          | none => pure false
          | some mem => do
            fill mem ((← get).page (entry / pgsize))
            if ← mappages d i pgsize (mem * pgsize) (PTE_W ||| PTE_U) then
              copyLoop pgdir d sz k ((i + pgsize) % uintSize)
            else pure false
        else panic "copyuvm: page not present\n"
    else pure true

def copyuvm (pgdir sz : Nat) : Code (Option Nat) := do
  match ← setupkvm with
  | none => pure none
  | some d => do
    if ← copyLoop pgdir d sz maxTurns 0 then pure (some d)
    else do
      freevm d
      pure none

/-! Growing and shrinking a process. -/

/-- The fields of `struct proc` about its memory. -/
structure Proc where
  pgdir : Nat
  sz : Nat
  deriving DecidableEq

/-- `growproc`, which gives the process if it succeeds. -/
def growproc (n : Int) (p : Proc) : Code (Option Proc) :=
  if n > 0 then do
    let sz ← allocuvm p.pgdir p.sz (toUint (p.sz + n))
    pure (if sz = 0 then none else some { p with sz := sz })
  else if n < 0 then do
    let sz ← deallocuvm p.pgdir p.sz (toUint (p.sz + n))
    pure (if sz = 0 then none else some { p with sz := sz })
  else pure (some p)

/-- `sys_sbrk` with its argument: what it returns, and the process. -/
def sysSbrk (n : Int) (p : Proc) : Code (Int × Proc) := do
  match ← growproc n p with
  | none => pure (-1, p)
  | some q => pure (toInt p.sz, q)

end Xv6.Vm
