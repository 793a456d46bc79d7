import Xv6.LibBlocks
import Xv6.LibPath
import Xv6.LibRun

/-! The user heap, umalloc.c. A header is eight bytes, the pointer to the next free block and the size in
headers. The headers are kept by address; the break is moved by an oracle, which is told the regions it has
given out before. -/

namespace Xv6.Umalloc

open LibBlocks Function

def headerSize : Nat := 8

def uintSize : Nat := 2 ^ 32

/-- `p + n` for a `Header *p`. -/
def addUnits (p n : Nat) : Nat := (p + headerSize * n) % uintSize

structure Heap where
  freep : Nat
  ptr : Nat → Nat
  size : Nat → Nat

/-- The loop of `free`. -/
def findPlace (ptr : Nat → Nat) (bp : Nat) : Nat → Nat → Option Nat
  | 0, _ => none
  | fuel + 1, p =>
    if bp > p ∧ bp < ptr p then some p
    else if p ≥ ptr p ∧ (bp > p ∨ bp < ptr p) then some p
    else findPlace ptr bp fuel (ptr p)

/-- Joining the block with the one behind the place found. -/
def joinNext (bp next : Nat) (h : Heap) : Heap :=
  if addUnits bp (h.size bp) = next then
    { h with
      size := update h.size bp ((h.size bp + h.size next) % uintSize)
      ptr := update h.ptr bp (h.ptr next) }
  else { h with ptr := update h.ptr bp next }

/-- Joining the place found with the block. -/
def joinPrev (p bp : Nat) (h : Heap) : Heap :=
  if addUnits p (h.size p) = bp then
    { h with
      size := update h.size p ((h.size p + h.size bp) % uintSize)
      ptr := update h.ptr p (h.ptr bp) }
  else { h with ptr := update h.ptr p bp }

def free (fuel ap : Nat) (h : Heap) : Option Heap :=
  let bp := ap - headerSize
  (findPlace h.ptr bp fuel h.freep).map fun p =>
    { joinPrev p bp (joinNext bp (h.ptr p) h) with freep := p }

/-- The heap and the regions obtained for it. -/
structure Arena where
  heap : Heap
  regions : List Block

/-- `sbrk(n)`: -1, or the old break. -/
abbrev Sbrk := List Block → Nat → Option Nat

def morecore (fuel : Nat) (sbrk : Sbrk) (nu : Nat) (s : Arena) : Option (Option Nat × Arena) :=
  let nu := if nu < 4096 then 4096 else nu
  match sbrk s.regions (nu * headerSize % uintSize) with
  | none => some (none, s)
  | some hp =>
    (free fuel (hp + headerSize) { s.heap with size := update s.heap.size hp nu }).map fun h =>
      (some h.freep, ⟨h, s.regions ++ [⟨hp, nu * headerSize⟩]⟩)

/-- A block found large enough is taken whole, or its end is cut off. -/
def take (nunits prevp p : Nat) (h : Heap) : Nat × Heap :=
  if h.size p = nunits then (p, { h with ptr := update h.ptr prevp (h.ptr p), freep := prevp })
  else
    let size := update h.size p (h.size p - nunits)
    let q := addUnits p (size p)
    (q, { h with size := update size q nunits, freep := prevp })

/-- The loop of `malloc`. -/
def search (fuel : Nat) (sbrk : Sbrk) (nunits : Nat) :
    Nat → Nat → Nat → Arena → Option (Option Nat × Arena)
  | 0, _, _, _ => none
  | k + 1, prevp, p, s =>
    if s.heap.size p ≥ nunits then
      let x := take nunits prevp p s.heap
      some (some (x.1 + headerSize), { s with heap := x.2 })
    else if p = s.heap.freep then
      (morecore fuel sbrk nunits s).bind fun x =>
        match x.1 with
        | none => some (none, x.2)
        | some p => search fuel sbrk nunits k p (x.2.heap.ptr p) x.2
    else search fuel sbrk nunits k p (s.heap.ptr p) s

/-- `base.s.ptr = freep = &base; base.s.size = 0`, the first time. -/
def start (base : Nat) (h : Heap) : Heap :=
  if h.freep = 0 then ⟨base, update h.ptr base base, update h.size base 0⟩ else h

def malloc (base fuel : Nat) (sbrk : Sbrk) (nbytes : Nat) (s : Arena) :
    Option (Option Nat × Arena) :=
  let nunits := (nbytes + headerSize - 1) % uintSize / headerSize + 1
  let h := start base s.heap
  search fuel sbrk nunits fuel h.freep (h.ptr h.freep) { s with heap := h }

/-! Runs. -/

/-- The header units of a request. -/
def units (nbytes : Nat) : Nat := (nbytes + headerSize - 1) / headerSize + 1

/-- The heap and the blocks the program holds, headers included. -/
structure World where
  arena : Arena
  live : List Block

/-- The program asks for a block, gives one back, or writes to its memory. -/
inductive Act where
  | malloc (nbytes : Nat) (sbrk : Sbrk)
  | free (b : Block)
  | write (ptr size : Nat → Nat)

def step (base fuel : Nat) (w : World) : Act → Option World
  | .malloc nbytes sbrk =>
    (malloc base fuel sbrk nbytes w.arena).map fun x =>
      match x.1 with
      | none => { w with arena := x.2 }
      | some ap => ⟨x.2, w.live ++ [⟨ap - headerSize, headerSize * units nbytes⟩]⟩
  | .free b =>
    (free fuel (b.addr + headerSize) w.arena.heap).map fun h =>
      ⟨{ w.arena with heap := h }, w.live.erase b⟩
  | .write ptr size =>
    some { w with arena := { w.arena with heap := ⟨w.arena.heap.freep, ptr, size⟩ } }

/-- A new region is above `base` and all regions before it. -/
def Fresh (base : Nat) (sbrk : Sbrk) : Prop :=
  ∀ regions n a, sbrk regions n = some a → base + headerSize ≤ a ∧
    (∀ r ∈ regions, r.addr + r.len ≤ a) ∧ a + n < uintSize

/-- Requests are small enough, what is freed is live, and writes stay inside the live blocks, behind their
headers. -/
def Allowed (base : Nat) (w : World) : Act → Prop
  | .malloc nbytes sbrk => units nbytes * headerSize < 2 ^ 31 ∧ Fresh base sbrk
  | .free b => b ∈ w.live
  | .write ptr size => ∀ a, (∀ b ∈ w.live, ¬ (b.addr < a ∧ a < b.addr + b.len)) →
      ptr a = w.arena.heap.ptr a ∧ size a = w.arena.heap.size a

/-- As loaded: no free list, nothing obtained. -/
def Loaded (w : World) : Prop := w.arena.heap.freep = 0 ∧ w.arena.regions = [] ∧ w.live = []

def Reaches (base : Nat) : World → Prop :=
  LibRun.Reachable Loaded fun w w' => ∃ a fuel, Allowed base w a ∧ step base fuel w a = some w'

end Xv6.Umalloc
