import Xv6.FsLayout
import Xv6.LibProg
import Xv6.LibWord

/-! The state of the file system: the bitmap, the inodes and the blocks on disk, the inode cache, and
the open files and current directories of the processes; and what is done to it in one critical
section of a buffer or of `icache.lock`. The disk is not laid out in bytes: bitmap, inode table and
data blocks are separate. -/

namespace Xv6.Fs

open LibWord Function

/-- `BPB`: bits of a bitmap block. -/
def bpb : Nat := bsize * 8

/-- `NINODE`: slots of the inode cache. -/
def ninode : Nat := 50

abbrev Slot := Fin ninode

/-- `ROOTINO`. -/
def rootino : Nat := 1

/-- `struct superblock`. A disk has at most 2^28 sectors. -/
structure Superblock where
  size : Nat
  ninodes : Nat
  size_le : size ≤ 2 ^ 28

/-- The bytes of a block, at the offsets below `BSIZE`. -/
abbrev Block := Nat → UInt8

def Block.zero : Block := fun _ => 0

/-- The `j`th word of a block, least significant byte first. -/
def Block.word (b : Block) (j : Nat) : Nat :=
  (b (4 * j)).toNat + 2 ^ 8 * (b (4 * j + 1)).toNat + 2 ^ 16 * (b (4 * j + 2)).toNat +
    2 ^ 24 * (b (4 * j + 3)).toNat

/-- A byte of a word. -/
def byteOf (word i : Nat) : UInt8 := UInt8.ofNat (word / 2 ^ (8 * i))

def Block.setWord (b : Block) (j word : Nat) : Block := fun o =>
  if o / 4 = j then byteOf word (o % 4) else b o

/-- `memmove` of `n` bytes into a block. -/
def Block.write (b : Block) (off n : Nat) (src : Nat → UInt8) : Block := fun o =>
  if off ≤ o ∧ o < off + n then src (o - off) else b o

/-- `memmove` of `n` bytes out of a block. -/
def Block.read (b : Block) (off n : Nat) : List UInt8 := (List.range n).map fun k => b (off + k)

/-- `struct dinode`. -/
structure Dinode where
  type : FileType := .free
  major : Int := 0
  minor : Int := 0
  nlink : Int := 0
  size : Nat := 0
  addrs : Nat → Nat := fun _ => 0

def Dinode.setAddr (d : Dinode) (i addr : Nat) : Dinode :=
  { d with addrs := update d.addrs i addr }

/-- The part of `struct inode` that its lock protects, and the number. -/
structure Cached where
  inum : Nat := 0
  valid : Bool := false
  copy : Dinode := {}

/-- `struct inode`; `I_BUSY` is kept as the process that set it. All inodes are on one device. -/
structure Inode (n : Nat) extends Cached where
  ref : Nat := 0
  busy : Option (Fin n) := none

/-- `struct file` of type `FD_INODE`. It belongs to one descriptor: the calls that share it, `dup` and
`fork`, are not among those modelled. -/
structure File where
  readable : Bool
  writable : Bool
  ip : Slot
  off : Nat

structure State (n : Nat) where
  used : Nat → Bool
  dinode : Nat → Dinode
  block : Nat → Block
  icache : Slot → Inode n
  ofile : Fin n → Nat → Option File
  cwd : Fin n → Slot

/-- What `iput` finds: it is the last reference to an inode without links (which must not be locked),
or not. -/
inductive Put where
  | last
  | busy
  | dropped
  deriving DecidableEq

/-- The operations: critical sections of `icache.lock`, accesses to a locked inode, critical sections of
buffers, and accesses to the descriptors of the process. -/
inductive Op where
  | iget (inum : Nat)
  | idup (ip : Slot)
  | lock (ip : Slot)
  | unlock (ip : Slot)
  | put (ip : Slot)
  | putLast (ip : Slot)
  | load (ip : Slot)
  | store (ip : Slot) (d : Dinode)
  | setValid (ip : Slot)
  | readDinode (inum : Nat)
  | writeDinode (inum : Nat) (d : Dinode)
  | allocDinode (inum : Nat) (type : FileType)
  | allocBit (base : Nat)
  | clearBit (b : Nat)
  | bread (b : Nat)
  | bwrite (b : Nat) (data : Block)
  | fdalloc
  | getFile (fd : Nat)
  | setFile (fd : Nat) (f : Option File)
  | getCwd
  | setCwd (ip : Slot)
  | console (n : Nat)

abbrev Res : Op → Type
  | .iget _ => Option Slot
  | .idup _ => Unit
  | .lock _ => Bool
  | .unlock _ => Bool
  | .put _ => Put
  | .putLast _ => Unit
  | .load _ => Cached
  | .store _ _ => Unit
  | .setValid _ => Unit
  | .readDinode _ => Dinode
  | .writeDinode _ _ => Unit
  | .allocDinode _ _ => Bool
  | .allocBit _ => Option Nat
  | .clearBit _ => Bool
  | .bread _ => Block
  | .bwrite _ _ => Unit
  | .fdalloc => Option Nat
  | .getFile _ => Option File
  | .setFile _ _ => Unit
  | .getCwd => Slot
  | .setCwd _ => Unit
  | .console _ => Option (List UInt8)

/-- What the environment decides: whether all of `ftable` is in use, and what is typed. -/
structure Input where
  full : Bool := false
  typed : Option (List UInt8) := none

variable {n : Nat}

def State.setInode (s : State n) (ip : Slot) (f : Inode n → Inode n) : State n :=
  { s with icache := update s.icache ip (f (s.icache ip)) }

/-- The cached inode `iget` finds. -/
def State.cached (s : State n) (inum : Nat) : Option Slot :=
  (List.finRange ninode).find? fun ip => 0 < (s.icache ip).ref ∧ (s.icache ip).inum = inum

/-- The empty slot `iget` remembers. -/
def State.emptySlot (s : State n) : Option Slot :=
  (List.finRange ninode).find? fun ip => (s.icache ip).ref = 0

/-- The first of `k` bits from `b` on that is clear. -/
def firstClear (used : Nat → Bool) : Nat → Nat → Option Nat
  | 0, _ => none
  | k + 1, b => if used b then firstClear used k (b + 1) else some b

/-- `fdalloc`. -/
def firstFd (ofile : Nat → Option File) : Option Nat :=
  (List.range nofile).find? fun fd => (ofile fd).isNone

/-- The operations on the state. A locked inode makes `ilock` wait. -/
def exec (p : Fin n) (input : Input) : (o : Op) → State n → Option (Res o × State n)
  | .iget inum, s =>
    match s.cached inum with
    | some ip => some (some ip, s.setInode ip fun i => { i with ref := i.ref + 1 })
    | none =>
      match s.emptySlot with
      | some ip => some (some ip, s.setInode ip fun i =>
        { i with inum := inum, ref := 1, valid := false, busy := none })
      | none => some (none, s)
  | .idup ip, s => some ((), s.setInode ip fun i => { i with ref := i.ref + 1 })
  | .lock ip, s =>
    if (s.icache ip).ref = 0 then some (false, s)
    else if (s.icache ip).busy = none then some (true, s.setInode ip fun i => { i with busy := some p })
    else none
  | .unlock ip, s =>
    if (s.icache ip).busy = none ∨ (s.icache ip).ref = 0 then some (false, s)
    else some (true, s.setInode ip fun i => { i with busy := none })
  | .put ip, s =>
    if (s.icache ip).ref = 1 ∧ (s.icache ip).valid = true ∧ (s.icache ip).copy.nlink = 0 then
      if (s.icache ip).busy = none then some (.last, s.setInode ip fun i => { i with busy := some p })
      else some (.busy, s)
    else some (.dropped, s.setInode ip fun i => { i with ref := i.ref - 1 })
  | .putLast ip, s =>
    some ((), s.setInode ip fun i => { i with busy := none, valid := false, ref := i.ref - 1 })
  | .load ip, s => some ((s.icache ip).toCached, s)
  | .store ip d, s => some ((), s.setInode ip fun i => { i with copy := d })
  | .setValid ip, s => some ((), s.setInode ip fun i => { i with valid := true })
  | .readDinode inum, s => some (s.dinode inum, s)
  | .writeDinode inum d, s => some ((), { s with dinode := update s.dinode inum d })
  | .allocDinode inum type, s =>
    if (s.dinode inum).type = .free then
      some (true, { s with dinode := update s.dinode inum { type := type } })
    else some (false, s)
  | .allocBit base, s =>
    match firstClear s.used bpb base with
    | some b => some (some b, { s with used := update s.used b true })
    | none => some (none, s)
  | .clearBit b, s =>
    if s.used b then some (true, { s with used := update s.used b false }) else some (false, s)
  | .bread b, s => some (s.block b, s)
  | .bwrite b data, s => some ((), { s with block := update s.block b data })
  | .fdalloc, s => some (if input.full then none else firstFd (s.ofile p), s)
  | .getFile fd, s => some (s.ofile p fd, s)
  | .setFile fd f, s =>
    some ((), { s with ofile := update s.ofile p (update (s.ofile p) fd f) })
  | .getCwd, s => some (s.cwd p, s)
  | .setCwd ip, s => some ((), { s with cwd := update s.cwd p ip })
  | .console k, s => some (input.typed.map (List.take k), s)

end Xv6.Fs
