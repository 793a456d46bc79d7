import Xv6.FsDisk

/-! The functions of `fs.c`, and of `file.c` and `sysfile.c` as far as they use them, as programs over
the operations on the disk and the inode cache. A loop of the source takes as its first argument a
number of iterations that it cannot exceed. -/

namespace Xv6.Fs

open LibProg LibWord

/-- A program over the operations. -/
abbrev Code := Prog Op Res

/-! The operations, at their result types. -/

def perform (o : Op) : Code (Res o) := Prog.perform o

def bread (b : Nat) : Code Block := perform (.bread b)
def bwrite (b : Nat) (data : Block) : Code Unit := perform (.bwrite b data)
def load (ip : Slot) : Code Cached := perform (.load ip)
def store (ip : Slot) (d : Dinode) : Code Unit := perform (.store ip d)
def setValid (ip : Slot) : Code Unit := perform (.setValid ip)
def readDinode (inum : Nat) : Code Dinode := perform (.readDinode inum)
def writeDinode (inum : Nat) (d : Dinode) : Code Unit := perform (.writeDinode inum d)
def getFile (fd : Nat) : Code (Option File) := perform (.getFile fd)
def setFile (fd : Nat) (f : Option File) : Code Unit := perform (.setFile fd f)
def fdalloc : Code (Option Nat) := perform .fdalloc
def getCwd : Code Slot := perform .getCwd
def setCwd (ip : Slot) : Code Unit := perform (.setCwd ip)
def idup (ip : Slot) : Code Unit := perform (.idup ip)

/-! Blocks. -/

def bzero (b : Nat) : Code Unit := do
  let _ ← bread b
  bwrite b Block.zero

/-- The search of `balloc` from bit `b` on, one bitmap block after the other. -/
def ballocFrom : Nat → Nat → Code Nat
  | 0, _ => .panic "balloc: out of blocks"
  | k + 1, b => do
    match ← perform (.allocBit b) with
    | some addr => pure addr
    | none => ballocFrom k (b + bpb)

def balloc (sb : Superblock) : Code Nat := ballocFrom ((sb.size + bpb - 1) / bpb) 0

def bfree (b : Nat) : Code Unit := do
  bzero b
  let cleared ← perform (.clearBit b)
  if cleared then pure () else .panic "freeing free block"

/-! Inodes. -/

def iget (inum : Nat) : Code Slot := do
  match ← perform (.iget inum) with
  | some ip => pure ip
  | none => .panic "iget: no inodes"

/-- The search of `ialloc` from inode `inum` on. -/
def iallocFrom (type : FileType) : Nat → Nat → Code Slot
  | 0, _ => .panic "ialloc: no inodes"
  | k + 1, inum => do
    let allocated ← perform (.allocDinode inum type)
    if allocated then iget inum else iallocFrom type k (inum + 1)

def ialloc (sb : Superblock) (type : FileType) : Code Slot := iallocFrom type (sb.ninodes - 1) 1

def iupdate (ip : Slot) : Code Unit := do
  let i ← load ip
  writeDinode i.inum i.copy

def ilock (ip : Slot) : Code Unit := do
  let locked ← perform (.lock ip)
  if locked then do
    let i ← load ip
    if i.valid then pure ()
    else do
      let d ← readDinode i.inum
      store ip d
      setValid ip
      if d.type = .free then .panic "ilock: no type" else pure ()
  else .panic "ilock"

def iunlock (ip : Slot) : Code Unit := do
  let unlocked ← perform (.unlock ip)
  if unlocked then pure () else .panic "iunlock"

/-! Inode contents. -/

/-- The address in `ip->addrs[bn]`, allocated if there is none. -/
def direct (sb : Superblock) (ip : Slot) (bn : Nat) : Code Nat := do
  let i ← load ip
  if i.copy.addrs bn = 0 then do
    let addr ← balloc sb
    store ip (i.copy.setAddr bn addr)
    pure addr
  else pure (i.copy.addrs bn)

def bmap (sb : Superblock) (ip : Slot) (bn : Nat) : Code Nat :=
  if bn < ndirect then direct sb ip bn
  else if bn - ndirect < nindirect then do
    let ind ← direct sb ip ndirect
    let data ← bread ind
    if data.word (bn - ndirect) = 0 then do
      let addr ← balloc sb
      bwrite ind (data.setWord (bn - ndirect) addr)
      pure addr
    else pure (data.word (bn - ndirect))
  else .panic "bmap: out of range"

/-- The first loop of `itrunc`, for the last `k` of the direct blocks. -/
def truncDirect (ip : Slot) : Nat → Code Unit
  | 0 => pure ()
  | k + 1 => do
    let i ← load ip
    if i.copy.addrs (ndirect - (k + 1)) ≠ 0 then do
      bfree (i.copy.addrs (ndirect - (k + 1)))
      store ip (i.copy.setAddr (ndirect - (k + 1)) 0)
      truncDirect ip k
    else truncDirect ip k

/-- The second loop of `itrunc`, for the last `k` words of the indirect block. -/
def truncIndirect (data : Block) : Nat → Code Unit
  | 0 => pure ()
  | k + 1 =>
    if data.word (nindirect - (k + 1)) ≠ 0 then do
      bfree (data.word (nindirect - (k + 1)))
      truncIndirect data k
    else truncIndirect data k

/-- The indirect block in `itrunc`. -/
def truncLast (ip : Slot) : Code Unit := do
  let i ← load ip
  if i.copy.addrs ndirect ≠ 0 then do
    let data ← bread (i.copy.addrs ndirect)
    truncIndirect data nindirect
    bfree (i.copy.addrs ndirect)
    store ip (i.copy.setAddr ndirect 0)
  else pure ()

def itrunc (ip : Slot) : Code Unit := do
  truncDirect ip ndirect
  truncLast ip
  let i ← load ip
  store ip { i.copy with size := 0 }
  iupdate ip

def iput (ip : Slot) : Code Unit := do
  match ← perform (.put ip) with
  | .dropped => pure ()
  | .busy => .panic "iput busy"
  | .last => do
    itrunc ip
    let i ← load ip
    store ip { i.copy with type := .free }
    iupdate ip
    perform (.putLast ip)

def iunlockput (ip : Slot) : Code Unit := do
  iunlock ip
  iput ip

/-- The test for a device without functions in `devsw`. -/
def noDriver (major : Int) : Prop := major < 0 ∨ ndev ≤ major ∨ major ≠ console

instance (major : Int) : Decidable (noDriver major) :=
  inferInstanceAs (Decidable (_ ∨ _ ∨ _))

/-- `consoleread`, with the bytes read; it fails when the process has been killed. -/
def consoleread (ip : Slot) (n : Int) : Code (Option (List UInt8)) := do
  iunlock ip
  let bytes ← perform (.console n.toNat)
  ilock ip
  pure bytes

def consolewrite (ip : Slot) (n : Int) : Code Int := do
  iunlock ip
  ilock ip
  pure n

/-- The loop of `readi`, with the bytes it has still to copy. -/
def readLoop (sb : Superblock) (ip : Slot) : Nat → Nat → Nat → Code (List UInt8)
  | 0, _, _ => pure []
  | k + 1, off, n =>
    if n = 0 then pure []
    else do
      let addr ← bmap sb ip (off / bsize)
      let data ← bread addr
      let m := min n (bsize - off % bsize)
      let rest ← readLoop sb ip k (off + m) (n - m)
      pure (data.read (off % bsize) m ++ rest)

/-- `readi`: the bytes copied to `dst`, as many as it returns, or a failure. -/
def readi (sb : Superblock) (ip : Slot) (off n : Nat) : Code (Option (List UInt8)) := do
  let i ← load ip
  if i.copy.type = .dev then
    if noDriver i.copy.major then pure none else consoleread ip (toInt n)
  else if i.copy.size < off ∨ (off + n) % uintSize < off then pure none
  else do
    let n := if i.copy.size < off + n then i.copy.size - off else n
    let bytes ← readLoop sb ip n off n
    pure (some bytes)

/-- The loop of `writei`, with the bytes it has still to copy; it gives the last value of `off`. -/
def writeLoop (sb : Superblock) (ip : Slot) : Nat → (Nat → UInt8) → Nat → Nat → Code Nat
  | 0, _, off, _ => pure off
  | k + 1, src, off, n =>
    if n = 0 then pure off
    else do
      let addr ← bmap sb ip (off / bsize)
      let data ← bread addr
      let m := min n (bsize - off % bsize)
      bwrite addr (data.write (off % bsize) m src)
      writeLoop sb ip k (fun o => src (o + m)) (off + m) (n - m)

/-- The end of `writei`: a file that has grown is given its size. -/
def grow (ip : Slot) (off n : Nat) : Code Int := do
  let i ← load ip
  if 0 < n ∧ i.copy.size < off then do
    store ip { i.copy with size := off }
    iupdate ip
    pure (toInt n)
  else pure (toInt n)

def writei (sb : Superblock) (ip : Slot) (src : Nat → UInt8) (off n : Nat) : Code Int := do
  let i ← load ip
  if i.copy.type = .dev then
    if noDriver i.copy.major then pure (-1) else consolewrite ip (toInt n)
  else if i.copy.size < off ∨ (off + n) % uintSize < off then pure (-1)
  else do
    let n := if maxfile * bsize < off + n then sub32 (maxfile * bsize) off else n
    let off ← writeLoop sb ip n src off n
    grow ip off n

/-! Directories. -/

/-- `DIRSIZ`. -/
def dirsiz : Nat := 14

/-- The size of `struct dirent`. -/
def direntSize : Nat := 16

/-- A name: the bytes before its end, which is a zero byte or the end of the array. -/
abbrev Name := List UInt8

/-- `strncmp` gives 0. -/
def strncmpEq : Nat → Name → Name → Bool
  | 0, _, _ => true
  | n + 1, s, t =>
    if s.headD 0 ≠ 0 ∧ s.headD 0 = t.headD 0 then strncmpEq n s.tail t.tail
    else s.headD 0 = t.headD 0

/-- `namecmp` gives 0. -/
def namecmp (s t : Name) : Bool := strncmpEq dirsiz s t

/-- `struct dirent`. -/
structure Dirent where
  inum : Nat
  name : Name

/-- The directory entry at an offset of a block. -/
def Block.dirent (b : Block) (o : Nat) : Dirent where
  inum := (b o).toNat + 2 ^ 8 * (b (o + 1)).toNat
  name := b.read (o + 2) dirsiz

/-- The bytes of a directory entry with a name filled up by `strncpy`. -/
def Dirent.bytes (de : Dirent) (k : Nat) : UInt8 :=
  if k < 2 then byteOf de.inum k else de.name.getD (k - 2) 0

/-- The bytes `readi` copied, as a block that holds them at offset 0. -/
def ofBytes (bytes : List UInt8) : Block := fun o => bytes.getD o 0

/-- The inner loop of `dirlookup`, for the last `k` entries of the block. -/
def findEntry (data : Block) (name : Name) : Nat → Option Nat
  | 0 => none
  | k + 1 =>
    if (data.dirent (bsize - direntSize * (k + 1))).inum ≠ 0 ∧
        namecmp name (data.dirent (bsize - direntSize * (k + 1))).name then
      some (bsize - direntSize * (k + 1))
    else findEntry data name k

/-- The outer loop of `dirlookup`, which gives the entry and its offset. -/
def lookupLoop (sb : Superblock) (dp : Slot) (name : Name) (size : Nat) :
    Nat → Nat → Code (Option (Slot × Nat))
  | 0, _ => pure none
  | k + 1, off =>
    if off < size then do
      let addr ← bmap sb dp (off / bsize)
      let data ← bread addr
      match findEntry data name (bsize / direntSize) with
      | some o => do
        let ip ← iget (data.dirent o).inum
        pure (some (ip, off + o))
      | none => lookupLoop sb dp name size k (off + bsize)
    else pure none

def dirlookup (sb : Superblock) (dp : Slot) (name : Name) : Code (Option (Slot × Nat)) := do
  let i ← load dp
  if i.copy.type = .dir then lookupLoop sb dp name i.copy.size (i.copy.size / bsize + 1) 0
  else .panic "dirlookup not DIR"

/-- The loop of `dirlink`: the offset of an empty entry or of the end of the directory. -/
def emptyEntry (sb : Superblock) (dp : Slot) : Nat → Nat → Code Nat
  | 0, off => pure off
  | k + 1, off => do
    let i ← load dp
    if off < i.copy.size then do
      match ← readi sb dp off direntSize with
      | none => .panic "dirlink read"
      | some bytes =>
        if bytes.length ≠ direntSize then .panic "dirlink read"
        else if ((ofBytes bytes).dirent 0).inum = 0 then pure off
        else emptyEntry sb dp k (off + direntSize)
    else pure off

/-- `dirlink`, which tells whether it succeeded. -/
def dirlink (sb : Superblock) (dp : Slot) (name : Name) (inum : Nat) : Code Bool := do
  match ← dirlookup sb dp name with
  | some (ip, _) => do
    iput ip
    pure false
  | none => do
    let i ← load dp
    let off ← emptyEntry sb dp (i.copy.size / direntSize + 1) 0
    let r ← writei sb dp (Dirent.bytes ⟨inum, name.take dirsiz⟩) off direntSize
    if r = direntSize then pure true else .panic "dirlink"

/-! Paths. -/

/-- A path: the bytes of the string before its end. -/
abbrev Path := List UInt8

/-- The character `/`. -/
def slash : UInt8 := 47

/-- The character `.`. -/
def dot : UInt8 := 46

def skipelem (path : Path) : Option (Name × Path) :=
  match path.dropWhile (· = slash) with
  | [] => none
  | elem => some ((elem.takeWhile (· ≠ slash)).take dirsiz,
      (elem.dropWhile (· ≠ slash)).dropWhile (· = slash))

/-- The elements `skipelem` takes from a path in turn. -/
def elements : Nat → Path → List Name
  | 0, _ => []
  | k + 1, path =>
    match skipelem path with
    | none => []
    | some (name, rest) => name :: elements k rest

/-- The loop of `namex`; the name is meaningful for `nameiparent` only. -/
def walk (sb : Superblock) (nameiparent : Bool) : Slot → List Name → Code (Option (Slot × Name))
  | ip, [] =>
    if nameiparent then do
      iput ip
      pure none
    else pure (some (ip, []))
  | ip, name :: rest => do
    ilock ip
    let i ← load ip
    if i.copy.type ≠ .dir then do
      iunlockput ip
      pure none
    else if nameiparent ∧ rest = [] then do
      iunlock ip
      pure (some (ip, name))
    else do
      match ← dirlookup sb ip name with
      | none => do
        iunlockput ip
        pure none
      | some (next, _) => do
        iunlockput ip
        walk sb nameiparent next rest

/-- The inode at which `namex` begins. -/
def walkStart (path : Path) : Code Slot :=
  if path.head? = some slash then iget rootino
  else do
    let cwd ← getCwd
    idup cwd
    pure cwd

def namex (sb : Superblock) (path : Path) (nameiparent : Bool) : Code (Option (Slot × Name)) := do
  let ip ← walkStart path
  walk sb nameiparent ip (elements path.length path)

def namei (sb : Superblock) (path : Path) : Code (Option Slot) := do
  let found ← namex sb path false
  pure (found.map Prod.fst)

def nameiparent (sb : Superblock) (path : Path) : Code (Option (Slot × Name)) := namex sb path true

/-! System calls. -/

/-- `f->off += r`, if `r` is positive. -/
def advance (fd : Nat) (f : File) (r : Int) : Code Unit :=
  if 0 < r then setFile fd (some { f with off := (f.off + r.toNat) % uintSize }) else pure ()

def fileread (sb : Superblock) (fd : Nat) (f : File) (n : Int) : Code (Option (List UInt8)) :=
  if f.readable then do
    ilock f.ip
    let r ← readi sb f.ip f.off (toUint n)
    advance fd f (r.elim (-1) fun bytes => bytes.length)
    iunlock f.ip
    pure r
  else pure none

def filewrite (sb : Superblock) (fd : Nat) (f : File) (src : Nat → UInt8) (n : Int) : Code Int :=
  if f.writable then do
    ilock f.ip
    let r ← writei sb f.ip src f.off (toUint n)
    advance fd f r
    iunlock f.ip
    pure r
  else pure (-1)

/-- `argfd`. -/
def argfd (fd : Int) : Code (Option File) :=
  if 0 ≤ fd ∧ fd < nofile then getFile fd.toNat else pure none

def sysRead (sb : Superblock) (fd n : Int) : Code (Option (List UInt8)) := do
  match ← argfd fd with
  | none => pure none
  | some f => fileread sb fd.toNat f n

def sysWrite (sb : Superblock) (fd : Int) (src : Nat → UInt8) (n : Int) : Code Int := do
  match ← argfd fd with
  | none => pure (-1)
  | some f => filewrite sb fd.toNat f src n

def sysClose (fd : Int) : Code Int := do
  match ← argfd fd with
  | none => pure (-1)
  | some f => do
    setFile fd.toNat none
    iput f.ip
    pure 0

/-- `ip->nlink` changed by `delta`, in memory and on disk. -/
def addLinks (ip : Slot) (delta : Int) : Code Unit := do
  let i ← load ip
  store ip { i.copy with nlink := toShort (i.copy.nlink + delta) }
  iupdate ip

/-- The end of `sys_link` at `bad`. -/
def linkBad (ip : Slot) : Code Int := do
  ilock ip
  addLinks ip (-1)
  iunlockput ip
  pure (-1)

def sysLink (sb : Superblock) (old new : Path) : Code Int := do
  match ← namei sb old with
  | none => pure (-1)
  | some ip => do
    ilock ip
    let i ← load ip
    if i.copy.type = .dir then do
      iunlockput ip
      pure (-1)
    else do
      addLinks ip 1
      iunlock ip
      match ← nameiparent sb new with
      | none => linkBad ip
      | some (dp, name) => do
        ilock dp
        let i ← load ip
        let linked ← dirlink sb dp name i.inum
        iunlockput dp
        if linked then do
          iput ip
          pure 0
        else linkBad ip

/-- The loop of `isdirempty`. -/
def emptyFrom (sb : Superblock) (dp : Slot) : Nat → Nat → Code Bool
  | 0, _ => pure true
  | k + 1, off => do
    let i ← load dp
    if off < i.copy.size then do
      match ← readi sb dp off direntSize with
      | none => .panic "isdirempty: readi"
      | some bytes =>
        if bytes.length ≠ direntSize then .panic "isdirempty: readi"
        else if ((ofBytes bytes).dirent 0).inum ≠ 0 then pure false
        else emptyFrom sb dp k (off + direntSize)
    else pure true

def isdirempty (sb : Superblock) (dp : Slot) : Code Bool := do
  let i ← load dp
  emptyFrom sb dp (i.copy.size / direntSize + 1) (2 * direntSize)

/-- The test of `sys_unlink` that a directory is empty. -/
def removable (sb : Superblock) (ip : Slot) (type : FileType) : Code Bool :=
  if type = .dir then isdirempty sb ip else pure true

/-- `sys_unlink` gives up the link of the entry `..` of a directory. -/
def dropDots (dp : Slot) (type : FileType) : Code Unit :=
  if type = .dir then addLinks dp (-1) else pure ()

/-- `sys_unlink` from the point where both inodes are locked and the entry may be erased. -/
def erase (sb : Superblock) (dp ip : Slot) (off : Nat) : Code Int := do
  let r ← writei sb dp (fun _ => 0) off direntSize
  if r = direntSize then do
    let i ← load ip
    dropDots dp i.copy.type
    iunlockput dp
    addLinks ip (-1)
    iunlockput ip
    pure 0
  else .panic "unlink: writei"

def sysUnlink (sb : Superblock) (path : Path) : Code Int := do
  match ← nameiparent sb path with
  | none => pure (-1)
  | some (dp, name) => do
    ilock dp
    if namecmp name [dot] ∨ namecmp name [dot, dot] then do
      iunlockput dp
      pure (-1)
    else do
      match ← dirlookup sb dp name with
      | none => do
        iunlockput dp
        pure (-1)
      | some (ip, off) => do
        ilock ip
        let i ← load ip
        if i.copy.nlink < 1 then .panic "unlink: nlink < 1"
        else do
          let empty ← removable sb ip i.copy.type
          if empty then erase sb dp ip off
          else do
            iunlockput ip
            iunlockput dp
            pure (-1)

/-- The entries `.` and `..` of a new directory in `create`. -/
def linkDots (sb : Superblock) (dp ip : Slot) (type : FileType) : Code Unit :=
  if type = .dir then do
    addLinks dp 1
    let i ← load ip
    let one ← dirlink sb ip [dot] i.inum
    if one then do
      let d ← load dp
      let two ← dirlink sb ip [dot, dot] d.inum
      if two then pure () else .panic "create dots"
    else .panic "create dots"
  else pure ()

/-- `create` from the point where the name is known to be new. -/
def createNew (sb : Superblock) (dp : Slot) (name : Name) (type : FileType) (major minor : Int) :
    Code Slot := do
  let ip ← ialloc sb type
  ilock ip
  let i ← load ip
  store ip { i.copy with major := major, minor := minor, nlink := 1 }
  iupdate ip
  linkDots sb dp ip type
  let i ← load ip
  let linked ← dirlink sb dp name i.inum
  if linked then do
    iunlockput dp
    pure ip
  else .panic "create: dirlink"

def create (sb : Superblock) (path : Path) (type : FileType) (major minor : Int) :
    Code (Option Slot) := do
  match ← nameiparent sb path with
  | none => pure none
  | some (dp, name) => do
    ilock dp
    match ← dirlookup sb dp name with
    | some (ip, _) => do
      iunlockput dp
      ilock ip
      let i ← load ip
      if type = .file ∧ i.copy.type = .file then pure (some ip)
      else do
        iunlockput ip
        pure none
    | none => do
      let ip ← createNew sb dp name type major minor
      pure (some ip)

/-- The bits of the second argument of `open`. -/
structure Omode where
  wronly : Bool
  rdwr : Bool
  creat : Bool
  other : Bool

/-- `O_RDONLY`: no bit is set. -/
def Omode.rdonly (m : Omode) : Bool := !m.wronly && !m.rdwr && !m.creat && !m.other

/-- The first half of `sys_open`: the inode, locked. -/
def openInode (sb : Superblock) (path : Path) (omode : Omode) : Code (Option Slot) :=
  if omode.creat then create sb path .file 0 0
  else do
    match ← namei sb path with
    | none => pure none
    | some ip => do
      ilock ip
      let i ← load ip
      if i.copy.type = .dir ∧ omode.rdonly = false then do
        iunlockput ip
        pure none
      else pure (some ip)

def sysOpen (sb : Superblock) (path : Path) (omode : Omode) : Code Int := do
  match ← openInode sb path omode with
  | none => pure (-1)
  | some ip => do
    match ← fdalloc with
    | none => do
      iunlockput ip
      pure (-1)
    | some fd => do
      iunlock ip
      setFile fd (some ⟨!omode.wronly, omode.wronly || omode.rdwr, ip, 0⟩)
      pure fd

/-- `sys_mkdir` and `sys_mknod` after their arguments. -/
def makeNode (sb : Superblock) (path : Path) (type : FileType) (major minor : Int) : Code Int := do
  match ← create sb path type major minor with
  | none => pure (-1)
  | some ip => do
    iunlockput ip
    pure 0

def sysMkdir (sb : Superblock) (path : Path) : Code Int := makeNode sb path .dir 0 0

def sysMknod (sb : Superblock) (path : Path) (major minor : Int) : Code Int :=
  makeNode sb path .dev (toShort major) (toShort minor)

def sysChdir (sb : Superblock) (path : Path) : Code Int := do
  match ← namei sb path with
  | none => pure (-1)
  | some ip => do
    ilock ip
    let i ← load ip
    if i.copy.type ≠ .dir then do
      iunlockput ip
      pure (-1)
    else do
      iunlock ip
      let cwd ← getCwd
      iput cwd
      setCwd ip
      pure 0

/-- The system calls, with arguments that passed `argstr`, `argint` and `argptr`. -/
inductive Call where
  | open (path : Path) (omode : Omode)
  | read (fd n : Int)
  | write (fd : Int) (src : Nat → UInt8) (n : Int)
  | close (fd : Int)
  | link (old new : Path)
  | unlink (path : Path)
  | mkdir (path : Path)
  | mknod (path : Path) (major minor : Int)
  | chdir (path : Path)

/-- The code of a system call; what it returns goes to the user program. -/
def syscall (sb : Superblock) : Call → Code Unit
  | .open path omode => do let _ ← sysOpen sb path omode
  | .read fd n => do let _ ← sysRead sb fd n
  | .write fd src n => do let _ ← sysWrite sb fd src n
  | .close fd => do let _ ← sysClose fd
  | .link old new => do let _ ← sysLink sb old new
  | .unlink path => do let _ ← sysUnlink sb path
  | .mkdir path => do let _ ← sysMkdir sb path
  | .mknod path major minor => do let _ ← sysMknod sb path major minor
  | .chdir path => do let _ ← sysChdir sb path

/-- Processes that make system calls. -/
def system (n : Nat) (sb : Superblock) : System Op Res (State n) (Fin n) Input Call where
  exec := exec
  code := fun _ => syscall sb
  allowed := fun _ _ _ => true

end Xv6.Fs
