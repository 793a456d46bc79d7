import Mathlib

/-! The constants and on-disk types of `fs.h`, `stat.h` and `param.h` that the file system uses. -/

namespace Xv6

/-- `BSIZE`: bytes of a block. -/
def bsize : Nat := 512

/-- `NDIRECT`: direct block addresses of an inode. -/
def ndirect : Nat := 12

/-- `NINDIRECT`: addresses in an indirect block. -/
def nindirect : Nat := bsize / 4

/-- `MAXFILE`: blocks of the largest file. -/
def maxfile : Nat := ndirect + nindirect

/-- `NDEV`: entries of `devsw`. -/
def ndev : Int := 10

/-- `NOFILE`: open files of a process. -/
def nofile : Nat := 16

/-- `CONSOLE`: the major number of the console, the only device with entries in `devsw`. -/
def console : Int := 1

/-- The type field of an inode; 0 on disk is a free inode. -/
inductive FileType where
  | free
  | dir
  | file
  | dev
  deriving DecidableEq, Repr

end Xv6
