import Xv6.LibRun
import Xv6.LibWord
import Xv6.LibRing
import Xv6.LibWaits
import Xv6.LibProg
import Xv6.ProcTable
import Xv6.FsLayout
import Xv6.SyscallArgs
import Xv6.UserAccess
import Xv6.SchedRr
import Xv6.SchedRr2q
import Xv6.SchedQueues
import Xv6.SchedFair2q
import Xv6.KernelCode
import Xv6.KernelMachine
import Xv6.KernelTyping
import Xv6.KernelInv
import Xv6.KernelSteps
import Xv6.KernelOps
import Xv6.LockOrder
import Xv6.FairDispatch
import Xv6.FairScan
import Xv6.ProcTree
import Xv6.ProcReap
import Xv6.ProcWait
import Xv6.ProcStates
import Xv6.ProcKill
import Xv6.Slices
import Xv6.KernelAccounts
import Xv6.KernelSolo
import Xv6.KernelTraps
import Xv6.KernelStacks
import Xv6.Quantum
import Xv6.Accounting
import Xv6.FsDisk
import Xv6.FsCode
import Xv6.FsBlocks
import Xv6.FsOwner
import Xv6.FsSpecs
import Xv6.FsSafe
import Xv6.FsCalls
import Xv6.FsOwnership
import Xv6.FsContents
import Xv6.Console
import Xv6.ConsoleRing
import Xv6.ConsoleLines
import Xv6.ConsoleHistory
import Xv6.ConsoleRecall
import Xv6.LibExcept
import Xv6.Shell
import Xv6.ShellTokens
import Xv6.ShellGrammar
import Xv6.ShellWords
import Xv6.ShellPath
import Xv6.Grep
import Xv6.GrepLoop
import Xv6.LibPath
import Xv6.LibBlocks
import Xv6.Umalloc
import Xv6.UmallocHeap
import Xv6.UmallocRuns
import Xv6.UmallocEnough
import Xv6.LibSleep
import Xv6.Pipe
import Xv6.PipeRuns
import Xv6.PipeSleepers
import Xv6.Bitmap
import Xv6.Vm
import Xv6.VmSpace
import Xv6.VmClear
import Xv6.VmMap
import Xv6.VmTables
import Xv6.VmProc
import Xv6.VmSbrk
import Xv6.VmCopy
import Xv6.Exec
import Xv6.SyscallExact
import Xv6.ExecStack
import Xv6.ExecInode
import Xv6.ExecLoad
import Xv6.ExecFinish
import Xv6.ExecSafe
import Xv6.ExecClean
import Xv6.ExecImage
import Xv6.FsDir
import Xv6.FsDirLink
import Xv6.Buffers
import Xv6.LibLinks
import Xv6.LibLines
import Xv6.BufferList
import Xv6.MemMove
import Xv6.PrintInt
import Xv6.Mp
import Xv6.LibQueue
import Xv6.BufferMoves
import Xv6.BufferQueue
