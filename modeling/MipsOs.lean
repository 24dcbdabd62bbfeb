import MipsOs.Arch.Transparency
import MipsOs.Lib.Run
import MipsOs.Lib.Fault
import MipsOs.Lib.Loop
import MipsOs.Lib.MachineInt
import MipsOs.Lib.IntrusiveQueue
import MipsOs.Lib.QueueFrame
import MipsOs.Lib.LockTable
import MipsOs.Lib.Records
import MipsOs.Lib.Ring
import MipsOs.Lib.BlockProg
import MipsOs.Lib.Bytes
import MipsOs.Lib.Extent
import MipsOs.Lib.Tiling
import MipsOs.Lib.Stores
import MipsOs.Lib.CString
import MipsOs.Lib.Tlb
import MipsOs.Lib.RootedTree
import MipsOs.Mm.PageCtrl
import MipsOs.Mm.Memory
import MipsOs.Mm.PagePeak
import MipsOs.Mm.PoolHistory
import MipsOs.Mm.Ownership
import MipsOs.Mm.Translation
import MipsOs.Mm.TablePools
import MipsOs.Mm.UserPages
import MipsOs.Sched.Queue
import MipsOs.Sched.Kernel
import MipsOs.Sched.Refine
import MipsOs.Sched.ListKernel
import MipsOs.Sched.Invariant
import MipsOs.Sched.Agreement
import MipsOs.Sched.WakeScan
import MipsOs.Sched.LockSteps
import MipsOs.Sched.Mutex
import MipsOs.Sched.Moves
import MipsOs.Sched.Waitpid
import MipsOs.Sched.Starvation
import MipsOs.Sched.BootTask
import MipsOs.Sched.ReadyOrder
import MipsOs.Sched.Clock
import MipsOs.Sched.Sleep
import MipsOs.Sched.ProcessTable
import MipsOs.Sched.Signal
import MipsOs.Sched.Death
import MipsOs.Sched.Barrier
import MipsOs.Sched.BarrierKill
import MipsOs.Sched.KernelStack
import MipsOs.Sched.Arguments
import MipsOs.Sched.Condition
import MipsOs.Sched.Spaces
import MipsOs.Sched.AddressSpaces
import MipsOs.Sched.PageTables
import MipsOs.Sched.TlbSystem
import MipsOs.Sched.RefillHandler
import MipsOs.Sched.TlbCoherence
import MipsOs.Ipc.Mailbox
import MipsOs.Ipc.MailboxLengths
import MipsOs.Ipc.Wakeups
import MipsOs.Ipc.Uniform
import MipsOs.Ipc.MailboxTable
import MipsOs.Fs.Disk
import MipsOs.Fs.Layout
import MipsOs.Fs.Cache
import MipsOs.Fs.Access
import MipsOs.Fs.FlatStore
import MipsOs.Fs.Checkout
import MipsOs.Fs.Mount
import MipsOs.Fs.FileTables
import MipsOs.Fs.OpenFiles
import MipsOs.Fs.Calls
import MipsOs.Fs.Pins
import MipsOs.Fs.Steady
import MipsOs.Fs.PinBalance
import MipsOs.Fs.PathWalk
import MipsOs.Fs.Entries
import MipsOs.Fs.Alloc
import MipsOs.Fs.Create
import MipsOs.Fs.NewStore
import MipsOs.Fs.Format
import MipsOs.Fs.DirTree
import MipsOs.Fs.Rmdir
import MipsOs.Fs.UndoMkdir
import MipsOs.Fs.PathLookup
import MipsOs.Fs.Exhaustion
import MipsOs.Fs.ReadClose
import MipsOs.Fs.TreePaths
import MipsOs.Fs.TreeSystem
import MipsOs.Fs.FileParts
import MipsOs.Fs.FileBlocks
import MipsOs.Fs.Lasting
import MipsOs.Fs.BlockSet
import MipsOs.Fs.FileMapping
import MipsOs.Fs.Transfer
import MipsOs.Fs.Seek
import MipsOs.Fs.Copies
import MipsOs.Fs.References
import MipsOs.Fs.TreeSteps
import MipsOs.Fs.FileSteps
import MipsOs.Fs.FileTransfers
import MipsOs.Fs.Volume
import MipsOs.Fs.VolumeSteps
import MipsOs.Fs.Consistency
import MipsOs.Drivers.Screen
import MipsOs.Boot.Image
import MipsOs.System.PagePools
import MipsOs.System.TwoRuns
import MipsOs.System.Shell
import MipsOs.System.LineEditor
