import Minix.Lib.Indices
import Minix.Lib.Chain
import Minix.Lib.Run
import Minix.Kernel.Ipc
import Minix.Kernel.ReadyQueue
import Minix.Kernel.Rendezvous
import Minix.Kernel.Discipline
import Minix.Kernel.Boot
import Minix.Kernel.IpcInv
import Minix.Kernel.Step
import Minix.Kernel.Integrity
import Minix.Lib.Spans
import Minix.Mm.Alloc
import Minix.Mm.HoleList
import Minix.Mm.HoleCalls
import Minix.Mm.Memory
import Minix.Mm.ForkExit
import Minix.Mm.Signal
import Minix.Lib.Epoch
import Minix.Mm.Lives
import Minix.Mm.Outcomes
import Minix.Mm.ExitOnce
import Minix.Fs.Cache
import Minix.Fs.BufLists
import Minix.Fs.Read
import Minix.Fs.CacheIo
import Minix.Fs.CacheInv
import Minix.Fs.CacheCalls
import Minix.Fs.Ahead
import Minix.Fs.CacheRun
import Minix.Kernel.Interrupts
import Minix.Kernel.IrqRun
import Minix.Kernel.Signals
import Minix.Kernel.SignalRun
import Minix.Kernel.Shadow
import Minix.Kernel.ShadowQueue
import Minix.Kernel.Images
import Minix.Kernel.ShadowCalls
import Minix.Kernel.ShadowRun
import Minix.Fs.Faithful
import Minix.Fs.File
import Minix.Fs.Mounted
import Minix.Fs.ZoneMap
import Minix.Fs.FileMap
import Minix.Fs.WriteMap
import Minix.Fs.NewBlock
import Minix.Fs.FileData
import Minix.Fs.Chunk
import Minix.Fs.FileAhead
import Minix.Fs.FileLoop
import Minix.Fs.FileCalls
import Minix.Fs.ByteArray
import Minix.Fs.FailedWrites
import Minix.Lib.TicketRing
import Minix.Llvm.MessageQueue
import Minix.Llvm.MessagePool
import Minix.Kernel.Exit
import Minix.Kernel.Clock
import Minix.Kernel.ClockRun
import Minix.Mm.Families
import Minix.Mm.Annals
import Minix.Mm.Cleanup
import Minix.Mm.FamilySim
import Minix.Mm.FamilySignals
import Minix.Mm.FamilyCalls
import Minix.Mm.WaitExit
import Minix.Mm.Alarms
import Minix.Mm.AlarmDeeds
import Minix.Mm.AlarmRun
import Minix.Pipe.Calls
import Minix.Pipe.Books
import Minix.Pipe.Hangs
import Minix.Pipe.Tables
import Minix.Pipe.CallBooks
import Minix.Pipe.Bookkeeping
import Minix.Fs.BitMap
import Minix.Fs.MapAgree
import Minix.Lib.Once
import Minix.Llvm.InitOnce
import Minix.Llvm.SelectiveReceive
import Minix.Llvm.QueueRegistry
import Minix.Fs.Dir
import Minix.Fs.DirScan
import Minix.Fs.DirCalls
import Minix.Fs.DirMap
import Minix.Fs.InodeTable
import Minix.Fs.Path
import Minix.Fs.Link
import Minix.Fs.Removal
import Minix.Fs.DirNames
import Minix.Ansi.Malloc
import Minix.Ansi.HeapCalls
import Minix.Ansi.Realloc
import Minix.Ansi.HeapRun
import Minix.Ansi.Numerals
import Minix.Ansi.Strtol
import Minix.Ansi.ReadStream
import Minix.Lib.ThreeWay
import Minix.Ansi.Qsort
import Minix.Lib.Calendar
import Minix.Ansi.Ctime
import Minix.Kernel.Vrdwt
import Minix.Lib.Countdown
import Minix.Kernel.Floppy
import Minix.Kernel.FloppyRun
import Minix.Kernel.FloppyExact
import Minix.Fs.Scattered
import Minix.Fs.Address
import Minix.Kernel.Tty
import Minix.Kernel.Umap
import Minix.Kernel.MemTask
import Minix.Lib.Ring
import Minix.Kernel.TtyRing
import Minix.Fs.Accounts
import Minix.Fs.PathNames
import Minix.Fs.SizeLimit
import Minix.Fs.ReadOnly
import Minix.Fs.Mount
import Minix.Fs.MountFail
import Minix.Kernel.Trace
import Minix.Fs.Open
import Minix.Fs.Holding
import Minix.Fs.OpenRights
import Minix.Fs.PathRoom
import Minix.Kernel.TtyLines
import Minix.Kernel.TtyLineRead
import Minix.Kernel.TtyAnswers
import Minix.Kernel.Rs232
import Minix.Kernel.Rs232Run
import Minix.Mm.AlarmLaw
import Minix.Mm.Break
import Minix.Mm.HoleCount
import Minix.Mm.HoleGrowth
import Minix.Mm.Ends
import Minix.Mm.FreshPids
import Minix.Mm.Exec
import Minix.Mm.ExecLoad
import Minix.Mm.ExecFits
import Minix.Mm.Relocate
import Minix.Mm.Intel
import Minix.Mm.Accounting
import Minix.Pipe.Keeps
import Minix.Pipe.Apart
import Minix.Lib.Flow
import Minix.Pipe.Streams
import Minix.Pipe.ByteStream
import Minix.Pipe.NamedPipe
import Minix.Kernel.FloppyRun
import Minix.Kernel.FloppyExact
import Minix.Lib.Comp
import Minix.Commands.Fsck
import Minix.Commands.FsckEnds
import Minix.Lib.Insertion
import Minix.Fs.ScatterSort
import Minix.Lib.Places
import Minix.Ansi.Doprintf
import Minix.Ansi.PrintfItem
import Minix.Ansi.Scanf
import Minix.Ansi.ScanfExact
import Minix.Fs.NilInode
import Minix.Kernel.Vdu
import Minix.Kernel.VduRun
import Minix.Mm.MapRun
