import Xv6.LabelledRuns
import Xv6.ByteFields
import Xv6.UthreadModel
import Xv6.UthreadTableInvariant
import Xv6.UthreadScan
import Xv6.UthreadFairness
import Xv6.UthreadCreation
import Xv6.UthreadMain
import Xv6.CooperativeSwitch
import Xv6.CooperativeContexts
import Xv6.UserMachine
import Xv6.TrapModel
import Xv6.PreemptionTransparency
import Xv6.BufferCache
import Xv6.RedoLog
import Xv6.LogModel
import Xv6.LogInvariant
import Xv6.LogWorker
import Xv6.LogAtomicity
import Xv6.LogAdmission
import Xv6.LinkedRing
import Xv6.BufferCoherence
import Xv6.BreadCoherence
import Xv6.RecencyOrder
import Xv6.LeastRecentlyUsed
import Xv6.StateTriples
import Xv6.BlockOwners
import Xv6.InodeBlocks
import Xv6.ArpTable
import Xv6.BlockAccounting
import Xv6.BlockOperations
import Xv6.BlockRoom
import Xv6.FileContents
import Xv6.PageTable
import Xv6.IndexedBags
import Xv6.VmModel
import Xv6.AddressSpace
import Xv6.PageMapping
import Xv6.UserSizes
import Xv6.SizeChanges
import Xv6.GrownMemory
import Xv6.PageRanges
import Xv6.MappedRanges
import Xv6.SpaceRelease
import Xv6.KernelMapping
import Xv6.FrameBuffer
import Xv6.SpaceCopy
import Xv6.ForkSpaces
import Xv6.Copyout
import Xv6.ExecImage
import Xv6.ExecStack
import Xv6.SpaceChanges
import Xv6.ProcessSpaces
import Xv6.KernelStart
import Xv6.ProcTable
import Xv6.RingBuffer
import Xv6.PipeModel
import Xv6.PipeContents
import Xv6.PipeWakeups
import Xv6.SleepWakeup
import Xv6.SleepLocks
import Xv6.ProcModel
import Xv6.ProcStacks
import Xv6.UserSchedulers
import Xv6.KillScope
import Xv6.ExitWait
import Xv6.FsModel
import Xv6.Counting
import Xv6.LockOrder
import Xv6.InodeLocks
import Xv6.InodeLockOrder
import Xv6.DirectoryTree
import Xv6.FsSequential
import Xv6.FsCalls
import Xv6.DanglingEntries
import Xv6.LinkCounts
import Xv6.CallRuns
import Xv6.TransmitRing
import Xv6.TcpSegments
import Xv6.SyscallModel
import Xv6.InodeReferences
import Xv6.OpenFileReferences
import Xv6.CallReferences
import Xv6.PathWalks
import Xv6.FailedCalls
import Xv6.PathResolution
import Xv6.InodeLimits
import Xv6.NewEntries
import Xv6.FullDirectories
import Xv6.ShellParser
import Xv6.ShellGrammar
import Xv6.ShellAcceptance
import Xv6.ShellWords
import Xv6.ShellRuns
import Xv6.ShellSessions
import Xv6.MkfsModel
import Xv6.MkfsImage
import Xv6.MkfsRun
import Xv6.MkfsConsistency
import Xv6.PathLookup
import Xv6.MkfsLookup
import Xv6.DirectoryMaps
import Xv6.ArgumentChecks
import Xv6.TickDecisions
import Xv6.ConsoleModel
import Xv6.ConsoleInput
import Xv6.ConsoleFont
import Xv6.TaggedPieces
import Xv6.SharedWrites
import Xv6.RecordedPrograms
import Xv6.LoggedWrites
import Xv6.BufferSupply
import Xv6.PrefixLanguages
import Xv6.GrepMatcher
import Xv6.StreamLines
import Xv6.GrepLines
import Xv6.ScreenBounds
import Xv6.MemoryMoves
import Xv6.NumberPrinting
import Xv6.DescriptorRings
import Xv6.OnesComplement
import Xv6.IcmpReplies
import Xv6.TcpChecksum
import Xv6.ByteOrder
import Xv6.WhileLoops
import Xv6.MadtScan
import Xv6.ElfRelocation
import Xv6.BootHandOff
import Xv6.FrameHandling
import Xv6.CircularLists
import Xv6.HeapBlocks
import Xv6.UserHeap
import Xv6.UserMalloc
import Xv6.UserHeapRuns
import Xv6.SpinLocks
import Xv6.DiskQueue
