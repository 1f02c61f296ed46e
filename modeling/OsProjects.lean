import OsProjects.Machine.Transition
import OsProjects.Machine.Program
import OsProjects.Machine.Bytes
import OsProjects.Machine.BlockProgram
import OsProjects.Machine.Ownership
import OsProjects.Machine.Ledger
import OsProjects.Machine.Tokens
import OsProjects.Machine.Congruential
import OsProjects.WebServer.Queue
import OsProjects.WebServer.Threads
import OsProjects.WebServer.LineReuse
import OsProjects.WebServer.Conservation
import OsProjects.Scheduler.ProcessTable
import OsProjects.Scheduler.Accounts
import OsProjects.Scheduler.Seats
import OsProjects.Scheduler.Reservation
import OsProjects.Scheduler.History
import OsProjects.Scheduler.Newcomer
import OsProjects.Scheduler.Kill
import OsProjects.Scheduler.Statistics
import OsProjects.AddressSpace.Layout
import OsProjects.AddressSpace.SyscallArguments
import OsProjects.AddressSpace.StringArguments
import OsProjects.AddressSpace.PhysicalMemory
import OsProjects.AddressSpace.PageTable
import OsProjects.AddressSpace.KernelMap
import OsProjects.AddressSpace.UserMemory
import OsProjects.AddressSpace.Exec
import OsProjects.AddressSpace.ExecOutcome
import OsProjects.AddressSpace.Process
import OsProjects.AddressSpace.Collision
import OsProjects.AddressSpace.Balance
import OsProjects.AddressSpace.Reclaim
import OsProjects.AddressSpace.Leak
import OsProjects.AddressSpace.SoundImage
import OsProjects.AddressSpace.FailedExec
import OsProjects.AddressSpace.PageEntries
import OsProjects.AddressSpace.Sbrk
import OsProjects.AddressSpace.PageFault
import OsProjects.AddressSpace.ForkCopy
import OsProjects.AddressSpace.ExecArguments
import OsProjects.WebServer.ShortestFirst
import OsProjects.TripleFs.BufferCache
import OsProjects.TripleFs.DiskFormat
import OsProjects.TripleFs.Slots
import OsProjects.TripleFs.Inodes
import OsProjects.TripleFs.ImageBuilder
import OsProjects.TripleFs.ImageFiles
import OsProjects.TripleFs.ImageReading
import OsProjects.TripleFs.MirroredRead
import OsProjects.Scheduler.Lottery
import OsProjects.Scheduler.Generator
import OsProjects.Scheduler.Carry
import OsProjects.TripleFs.BlockAllocator
import OsProjects.TripleFs.HostTree
import OsProjects.TripleFs.Mirrors
import OsProjects.TripleFs.Growth
import OsProjects.TripleFs.Writing
import OsProjects.TripleFs.MirroredFiles
import OsProjects.TripleFs.FileCalls
import OsProjects.TripleFs.References
import OsProjects.TripleFs.Directories
import OsProjects.TripleFs.DirectoryMap
import OsProjects.TripleFs.DirectoryCalls
import OsProjects.TripleFs.PathLookup
import OsProjects.TripleFs.HostDirectories
import OsProjects.Shell.Mysh
import OsProjects.Shell.Reading
import OsProjects.Shell.TypedCommands
import OsProjects.Shell.MissingTokens
import OsProjects.Paradox.Answers
import OsProjects.Paradox.Simulation
import OsProjects.TripleFs.LiveVolume
import OsProjects.TripleFs.BlockMap
import OsProjects.TripleFs.HeldBlocks
import OsProjects.TripleFs.BufferDiscipline
import OsProjects.TripleFs.Truncation
import OsProjects.TripleFs.BlockCalls
import OsProjects.TripleFs.KernelOrder
import OsProjects.TripleFs.InodeUpdates
import OsProjects.TripleFs.FilesInOrder
import OsProjects.TripleFs.SystemCalls
import OsProjects.TripleFs.CallsInOrder
import OsProjects.TripleFs.ImageInOrder
import OsProjects.TripleFs.FileRuns
import OsProjects.TripleFs.FreeBlocks
import OsProjects.Machine.Supply
import OsProjects.TripleFs.DiskCheck
import OsProjects.WebServer.RobustInput
import OsProjects.WebServer.Client
import OsProjects.WebServer.Requests
import OsProjects.Channels.Pipe
import OsProjects.Channels.PipeProcesses
import OsProjects.Channels.PipeTraffic
import OsProjects.Machine.Forest
import OsProjects.Scheduler.Families
import OsProjects.Channels.Console
import OsProjects.Channels.ConsoleReaders
import OsProjects.Shell.Pipeline
import OsProjects.TripleFs.DiskQueue
import OsProjects.TripleFs.SharedContents
import OsProjects.Machine.Packing
import OsProjects.Machine.SortedRing
import OsProjects.UserPrograms.Allocator
import OsProjects.UserPrograms.AllocatorCalls
import OsProjects.UserPrograms.AllocatorRuns
import OsProjects.UserPrograms.ShellParser
import OsProjects.UserPrograms.ShellLines
import OsProjects.UserPrograms.ShellRoundTrip
import OsProjects.Processors.SpinLocks
