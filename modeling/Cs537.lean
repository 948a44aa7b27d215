import Cs537.Library.Runs
import Cs537.Library.Programs
import Cs537.Library.LinkedQueue
import Cs537.Library.Occurrences
import Cs537.Library.Ledger
import Cs537.Library.Ring
import Cs537.Library.DoublyLinked
import Cs537.Library.OrderedMap
import Cs537.Library.Chunks
import Cs537.Library.Journal
import Cs537.Library.Counters
import Cs537.Library.Forest
import Cs537.Library.Allocation
import Cs537.Scheduler.ProcTable
import Cs537.Scheduler.Effects
import Cs537.Scheduler.Steps
import Cs537.Scheduler.RunQueue
import Cs537.Scheduler.Changes
import Cs537.Scheduler.Integrity
import Cs537.Scheduler.Fairness
import Cs537.Scheduler.TickAccounting
import Cs537.Scheduler.Compensation
import Cs537.Scheduler.TurnBudget
import Cs537.Scheduler.Dispatching
import Cs537.Scheduler.SleepDuration
import Cs537.Scheduler.SliceAccess
import Cs537.Scheduler.Newborn
import Cs537.Scheduler.Locking
import Cs537.Scheduler.LockDiscipline
import Cs537.Scheduler.Family
import Cs537.Syscalls.Kernel
import Cs537.Syscalls.Counters
import Cs537.Mysh.Words
import Cs537.Mysh.Loops
import Cs537.Mysh.AliasList
import Cs537.Mysh.AliasTable
import Cs537.Mysh.Execution
import Cs537.Mysh.Copies
import Cs537.Mysh.Tokenizer
import Cs537.Mysh.Redirection
import Cs537.Mysh.Spacing
import Cs537.Mysh.Bounds
import Cs537.Mysh.Framing
import Cs537.Utilities.MyRev
import Cs537.Utilities.MyLook
import Cs537.Utilities.Grep
import Cs537.Vm.Holdings
import Cs537.Vm.Mappings
import Cs537.Vm.Growth
import Cs537.Vm.Recryption
import Cs537.Vm.Frames
import Cs537.Vm.Process
import Cs537.Vm.Launch
import Cs537.Vm.System
import Cs537.Vm.Transparency
import Cs537.Vm.Refinement
import Cs537.Vm.RangeEncryption
import Cs537.Vm.FaultHandler
import Cs537.Vm.DescendingReport
import Cs537.Vm.CountedReport
import Cs537.Vm.RawDump
import Cs537.Vm.Clock
import Cs537.Vm.ClockRing
import Cs537.Vm.PageFaults
import Cs537.Vm.Supply
import Cs537.Vm.WorkingSet
import Cs537.Vm.HeapGrowth
import Cs537.Vm.HeapShrink
import Cs537.Vm.Residency
import Cs537.Vm.WrittenWords
import Cs537.Vm.ReportBounds
import Cs537.Vm.Allotment
import Cs537.Vm.Exec
import Cs537.Vm.Loading
import Cs537.Vm.Arguments
import Cs537.Vm.Commitment
import Cs537.Filesystem.Log
import Cs537.Filesystem.Recovery
import Cs537.Filesystem.Calls
import Cs537.Filesystem.Reservation
import Cs537.Filesystem.Buffers
import Cs537.Filesystem.Blocks
import Cs537.Filesystem.Inodes
import Cs537.Filesystem.FreeMap
import Cs537.Filesystem.References
import Cs537.Filesystem.Truncation
import Cs537.Filesystem.Contents
import Cs537.Filesystem.Files
import Cs537.Filesystem.Capacity
import Cs537.Filesystem.Requests
import Cs537.Filesystem.Directories
import Cs537.Filesystem.Lookup
import Cs537.Filesystem.Paths
import Cs537.Filesystem.Links
import Cs537.Pipes.Pipe
import Cs537.Pipes.Protocol
