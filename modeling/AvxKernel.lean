import AvxKernel.Lib.Machine
import AvxKernel.Lib.Bytes
import AvxKernel.Lib.Ring
import AvxKernel.Lib.Chain
import AvxKernel.Lib.Fifo
import AvxKernel.Lib.Paired
import AvxKernel.Lib.RefCount
import AvxKernel.Lib.Outcome
import AvxKernel.Lib.Words
import AvxKernel.Params
import AvxKernel.Bio.Bcache
import AvxKernel.Bio.Invariant
import AvxKernel.Bio.Coherence
import AvxKernel.Vm.Pte
import AvxKernel.Vm.Paging
import AvxKernel.Vm.Table
import AvxKernel.Vm.Refinement
import AvxKernel.Vm.Copy
import AvxKernel.Vm.Containment
import AvxKernel.Vm.Space
import AvxKernel.Vm.Pool
import AvxKernel.Vm.Fill
import AvxKernel.Vm.Clone
import AvxKernel.Vm.Grow
import AvxKernel.Vm.RoundTrip
import AvxKernel.Vm.Teardown
import AvxKernel.Kalloc.Callers
import AvxKernel.Kalloc.Partition
import AvxKernel.Exec.Vma
import AvxKernel.Exec.Load
import AvxKernel.Exec.Exec
import AvxKernel.Exec.Failure
import AvxKernel.Exec.Areas
import AvxKernel.Exec.Alloc
import AvxKernel.Exec.Mmap
import AvxKernel.Exec.Mapped
import AvxKernel.Exec.Anonymous
import AvxKernel.Exec.Protect
import AvxKernel.Exec.Grow
import AvxKernel.Exec.Fork
import AvxKernel.Exec.Inherit
import AvxKernel.Exec.Inherited
import AvxKernel.Exec.Segment
import AvxKernel.Exec.View
import AvxKernel.Exec.Push
import AvxKernel.Exec.Auxv
import AvxKernel.Exec.Stack
import AvxKernel.Exec.Layout
import AvxKernel.Exec.Ready
import AvxKernel.Fat.Volume
import AvxKernel.Fat.Mount
import AvxKernel.Fat.Alloc
import AvxKernel.Fat.Name
import AvxKernel.Fat.Entry
import AvxKernel.Fat.Directory
import AvxKernel.Fat.Codec
import AvxKernel.Fat.Bounds
import AvxKernel.Fat.Listing
import AvxKernel.Fat.Remove
import AvxKernel.Fat.FreeSlots
import AvxKernel.Fat.Truncate
import AvxKernel.Fat.Marks
import AvxKernel.Fat.File
import AvxKernel.Ipc.Pipe
import AvxKernel.Ipc.PipeOrder
import AvxKernel.Fd.Ftable
import AvxKernel.Fd.Calls
import AvxKernel.Fd.Counts
import AvxKernel.Lib.Prog
import AvxKernel.Lib.Triple
import AvxKernel.Fs.Ecache
import AvxKernel.Fs.Ledger
import AvxKernel.Fs.Cached
import AvxKernel.Fs.Lookups
import AvxKernel.Fs.Calls
import AvxKernel.Fs.Holders
import AvxKernel.Fs.Descriptors
import AvxKernel.Fs.Removal
import AvxKernel.Fs.References
import AvxKernel.Fs.Counted
import AvxKernel.Fs.Getcwd
import AvxKernel.Fs.Retraced
import AvxKernel.Proc.Table
import AvxKernel.Proc.Family
import AvxKernel.Proc.Reaping
import AvxKernel.Proc.Wakeup
import AvxKernel.Life.Task
import AvxKernel.Life.Locks
import AvxKernel.Life.Sleep
import AvxKernel.Life.Balance
import AvxKernel.Fd.Handlers
import AvxKernel.Fd.Safety
import AvxKernel.Fd.Typed
import AvxKernel.Console.Console
import AvxKernel.Console.Lines
import AvxKernel.Dirs.Tree
import AvxKernel.Dirs.Paths
import AvxKernel.Dirs.Create
import AvxKernel.Dirs.Find
import AvxKernel.Dirs.Calls
import AvxKernel.Dirs.Dirfd
import AvxKernel.Lib.Logged
import AvxKernel.Dirs.Buffers
import AvxKernel.Fat.Beside
import AvxKernel.Fat.Contents
import AvxKernel.Fs.Mounted
import AvxKernel.Fs.Beside
import AvxKernel.Fs.Unlinked
import AvxKernel.Fs.Orphan
import AvxKernel.Ipc.Faults
import AvxKernel.Proc.Status
import AvxKernel.Proc.Signals
import AvxKernel.Fat.Deliver
import AvxKernel.Fat.Cursors
import AvxKernel.File.Opened
import AvxKernel.File.Pread
import AvxKernel.Fat.Split
import AvxKernel.Fat.Stops
import AvxKernel.File.Vectors
import AvxKernel.File.Gather
import AvxKernel.File.Readv
import AvxKernel.File.OneRead
import AvxKernel.File.Writev
import AvxKernel.File.OneWrite
import AvxKernel.Fd.Flags
import AvxKernel.Fd.Requests
import AvxKernel.Fs.CloseOnExec
import AvxKernel.File.Send
import AvxKernel.File.Sent
import AvxKernel.File.CopyRange
import AvxKernel.File.CopyPages
import AvxKernel.Lib.Queue
import AvxKernel.Rbuf.RingBuffer
import AvxKernel.Rbuf.Fifo
import AvxKernel.Fat.Shortname
import AvxKernel.Fat.Reloc
import AvxKernel.Lib.Code
import AvxKernel.Sched.Cpu
import AvxKernel.Sched.Kernel
import AvxKernel.Sched.Rules
import AvxKernel.Sched.Specs
import AvxKernel.Sched.Tables
import AvxKernel.Sched.Switching
import AvxKernel.Sched.Children
import AvxKernel.Sched.Traps
import AvxKernel.Sched.Runs
import AvxKernel.Sched.Registers
import AvxKernel.Sched.Locking
import AvxKernel.Sched.Processes
import AvxKernel.Sched.Invariant
import AvxKernel.Sched.Safety
import AvxKernel.Trap.Switch
