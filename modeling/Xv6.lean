import Xv6.Lib.Machine
import Xv6.Param
import Xv6.Lib.LittleEndian
import Xv6.Lib.WriteSeq
import Xv6.Log.Commit
import Xv6.Log.Crash
import Xv6.Lib.Tally
import Xv6.Log.GroupCommit
import Xv6.Log.Reservation
import Xv6.Kthread.Mutex
import Xv6.Kthread.MutexTable
import Xv6.Kthread.Tournament
import Xv6.Kthread.TournamentAlloc
import Xv6.Lib.Ring
import Xv6.Bio.Cache
import Xv6.Bio.Invariant
import Xv6.Bio.Transparency
import Xv6.Ptable.Table
import Xv6.Ptable.Sections
import Xv6.Ptable.Kernel
import Xv6.Ptable.Invariant
import Xv6.Ptable.Effects
import Xv6.Ptable.Preserved
import Xv6.Ptable.Steps
import Xv6.Ptable.LockDiscipline
import Xv6.Lib.Ledger
import Xv6.Ptable.Resources
import Xv6.Ptable.Exclusive
import Xv6.Ptable.ThreadSlots
import Xv6.Ptable.Death
import Xv6.Ptable.Kill
import Xv6.Ptable.Stacks
import Xv6.Ptable.WaitJoin
import Xv6.Ptable.Marks
import Xv6.Ptable.ExecWait
import Xv6.Ptable.SleepWakeup
import Xv6.Fs.Path
import Xv6.Fs.Iput
import Xv6.Lib.LockProg
import Xv6.Ilock.Calls
import Xv6.Ilock.Ghost
import Xv6.Ilock.Logic
import Xv6.Ilock.Rules
import Xv6.Ilock.Paths
import Xv6.Ilock.Create
import Xv6.Ilock.Syscalls
import Xv6.Ilock.Deadlock
import Xv6.Lib.LockCode
import Xv6.Spinlock.Code
import Xv6.Spinlock.Order
import Xv6.Spinlock.Cli
import Xv6.Lib.Fifo
import Xv6.Pipe.Pipe
import Xv6.Pipe.Sleepers
import Xv6.Sleeplock
import Xv6.Console
import Xv6.Blocking
import Xv6.File.Descriptors
import Xv6.Vm.UserMemory
import Xv6.Ide.Driver
import Xv6.Ide.Refinement
import Xv6.Fs.Format
import Xv6.Fs.Pointers
import Xv6.Mkfs.Mkfs
import Xv6.Mkfs.Build
import Xv6.Mkfs.Files
import Xv6.Mkfs.Consistent
import Xv6.Lib.Fallible
import Xv6.Lib.Overwrite
import Xv6.Lib.Exact
import Xv6.Fs.Blocks
import Xv6.Fs.Inodes
import Xv6.Fs.Calls
import Xv6.Fs.Reading
import Xv6.Fs.Ownership
import Xv6.Fs.Writing
import Xv6.Fs.Contents
import Xv6.Fs.LogCount
import Xv6.Fs.SharedWrite
import Xv6.Fs.Directory
import Xv6.Fs.Freeing
import Xv6.Fs.Cache
import Xv6.Fs.Dirlink
import Xv6.Fs.Store
import Xv6.Fs.Lookup
import Xv6.Mkfs.ReadBack
import Xv6.Vm.Directory
import Xv6.Vm.Ownership
import Xv6.Vm.Mapping
import Xv6.Vm.Grow
import Xv6.Vm.Spaces
import Xv6.Vm.Copy
import Xv6.Vm.Copyout
import Xv6.Vm.Growproc
import Xv6.Vm.Conservation
import Xv6.Lib.Pool
import Xv6.Exec.Exec
import Xv6.Exec.Load
import Xv6.Exec.Stack
import Xv6.Exec.AllOrNothing
import Xv6.Exec.LongArgument
import Xv6.Exec.ArgumentStack
import Xv6.User.Memmove
import Xv6.User.Match
import Xv6.User.Grep
