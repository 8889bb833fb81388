import Xv6.Param
import Xv6.Lib.Transition
import Xv6.Sched.Proc
import Xv6.Sched.Smp
import Xv6.Sched.Exclusion
import Xv6.Sched.Demotion
import Xv6.Sched.Pass
import Xv6.Sched.Starvation
import Xv6.Sched.Bookkeeping
import Xv6.Sched.Counters
import Xv6.Sched.Conservation
import Xv6.Sched.Promotion
import Xv6.Sched.Pid
import Xv6.Sched.RoundRobin
import Xv6.Lib.Bytes
import Xv6.Lib.AtomicWrites
import Xv6.Lib.Loop
import Xv6.Lib.Program
import Xv6.Lib.Slots
import Xv6.Lib.Ring
import Xv6.Lib.Forest
import Xv6.Lib.FreeList
import Xv6.Lib.Fuel
import Xv6.Sync.Machine
import Xv6.Sync.Monitor
import Xv6.Sync.Calls
import Xv6.Sync.Base
import Xv6.Sync.Deadlock
import Xv6.Sync.Pipe
import Xv6.Sync.Kill
import Xv6.Sync.Victim
import Xv6.Sync.PipeWakeup
import Xv6.Sync.Family
import Xv6.Sync.Wait
import Xv6.Vm.Riscv
import Xv6.Vm.Kalloc
import Xv6.Vm.PageTable
import Xv6.Vm.Tree
import Xv6.Vm.Tables
import Xv6.Vm.Space
import Xv6.Vm.Entry
import Xv6.Vm.Walk
import Xv6.Vm.Hang
import Xv6.Vm.PageMap
import Xv6.Vm.Uvm
import Xv6.Vm.Grow
import Xv6.Vm.Freewalk
import Xv6.Vm.Lifecycle
import Xv6.Vm.Proc
import Xv6.Vm.Processes
import Xv6.Vm.Copy
import Xv6.Vm.Exec
import Xv6.Vm.Image
import Xv6.Vm.Kexec
import Xv6.Vm.Ownership
import Xv6.Vm.Isolation
import Xv6.Vm.UserMemory
import Xv6.Vm.Fill
import Xv6.Vm.Uvmcopy
import Xv6.Vm.Sbrk
import Xv6.Vm.FlatMemory
import Xv6.Vm.Startup
import Xv6.Pinfo.Pstat
import Xv6.Log.Protocol
import Xv6.Log.GroupCommit
import Xv6.Log.Capacity
import Xv6.Log.Disk
import Xv6.Log.Recovery
import Xv6.Console.LineDiscipline
import Xv6.User.Umalloc
import Xv6.User.MallocSize
import Xv6.User.Regexp
import Xv6.User.Grep
import Xv6.Sh.Grammar
import Xv6.Sh.Parser
import Xv6.Sh.Parsecmd
import Xv6.Sh.Nulterminate
import Xv6.Fs.Layout
import Xv6.Fs.Disk
import Xv6.Fs.Inode
import Xv6.Fs.View
import Xv6.Fs.Blocks
import Xv6.Fs.Bmap
import Xv6.Fs.Content
import Xv6.Fs.ReadWrite
import Xv6.Fs.Eviction
import Xv6.Fs.Dir
import Xv6.Fs.Directory
import Xv6.Fs.Node
import Xv6.Fs.Table
import Xv6.Fs.Lookup
import Xv6.Fs.Path
import Xv6.Fs.Image
import Xv6.Fs.Resolution
import Xv6.Fs.Calls
import Xv6.Fs.NameCalls
import Xv6.Fs.FailedCalls
import Xv6.Fs.Ireclaim
import Xv6.Fs.Sys
import Xv6.Fs.FileIO
import Xv6.Fs.Effects
import Xv6.Fs.Names
import Xv6.Fs.References
import Xv6.Fs.OpenCalls
import Xv6.Fs.FailedOpen
import Xv6.Fs.Transfer
import Xv6.Fs.ReadCount
import Xv6.Libc.Memmove
import Xv6.Libc.Printint
import Xv6.Sync.Interrupts
import Xv6.Sync.PushOff
