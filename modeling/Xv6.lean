import Xv6.Block
import Xv6.Threads.Prog
import Xv6.Log.Model
import Xv6.Log.History
import Xv6.Log.Inv
import Xv6.Log.Bio
import Xv6.Log.Rules
import Xv6.Log.Clients
import Xv6.Log.Commit
import Xv6.Log.Recover
import Xv6.Log.Runs
import Xv6.Kern
import Xv6.Vm.Model
import Xv6.Vm.Proc
import Xv6.Holdings
import Xv6.Vm.Table
import Xv6.Vm.Life
import Xv6.Vm.Access
import Xv6.Vm.Inv
import Xv6.Vm.Exec
import Xv6.Vm.Runs
import Xv6.Cells
import Xv6.Vm.Lazy
import Xv6.Fs.Dir
import Xv6.Proc.Cpu
import Xv6.Proc.Table
import Xv6.Proc.Sleep
import Xv6.Proc.Refs
import Xv6.Proc.Inv
import Xv6.Proc.Rules
import Xv6.Proc.Life
import Xv6.Proc.Inode
import Xv6.Proc.Calls
import Xv6.Proc.Syscalls
import Xv6.Proc.Runs
import Xv6.X86.Log
import Xv6.X86.Fs
import Xv6.X86.SelfLock
import Xv6.X86.SelfLockRuns
import Xv6.Pipe
import Xv6.Virtio.Model
import Xv6.Virtio.Inv
import Xv6.Virtio.Steps
import Xv6.Virtio.Protocol
import Xv6.Ftable.Model
import Xv6.Ftable.Inv
import Xv6.Ftable.Rules
import Xv6.Ftable.Pipes
import Xv6.Ftable.Procs
import Xv6.Ftable.Calls
import Xv6.Fs.Blocks
import Xv6.Fs.Content
import Xv6.Fs.Write
import Xv6.Fs.ByteArray
import Xv6.Fs.Entries
import Xv6.Fs.Directory
import Xv6.Fs.DirMap
import Xv6.Vm.Fault
import Xv6.Vm.Sbrk
import Xv6.Vm.Copy
import Xv6.Vm.Fork
import Xv6.PageTable.Model
import Xv6.PageTable.Tree
import Xv6.PageTable.Map
import Xv6.Vm.Frees
import Xv6.Vm.Image
import Xv6.Exec.Load
import Xv6.Exec.Commit
import Xv6.Exec.Image
import Xv6.Vm.Room
import Xv6.Exec.Args
import Xv6.Fs.Held
import Xv6.Fs.Path
import Xv6.Fs.Free
import Xv6.Fs.Reclaim
import Xv6.Exec.Disk
import Xv6.User.Match
import Xv6.User.Grep
import Xv6.Cyclic
import Xv6.Tiling
import Xv6.User.FreeList
import Xv6.User.Alloc
import Xv6.User.Grammar
import Xv6.User.Parse
import Xv6.User.Accept
import Xv6.User.Terminate
import Xv6.Console
import Xv6.Threads.Own
import Xv6.Fs.Shared
import Xv6.X86.Ide
import Xv6.X86.Mp
import Xv6.Memmove
import Xv6.Printf
import Xv6.X86.Bio
