import OpenSys.Lib.Run
import OpenSys.Lib.Bitmap
import OpenSys.Lib.Refs
import OpenSys.Lib.Queue
import OpenSys.Lib.Word
import OpenSys.Memory.Pmm
import OpenSys.Memory.PmmCount
import OpenSys.Process.Sched
import OpenSys.Vfs.Model
import OpenSys.Vfs.Calls
import OpenSys.Vfs.RefCount
import OpenSys.Process.ReadyQueue
import OpenSys.Process.Zombie
import OpenSys.Lib.Memory
import OpenSys.Memory.Kheap
import OpenSys.Memory.KheapOps
import OpenSys.Memory.KheapSafe
import OpenSys.Lib.Radix
import OpenSys.Process.Vm
import OpenSys.Memory.PmmSpec
import OpenSys.Process.VmTree
import OpenSys.Process.VmProtect
import OpenSys.Process.VmClone
import OpenSys.Process.CloneRoom
import OpenSys.Process.CowIsolation
import OpenSys.Fs.Entry
import OpenSys.Fs.Model
import OpenSys.Fs.Data
import OpenSys.Process.Sleep
import OpenSys.Lib.Tree
import OpenSys.Fs.Slot
import OpenSys.Fs.Lookup
import OpenSys.Fs.Tree
import OpenSys.Fs.Index
import OpenSys.Fs.File
import OpenSys.Fs.Clusters
import OpenSys.Kernel.Intent
import OpenSys.Vfs.Io
import OpenSys.Vfs.Isolation
import OpenSys.Vfs.Pipe
import OpenSys.Kernel.Elf
import OpenSys.Kernel.ElfMemory
import OpenSys.Process.CreateUser
import OpenSys.Fs.Transfer
import OpenSys.Fs.Ns
import OpenSys.Fs.NsAlias
import OpenSys.Memory.PmmSafe
import OpenSys.Ui.NlParser
import OpenSys.Kernel.StateGraph
import OpenSys.Lib.FileTree
import OpenSys.Ui.HostFs
import OpenSys.Ui.CopyDir
import OpenSys.Fs.NsTranslate
import OpenSys.Ui.Dispatch
import OpenSys.Ui.Shell
import OpenSys.Fs.Ramfs
import OpenSys.Kernel.Persist
import OpenSys.Net.Receive
import OpenSys.Ui.NlBuffer
import OpenSys.Kernel.Exec
import OpenSys.Memory.Paging
import OpenSys.Fs.Tiling
import OpenSys.Kernel.IntentDispatch
import OpenSys.Vfs.FailedOpen
import OpenSys.Fs.ClampedRead
import OpenSys.Fs.ParentPath
import OpenSys.Fs.TruncateMarks
import OpenSys.Ui.Resolve
import OpenSys.Vfs.PipeFail
import OpenSys.Fs.Conversion
import OpenSys.Fs.Splice
import OpenSys.Fs.OutOfSpace
import OpenSys.Process.VmMap
import OpenSys.Vfs.SysWrite
import OpenSys.Process.Fork
import OpenSys.Kernel.Acl
import OpenSys.Drivers.Part
import OpenSys.Ui.Redirect
import OpenSys.Ui.Phrases
import OpenSys.Fs.Readdir
