import Onix.Fs.BadDescriptors
import Onix.Fs.Bitmaps
import Onix.Fs.BlockMap
import Onix.Fs.Chroot
import Onix.Fs.Descriptors
import Onix.Fs.Directory
import Onix.Fs.Entries
import Onix.Fs.FileBytes
import Onix.Fs.Files
import Onix.Fs.FreeTree
import Onix.Fs.Holes
import Onix.Fs.Inode
import Onix.Fs.Layout
import Onix.Fs.Matcher
import Onix.Fs.MountRuns
import Onix.Fs.Normalise
import Onix.Fs.Offsets
import Onix.Fs.OutOfSpace
import Onix.Fs.PipeFiles
import Onix.Fs.PipeRuns
import Onix.Fs.SharedWrite
import Onix.Fs.Space
import Onix.Fs.Spelling
import Onix.Fs.Transfer
import Onix.Fs.Truncate
import Onix.Fs.Visits
import Onix.Fs.ZoneAlloc
import Onix.Fs.ZoneTree
import Onix.Kernel.Argv
import Onix.Kernel.BlockStore
import Onix.Kernel.Buffer
import Onix.Kernel.BufferTasks
import Onix.Kernel.Calendar
import Onix.Kernel.Clock
import Onix.Kernel.Console
import Onix.Kernel.ContextSwitch
import Onix.Kernel.Elevator
import Onix.Kernel.Elf
import Onix.Kernel.Execve
import Onix.Kernel.Faults
import Onix.Kernel.FirstFit
import Onix.Kernel.Fork
import Onix.Kernel.FormatScan
import Onix.Kernel.HeapRuns
import Onix.Kernel.Interrupt
import Onix.Kernel.IntrusiveList
import Onix.Kernel.Isolation
import Onix.Kernel.KernelPages
import Onix.Kernel.Keyboard
import Onix.Kernel.KeyboardRead
import Onix.Kernel.LoadedDir
import Onix.Kernel.MmapArea
import Onix.Kernel.MmapStack
import Onix.Kernel.Mutex
import Onix.Kernel.NumberLayout
import Onix.Kernel.PagingRuns
import Onix.Kernel.Ramdisk
import Onix.Kernel.SchedulerRuns
import Onix.Kernel.Serial
import Onix.Kernel.Sleep
import Onix.Kernel.SysTime
import Onix.Kernel.TimeSlice
import Onix.Kernel.Vsprintf
import Onix.Lib.Bytes
import Onix.Lib.Halting
import Onix.Lib.LinkedList
import Onix.Lib.RefCount
import Onix.Lib.Transition
import Onix.Shell.Exec
import Onix.Shell.Parse
import Onix.Shell.Readline
