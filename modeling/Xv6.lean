import Xv6.Storage.Crash
import Xv6.GroupCommit.Reservation
import Xv6.Spinlock.Paths
import Xv6.Spinlock.Acquire
import Xv6.FileSystem.Drop
import Xv6.Tree.Dangling
import Xv6.Scheduler.Lottery
import Xv6.PTable.Family
import Xv6.PTable.Killed
import Xv6.SyscallLog.Bounds
import Xv6.SyscallLog.Archive
import Xv6.Scheduler.Turns
import Xv6.Scheduler.Alarm
import Xv6.Tree.Failing
import Xv6.BufferCache.Transparent
import Xv6.Pipes.Wakeup
import Xv6.SleepLock.Exclusion
import Xv6.Ide.Refines
import Xv6.Console.Line
import Xv6.Shell.Run
import Xv6.Mkfs.Reads
import Xv6.Process.Exec
import Xv6.Scheduler.Hrrn
import Xv6.Tree.Path
import Xv6.FileSystem.Chunk
import Xv6.FileSystem.Directory
import Xv6.Grep.Lines
import Xv6.Syscall.Arguments
import Xv6.Vm.Dealloc
