import Rumicos.Proc.EagerRefine
import Rumicos.Proc.MapRefs
import Rumicos.Proc.Coherence
import Rumicos.Proc.ShootdownWait
import Rumicos.Memory.BuddyRuns
import Rumicos.Fs.PipeEof
import Rumicos.Paging.DirectMapRuns
import Rumicos.Proc.StaleTlb
import Rumicos.Proc.CowRace
import Rumicos.Proc.SignalKill
import Rumicos.Proc.SyscallFrames
import Rumicos.Proc.SignalReturn
import Rumicos.Proc.SignalFrame
import Rumicos.Proc.WaitChildren
import Rumicos.Proc.FailedCalls
import Rumicos.Proc.Reaping
import Rumicos.Sched.FpuState
import Rumicos.Sched.KMutex
import Rumicos.Sched.ExitEdge
import Rumicos.Proc.SysretRip
import Rumicos.Sched.SelfDeadlock
import Rumicos.Proc.Execve
import Rumicos.Proc.ActiveSpaces
import Rumicos.Fs.RamfsFile
import Rumicos.Fs.Names
import Rumicos.Fs.Unpack
import Rumicos.Fs.CacheRace
import Rumicos.Proc.Mappings
import Rumicos.Proc.LibExec
import Rumicos.Proc.UserEntry
import Rumicos.Memory.Pcid
import Rumicos.Memory.TaggedStack
import Rumicos.Ipc.Spsc
import Rumicos.Paging.Translate
import Rumicos.Shell.Exec
import Rumicos.Smp.Madt
import Rumicos.Virtio.Queue
import Rumicos.Sync.SeqLock
