import Xv6.Block.Lookup
import Xv6.Block.Trunc
import Xv6.Cache.Coherent
import Xv6.Console.Line
import Xv6.Fs.AnyLink
import Xv6.Fs.Symlink
import Xv6.Fs.Written
import Xv6.Log.Admission
import Xv6.Log.Crash
import Xv6.Lwp.Exec2
import Xv6.Lwp.Exit
import Xv6.Lwp.FindProc
import Xv6.Lwp.Handshake
import Xv6.Lwp.Inherit
import Xv6.Lwp.OneSize
import Xv6.Lwp.Parents
import Xv6.Lwp.Reclaim
import Xv6.Lwp.Sbrk
import Xv6.Memory.Kalloc
import Xv6.Mlfq.Boost
import Xv6.Mlfq.Lock
import Xv6.Mlfq.Panic
import Xv6.Mlfq.Policy
import Xv6.Mlfq.Sleep
import Xv6.Pipe.Wakeup
import Xv6.Smp.Deadlock
import Xv6.Sync.Sleeplock
import Xv6.User.Grep
import Xv6.User.Pmanager
