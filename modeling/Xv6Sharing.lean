import Xv6Sharing.Share.TableTheorems
import Xv6Sharing.Process.ParentPgdir
import Xv6Sharing.Process.Regions
import Xv6Sharing.Sched.Kill
import Xv6Sharing.Sched.Handover
import Xv6Sharing.Sched.Spinlock
import Xv6Sharing.Sched.Sleeplock
import Xv6Sharing.Pipes.Theorems
import Xv6Sharing.Log.Recovery
import Xv6Sharing.Console.Refinement
import Xv6Sharing.Ide.Refinement
import Xv6Sharing.Bio.Coherence
import Xv6Sharing.Process.OpenFiles
import Xv6Sharing.Process.ForkCopy
import Xv6Sharing.Process.LostArguments
import Xv6Sharing.User.SharedPath
import Xv6Sharing.User.Extrema
import Xv6Sharing.User.Scan
import Xv6Sharing.User.ShellRedirs
import Xv6Sharing.User.HeapSize
import Xv6Sharing.Fs.FileWrite
import Xv6Sharing.Fs.DirectoryMap
import Xv6Sharing.Kernel.Memmove
import Xv6Sharing.Kernel.MpTable
import Xv6Sharing.User.GrepMatch
import Xv6Sharing.User.Numbers
import Xv6Sharing.User.GrepLines
