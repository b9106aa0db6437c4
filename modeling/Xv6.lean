import Xv6.Log.Space
import Xv6.Sched.Priority
import Xv6.Sched.Allotment
import Xv6.Wait.Reap
import Xv6.Wait.Pids
import Xv6.Wait.Kill
import Xv6.Names.Overflow
import Xv6.Bcache.Runs
import Xv6.Pipe.Fifo
import Xv6.Switch.Interrupts
import Xv6.Switch.Wakeup
import Xv6.Sched.Boost
import Xv6.Blocks.NoHoles
import Xv6.Blocks.Offset
import Xv6.Virtio.Requests
import Xv6.Vm.Map
import Xv6.Sh.Strings
import Xv6.Console.Lines
import Xv6.Blocks.DirMap
import Xv6.Undo.Open
import Xv6.Reclaim.Boot
import Xv6.Sched.Turns
import Xv6.Mkfs.Layout
import Xv6.Umalloc.Sbrk
import Xv6.Grep.Lines
import Xv6.Lib.Printint
