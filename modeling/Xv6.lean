import Xv6.Log.Crash
import Xv6.Log.Space
import Xv6.Vm.Spaces
import Xv6.Sched.Order
import Xv6.Pipe.Wait
import Xv6.Pipe.Read
import Xv6.Virtio.Protocol
import Xv6.Bio.Lru
import Xv6.Fs.Descriptors
import Xv6.Fs.Open
import Xv6.Fs.Wide
import Xv6.Fs.Chunks
import Xv6.Fs.Shared
import Xv6.Console.Discipline
import Xv6.Grep.Buffer
import Xv6.Xargs.Words
import Xv6.Fs.Bitmap
import Xv6.Fs.Read
import Xv6.Bio.Commit
import Xv6.Sh.Words
import Xv6.Sh.Run
import Xv6.Primes.Overflow
import Xv6.Memmove
import Xv6.Uart.Queue
import Xv6.Sleeplock
import Xv6.Intr.Restore
import Xv6.Find.Search
