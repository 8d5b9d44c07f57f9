import Kaguya.FileSystem.Unrecognized
import Kaguya.Tcp.Timers
import Kaguya.Tcp.SendStream
import Kaguya.Tcp.ReceiveStream
import Kaguya.Scheduler.Backlog
import Kaguya.Pipe.Overtaking
import Kaguya.Shared.Exactness
import Kaguya.Space.Loading
import Kaguya.Space.Isolation
import Kaguya.Syscall.Validation
import Kaguya.FileSystem.Exhaustion
import Kaguya.Net.Resolver
import Kaguya.Net.Waiting
import Kaguya.Xhci.Ring
import Kaguya.Nvme.Driver
import Kaguya.Frames.Pool
import Kaguya.Sync.Spinlock
import Kaguya.Net.Codecs
import Kaguya.Paging.Walks
import Kaguya.Acpi.Records
import Kaguya.Heap.Moving
import Kaguya.FileSystem.Freeing
import Kaguya.Net.Card
import Kaguya.Net.Echo
import Kaguya.Nvme.PageLists
import Kaguya.User.Utf8
import Kaguya.User.Shell
