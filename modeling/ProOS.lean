import ProOS.Sync.Semaphore
import ProOS.Sync.Mutex
import ProOS.Sched.NoneLost
import ProOS.Sched.Acknowledge
import ProOS.Sched.Pids
import ProOS.Ramfs.Failure
import ProOS.Ramfs.FileMap
import ProOS.Fat.Writeback
import ProOS.Net.Checksum
import ProOS.Kernel.ShareTable
import ProOS.Syscall.Confinement
import ProOS.Syscall.Receive
import ProOS.Syscall.Region
import ProOS.Irq.Deadlock
import ProOS.Device.Handles
import ProOS.Memory.Heap
import ProOS.Vfs.Normalize
import ProOS.Vfs.Dispatch
import ProOS.Ramfs.Listing
import ProOS.Devmgr.Tree
import ProOS.E1000.Transmit
import ProOS.Fat.Refinement
import ProOS.Net.Sockets
import ProOS.Keyboard.Decoder
import ProOS.Keyboard.Poll
import ProOS.Module.Relocation
import ProOS.Vbe.Font
import ProOS.Block.Handshake
import ProOS.Klog.Ring
import ProOS.Shell.History
import ProOS.Shell.Numbers
import ProOS.Shell.Decimal
import ProOS.Fat.Mirror
