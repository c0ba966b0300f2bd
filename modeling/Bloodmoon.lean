import Bloodmoon.Ext2.BlockSearch
import Bloodmoon.Ext2.DistinctNames
import Bloodmoon.Ext2.Driver
import Bloodmoon.Ext2.GetDentry
import Bloodmoon.Ext2.RecordWalks
import Bloodmoon.Ext2.Register
import Bloodmoon.Ext2.WriteSize
import Bloodmoon.Gui.Focus
import Bloodmoon.Heap.Contents
import Bloodmoon.Heap.DoubleFree
import Bloodmoon.Heap.Expansions
import Bloodmoon.Heap.Sizes
import Bloodmoon.Heap.Stacks
import Bloodmoon.Memory.Accounting
import Bloodmoon.Memory.Contiguous
import Bloodmoon.Memory.Exclusive
import Bloodmoon.Memory.Placement
import Bloodmoon.Memory.RequestPage
import Bloodmoon.Net.ArpCache
import Bloodmoon.Paging.Copies
import Bloodmoon.Paging.Protect
import Bloodmoon.Proc.LoadedImage
import Bloodmoon.Proc.Syscall
import Bloodmoon.Sched.Locks
import Bloodmoon.Sched.Pids
import Bloodmoon.Sched.Sleep
import Bloodmoon.Tty.Indices
import Bloodmoon.Tty.Rings
import Bloodmoon.Tty.Subscribers
import Bloodmoon.Vfs.Probe
import Bloodmoon.Vfs.Remove
