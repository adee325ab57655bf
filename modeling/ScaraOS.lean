import ScaraOS.Lib.Run
import ScaraOS.Lib.Links
import ScaraOS.Lib.Bytes
import ScaraOS.Lib.Bits
import ScaraOS.Lib.RbTree
import ScaraOS.Lib.RbRotate
import ScaraOS.Lib.RbInsert
import ScaraOS.Lib.Demand
import ScaraOS.Lib.LockOrder
import ScaraOS.Lib.Loops
import ScaraOS.Sched.Model
import ScaraOS.Sched.Placement
import ScaraOS.Sched.Invariant
import ScaraOS.Sched.Soundness
import ScaraOS.Semaphore
import ScaraOS.Slab.Model
import ScaraOS.Slab.Invariant
import ScaraOS.Slab.Alloc
import ScaraOS.Slab.Free
import ScaraOS.Slab.Soundness
import ScaraOS.Fdt.Model
import ScaraOS.Fdt.Walk
import ScaraOS.Fdt.Represents
import ScaraOS.Fdt.Soundness
import ScaraOS.Paging.Model
import ScaraOS.Paging.Invariant
import ScaraOS.Paging.Clone
import ScaraOS.Mm.Model
import ScaraOS.Mm.Fault
import ScaraOS.Mm.Context
import ScaraOS.Mm.Cloned
import ScaraOS.Mm.Clone
import ScaraOS.Ext2.Pread
import ScaraOS.Locking
import ScaraOS.Pages.Model
import ScaraOS.Pages.Ownership
import ScaraOS.Pages.Soundness
import ScaraOS.Inode.Model
import ScaraOS.Inode.Slack
import ScaraOS.Mm.Shared
import ScaraOS.Exec.Model
import ScaraOS.Exec.Load
import ScaraOS.Exec.Panic
import ScaraOS.Exec.Content
import ScaraOS.Exec.Memory
import ScaraOS.Exec.Read
import ScaraOS.Pci
import ScaraOS.Irq
import ScaraOS.Boot.Model
import ScaraOS.Boot.Tables
import ScaraOS.Boot.Reserve
import ScaraOS.Boot.Populate
import ScaraOS.Boot.Soundness
import ScaraOS.Ext2.Sequential
import ScaraOS.Ext2.Pagecache
import ScaraOS.Ext2.Slice
import ScaraOS.Mm.Lookup
import ScaraOS.Paging.Frame
import ScaraOS.Mm.Sequence
import ScaraOS.Lib.RbErase
import ScaraOS.Rbtree
import ScaraOS.Lib.Spans
import ScaraOS.Namei
import ScaraOS.Console
import ScaraOS.Exec.Validate
import ScaraOS.Slab.Economy
import ScaraOS.Lib.RbSearch
import ScaraOS.Pages.Coherence
import ScaraOS.Lib.RoundRobin
import ScaraOS.Sched.Turns
import ScaraOS.Inode.Cache
import ScaraOS.Inode.Operations
import ScaraOS.Ext2.Directory
import ScaraOS.Ext2.Super
import ScaraOS.Ext2.Mount
import ScaraOS.Namei.References
import ScaraOS.Exec.Release
import ScaraOS.Pages.Fault
import ScaraOS.Proc.Model
import ScaraOS.Proc.Fork
import ScaraOS.Proc.Files
import ScaraOS.Proc.Run
import ScaraOS.Ata
import ScaraOS.Partition
import ScaraOS.Timer
import ScaraOS.Slab.Kmalloc
import ScaraOS.Floppy
import ScaraOS.Dma
import ScaraOS.Irq.Masking
import ScaraOS.Pci.Bars
import ScaraOS.Boot.Walk
import ScaraOS.Boot.Exact
import ScaraOS.Proc.Spaces
import ScaraOS.Proc.Quiet
import ScaraOS.Proc.Housed
import ScaraOS.Proc.Contexts
import ScaraOS.Proc.Teardown
import ScaraOS.Proc.Balance
import ScaraOS.Lib.Lines
import ScaraOS.Vga
import ScaraOS.Lib.Stack
import ScaraOS.Cpu.Model
import ScaraOS.Cpu.Invariant
import ScaraOS.Cpu.Soundness
