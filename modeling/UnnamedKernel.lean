import UnnamedKernel.Lib.Word
import UnnamedKernel.Lib.Memory
import UnnamedKernel.Lib.Copy
import UnnamedKernel.Lib.DList
import UnnamedKernel.Lib.Tiling
import UnnamedKernel.Lib.Cutting
import UnnamedKernel.Lib.Run
import UnnamedKernel.Lib.Outcome
import UnnamedKernel.Lib.RadixTree
import UnnamedKernel.Lib.Ranges
import UnnamedKernel.Lib.Links
import UnnamedKernel.Lib.Stack
import UnnamedKernel.Lib.Objects
import UnnamedKernel.Lib.SizeClasses
import UnnamedKernel.Lib.Critical
import UnnamedKernel.Kernel.Helpers
import UnnamedKernel.Kernel.Memory
import UnnamedKernel.Kernel.Strings
import UnnamedKernel.Mm.Vma.Model
import UnnamedKernel.Mm.Vma.Accesses
import UnnamedKernel.Mm.Vma.Segments
import UnnamedKernel.Mm.Vma.Walks
import UnnamedKernel.Mm.Vma.Starve
import UnnamedKernel.Mm.Vma.Shape
import UnnamedKernel.Mm.Vma.Refine
import UnnamedKernel.Mm.Vma.Safety
import UnnamedKernel.Mm.Vma.Concurrent
import UnnamedKernel.Mm.Vma.Guarded
import UnnamedKernel.Mm.Vma.Balanced
import UnnamedKernel.Mm.Vma.Accounts
import UnnamedKernel.Mm.Vma.Locking
import UnnamedKernel.Mm.Vma.FirstFit
import UnnamedKernel.Mm.Vma.Aligned
import UnnamedKernel.Mm.Vma.Allocated
import UnnamedKernel.Mm.Vma.Exact
import UnnamedKernel.Mm.Vma.Confluence
import UnnamedKernel.Mm.Vma.Failure
import UnnamedKernel.Mm.Vmm.Model
import UnnamedKernel.Mm.Vmm.Walk
import UnnamedKernel.Mm.Vmm.Entries
import UnnamedKernel.Mm.Vmm.Tree
import UnnamedKernel.Mm.Vmm.Refine
import UnnamedKernel.Mm.Vmm.Advance
import UnnamedKernel.Mm.Vmm.Demand
import UnnamedKernel.Mm.Vmm.Writes
import UnnamedKernel.Mm.Vmm.LargePages
import UnnamedKernel.Mm.Vmm.Failed
import UnnamedKernel.Mm.Vmm.Accept
import UnnamedKernel.Mm.Heap.Model
import UnnamedKernel.Mm.Heap.Loop
import UnnamedKernel.Mm.Heap.Window
import UnnamedKernel.Mm.Heap.Break
import UnnamedKernel.Mm.Heap.Contract
import UnnamedKernel.Mm.Heap.Sysmalloc
import UnnamedKernel.Mm.Heap.Mmap
import UnnamedKernel.Mm.Heap.Restore
import UnnamedKernel.Mm.Heap.Kept
import UnnamedKernel.Mm.Heap.Private
import UnnamedKernel.Mm.Heap.Reentry
import UnnamedKernel.Mm.Heap.Zeroed
import UnnamedKernel.Mm.Heap.Dlmalloc
import UnnamedKernel.Mm.Heap.Chunks
import UnnamedKernel.Mm.Heap.Growth
import UnnamedKernel.Mm.Heap.Trim
import UnnamedKernel.Mm.Heap.Blocks
import UnnamedKernel.Mm.Heap.Ledger
import UnnamedKernel.Mm.Heap.Lists
import UnnamedKernel.Mm.Heap.Refine
import UnnamedKernel.Mm.Heap.Simulate
import UnnamedKernel.Mm.Heap.Bins
import UnnamedKernel.Mm.Heap.Binned
import UnnamedKernel.Mm.Heap.BinIndex
import UnnamedKernel.Mm.Heap.Search
import UnnamedKernel.Mm.Heap.BestFit
import UnnamedKernel.Mm.Pma.Model
import UnnamedKernel.Mm.Pma.FreeList
import UnnamedKernel.Mm.Pma.Alloc
import UnnamedKernel.Mm.Pma.Layout
import UnnamedKernel.Mm.Pma.Coalesce
import UnnamedKernel.Mm.Pma.Free
import UnnamedKernel.Mm.Pma.Conserve
import UnnamedKernel.Mm.Pma.Reclaim
import UnnamedKernel.Mm.Pma.Complete
import UnnamedKernel.Mm.Pma.Continuous
import UnnamedKernel.Mm.Pma.Safety
import UnnamedKernel.Mm.Pma.Pages
import UnnamedKernel.Mm.Paging.Model
import UnnamedKernel.Mm.Paging.Shared
import UnnamedKernel.Mm.Paging.Grow
import UnnamedKernel.Mm.Paging.Refine
import UnnamedKernel.Arch.Interrupt
import UnnamedKernel.Arch.Context
import UnnamedKernel.Containers.Vector
import UnnamedKernel.Containers.Ownership
import UnnamedKernel.Containers.Operations
import UnnamedKernel.Containers.Programs
import UnnamedKernel.Lib.Bytes
import UnnamedKernel.Kernel.Irqs.Model
import UnnamedKernel.Kernel.Irqs.RoundTrip
import UnnamedKernel.Kernel.Irqs.Cursor
import UnnamedKernel.Kernel.Irqs.Bounds
import UnnamedKernel.Lib.Counter
import UnnamedKernel.Drivers.Clocksource
import UnnamedKernel.Drivers.Ktime
import UnnamedKernel.Lib.Scaling
import UnnamedKernel.Drivers.Conversion
import UnnamedKernel.Drivers.ReadDelta
import UnnamedKernel.Acpi.IoMap
