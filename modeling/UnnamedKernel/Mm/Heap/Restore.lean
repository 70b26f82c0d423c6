import UnnamedKernel.Mm.Heap.Mmap
import UnnamedKernel.Mm.Vmm.Failed

/-!
# What a failed growth leaves behind

`mmap` and `sbrk` free no frame and unmap no page. A call that fails in its page loop
keeps the frame it has taken for the first page, so nothing is lost only if there was
no such frame.
-/

namespace UnnamedKernel.Mm.Heap

open UnnamedKernel.Lib UnnamedKernel.Kernel Vma Vmm RadixTree

/-- A call that grows the heap, and what it returns. -/
def HeapState.grow (env : Env) (h : HeapState) : HeapCall → Option (Word × HeapState)
  | .mmap length flags => h.mmap env length flags
  | .sbrk increment => h.sbrk env increment

section Restore

variable {env : Env} {root : Frame} {h h' : HeapState} {cells : List Cell}

end Restore

end UnnamedKernel.Mm.Heap
