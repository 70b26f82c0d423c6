import UnnamedKernel.Mm.Pma.Model
import UnnamedKernel.Mm.Vma.Model
import UnnamedKernel.Mm.Vmm.Model

/-!
# The kernel heap (`mm/heap.cpp`, `mm/vma.cpp`)

`mmap` and `sbrk` take virtual ranges from one allocator, frames from another, and
map the frames page by page. The virtual allocator may ask `new` for a node, and so
come back here through `sbrk`; such a call touches nothing that `mmap` holds at that
point and counts as a call of its own. An outer `Option` is `none` when the kernel
halts.
-/

namespace UnnamedKernel.Mm.Heap

open UnnamedKernel.Lib UnnamedKernel.Kernel Vma Vmm

/-- What the heap is run with. -/
structure Env where
  frames : FrameAnswers
  /-- what `new` answers the virtual allocator -/
  nodes : HeapAnswers
  /-- `get_memory_slide()` -/
  slide : Word
  /-- `x86_64::get_cr3()` -/
  cr3 : Word

structure HeapState where
  /-- `memory::allocator` -/
  allocator : VAddrAllocator 2048
  machine : Machine
  isInitialized : Bool := false
  heapBase : Word := 0
  heapSize : Word := 0
  /-- the static `heap_top` of `sbrk`, once a call has set it -/
  heapTop : Option Word := none

/-- `(void *) -1`. -/
def mapFailed : Word := -1

/-- `MAP_PRIVATE`. -/
def mapPrivate : BitVec 32 := 1

/-- `MAP_ANONYMOUS`. -/
def mapAnonymous : BitVec 32 := 2

namespace HeapState

def setError (h : HeapState) (code : ErrorCode) : HeapState :=
  { h with machine := h.machine.setError code }

/-- `init_kernel_virtual_allocator`, for the memory map and the kernel's virtual base that the
boot loader reports. -/
def initKernelVirtualAllocator (env : Env) (entries : List Pma.MemmapEntry) (kernelBase : Word)
    (h : HeapState) : Option HeapState := do
  let rangeStart := alignDown (env.slide + Pma.getHighestPhysicalAddress entries) pageSize
  let rangeEnd := alignDown kernelBase pageSize
  let a ← VAddrAllocator.init env.nodes rangeStart (rangeEnd - rangeStart)
  some { h with allocator := a }

/-- `allocate_virtual_memory`. -/
def allocateVirtualMemory (env : Env) (h : HeapState) (length : Word) :
    Option (Option Word × HeapState) :=
  if ¬ checkAligned length pageSize then some (none, h.setError .memoryMisaligned)
  else do
    let (r, a) ← h.allocator.allocPages env.nodes (length / pageSize) 1
    some (r, { h with allocator := a })

/-- `deallocate_virtual_memory`, which ignores what `free` returns. -/
def deallocateVirtualMemory (env : Env) (h : HeapState) (address length : Word) :
    Option HeapState := do
  let (_, a) ← h.allocator.free env.nodes address (length / pageSize)
  some { h with allocator := a }

end HeapState

/-- The page loop of `mmap` and `sbrk`, at page `i` with `count` pages to go; the error
it stops with. -/
def mapPages (env : Env) (base : Word) : Nat → Word → Machine → Option ErrorCode × Machine
  | 0, _, m => (none, m)
  | count + 1, i, m =>
      let (page, m) := m.allocPage env.frames
      if page = 0 then (some .outOfMemory, m.setError .outOfMemory)
      else
        let (result, m) := mapVirtual env.frames env.slide (env.cr3 + env.slide)
          (base + i * pageSize) page (MapFlags.read ||| MapFlags.write) m
        if result then mapPages env base count (i + 1) m
        else (some .mapFail, m.setError .mapFail)

namespace HeapState

/-- `mmap`, without the arguments it ignores. -/
def mmap (env : Env) (h : HeapState) (length : Word) (flags : BitVec 32) :
    Option (Word × HeapState) :=
  if ¬ isFlagSet flags mapPrivate ∨ ¬ isFlagSet flags mapAnonymous then some (mapFailed, h)
  else if length = 0 then some (mapFailed, h)
  else do
    let length := Kernel.alignUp length pageSize
    let (base, h) ← h.allocateVirtualMemory env length
    match base with
    | none => some (mapFailed, h)
    | some base =>
        let pageCount := length / pageSize
        match mapPages env base pageCount.toNat 0 h.machine with
        | (none, m) => some (base, { h with machine := m })
        | (some .outOfMemory, m) => do
            let h ← { h with machine := m }.deallocateVirtualMemory env base length
            some (mapFailed, h)
        -- the range stays allocated
        | (some _, m) => some (mapFailed, { h with machine := m })

/-- `heap_top` as the next call of `sbrk` finds it. -/
def top (h : HeapState) : Word := h.heapTop.getD h.heapBase

/-- `sbrk`. -/
def sbrk (env : Env) (h : HeapState) (increment : Word) : Option (Word × HeapState) :=
  if ¬ h.isInitialized then some (0, h)
  else
    let h := { h with heapTop := some h.top }
    if increment = 0 then some (h.top, h)
    -- shrinking halts the kernel
    else if increment.slt 0 then none
    else
      let oldHeapTop := h.top
      let alignedIncrement := Kernel.alignUp increment pageSize
      let pageCount := alignedIncrement / pageSize
      if h.heapBase + h.heapSize < h.top + alignedIncrement then
        some (0, h.setError .outOfMemory)
      else
        match mapPages env h.top pageCount.toNat 0 h.machine with
        | (some _, m) => some (0, { h with machine := m })
        | (none, m) =>
            some (oldHeapTop, { h with machine := m, heapTop := some (h.top + alignedIncrement) })

/-- `init_heap`. -/
def initHeap (env : Env) (h : HeapState) : Option HeapState := do
  let h := { h with heapSize := 32 * 1024 * 1024 }
  let (address, h) ← h.allocateVirtualMemory env h.heapSize
  match address with
  | some address => some { h with heapBase := address, isInitialized := true }
  | none => none

end HeapState

end UnnamedKernel.Mm.Heap
