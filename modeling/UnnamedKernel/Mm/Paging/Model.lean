import UnnamedKernel.Mm.Pma.Model
import UnnamedKernel.Mm.Vmm.Model

/-!
# Mapping pages with the free list (`mm/vmm.cpp` over `mm/pma.cpp`)

`map_virtual` as it runs in the kernel: the page tables that it links and the headers of the free
blocks lie in one memory. `none` when a walk of the free list does not end.
-/

namespace UnnamedKernel.Mm.Paging

open UnnamedKernel.Lib UnnamedKernel.Kernel Pma Vmm

structure State where
  pma : FreeListAllocator
  /-- the error code of this CPU -/
  error : Option ErrorCode := none

namespace State

def mem (s : State) : Mem := s.pma.mem

def setMem (s : State) (m : Mem) : State := { s with pma := { s.pma with mem := m } }

/-- `core::set_error`. -/
def setError (s : State) (code : ErrorCode) : State := { s with error := some code }

/-- `alloc_page`. -/
def allocPage (slide : Word) (s : State) : Option (Word × State) :=
  (Pma.allocPage slide s.pma).map fun (phys, pma) => (phys, { s with pma := pma })

end State

/-- `alloc_table`: the table's virtual and physical address. -/
def allocTable (slide : Word) (s : State) : Option ((Word × Word) × State) := do
  let (phys, s) ← s.allocPage slide
  if phys = 0 then some ((0, 0), s)
  else
    let virt := phys + slide
    some ((virt, phys), s.setMem (memset s.mem virt 0 0x1000))

/-- `ensure_table`: the table that `*entry` points to, which is allocated if it is missing. -/
def ensureTable (slide entry : Word) (s : State) : Option (Word × State) :=
  if s.mem.read64 entry &&& PageBits.present = 0 then do
    let ((virtTable, physTable), s) ← allocTable slide s
    if virtTable = 0 then some (0, s)
    else
      let e :=
        (physTable &&& ppnMask) ||| PageBits.present ||| PageBits.readWrite ||| PageBits.user
      some (virtTable, s.setMem (s.mem.write64 entry e))
  else some ((s.mem.read64 entry &&& ppnMask) + slide, s)

def mapVirtual (slide pagemapVirtual virt phys : Word) (flags : MapFlags) (s : State) :
    Option (Bool × State) :=
  let pml4I := (virt >>> 39) &&& 0x1ff
  let pdptI := (virt >>> 30) &&& 0x1ff
  let pdI := (virt >>> 21) &&& 0x1ff
  let ptI := (virt >>> 12) &&& 0x1ff
  if virt = 0 ∨ ¬ checkAligned virt pageSize then some (false, s.setError .incorrectParameter)
  else if phys = 0 ∨ ¬ checkAligned phys pageSize then
    some (false, s.setError .incorrectParameter)
  else if pagemapVirtual = 0 then some (false, s.setError .incorrectParameter)
  else do
    -- walk the plank
    let (pdpt, s) ← ensureTable slide (entryPtr pagemapVirtual pml4I) s
    if pdpt = 0 then some (false, s)
    else
      let (pd, s) ← ensureTable slide (entryPtr pdpt pdptI) s
      if pd = 0 then some (false, s)
      else
        let (pt, s) ← ensureTable slide (entryPtr pd pdI) s
        if pt = 0 then some (false, s)
        else
          let e := (phys &&& ppnMask) ||| entryFlags flags
          some (true, s.setMem (s.mem.write64 (entryPtr pt ptI) e))

end UnnamedKernel.Mm.Paging
