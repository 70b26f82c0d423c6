import UnnamedKernel.Kernel.Helpers

/-!
# Mapping pages (`mm/vmm.cpp`)

`map_virtual` over the kernel's byte memory, in which the physical address `p` is
reached at `p + get_memory_slide()`. The page-frame allocator is a parameter: the
answers its calls return, in order. The flush of the one TLB entry is left out.
-/

namespace UnnamedKernel.Mm.Vmm

open UnnamedKernel.Lib UnnamedKernel.Kernel

abbrev MapFlags := BitVec 32

namespace MapFlags

def read : MapFlags := 1 <<< 0
def write : MapFlags := 1 <<< 1
def execute : MapFlags := 1 <<< 2
def user : MapFlags := 1 <<< 3
def cacheDisable : MapFlags := 1 <<< 4
def writeThrough : MapFlags := 1 <<< 5

end MapFlags

namespace PageBits

def present : Word := 1 <<< 0
def readWrite : Word := 1 <<< 1
def user : Word := 1 <<< 2
def writeThrough : Word := 1 <<< 3
def cacheDisable : Word := 1 <<< 4
def pat : Word := 1 <<< 7
def noExecute : Word := 1 <<< 63

end PageBits

/-- `ppn_mask`. -/
def ppnMask : Word := 0x000FFFFFFFFFF000

/-- What the `k`-th call of `alloc_page` returns; 0 when it fails. -/
abbrev FrameAnswers := Nat → Word

/-- The state that `map_virtual` works on. -/
structure Machine where
  mem : Mem
  /-- how often `alloc_page` has been called -/
  taken : Nat := 0
  /-- the error code of this CPU -/
  error : Option ErrorCode := none

namespace Machine

/-- `core::set_error`. -/
def setError (s : Machine) (code : ErrorCode) : Machine := { s with error := some code }

def allocPage (frames : FrameAnswers) (s : Machine) : Word × Machine :=
  (frames s.taken, { s with taken := s.taken + 1 })

end Machine

/-- `&table[i]`. -/
def entryPtr (table i : Word) : Word := table + 8 * i

/-- `alloc_table`: the table's virtual and physical address. -/
def allocTable (frames : FrameAnswers) (slide : Word) (s : Machine) : (Word × Word) × Machine :=
  let (phys, s) := s.allocPage frames
  if phys = 0 then ((0, 0), s)
  else
    let virt := phys + slide
    ((virt, phys), { s with mem := memset s.mem virt 0 0x1000 })

/-- `ensure_table`: the table that `*entry` points to, which is allocated if it is missing. -/
def ensureTable (frames : FrameAnswers) (slide entry : Word) (s : Machine) : Word × Machine :=
  if s.mem.read64 entry &&& PageBits.present = 0 then
    let ((virtTable, physTable), s) := allocTable frames slide s
    if virtTable = 0 then (0, s)
    else
      let e :=
        (physTable &&& ppnMask) ||| PageBits.present ||| PageBits.readWrite ||| PageBits.user
      (virtTable, { s with mem := s.mem.write64 entry e })
  else ((s.mem.read64 entry &&& ppnMask) + slide, s)

/-- The flags of the final entry. -/
def entryFlags (flags : MapFlags) : Word :=
  let f := PageBits.present
  let f := if isFlagSet flags MapFlags.write then f ||| PageBits.readWrite else f
  let f := if isFlagSet flags MapFlags.user then f ||| PageBits.user else f
  let f := if isFlagSet flags MapFlags.writeThrough then f ||| PageBits.writeThrough else f
  let f := if isFlagSet flags MapFlags.cacheDisable then f ||| PageBits.cacheDisable else f
  if isFlagSet flags MapFlags.execute then f else f ||| PageBits.noExecute

def mapVirtual (frames : FrameAnswers) (slide pagemapVirtual virt phys : Word) (flags : MapFlags)
    (s : Machine) : Bool × Machine :=
  let pml4I := (virt >>> 39) &&& 0x1ff
  let pdptI := (virt >>> 30) &&& 0x1ff
  let pdI := (virt >>> 21) &&& 0x1ff
  let ptI := (virt >>> 12) &&& 0x1ff
  if virt = 0 ∨ ¬ checkAligned virt pageSize then (false, s.setError .incorrectParameter)
  else if phys = 0 ∨ ¬ checkAligned phys pageSize then (false, s.setError .incorrectParameter)
  else if pagemapVirtual = 0 then (false, s.setError .incorrectParameter)
  else
    -- walk the plank
    let (pdpt, s) := ensureTable frames slide (entryPtr pagemapVirtual pml4I) s
    if pdpt = 0 then (false, s)
    else
      let (pd, s) := ensureTable frames slide (entryPtr pdpt pdptI) s
      if pd = 0 then (false, s)
      else
        let (pt, s) := ensureTable frames slide (entryPtr pd pdI) s
        if pt = 0 then (false, s)
        else
          let e := (phys &&& ppnMask) ||| entryFlags flags
          (true, { s with mem := s.mem.write64 (entryPtr pt ptI) e })

end UnnamedKernel.Mm.Vmm
