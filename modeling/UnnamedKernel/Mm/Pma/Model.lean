import UnnamedKernel.Kernel.Helpers

/-!
# The page-frame allocator (`mm/pma.cpp`)

A shallow embedding of `FreeListAllocator`. Its `FreeBlock` headers are words in
the memory that it hands out: the size at the block's address, the next block's
address behind it. An outer `Option` is `none` when the call does not return,
because the `ASSERT` halts the kernel or because a walk does not reach null.
-/

namespace UnnamedKernel.Mm.Pma

open UnnamedKernel.Lib UnnamedKernel.Kernel

/-- `limine_memmap_entry`. -/
structure MemmapEntry where
  base : Word
  length : Word
  type : Word
  deriving DecidableEq, Repr

/-- `LIMINE_MEMMAP_USABLE`. -/
def memmapUsable : Word := 0

/-- `sizeof(FreeBlock)`. -/
def sizeofFreeBlock : Word := 16

/-- `FreeBlock **`: the address of `m_head`, or of the `next` field of a block. -/
inductive Link where
  | head
  | next (block : Word)
  deriving DecidableEq, Repr

/-- Turns given to a walk along the list; no list of distinct blocks is that long. -/
def walkLimit : Nat := 2 ^ 64

structure FreeListAllocator where
  mem : Mem
  /-- `m_head` -/
  head : Word := 0

namespace FreeListAllocator

def sizeOf (s : FreeListAllocator) (block : Word) : Word := s.mem.read64 block

def nextOf (s : FreeListAllocator) (block : Word) : Word := s.mem.read64 (block + 8)

def setSize (s : FreeListAllocator) (block v : Word) : FreeListAllocator :=
  { s with mem := s.mem.write64 block v }

def setNext (s : FreeListAllocator) (block v : Word) : FreeListAllocator :=
  { s with mem := s.mem.write64 (block + 8) v }

/-- `*current`. -/
def load (s : FreeListAllocator) : Link → Word
  | .head => s.head
  | .next block => s.nextOf block

/-- `*current = v`. -/
def store (s : FreeListAllocator) (current : Link) (v : Word) : FreeListAllocator :=
  match current with
  | .head => { s with head := v }
  | .next block => s.setNext block v

/-- The loop body of `init`. -/
def initEntry (slide : Word) (s : FreeListAllocator) (e : MemmapEntry) : FreeListAllocator :=
  if e.type ≠ memmapUsable then s
  else
    let virtStart := slide + e.base
    let s := s.setSize virtStart e.length
    let s := s.setNext virtStart s.head
    { s with head := virtStart }

def init (slide : Word) (entries : List MemmapEntry) (s : FreeListAllocator) :
    FreeListAllocator :=
  entries.foldl (initEntry slide) s

/-- `alloc`'s split-or-drop of the block that `current` points to. -/
def takeFrom (s : FreeListAllocator) (current : Link) (totalNeeded : Word) : FreeListAllocator :=
  let addr := s.load current
  if totalNeeded + sizeofFreeBlock < s.sizeOf addr then
    let nextBlock := addr + totalNeeded
    let s := s.setSize nextBlock (s.sizeOf (s.load current) - totalNeeded)
    let s := s.setNext nextBlock (s.nextOf (s.load current))
    s.store current nextBlock
  else s.store current (s.nextOf addr)

def allocLoop (slide size : Word) :
    Nat → Link → FreeListAllocator → Option (Word × FreeListAllocator)
  | 0, _, _ => none
  | fuel + 1, current, s =>
      let addr := s.load current
      if addr = 0 then some (0, s)
      else
        let alignedAddr := utilsAlignUp (addr + sizeofFreeBlock) pageSize
        let totalNeeded := alignedAddr - addr + size
        if totalNeeded ≤ s.sizeOf addr then
          some (alignedAddr - slide, s.takeFrom current totalNeeded)
        else allocLoop slide size fuel (.next addr) s

def alloc (slide : Word) (s : FreeListAllocator) (size : Word) :
    Option (Word × FreeListAllocator) :=
  -- ASSERT((size % PAGE_SIZE) == 0)
  if size % pageSize = 0 then allocLoop slide (utilsAlignUp size pageSize) walkLimit .head s
  else none

/-- The inner loop of `coalesce`: `a` swallows the blocks behind `b` that start at its end. -/
def absorbLoop (a : Word) : Nat → Word → FreeListAllocator → Option FreeListAllocator
  | 0, _, _ => none
  | fuel + 1, b, s =>
      if s.nextOf b = 0 then some s
      else
        let aEnd := a + s.sizeOf a
        let bAddr := s.nextOf b
        if aEnd = bAddr then
          let s := s.setSize a (s.sizeOf a + s.sizeOf (s.nextOf b))
          let s := s.setNext b (s.nextOf (s.nextOf b))
          absorbLoop a fuel b s
        else absorbLoop a fuel (s.nextOf b) s

/-- The outer loop of `coalesce`. -/
def coalesceLoop : Nat → Word → FreeListAllocator → Option FreeListAllocator
  | 0, _, _ => none
  | fuel + 1, a, s =>
      if a = 0 then some s
      else do
        let s ← absorbLoop a walkLimit a s
        coalesceLoop fuel (s.nextOf a) s

def coalesce (s : FreeListAllocator) : Option FreeListAllocator := coalesceLoop walkLimit s.head s

def free (slide : Word) (s : FreeListAllocator) (ptr size : Word) : Option FreeListAllocator :=
  -- ASSERT((size % PAGE_SIZE) == 0)
  if size % pageSize = 0 then
    let block := ptr - slide
    let s := s.setSize block size
    let s := s.setNext block s.head
    coalesce { s with head := block }
  else none

end FreeListAllocator

/-- `get_highest_physical_address`. -/
def getHighestPhysicalAddress (entries : List MemmapEntry) : Word :=
  entries.foldl (fun highest e =>
    if highest < e.base + e.length then e.base + e.length else highest)
    0

/-- `alloc_page`. -/
def allocPage (slide : Word) (s : FreeListAllocator) : Option (Word × FreeListAllocator) :=
  s.alloc slide pageSize

/-- `alloc_pages_continuous`. -/
def allocPagesContinuous (slide : Word) (s : FreeListAllocator) (pageCount : Word) :
    Option (Word × FreeListAllocator) :=
  s.alloc slide (pageCount * pageSize)

/-- `dealloc_pages_continuous`. -/
def deallocPagesContinuous (slide : Word) (s : FreeListAllocator) (addr pageCount : Word) :
    Option FreeListAllocator :=
  s.free slide addr (pageCount * pageSize)

end UnnamedKernel.Mm.Pma
