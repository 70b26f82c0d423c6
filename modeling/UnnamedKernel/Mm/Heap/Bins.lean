import UnnamedKernel.Lib.SizeClasses
import UnnamedKernel.Mm.Heap.Dlmalloc

/-!
# The bins of dlmalloc (`lib/dlmalloc/malloc.c`)

The search that `malloc` makes for a free chunk, with the unsorted chunks, the small and the large
bins, the bitmap over them and the last remainder. Each list starts at its back, where chunks are
taken from; the chunk that is the newest stands last.
-/

namespace UnnamedKernel.Mm.Heap

open UnnamedKernel.Lib UnnamedKernel.Kernel Vma Vmm

/-! ## Indexing -/

/-- `NBINS`. -/
def nbins : Nat := 96

/-- `BINMAPSIZE`. -/
def binmapSize : Nat := nbins / 32

/-- `smallbin_index`. -/
def smallbinIndex (sz : Nat) : Nat := (BitVec.ofNat 32 sz >>> 3).toNat

/-- `largebin_index`, with the search for the highest bit that has no branches. -/
def largebinIndex (sz : BitVec 32) : Nat :=
  let x := sz >>> 8
  if 0x10000 ≤ x then nbins - 1
  else
    let n := ((x - 0x100) >>> 16) &&& 8
    let x := x <<< n
    let m := ((x - 0x1000) >>> 16) &&& 4
    let n := n + m
    let x := x <<< m
    let m := ((x - 0x4000) >>> 16) &&& 2
    let n := n + m
    let x := (x <<< m) >>> 14
    let m := 13 - n + (x &&& ~~~(x >>> 1))
    ((32 : BitVec 32) + (m <<< 2) + ((sz >>> (m + 6)) &&& 3)).toNat

/-- `bin_index`: `largebin_index` takes an `unsigned int`. -/
def binIndex (sz : Nat) : Nat :=
  if sz < minLargeSize.toNat then smallbinIndex sz else largebinIndex (BitVec.ofNat 32 sz)

/-- `idx2bit`. -/
def idx2bit (i : Nat) : BitVec 32 := (1 : BitVec 32) <<< (i % 32)

/-! ## The lists -/

/-- The lists of free chunks in `malloc_state`. A chunk keeps its size while it is in a list, and
stands there with it. -/
structure Bins where
  /-- bin 1 -/
  unsorted : List Chunk := []
  bin : Nat → List Chunk := fun _ => []
  binmap : Nat → BitVec 32 := fun _ => 0
  /-- the address, 0 before there is one -/
  lastRemainder : Nat := 0

/-- The `size` field of a free chunk: what lies in front of it is in use. -/
def Chunk.head (c : Chunk) : Nat := c.len + prevInuse.toNat

namespace Bins

/-- `mark_bin`. -/
def markBin (b : Bins) (i : Nat) : Bins :=
  { b with binmap := Function.update b.binmap (i / 32) (b.binmap (i / 32) ||| idx2bit i) }

/-- `unlink`. -/
def unlink (p : Nat) (b : Bins) : Bins :=
  { b with
    unsorted := b.unsorted.filter (·.start ≠ p)
    bin := fun i => (b.bin i).filter (·.start ≠ p) }

/-- The chunk goes to the front of the unsorted ones. -/
def putUnsorted (c : Chunk) (b : Bins) : Bins := { b with unsorted := b.unsorted ++ [c] }

/-- What is left of a chunk becomes the only unsorted one; it is advertised for small requests. -/
def putRemainder (nb : Word) (c : Chunk) (b : Bins) : Bins :=
  { b with
    unsorted := [c]
    lastRemainder := if nb < minLargeSize then c.start else b.lastRemainder }

/-- The walk through a large bin from its front, where the largest chunk is. -/
def insertSorted (c : Chunk) : List Chunk → List Chunk
  | [] => [c]
  | fwd :: rest => if c.head < fwd.head then fwd :: insertSorted c rest else c :: fwd :: rest

/-- A large bin with one more chunk. -/
def insertLarge (c : Chunk) : List Chunk → List Chunk
  | [] => [c]
  | last :: front =>
      -- if smaller than smallest, place first
      if c.len < last.head then c :: last :: front
      else (insertSorted c (last :: front).reverse).reverse

/-- The chunk is placed in its bin. -/
def place (c : Chunk) (b : Bins) : Bins :=
  let i := binIndex c.len
  markBin { b with
    bin := Function.update b.bin i
      (if c.len < minLargeSize.toNat then b.bin i ++ [c] else insertLarge c (b.bin i)) } i

/-! ## The search -/

/-- The last chunk of the small bin for `nb`. -/
def takeSmall (nb : Word) (b : Bins) : Option (Chunk × Bins) :=
  if nb < minLargeSize then
    match b.bin (smallbinIndex nb.toNat) with
    | [] => none
    | victim :: bck =>
        some (victim, { b with bin := Function.update b.bin (smallbinIndex nb.toNat) bck })
  else none

/-- The loop over the unsorted chunks: one of them is taken, or all go to their bins. -/
def sortUnsorted (nb : Word) : List Chunk → Bins → Option Chunk × Bins
  | [], b => (none, { b with unsorted := [] })
  | victim :: bck, b =>
      -- the last remainder, if it is the only one and the request is small
      if nb < minLargeSize ∧ bck = [] ∧ victim.start = b.lastRemainder ∧
          (nb + minsize).toNat < victim.len then
        (some victim, { b with unsorted := [] })
      else if victim.len = nb.toNat then (some victim, { b with unsorted := bck })
      else sortUnsorted nb bck (b.place victim)

/-- The first chunk of the bin of a large request that is large enough. -/
def scanLarge (nb : Word) (b : Bins) : Option (Chunk × Bins) :=
  if nb < minLargeSize then none
  else
    ((b.bin (binIndex nb.toNat)).find? fun c => decide (nb.toNat ≤ c.len)).map fun victim =>
      (victim, b.unlink victim.start)

/-- The next word of the bitmap that is not 0. -/
def skipBlocks (b : Bins) (block : Nat) : Option Nat :=
  ((List.range binmapSize).drop (block + 1)).find? fun i => decide (b.binmap i ≠ 0)

/-- Advance to the bin with a set bit. -/
def advance (map : BitVec 32) : Nat → Nat → BitVec 32 → Nat × BitVec 32
  | 0, bin, bit => (bin, bit)
  | fuel + 1, bin, bit =>
      if bit &&& map = 0 then advance map fuel (bin + 1) (bit <<< 1) else (bin, bit)

/-- The scan of the bins from `bin` on. -/
def scanBins : Nat → Nat → Nat → BitVec 32 → Bins → Option Chunk × Bins
  | 0, _, _, _, b => (none, b)
  | fuel + 1, block, bin, bit, b =>
      -- skip the rest of the block if there are no more set bits in it
      match if b.binmap block < bit ∨ bit = 0 then
          (b.skipBlocks block).map fun block => (block, 32 * block, (1 : BitVec 32))
        else some (block, bin, bit) with
      | none => (none, b)
      | some (block, bin, bit) =>
          let (bin, bit) := advance (b.binmap block) 32 bin bit
          match b.bin bin with
          | victim :: bck => (some victim, { b with bin := Function.update b.bin bin bck })
          | [] =>
              -- a false alarm
              scanBins fuel block (bin + 1) (bit <<< 1)
                { b with binmap := Function.update b.binmap block (b.binmap block &&& ~~~bit) }

/-- The bins, once no chunk is unsorted. -/
def scan (nb : Word) (b : Bins) : Option Chunk × Bins :=
  match b.scanLarge nb with
  | some (victim, b) => (some victim, b)
  | none =>
      let idx := binIndex nb.toNat + 1
      scanBins (nbins + 1) (idx / 32) idx (idx2bit idx) b

/-- From the unsorted chunks on: the chunk that is taken off the lists. -/
def search (nb : Word) (b : Bins) : Option Chunk × Bins :=
  match b.sortUnsorted nb b.unsorted with
  | (some victim, b) => (some victim, b)
  | (none, b) => b.scan nb

end Bins

end UnnamedKernel.Mm.Heap
