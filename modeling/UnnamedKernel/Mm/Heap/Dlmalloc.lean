import UnnamedKernel.Lib.Coalescing
import UnnamedKernel.Lib.Outcome
import UnnamedKernel.Mm.Heap.Reentry

/-!
# `malloc` and `free` in memory from `sbrk` (`lib/dlmalloc/malloc.c`)

The chunks below the top are a list in address order, which stands for their boundary tags. Which
chunk `malloc` takes from the unsorted ones and the bins is left to a search that is given with
the call. A call that gets memory from elsewhere than `sbrk` ends the run.
-/

namespace UnnamedKernel.Mm.Heap

open UnnamedKernel.Lib UnnamedKernel.Kernel Vma Vmm

inductive ChunkUse where
  | inUse
  /-- in a fastbin -/
  | fast
  /-- unsorted or in a bin -/
  | binned
  deriving DecidableEq, Repr

namespace ChunkUse

def isBinned (use : ChunkUse) : Bool := use = binned

def isInUse (use : ChunkUse) : Bool := use = inUse

end ChunkUse

abbrev Chunk := Seg ChunkUse

/-- `malloc_state` and the chunks that it manages. -/
structure Arena where
  av : MallocState
  /-- `initial_top(av)` -/
  initialTop : Word
  /-- `max_fast` without its two flags -/
  maxFast : Word := 0
  anychunks : Bool := false
  fastchunks : Bool := false
  /-- the addresses in each fastbin, the last one freed in front -/
  fastbins : Nat → List Nat := fun _ => []
  /-- the chunks below the top -/
  chunks : List Chunk := []

/-- `DEFAULT_MXFAST`. -/
def defaultMxfast : Word := 64

/-- `DEFAULT_TRIM_THRESHOLD`. -/
def trimThreshold : Word := 256 * 1024

/-- `FASTBIN_CONSOLIDATION_THRESHOLD`. -/
def fastbinConsolidationThreshold : Word := trimThreshold >>> 1

/-- `MIN_LARGE_SIZE`. -/
def minLargeSize : Word := 256

/-- `fastbin_index`. -/
def fastbinIndex (sz : Word) : Nat := ((sz.setWidth 32 >>> 3) - 2).toNat

/-- `mem2chunk`. -/
def mem2chunk (mem : Word) : Word := mem - 16

/-- `REQUEST_OUT_OF_RANGE`. -/
def requestOutOfRange (req : Word) : Bool := -2 * minsize ≤ req

/-- The search of the unsorted chunks and the bins, which hold the chunks that are free and in no
fastbin: the address that it finds. -/
structure BinSearch where
  /-- the last chunk of a small bin -/
  small : Arena → Word → Option Nat
  /-- a best fit -/
  best : Arena → Word → Option Nat
  small_fits : ∀ a nb p, small a nb = some p → ∃ before c after,
    locate p a.chunks = some (before, c, after) ∧ c.tag = .binned ∧ c.len = nb.toNat
  best_fits : ∀ a nb p, best a nb = some p → ∃ before c after,
    locate p a.chunks = some (before, c, after) ∧ c.tag = .binned ∧ nb.toNat ≤ c.len

namespace Arena

/-- `malloc_init_state`. -/
def mallocInitState (a : Arena) : Arena :=
  { a with
    maxFast := request2size defaultMxfast
    av := { top := a.initialTop, topHead := 0, topPad := 0, contiguous := true } }

/-- The chunk `c` between `before` and `after` becomes free; the size of the free space around
it, and the arena. -/
def consolidate (a : Arena) (before : List Chunk) (c : Chunk) (after : List Chunk) :
    Word × Arena :=
  -- consolidate backward
  let (before, c) := joinBefore ChunkUse.isBinned before c
  match after with
  | [] =>
      -- `nextchunk` is the top
      let size := BitVec.ofNat 64 c.len + chunksize a.av.topHead
      (size, { a with
        chunks := before
        av := { a.av with top := BitVec.ofNat 64 c.start, topHead := size ||| prevInuse } })
  | next :: after =>
      -- consolidate forward
      let (c, after) := joinAfter ChunkUse.isBinned c (next :: after)
      (BitVec.ofNat 64 c.len, { a with chunks := before ++ { c with tag := .binned } :: after })

/-- A chunk of a fastbin goes to the unsorted ones. -/
def consolidateFast (a : Arena) (p : Nat) : Arena :=
  match locate p a.chunks with
  | some (before, c, after) => (a.consolidate before c after).2
  | none => a

/-- The chunks that `malloc_consolidate` comes to, in its order. -/
def pending (a : Arena) : List Nat :=
  (List.range (fastbinIndex a.maxFast + 1)).flatMap a.fastbins

/-- `malloc_consolidate`. -/
def mallocConsolidate (a : Arena) : Arena :=
  if a.maxFast ≠ 0 then
    a.pending.foldl consolidateFast { a with
      fastchunks := false
      fastbins := fun i => if i ≤ fastbinIndex a.maxFast then [] else a.fastbins i }
  else a.mallocInitState

/-- The first chunk of the fastbin for `nb`. -/
def popFastbin (a : Arena) (nb : Word) : Option (Word × Arena) :=
  if nb ≤ a.maxFast then
    match a.fastbins (fastbinIndex nb) with
    | [] => none
    | p :: rest =>
        (locate p a.chunks).map fun (before, c, after) =>
          (chunk2mem (BitVec.ofNat 64 p), { a with
            fastbins := Function.update a.fastbins (fastbinIndex nb) rest
            chunks := before ++ { c with tag := .inUse } :: after })
  else none

/-- The chunk at `p`, whole or cut to `nb`. -/
def takeBinned (a : Arena) (nb : Word) (p : Nat) : Option (Word × Arena) :=
  (locate p a.chunks).map fun (before, c, after) =>
    (chunk2mem (BitVec.ofNat 64 p),
      if c.len - nb.toNat < minsize.toNat then
        { a with chunks := before ++ { c with tag := .inUse } :: after }
      else
        { a with chunks := before ++ ⟨c.start, nb.toNat, .inUse⟩ ::
            ⟨c.start + nb.toNat, c.len - nb.toNat, .binned⟩ :: after })

/-- `nb` bytes from the start of the top, if enough of it is left. -/
def splitTop (a : Arena) (nb : Word) : Option (Word × Arena) :=
  if nb + minsize ≤ chunksize a.av.topHead then
    some (chunk2mem a.av.top, { a with
      chunks := a.chunks ++ [⟨a.av.top.toNat, nb.toNat, .inUse⟩]
      av := { a.av with
        top := a.av.top + nb, topHead := (chunksize a.av.topHead - nb) ||| prevInuse } })
  else none

/-- `use_top`, up to the call of `sYSMALLOc`. -/
def useTop (a : Arena) (nb : Word) : Option Word × Arena :=
  match a.splitTop nb with
  | some (mem, a) => (some mem, a)
  | none => (none, a)

/-- `mALLOc` for chunks of `nb` bytes, up to the call of `sYSMALLOc`. -/
def serve (bins : BinSearch) (nb : Word) (a : Arena) : Option Word × Arena :=
  if ¬ a.anychunks then (if a.maxFast = 0 then a.mallocConsolidate else a).useTop nb
  else
    match a.popFastbin nb with
    | some (mem, a) => (some mem, a)
    | none =>
        match if nb < minLargeSize then (bins.small a nb).bind (a.takeBinned nb) else none with
        | some (mem, a) => (some mem, a)
        | none =>
            let a := if ¬ nb < minLargeSize ∧ a.fastchunks then a.mallocConsolidate else a
            match (bins.best a nb).bind (a.takeBinned nb) with
            | some (mem, a) => (some mem, a)
            | none => a.useTop nb

end Arena

/-- dlmalloc and what it gets its memory from. -/
structure DlHeap where
  arena : Arena
  supply : Supply

/-- Why a run ends. -/
inductive Trap where
  /-- `sbrk` has halted the kernel -/
  | sbrkHalted
  | mmapHalted
  /-- `sbrk` has refused, or `mmap` has provided the memory -/
  | unserved
  /-- no chunk in use is freed -/
  | badFree
  deriving DecidableEq, Repr

/-- The `mmap` that `sYSMALLOc` tries for large requests; no chunk comes from one, so that
`n_mmaps` stays 0. -/
def tryMmap (env : Env) (nb : Word) (s : Supply) : Except Trap Supply :=
  let size := pageUp (nb + 8 + mallocAlignMask)
  if mmapThreshold ≤ nb ∧ nb < size then
    match mmapCall env s size with
    | none => .error .mmapHalted
    | some (mm, s) => if mm ≠ mapFailed then .error .unserved else .ok s
  else .ok s

namespace DlHeap

/-- `sYSMALLOc`, when there are no chunks in fastbins. -/
def sysmalloc (env : Env) (nb : Word) (k : DlHeap) : Except Trap (Word × DlHeap) := do
  let s ← tryMmap env nb k.supply
  match k.arena.av.sysmalloc env nb s with
  -- `mmap` is called if `MORECORE` is not
  | none => .error (if (0 : Word).slt (k.arena.av.growth nb) then .sbrkHalted else .mmapHalted)
  | some (av, s') =>
      -- a new top that `sbrk` has not provided
      if av ≠ k.arena.av ∧ s'.heap.top = s.heap.top then .error .unserved
      else
        match { k.arena with av := av }.splitTop nb with
        | some (mem, a) => .ok (mem, ⟨a, s'⟩)
        | none => .ok (0, ⟨{ k.arena with av := av }, s'⟩)

/-- `mALLOc`, with what it does when the arena has no chunk. -/
def mallocWith (system : Word → DlHeap → Except Trap (Word × DlHeap)) (bins : BinSearch)
    (bytes : Word) (k : DlHeap) : Except Trap (Word × DlHeap) :=
  if requestOutOfRange bytes then .ok (0, k)
  else
    match k.arena.serve bins (request2size bytes) with
    | (some mem, a) => .ok (mem, { k with arena := a })
    | (none, a) => system (request2size bytes) { k with arena := a }

/-- `mALLOc`: `sYSMALLOc` may call it again, after `malloc_consolidate`, and comes to its end
then. -/
def malloc (env : Env) (bins : BinSearch) (bytes : Word) (k : DlHeap) :
    Except Trap (Word × DlHeap) :=
  mallocWith (fun nb k =>
    if k.arena.fastchunks then
      mallocWith (sysmalloc env) bins (nb - mallocAlignMask)
        { k with arena := k.arena.mallocConsolidate }
    else k.sysmalloc env nb) bins bytes k

/-- `extra`, the bytes that `sYSTRIm` releases of a top of `topSize` bytes. -/
def trimExtra (topPad topSize : Word) : Word :=
  ((topSize - topPad - minsize + (pageSize - 1)) / pageSize - 1) * pageSize

/-- `sYSTRIm(av->top_pad, av)`. -/
def systrim (env : Env) (k : DlHeap) : Option DlHeap :=
  let av := k.arena.av
  let topSize := chunksize av.topHead
  let extra := trimExtra av.topPad topSize
  if (0 : Word).slt extra then do
    let (currentBrk, s) ← morecore env k.supply 0
    if currentBrk = av.top + topSize then
      let (_, s) ← morecore env s (-extra)
      let (newBrk, s) ← morecore env s 0
      let released := currentBrk - newBrk
      if newBrk ≠ morecoreFailure ∧ released ≠ 0 then
        let av := { av with topHead := (topSize - released) ||| prevInuse }
        some ⟨{ k.arena with av := av }, s⟩
      else some { k with supply := s }
    else some { k with supply := s }
  else some k

/-- `fREe` for a chunk that is too large for the fastbins. -/
def freeLarge (env : Env) (k : DlHeap) (before : List Chunk) (c : Chunk) (after : List Chunk) :
    Except Trap DlHeap :=
  let (size, a) := { k.arena with anychunks := true }.consolidate before c after
  if fastbinConsolidationThreshold ≤ size then
    let a := if a.fastchunks then a.mallocConsolidate else a
    -- `MORECORE_CANNOT_TRIM` is not defined
    if trimThreshold ≤ chunksize a.av.topHead then
      match systrim env { k with arena := a } with
      | none => .error .sbrkHalted
      | some k => .ok k
    else .ok { k with arena := a }
  else .ok { k with arena := a }

/-- `fREe`. -/
def free (env : Env) (mem : Word) (k : DlHeap) : Except Trap DlHeap :=
  if mem = 0 then .ok k
  else
    match locate (mem2chunk mem).toNat k.arena.chunks with
    | none => .error .badFree
    | some (before, c, after) =>
        if c.tag ≠ .inUse then .error .badFree
        else if BitVec.ofNat 64 c.len ≤ k.arena.maxFast then
          let bin := fastbinIndex (BitVec.ofNat 64 c.len)
          .ok { k with arena := { k.arena with
            anychunks := true
            fastchunks := true
            fastbins := Function.update k.arena.fastbins bin (c.start :: k.arena.fastbins bin)
            chunks := before ++ { c with tag := .fast } :: after } }
        else k.freeLarge env before c after

end DlHeap

/-- What is done with the heap. -/
inductive DlCall where
  | malloc (bytes : Word) (bins : BinSearch)
  | free (mem : Word)
  /-- anything that others do to the range allocator and the machine -/
  | other (allocator : VAddrAllocator 2048) (machine : Machine)

namespace DlHeap

def step (env : Env) (k : DlHeap) : DlCall → Except Trap DlHeap
  | .malloc bytes bins => do
      let (_, k) ← k.malloc env bins bytes
      .ok k
  | .free mem => k.free env mem
  | .other allocator machine =>
      .ok { k with supply := { k.supply with
        heap := { k.supply.heap with allocator := allocator, machine := machine } } }

/-- `av_` before the first call. -/
def start (initialTop : Word) (h : HeapState) : DlHeap :=
  { arena := { av := ⟨0, 0, 0, false⟩, initialTop := initialTop }, supply := ⟨h, []⟩ }

def run (env : Env) (k : DlHeap) (calls : List DlCall) : Except Trap DlHeap :=
  calls.foldlM (step env) k

end DlHeap

end UnnamedKernel.Mm.Heap
