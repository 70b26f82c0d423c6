import UnnamedKernel.Mm.Heap.Bins

/-!
# `malloc` and `free` with the bins (`lib/dlmalloc/malloc.c`)

The chunks together with the lists that the free ones are in. A call of `malloc` searches the lists
itself, and overruns the chunk that it has found if that is too small.
-/

namespace UnnamedKernel.Mm.Heap

open UnnamedKernel.Lib UnnamedKernel.Kernel Vma Vmm

/-- `malloc_state` with its bins. -/
structure BinnedArena where
  arena : Arena
  bins : Bins := {}

namespace BinnedArena

/-- `malloc_init_state`. -/
def mallocInitState (a : BinnedArena) : BinnedArena where
  arena := a.arena.mallocInitState
  bins := { a.bins with unsorted := [], bin := fun _ => [] }

/-- A neighbour is unlinked, if it is free. -/
def unlinkFree (o : Option Chunk) (b : Bins) : Bins :=
  match o with
  | none => b
  | some c => if c.tag.isBinned then b.unlink c.start else b

/-- The chunk `c` between `before` and `after` becomes free: it is joined with its free neighbours,
which leave their lists, and goes to the unsorted ones, or to the top. -/
def consolidate (a : BinnedArena) (before : List Chunk) (c : Chunk) (after : List Chunk) :
    Word × BinnedArena :=
  let (size, arena) := a.arena.consolidate before c after
  -- consolidate backward
  let bins := unlinkFree before.getLast? a.bins
  match after with
  | [] => (size, ⟨arena, bins⟩)
  | next :: after =>
      -- consolidate forward
      let bins := unlinkFree (some next) bins
      let p := (joinAfter ChunkUse.isBinned (joinBefore ChunkUse.isBinned before c).2
        (next :: after)).1
      (size, ⟨arena, bins.putUnsorted { p with tag := .binned }⟩)

/-- A chunk of a fastbin goes to the unsorted ones. -/
def consolidateFast (a : BinnedArena) (p : Nat) : BinnedArena :=
  match locate p a.arena.chunks with
  | some (before, c, after) => (a.consolidate before c after).2
  | none => a

/-- `malloc_consolidate`. -/
def mallocConsolidate (a : BinnedArena) : BinnedArena :=
  if a.arena.maxFast ≠ 0 then
    a.arena.pending.foldl consolidateFast { a with
      arena := { a.arena with
        fastchunks := false
        fastbins := fun i =>
          if i ≤ fastbinIndex a.arena.maxFast then [] else a.arena.fastbins i } }
  else a.mallocInitState

/-- The chunk that has been taken off the lists, whole or cut to `nb`. -/
def cut (a : BinnedArena) (nb : Word) (victim : Chunk) : Option (Word × BinnedArena) :=
  (a.arena.takeBinned nb victim.start).map fun (mem, arena) =>
    (mem, ⟨arena,
      if victim.len - nb.toNat < minsize.toNat then a.bins
      else a.bins.putRemainder nb
        ⟨victim.start + nb.toNat, victim.len - nb.toNat, .binned⟩⟩)

/-- `use_top`, up to the call of `sYSMALLOc`. -/
def useTop (a : BinnedArena) (nb : Word) : Option Word × BinnedArena :=
  ((a.arena.useTop nb).1, { a with arena := (a.arena.useTop nb).2 })

/-- `mALLOc` for chunks of `nb` bytes, up to the call of `sYSMALLOc`; `none` when it overruns the
chunk that it takes. -/
def serve (nb : Word) (a : BinnedArena) : Option (Option Word × BinnedArena) :=
  if ¬ a.arena.anychunks then
    some ((if a.arena.maxFast = 0 then a.mallocConsolidate else a).useTop nb)
  else
    match a.arena.popFastbin nb with
    | some (mem, arena) => some (some mem, { a with arena := arena })
    | none =>
        match a.bins.takeSmall nb with
        | some (victim, bins) =>
            ({ a with bins := bins }.cut nb victim).map fun (mem, a) => (some mem, a)
        | none =>
            let a := if ¬ nb < minLargeSize ∧ a.arena.fastchunks then a.mallocConsolidate else a
            match a.bins.search nb with
            | (some victim, bins) =>
                if victim.len < nb.toNat then none
                else ({ a with bins := bins }.cut nb victim).map fun (mem, a) => (some mem, a)
            | (none, bins) => some ({ a with bins := bins }.useTop nb)

end BinnedArena

/-- dlmalloc with its bins. -/
structure BinnedHeap where
  heap : DlHeap
  bins : Bins := {}

/-- Why a run with the bins ends. -/
inductive Fault where
  | trap (t : Trap)
  /-- a chunk is too small for the request -/
  | overrun
  deriving DecidableEq, Repr

namespace BinnedHeap

def binned (k : BinnedHeap) : BinnedArena := ⟨k.heap.arena, k.bins⟩

def withBinned (k : BinnedHeap) (a : BinnedArena) : BinnedHeap :=
  ⟨{ k.heap with arena := a.arena }, a.bins⟩

/-- `sYSMALLOc`, when there are no chunks in fastbins. -/
def sysmalloc (env : Env) (nb : Word) (k : BinnedHeap) : Except Fault (Word × BinnedHeap) :=
  match k.heap.sysmalloc env nb with
  | .ok (mem, heap) => .ok (mem, { k with heap := heap })
  | .error t => .error (.trap t)

/-- `mALLOc`, with what it does when the arena has no chunk. -/
def mallocWith (system : Word → BinnedHeap → Except Fault (Word × BinnedHeap)) (bytes : Word)
    (k : BinnedHeap) : Except Fault (Word × BinnedHeap) :=
  if requestOutOfRange bytes then .ok (0, k)
  else
    match k.binned.serve (request2size bytes) with
    | none => .error .overrun
    | some (some mem, a) => .ok (mem, k.withBinned a)
    | some (none, a) => system (request2size bytes) (k.withBinned a)

/-- `mALLOc`. -/
def malloc (env : Env) (bytes : Word) (k : BinnedHeap) : Except Fault (Word × BinnedHeap) :=
  mallocWith (fun nb k =>
    if k.heap.arena.fastchunks then
      mallocWith (sysmalloc env) (nb - mallocAlignMask) (k.withBinned k.binned.mallocConsolidate)
    else k.sysmalloc env nb) bytes k

/-- `fREe` for a chunk that is too large for the fastbins. -/
def freeLarge (env : Env) (k : BinnedHeap) (before : List Chunk) (c : Chunk)
    (after : List Chunk) : Except Fault BinnedHeap :=
  let (size, a) := { k.binned with arena := { k.heap.arena with anychunks := true } }.consolidate
    before c after
  if fastbinConsolidationThreshold ≤ size then
    let a := if a.arena.fastchunks then a.mallocConsolidate else a
    -- `MORECORE_CANNOT_TRIM` is not defined
    if trimThreshold ≤ chunksize a.arena.av.topHead then
      match DlHeap.systrim env { k.heap with arena := a.arena } with
      | none => .error (.trap .sbrkHalted)
      | some heap => .ok ⟨heap, a.bins⟩
    else .ok (k.withBinned a)
  else .ok (k.withBinned a)

/-- `fREe`. -/
def free (env : Env) (mem : Word) (k : BinnedHeap) : Except Fault BinnedHeap :=
  if mem = 0 then .ok k
  else
    match locate (mem2chunk mem).toNat k.heap.arena.chunks with
    | none => .error (.trap .badFree)
    | some (before, c, after) =>
        if c.tag ≠ .inUse then .error (.trap .badFree)
        else if BitVec.ofNat 64 c.len ≤ k.heap.arena.maxFast then
          let bin := fastbinIndex (BitVec.ofNat 64 c.len)
          .ok { k with heap := { k.heap with arena := { k.heap.arena with
            anychunks := true
            fastchunks := true
            fastbins := Function.update k.heap.arena.fastbins bin
              (c.start :: k.heap.arena.fastbins bin)
            chunks := before ++ { c with tag := .fast } :: after } } }
        else k.freeLarge env before c after

end BinnedHeap

/-- What is done with the heap. -/
inductive BinnedCall where
  | malloc (bytes : Word)
  | free (mem : Word)
  /-- anything that others do to the range allocator and the machine -/
  | other (allocator : VAddrAllocator 2048) (machine : Machine)

namespace BinnedHeap

/-- `av_` before the first call. -/
def start (initialTop : Word) (h : HeapState) : BinnedHeap := { heap := DlHeap.start initialTop h }

end BinnedHeap

end UnnamedKernel.Mm.Heap
