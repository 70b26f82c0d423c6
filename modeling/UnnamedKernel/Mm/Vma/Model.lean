import UnnamedKernel.Kernel.Helpers
import Mathlib.Logic.Function.Basic

/-!
# The virtual range allocator (`mm/vma.hpp`)

A shallow embedding of `VAddrAllocator<MAX_NODES>`. Node pointers are names: a
slot of the static pool, or a heap node numbered by the `new` that produced it.
An outer `Option` is `none` when the call does not return, because an `ASSERT`
halts the kernel, because `lock_` is already held, or because a walk does not
reach the end of the list.
-/

namespace UnnamedKernel.Mm.Vma

open UnnamedKernel.Lib UnnamedKernel.Kernel

/-- `Node *`: `&nodes_[i]`, or the node that the `k`-th `new` returned. -/
inductive NodePtr where
  | slot (i : Nat)
  | heap (k : Nat)
  deriving DecidableEq, Repr

structure Node where
  valid : Bool := false
  dynamic : Bool := false
  isFree : Bool := false
  start : Word := 0
  npages : Word := 0
  prev : Option NodePtr := none
  next : Option NodePtr := none
  deriving DecidableEq, Repr

/-- Whether the `k`-th call of `new (std::nothrow) Node()` succeeds. -/
abbrev HeapAnswers := Nat → Bool

structure VAddrAllocator (maxNodes : Nat) where
  /-- `nodes_` together with the nodes that live on the heap -/
  nodes : NodePtr → Node := fun _ => {}
  /-- `free_stack_[0 .. free_stack_top_)`, top first -/
  freeStack : List Nat := []
  /-- how often `new` has been called -/
  newCount : Nat := 0
  head : Option NodePtr := none
  base : Word := 0
  totalPages : Word := 0
  /-- the flag of `lock_` -/
  locked : Bool := false

/-- Turns given to a `while (cur)` walk; no list of distinct nodes is that long. -/
def walkLimit : Nat := 2 ^ 64

/-- `VAddrAllocator::align_up`, with its shortcut for alignments 0 and 1. -/
def alignUp (v align : Word) : Word := if align ≤ 1 then v else (v + align - 1) &&& ~~~(align - 1)

namespace VAddrAllocator

variable {maxNodes : Nat}

/-- An assignment to fields of `*p`. -/
def modify (a : VAddrAllocator maxNodes) (p : NodePtr) (f : Node → Node) :
    VAddrAllocator maxNodes :=
  { a with nodes := Function.update a.nodes p (f (a.nodes p)) }

/-- `if (p) p->prev = q;` -/
def setPrev (a : VAddrAllocator maxNodes) (p : Option NodePtr) (q : NodePtr) :
    VAddrAllocator maxNodes :=
  match p with
  | none => a
  | some p => a.modify p fun n => { n with prev := some q }

def vaddrFromPage (a : VAddrAllocator maxNodes) (page : Word) : Word := a.base + page * pageSize

def pageFromVaddr (a : VAddrAllocator maxNodes) (vaddr : Word) : Word :=
  (vaddr - a.base) / pageSize

/-- `lock_.lock()` spins forever when the flag is already set. -/
def lock (a : VAddrAllocator maxNodes) : Option (VAddrAllocator maxNodes) :=
  if a.locked then none else some { a with locked := true }

def unlock (a : VAddrAllocator maxNodes) : VAddrAllocator maxNodes := { a with locked := false }

def allocateNode (heap : HeapAnswers) (a : VAddrAllocator maxNodes) :
    Option NodePtr × VAddrAllocator maxNodes :=
  match a.freeStack with
  | idx :: rest =>
      let n : Node :=
        { valid := true, dynamic := false, prev := none, next := none, isFree := false,
          start := 0, npages := 0 }
      (some (.slot idx), { a.modify (.slot idx) (fun _ => n) with freeStack := rest })
  | [] =>
      -- fallback to heap
      if heap a.newCount then
        let n : Node :=
          { valid := true, dynamic := true, prev := none, next := none, isFree := false,
            start := 0, npages := 0 }
        (some (.heap a.newCount),
          { a.modify (.heap a.newCount) (fun _ => n) with newCount := a.newCount + 1 })
      else (none, { a with newCount := a.newCount + 1 })

/-- `free_node`; a deleted heap node goes back to blank storage. -/
def freeNode (a : VAddrAllocator maxNodes) (n : NodePtr) : Option (VAddrAllocator maxNodes) :=
  if (a.nodes n).dynamic then some (a.modify n fun _ => {})
  else
    match n with
    | .heap _ => none
    | .slot idx =>
        -- ASSERT(idx < MAX_NODES)
        if idx < maxNodes then
          some { a.modify (.slot idx) (fun m =>
              { m with valid := false, isFree := false, next := none, prev := none }) with
            freeStack := idx :: a.freeStack }
        else none

/-- The end of `split_node_left`: fill `right` and insert it right after `orig`. -/
def insertRight (a : VAddrAllocator maxNodes) (orig right : NodePtr) (leftNpages : Word) :
    VAddrAllocator maxNodes :=
  let o := a.nodes orig
  let a := a.modify right fun n =>
    { n with valid := true, isFree := o.isFree, start := o.start + leftNpages,
             npages := o.npages - leftNpages, next := o.next, prev := some orig }
  let a := a.setPrev o.next right
  a.modify orig fun n => { n with next := some right, npages := leftNpages }

/-- `split_node_left`: the right part, or `orig` itself when there was no split. -/
def splitNodeLeft (heap : HeapAnswers) (a : VAddrAllocator maxNodes) (orig : NodePtr)
    (leftNpages : Word) : NodePtr × VAddrAllocator maxNodes :=
  if leftNpages = 0 then (orig, a)
  else if (a.nodes orig).npages ≤ leftNpages then (orig, a)
  else
    match a.allocateNode heap with
    | (none, a) => (orig, a)
    | (some right, a) => (right, a.insertRight orig right leftNpages)

/-- The merge that both halves of `coalesce` make: `p` swallows its successor `n`. -/
def mergeInto (a : VAddrAllocator maxNodes) (p n : NodePtr) : Option (VAddrAllocator maxNodes) :=
  let nx := a.nodes n
  let a := a.modify p fun m => { m with npages := m.npages + nx.npages, next := nx.next }
  let a := a.setPrev nx.next p
  a.freeNode n

def coalesce (a : VAddrAllocator maxNodes) (n : NodePtr) : Option (VAddrAllocator maxNodes) := do
  -- merge with previous
  let (n, a) ← match (a.nodes n).prev with
    | some p => if (a.nodes p).isFree then do some (p, ← a.mergeInto p n) else some (n, a)
    | none => some (n, a)
  -- merge with next
  match (a.nodes n).next with
  | some nx => if (a.nodes nx).isFree then a.mergeInto n nx else some a
  | none => some a

/-- `init`, from the blank object of static storage. -/
def init (heap : HeapAnswers) (base size : Word) : Option (VAddrAllocator maxNodes) :=
  let a : VAddrAllocator maxNodes :=
    { base := base, totalPages := size / pageSize
      -- the index pushed last, 0, is on top
      freeStack := List.range maxNodes }
  match a.allocateNode heap with
  | (none, _) => none
  | (some n, a) =>
      let a := a.modify n fun m =>
        { m with start := 0, npages := a.totalPages, isFree := true, prev := none, next := none }
      some { a with head := some n }

/-- The end of `alloc_pages`' loop body: `cur` starts at the aligned page, and
only its right remainder is left to cut off. `none` when that split fails. -/
def takeNode (heap : HeapAnswers) (a : VAddrAllocator maxNodes) (cur : NodePtr) (npages : Word) :
    Option Word × VAddrAllocator maxNodes :=
  if npages < (a.nodes cur).npages then
    let (rightAfterAlloc, a) := a.splitNodeLeft heap cur npages
    if rightAfterAlloc = cur then (none, a)
    else
      let a := a.modify cur fun n => { n with isFree := false }
      (some (a.vaddrFromPage (a.nodes cur).start), a)
  else
    -- exact fit
    let a := a.modify cur fun n => { n with isFree := false }
    (some (a.vaddrFromPage (a.nodes cur).start), a)

/-- The loop body of `alloc_pages` once `cur` is known to fit: the result, and
the node from which the walk goes on when a split failed. -/
def tryNode (heap : HeapAnswers) (a : VAddrAllocator maxNodes) (cur : NodePtr)
    (padding npages : Word) : Option Word × NodePtr × VAddrAllocator maxNodes :=
  if 0 < padding then
    let (right, a) := a.splitNodeLeft heap cur padding
    -- couldn't split (out of nodes) -> treat as no space here
    if right = cur then (none, cur, a)
    else
      -- now right->start == aligned_start
      let (r, a) := a.takeNode heap right npages
      (r, right, a)
  else
    let (r, a) := a.takeNode heap cur npages
    (r, cur, a)

def allocLoop (heap : HeapAnswers) (npages alignPages : Word) :
    Nat → Option NodePtr → VAddrAllocator maxNodes → Option (Option Word × VAddrAllocator maxNodes)
  | 0, _, _ => none
  | _ + 1, none, a => some (none, a)
  | fuel + 1, some cur, a =>
      let c := a.nodes cur
      if c.isFree ∧ npages ≤ c.npages then
        let padding := alignUp c.start alignPages - c.start
        if padding + npages ≤ c.npages then
          match a.tryNode heap cur padding npages with
          | (some vaddr, _, a) => some (some vaddr, a)
          | (none, cur, a) => allocLoop heap npages alignPages fuel (a.nodes cur).next a
        else allocLoop heap npages alignPages fuel c.next a
      else allocLoop heap npages alignPages fuel c.next a

def allocPages (heap : HeapAnswers) (a : VAddrAllocator maxNodes) (npages alignPages : Word) :
    Option (Option Word × VAddrAllocator maxNodes) :=
  if npages = 0 then some (none, a)
  -- ASSERT((align_pages & (align_pages - 1)) == 0 && align_pages >= 1)
  else if alignPages &&& (alignPages - 1) = 0 ∧ 1 ≤ alignPages then do
    let a ← a.lock
    let (r, a) ← allocLoop heap npages alignPages walkLimit a.head a
    some (r, a.unlock)
  else none

/-- `if (right > 0) ...`: cut the tail off `working`; false when that fails. -/
def cutRight (heap : HeapAnswers) (a : VAddrAllocator maxNodes) (working : NodePtr)
    (right : Word) : Bool × VAddrAllocator maxNodes :=
  if 0 < right then
    let (rightTail, a) := a.splitNodeLeft heap working ((a.nodes working).npages - right)
    (rightTail != working, a)
  else (true, a)

/-- `if (left > 0) ...`: cut the front off `working` and go on with the rest. -/
def cutLeft (heap : HeapAnswers) (a : VAddrAllocator maxNodes) (working : NodePtr)
    (left : Word) : Option NodePtr × VAddrAllocator maxNodes :=
  if 0 < left then
    let (mid, a) := a.splitNodeLeft heap working left
    (if mid = working then none else some mid, a)
  else (some working, a)

/-- The part of `free` that releases a middle portion of `cur`. -/
def freePortion (heap : HeapAnswers) (a : VAddrAllocator maxNodes) (cur : NodePtr)
    (page npages : Word) : Option (Bool × VAddrAllocator maxNodes) :=
  let c := a.nodes cur
  if c.start + c.npages < page + npages then some (false, a)
  else
    let left := page - c.start
    let right := c.start + c.npages - (page + npages)
    match a.cutRight heap cur right with
    | (false, a) => some (false, a)
    | (true, a) =>
        match a.cutLeft heap cur left with
        | (none, a) => some (false, a)
        | (some working, a) =>
            -- ASSERT(working->npages == npages)
            if (a.nodes working).npages = npages then do
              let a ← (a.modify working fun n => { n with isFree := true }).coalesce working
              some (true, a)
            else none

def freeLoop (heap : HeapAnswers) (page npages : Word) :
    Nat → Option NodePtr → VAddrAllocator maxNodes → Option (Bool × VAddrAllocator maxNodes)
  | 0, _, _ => none
  | _ + 1, none, a => some (false, a)
  | fuel + 1, some cur, a =>
      let c := a.nodes cur
      if c.isFree = false ∧ c.start = page ∧ c.npages = npages then do
        let a ← (a.modify cur fun n => { n with isFree := true }).coalesce cur
        some (true, a)
      else if c.isFree = false ∧ c.start ≤ page ∧ page < c.start + c.npages then
        a.freePortion heap cur page npages
      else freeLoop heap page npages fuel c.next a

def free (heap : HeapAnswers) (a : VAddrAllocator maxNodes) (vaddr npages : Word) :
    Option (Bool × VAddrAllocator maxNodes) :=
  if npages = 0 then some (true, a)
  else
    let page := a.pageFromVaddr vaddr
    if a.totalPages ≤ page then some (false, a)
    else do
      let a ← a.lock
      let (r, a) ← freeLoop heap page npages walkLimit a.head a
      some (r, a.unlock)

def freePagesLoop (a : VAddrAllocator maxNodes) : Nat → Option NodePtr → Word → Option Word
  | 0, _, _ => none
  | _ + 1, none, sum => some sum
  | fuel + 1, some cur, sum =>
      let c := a.nodes cur
      freePagesLoop a fuel c.next (if c.isFree then sum + c.npages else sum)

def freePagesTotal (a : VAddrAllocator maxNodes) : Option Word :=
  a.freePagesLoop walkLimit a.head 0

end VAddrAllocator

end UnnamedKernel.Mm.Vma
