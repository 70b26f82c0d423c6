import UnnamedKernel.Mm.Vma.Model

/-!
# The range allocator with its calls of the heap

The functions of `mm/vma.hpp` once more, with what `UnnamedKernel.Mm.Vma.Model` leaves out:
`new` and `delete` are calls that may change the rest of the kernel and come back to the
allocator, `lock_` is released at each exit on its own, and a node may be used only between the
`allocate_node` that returned it and its `free_node`. A call that does not return says why.
-/

namespace UnnamedKernel.Mm.Vma

open UnnamedKernel.Lib UnnamedKernel.Kernel

/-- Why a call does not return. -/
inductive Stop where
  /-- `lock_.lock()` while the same chain of calls holds `lock_` -/
  | relocked
  /-- `ASSERT(idx < MAX_NODES)` of `free_node` -/
  | noSlot
  /-- another `ASSERT` -/
  | assertFailed
  /-- a node is used that is not in use -/
  | dangling (p : NodePtr)
  /-- a walk does not reach the end of the list -/
  | endless
  /-- `x86_64::hcf()` -/
  | halted
  /-- calls nested deeper than they are followed -/
  | tooDeep
  deriving DecidableEq, Repr

/-- The allocator and the rest of the kernel. -/
structure Guarded (maxNodes : Nat) (σ : Type) where
  allocator : VAddrAllocator maxNodes
  /-- the nodes that `allocate_node` has returned and `free_node` has not got back -/
  inUse : NodePtr → Bool := fun _ => false
  rest : σ

/-- `operator new` for a node, which tells whether there is one, and `operator delete`. -/
structure NodeHeap (maxNodes : Nat) (σ : Type) where
  new : Guarded maxNodes σ → Except Stop (Bool × Guarded maxNodes σ)
  delete : NodePtr → Guarded maxNodes σ → Except Stop (Guarded maxNodes σ)

namespace Guarded

variable {maxNodes : Nat} {σ : Type}

/-- What `*p` holds. -/
def node (s : Guarded maxNodes σ) (p : NodePtr) : Except Stop Node :=
  if s.inUse p then .ok (s.allocator.nodes p) else .error (.dangling p)

/-- An assignment to fields of `*p`. -/
def modify (s : Guarded maxNodes σ) (p : NodePtr) (f : Node → Node) :
    Except Stop (Guarded maxNodes σ) :=
  if s.inUse p then .ok { s with allocator := s.allocator.modify p f } else .error (.dangling p)

/-- `if (p) p->prev = q;` -/
def setPrev (s : Guarded maxNodes σ) (p : Option NodePtr) (q : NodePtr) :
    Except Stop (Guarded maxNodes σ) :=
  match p with
  | none => .ok s
  | some p => s.modify p fun n => { n with prev := some q }

/-- `lock_.lock()`. -/
def lock (s : Guarded maxNodes σ) : Except Stop (Guarded maxNodes σ) :=
  if s.allocator.locked then .error .relocked
  else .ok { s with allocator := { s.allocator with locked := true } }

/-- `lock_.unlock()`. -/
def unlock (s : Guarded maxNodes σ) : Guarded maxNodes σ :=
  { s with allocator := s.allocator.unlock }

/-- `p` is handed out. -/
def use (s : Guarded maxNodes σ) (p : NodePtr) (n : Node) : Guarded maxNodes σ :=
  { s with allocator := s.allocator.modify p fun _ => n, inUse := Function.update s.inUse p true }

/-- `p` has been taken back. -/
def drop (s : Guarded maxNodes σ) (p : NodePtr) (a : VAddrAllocator maxNodes) :
    Guarded maxNodes σ :=
  { s with allocator := a, inUse := Function.update s.inUse p false }

def allocateNode (heap : NodeHeap maxNodes σ) (s : Guarded maxNodes σ) :
    Except Stop (Option NodePtr × Guarded maxNodes σ) :=
  match s.allocator.freeStack with
  | idx :: rest =>
      let s := { s with allocator := { s.allocator with freeStack := rest } }
      .ok (some (.slot idx), s.use (.slot idx) { valid := true })
  | [] => do
      -- fallback to heap
      let (answer, s) ← heap.new s
      let k := s.allocator.newCount
      let s := { s with allocator := { s.allocator with newCount := k + 1 } }
      if answer then .ok (some (.heap k), s.use (.heap k) { valid := true, dynamic := true })
      else .ok (none, s)

def freeNode (heap : NodeHeap maxNodes σ) (n : NodePtr) (s : Guarded maxNodes σ) :
    Except Stop (Guarded maxNodes σ) := do
  if (← s.node n).dynamic then
    let s ← heap.delete n s
    .ok (s.drop n (s.allocator.modify n fun _ => {}))
  else
    match n with
    | .heap _ => .error .noSlot
    | .slot idx =>
        -- ASSERT(idx < MAX_NODES)
        if idx < maxNodes then
          .ok (s.drop n { s.allocator.modify (.slot idx) (fun m =>
            { m with valid := false, isFree := false, next := none, prev := none }) with
            freeStack := idx :: s.allocator.freeStack })
        else .error .noSlot

/-- The end of `split_node_left`: fill `right` and insert it right after `orig`. -/
def insertRight (orig right : NodePtr) (leftNpages : Word) (s : Guarded maxNodes σ) :
    Except Stop (Guarded maxNodes σ) := do
  let o ← s.node orig
  let s ← s.modify right fun n =>
    { n with valid := true, isFree := o.isFree, start := o.start + leftNpages,
             npages := o.npages - leftNpages, next := o.next, prev := some orig }
  let s ← s.setPrev o.next right
  s.modify orig fun n => { n with next := some right, npages := leftNpages }

def splitNodeLeft (heap : NodeHeap maxNodes σ) (orig : NodePtr) (leftNpages : Word)
    (s : Guarded maxNodes σ) : Except Stop (NodePtr × Guarded maxNodes σ) :=
  if leftNpages = 0 then .ok (orig, s)
  else do
    if (← s.node orig).npages ≤ leftNpages then .ok (orig, s)
    else
      match ← s.allocateNode heap with
      | (none, s) => .ok (orig, s)
      | (some right, s) => do
          let s ← s.insertRight orig right leftNpages
          .ok (right, s)

/-- The merge that both halves of `coalesce` make: `p` swallows its successor `n`. -/
def mergeInto (heap : NodeHeap maxNodes σ) (p n : NodePtr) (s : Guarded maxNodes σ) :
    Except Stop (Guarded maxNodes σ) := do
  let nx ← s.node n
  let s ← s.modify p fun m => { m with npages := m.npages + nx.npages, next := nx.next }
  let s ← s.setPrev nx.next p
  s.freeNode heap n

/-- The first half of `coalesce`; the node that is left. -/
def mergeWithPrev (heap : NodeHeap maxNodes σ) (n : NodePtr) (s : Guarded maxNodes σ) :
    Except Stop (NodePtr × Guarded maxNodes σ) := do
  match (← s.node n).prev with
  | some p => do
      if (← s.node p).isFree then
        let s ← s.mergeInto heap p n
        .ok (p, s)
      else .ok (n, s)
  | none => .ok (n, s)

/-- The second half of `coalesce`. -/
def mergeWithNext (heap : NodeHeap maxNodes σ) (n : NodePtr) (s : Guarded maxNodes σ) :
    Except Stop (Guarded maxNodes σ) := do
  match (← s.node n).next with
  | some nx => if (← s.node nx).isFree then s.mergeInto heap n nx else .ok s
  | none => .ok s

def coalesce (heap : NodeHeap maxNodes σ) (n : NodePtr) (s : Guarded maxNodes σ) :
    Except Stop (Guarded maxNodes σ) := do
  let (n, s) ← s.mergeWithPrev heap n
  s.mergeWithNext heap n

def init (heap : NodeHeap maxNodes σ) (base size : Word) (rest : σ) :
    Except Stop (Guarded maxNodes σ) := do
  let s : Guarded maxNodes σ :=
    { allocator :=
        { base := base, totalPages := size / pageSize, freeStack := List.range maxNodes },
      rest := rest }
  match ← s.allocateNode heap with
  -- ASSERT(n != nullptr)
  | (none, _) => .error .assertFailed
  | (some n, s) =>
      let s ← s.modify n fun m =>
        { m with start := 0, npages := s.allocator.totalPages, isFree := true, prev := none,
                 next := none }
      .ok { s with allocator := { s.allocator with head := some n } }

/-- `cur->is_free = false;`, the address, and `lock_` released. -/
def handOut (cur : NodePtr) (s : Guarded maxNodes σ) :
    Except Stop (Option Word × Guarded maxNodes σ) := do
  let s ← s.modify cur fun n => { n with isFree := false }
  let vaddr := s.allocator.vaddrFromPage (← s.node cur).start
  .ok (some vaddr, s.unlock)

def takeNode (heap : NodeHeap maxNodes σ) (cur : NodePtr) (npages : Word)
    (s : Guarded maxNodes σ) : Except Stop (Option Word × Guarded maxNodes σ) := do
  if npages < (← s.node cur).npages then
    let (rightAfterAlloc, s) ← s.splitNodeLeft heap cur npages
    if rightAfterAlloc = cur then .ok (none, s) else s.handOut cur
  else
    -- exact fit
    s.handOut cur

def tryNode (heap : NodeHeap maxNodes σ) (cur : NodePtr) (padding npages : Word)
    (s : Guarded maxNodes σ) : Except Stop (Option Word × NodePtr × Guarded maxNodes σ) :=
  if 0 < padding then do
    let (right, s) ← s.splitNodeLeft heap cur padding
    if right = cur then .ok (none, cur, s)
    else
      let (r, s) ← s.takeNode heap right npages
      .ok (r, right, s)
  else do
    let (r, s) ← s.takeNode heap cur npages
    .ok (r, cur, s)

def allocLoop (heap : NodeHeap maxNodes σ) (npages alignPages : Word) :
    Nat → Option NodePtr → Guarded maxNodes σ → Except Stop (Option Word × Guarded maxNodes σ)
  | 0, _, _ => .error .endless
  | _ + 1, none, s => .ok (none, s.unlock)
  | fuel + 1, some cur, s => do
      let c ← s.node cur
      if c.isFree ∧ npages ≤ c.npages then
        let padding := alignUp c.start alignPages - c.start
        if padding + npages ≤ c.npages then
          match ← s.tryNode heap cur padding npages with
          | (some vaddr, _, s) => .ok (some vaddr, s)
          | (none, cur, s) => allocLoop heap npages alignPages fuel (← s.node cur).next s
        else allocLoop heap npages alignPages fuel c.next s
      else allocLoop heap npages alignPages fuel c.next s

def allocPages (heap : NodeHeap maxNodes σ) (npages alignPages : Word) (s : Guarded maxNodes σ) :
    Except Stop (Option Word × Guarded maxNodes σ) :=
  if npages = 0 then .ok (none, s)
  -- ASSERT((align_pages & (align_pages - 1)) == 0 && align_pages >= 1)
  else if alignPages &&& (alignPages - 1) = 0 ∧ 1 ≤ alignPages then do
    let s ← s.lock
    allocLoop heap npages alignPages walkLimit s.allocator.head s
  else .error .assertFailed

/-- `is_free = true;`, `coalesce`, and `lock_` released. -/
def release (heap : NodeHeap maxNodes σ) (n : NodePtr) (s : Guarded maxNodes σ) :
    Except Stop (Bool × Guarded maxNodes σ) := do
  let s ← s.modify n fun m => { m with isFree := true }
  let s ← s.coalesce heap n
  .ok (true, s.unlock)

/-- `if (right > 0) ...`: cut the tail off `working`; false when that fails. -/
def cutRight (heap : NodeHeap maxNodes σ) (working : NodePtr) (right : Word)
    (s : Guarded maxNodes σ) : Except Stop (Bool × Guarded maxNodes σ) :=
  if 0 < right then do
    let w ← s.node working
    let (rightTail, s) ← s.splitNodeLeft heap working (w.npages - right)
    .ok (rightTail != working, s)
  else .ok (true, s)

/-- `if (left > 0) ...`: cut the front off `working` and go on with the rest. -/
def cutLeft (heap : NodeHeap maxNodes σ) (working : NodePtr) (left : Word)
    (s : Guarded maxNodes σ) : Except Stop (Option NodePtr × Guarded maxNodes σ) :=
  if 0 < left then do
    let (mid, s) ← s.splitNodeLeft heap working left
    .ok (if mid = working then none else some mid, s)
  else .ok (some working, s)

/-- The part of `free` that releases a middle portion of `cur`. -/
def freePortion (heap : NodeHeap maxNodes σ) (cur : NodePtr) (page npages : Word)
    (s : Guarded maxNodes σ) : Except Stop (Bool × Guarded maxNodes σ) := do
  let c ← s.node cur
  if c.start + c.npages < page + npages then .ok (false, s.unlock)
  else
    let left := page - c.start
    let right := c.start + c.npages - (page + npages)
    match ← s.cutRight heap cur right with
    | (false, s) => .ok (false, s.unlock)
    | (true, s) =>
        match ← s.cutLeft heap cur left with
        | (none, s) => .ok (false, s.unlock)
        | (some working, s) =>
            -- ASSERT(working->npages == npages)
            if (← s.node working).npages = npages then s.release heap working
            else .error .assertFailed

def freeLoop (heap : NodeHeap maxNodes σ) (page npages : Word) :
    Nat → Option NodePtr → Guarded maxNodes σ → Except Stop (Bool × Guarded maxNodes σ)
  | 0, _, _ => .error .endless
  | _ + 1, none, s => .ok (false, s.unlock)
  | fuel + 1, some cur, s => do
      let c ← s.node cur
      if c.isFree = false ∧ c.start = page ∧ c.npages = npages then s.release heap cur
      else if c.isFree = false ∧ c.start ≤ page ∧ page < c.start + c.npages then
        s.freePortion heap cur page npages
      else freeLoop heap page npages fuel c.next s

def free (heap : NodeHeap maxNodes σ) (vaddr npages : Word) (s : Guarded maxNodes σ) :
    Except Stop (Bool × Guarded maxNodes σ) :=
  if npages = 0 then .ok (true, s)
  else
    let page := s.allocator.pageFromVaddr vaddr
    if s.allocator.totalPages ≤ page then .ok (false, s)
    else do
      let s ← s.lock
      freeLoop heap page npages walkLimit s.allocator.head s

end Guarded

end UnnamedKernel.Mm.Vma
