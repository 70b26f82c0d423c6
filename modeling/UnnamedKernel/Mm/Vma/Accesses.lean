import UnnamedKernel.Lib.Critical
import UnnamedKernel.Mm.Vma.Model

/-!
# The range allocator, one access after the other

The critical sections of `alloc_pages` and `free` with every load and store of a field by itself,
in the order of `mm/vma.hpp` (a load that `&&` would skip is made all the same), so that other
processors can come in between. Without anyone in between they come to what the functions of the
model come to.
-/

namespace UnnamedKernel.Mm.Vma

open UnnamedKernel.Lib UnnamedKernel.Lib.Critical UnnamedKernel.Kernel

variable {maxNodes : Nat} {α : Type}

/-- Loads and stores of the allocator's fields. -/
abbrev Accesses (maxNodes : Nat) (α : Type) := Section (VAddrAllocator maxNodes) α

namespace Accesses

/-- `p->f` -/
def field (p : NodePtr) (f : Node → α) : Accesses maxNodes α :=
  Section.load fun a => f (a.nodes p)

/-- `p->f = ...` -/
def assign (p : NodePtr) (f : Node → Node) : Accesses maxNodes Unit :=
  Section.store fun a => a.modify p f

/-- The assignments that `allocate_node` makes to the node it returns. -/
def blank (n : NodePtr) (dynamic : Bool) : Accesses maxNodes Unit := do
  assign n fun m => { m with valid := true }
  assign n fun m => { m with dynamic := dynamic }
  assign n fun m => { m with prev := none }
  assign n fun m => { m with next := none }
  assign n fun m => { m with isFree := false }
  assign n fun m => { m with start := 0 }
  assign n fun m => { m with npages := 0 }

def allocateNode (heap : HeapAnswers) : Accesses maxNodes (Option NodePtr) := do
  match ← Section.load VAddrAllocator.freeStack with
  | idx :: rest =>
      Section.store fun a => { a with freeStack := rest }
      blank (.slot idx) false
      return some (.slot idx)
  | [] =>
      -- fallback to heap
      let k ← Section.load VAddrAllocator.newCount
      Section.store fun a => { a with newCount := k + 1 }
      if heap k then
        assign (.heap k) fun _ => {}
        blank (.heap k) true
        return some (.heap k)
      else return none

def freeNode (n : NodePtr) : Accesses maxNodes Unit := do
  if ← field n Node.dynamic then assign n fun _ => {}
  else
    match n with
    | .heap _ => Section.halt
    | .slot idx =>
        -- ASSERT(idx < MAX_NODES)
        if idx < maxNodes then
          assign n fun m => { m with valid := false }
          assign n fun m => { m with isFree := false }
          assign n fun m => { m with next := none }
          assign n fun m => { m with prev := none }
          Section.store fun a => { a with freeStack := idx :: a.freeStack }
        else Section.halt

/-- `if (p->next) p->next->prev = q;` -/
def setNextPrev (p q : NodePtr) : Accesses maxNodes Unit := do
  match ← field p Node.next with
  | none => return ()
  | some nx => assign nx fun m => { m with prev := some q }

/-- The end of `split_node_left`: fill `right` and insert it right after `orig`. -/
def insertRight (orig right : NodePtr) (leftNpages : Word) : Accesses maxNodes Unit := do
  assign right fun m => { m with valid := true }
  let isFree ← field orig Node.isFree
  assign right fun m => { m with isFree := isFree }
  let start ← field orig Node.start
  assign right fun m => { m with start := start + leftNpages }
  let npages ← field orig Node.npages
  assign right fun m => { m with npages := npages - leftNpages }
  let next ← field orig Node.next
  assign right fun m => { m with next := next }
  assign right fun m => { m with prev := some orig }
  setNextPrev orig right
  assign orig fun m => { m with next := some right }
  assign orig fun m => { m with npages := leftNpages }

def splitNodeLeft (heap : HeapAnswers) (orig : NodePtr) (leftNpages : Word) :
    Accesses maxNodes NodePtr := do
  if leftNpages = 0 then return orig
  else if (← field orig Node.npages) ≤ leftNpages then return orig
  else
    match ← allocateNode heap with
    | none => return orig
    | some right =>
        insertRight orig right leftNpages
        return right

/-- The merge that both halves of `coalesce` make: `p` swallows its successor `n`. -/
def mergeInto (p n : NodePtr) : Accesses maxNodes Unit := do
  let npages ← field n Node.npages
  assign p fun m => { m with npages := m.npages + npages }
  let next ← field n Node.next
  assign p fun m => { m with next := next }
  setNextPrev n p
  freeNode n

def mergeWithPrev (n : NodePtr) : Accesses maxNodes NodePtr := do
  match ← field n Node.prev with
  | some p =>
      if ← field p Node.isFree then
        mergeInto p n
        return p
      else return n
  | none => return n

def mergeWithNext (n : NodePtr) : Accesses maxNodes Unit := do
  match ← field n Node.next with
  | some nx => if ← field nx Node.isFree then mergeInto n nx else return ()
  | none => return ()

def coalesce (n : NodePtr) : Accesses maxNodes Unit := do
  let n ← mergeWithPrev n
  mergeWithNext n

/-- `cur->is_free = false; uint64_t vaddr = vaddr_from_page(cur->start);` -/
def handOut (cur : NodePtr) : Accesses maxNodes Word := do
  assign cur fun m => { m with isFree := false }
  let page ← field cur Node.start
  Section.load fun a => a.vaddrFromPage page

def takeNode (heap : HeapAnswers) (cur : NodePtr) (npages : Word) :
    Accesses maxNodes (Option Word) := do
  if npages < (← field cur Node.npages) then
    let rightAfterAlloc ← splitNodeLeft heap cur npages
    if rightAfterAlloc = cur then return none
    else return some (← handOut cur)
  else
    -- exact fit
    return some (← handOut cur)

def tryNode (heap : HeapAnswers) (cur : NodePtr) (padding npages : Word) :
    Accesses maxNodes (Option Word × NodePtr) := do
  if 0 < padding then
    let right ← splitNodeLeft heap cur padding
    if right = cur then return (none, cur)
    else return (← takeNode heap right npages, right)
  else return (← takeNode heap cur npages, cur)

def allocLoop (heap : HeapAnswers) (npages alignPages : Word) :
    Nat → Option NodePtr → Accesses maxNodes (Option Word)
  | 0, _ => Section.halt
  | _ + 1, none => return none
  | fuel + 1, some cur => do
      let isFree ← field cur Node.isFree
      let curPages ← field cur Node.npages
      if isFree ∧ npages ≤ curPages then
        let start ← field cur Node.start
        let padding := alignUp start alignPages - start
        if padding + npages ≤ (← field cur Node.npages) then
          match ← tryNode heap cur padding npages with
          | (some vaddr, _) => return some vaddr
          | (none, cur) => allocLoop heap npages alignPages fuel (← field cur Node.next)
        else allocLoop heap npages alignPages fuel (← field cur Node.next)
      else allocLoop heap npages alignPages fuel (← field cur Node.next)

def cutRight (heap : HeapAnswers) (working : NodePtr) (right : Word) :
    Accesses maxNodes Bool := do
  if 0 < right then
    let npages ← field working Node.npages
    let rightTail ← splitNodeLeft heap working (npages - right)
    return rightTail != working
  else return true

def cutLeft (heap : HeapAnswers) (working : NodePtr) (left : Word) :
    Accesses maxNodes (Option NodePtr) := do
  if 0 < left then
    let mid ← splitNodeLeft heap working left
    if mid = working then return none else return some mid
  else return some working

/-- `p->is_free = true; coalesce(p);` -/
def release (p : NodePtr) : Accesses maxNodes Bool := do
  assign p fun m => { m with isFree := true }
  coalesce p
  return true

def freePortion (heap : HeapAnswers) (cur : NodePtr) (page npages : Word) :
    Accesses maxNodes Bool := do
  let start ← field cur Node.start
  let curPages ← field cur Node.npages
  if start + curPages < page + npages then return false
  else if ← cutRight heap cur (start + curPages - (page + npages)) then
    match ← cutLeft heap cur (page - start) with
    | none => return false
    | some working =>
        -- ASSERT(working->npages == npages)
        if (← field working Node.npages) = npages then release working else Section.halt
  else return false

def freeLoop (heap : HeapAnswers) (page npages : Word) :
    Nat → Option NodePtr → Accesses maxNodes Bool
  | 0, _ => Section.halt
  | _ + 1, none => return false
  | fuel + 1, some cur => do
      let isFree ← field cur Node.isFree
      let start ← field cur Node.start
      let curPages ← field cur Node.npages
      if isFree = false ∧ start = page ∧ curPages = npages then release cur
      else if isFree = false ∧ start ≤ page ∧ page < start + curPages then
        freePortion heap cur page npages
      else freeLoop heap page npages fuel (← field cur Node.next)

end Accesses

/-! ## Without anyone in between -/

namespace VAddrAllocator

/-- The lock's flag is set to `b`, and the rest stays as it is. -/
def relock (b : Bool) (a : VAddrAllocator maxNodes) : VAddrAllocator maxNodes :=
  { a with locked := b }

variable (a : VAddrAllocator maxNodes) (b : Bool)

@[simp] theorem relock_nodes : (a.relock b).nodes = a.nodes := rfl

@[simp] theorem relock_freeStack : (a.relock b).freeStack = a.freeStack := rfl

@[simp] theorem relock_newCount : (a.relock b).newCount = a.newCount := rfl

@[simp] theorem relock_vaddrFromPage (page : Word) :
    (a.relock b).vaddrFromPage page = a.vaddrFromPage page := rfl

@[simp] theorem relock_modify (p : NodePtr) (f : Node → Node) :
    (a.relock b).modify p f = (a.modify p f).relock b := rfl

@[simp] theorem vaddrFromPage_modify (p : NodePtr) (f : Node → Node) (page : Word) :
    (a.modify p f).vaddrFromPage page = a.vaddrFromPage page := rfl

@[simp] theorem modify_modify (p : NodePtr) (f g : Node → Node) :
    (a.modify p f).modify p g = a.modify p (g ∘ f) := by
  simp [modify]

@[simp] theorem nodes_modify (p q : NodePtr) (f : Node → Node) :
    (a.modify p f).nodes q = if q = p then f (a.nodes q) else a.nodes q := by
  by_cases hq : q = p
  · subst hq
    simp [modify]
  · simp [modify, hq]

@[simp] theorem relock_setPrev (p : Option NodePtr) (q : NodePtr) :
    (a.relock b).setPrev p q = (a.setPrev p q).relock b := by
  cases p <;> rfl

end VAddrAllocator

namespace Accesses

open VAddrAllocator

variable (heap : HeapAnswers) (a : VAddrAllocator maxNodes) (b : Bool)

@[simp] theorem run_field (p : NodePtr) (f : Node → α) :
    (field p f).run a = some (f (a.nodes p), a) := rfl

@[simp] theorem run_assign (p : NodePtr) (f : Node → Node) :
    (assign p f).run a = some ((), a.modify p f) := rfl

theorem run_blank (n : NodePtr) (dynamic : Bool) :
    (blank n dynamic).run a = some ((), a.modify n fun _ =>
      { valid := true, dynamic := dynamic, prev := none, next := none, isFree := false,
        start := 0, npages := 0 }) := by
  simp only [blank, Section.run_bind, run_assign, Option.bind_some, modify_modify]
  rfl

@[simp] theorem run_allocateNode :
    (allocateNode heap).run (a.relock b) =
      some ((a.allocateNode heap).1, (a.allocateNode heap).2.relock b) := by
  unfold allocateNode VAddrAllocator.allocateNode
  rcases hstack : a.freeStack with - | ⟨idx, rest⟩
  · by_cases hheap : heap a.newCount = true
    · simp [hstack, hheap, run_blank, relock, VAddrAllocator.modify]
    · simp [hstack, hheap, relock]
  · simp [hstack, run_blank, relock, VAddrAllocator.modify]

@[simp] theorem run_freeNode (n : NodePtr) :
    (freeNode n).run (a.relock b) = (a.freeNode n).map fun a' => ((), a'.relock b) := by
  unfold freeNode VAddrAllocator.freeNode
  by_cases hdynamic : (a.nodes n).dynamic = true
  · simp [hdynamic]
  · rcases n with idx | k
    · by_cases hidx : idx < maxNodes
      · simp [hdynamic, hidx]
        rfl
      · simp [hdynamic, hidx]
    · simp [hdynamic]

@[simp] theorem run_setNextPrev (p q : NodePtr) :
    (setNextPrev p q).run a = some ((), a.setPrev (a.nodes p).next q) := by
  rcases hnext : (a.nodes p).next with - | nx <;>
    simp [setNextPrev, hnext, VAddrAllocator.setPrev]

@[simp] theorem run_insertRight (orig right : NodePtr) (left : Word) :
    (insertRight orig right left).run (a.relock b) =
      some ((), (a.insertRight orig right left).relock b) := by
  unfold insertRight VAddrAllocator.insertRight
  by_cases hne : orig = right
  · subst hne
    simp
    rfl
  · simp [hne]
    rfl

@[simp] theorem run_splitNodeLeft (orig : NodePtr) (left : Word) :
    (splitNodeLeft heap orig left).run (a.relock b) =
      some ((a.splitNodeLeft heap orig left).1, (a.splitNodeLeft heap orig left).2.relock b) := by
  unfold splitNodeLeft VAddrAllocator.splitNodeLeft
  by_cases hleft : left = 0
  · rw [if_pos hleft, if_pos hleft]
    rfl
  rw [if_neg hleft, if_neg hleft]
  by_cases hn : (a.nodes orig).npages ≤ left
  · simp [hn]
  · rcases halloc : a.allocateNode heap with ⟨- | right, a'⟩ <;> simp [hn, halloc]

@[simp] theorem run_mergeInto (p n : NodePtr) :
    (mergeInto p n).run (a.relock b) = (a.mergeInto p n).map fun a' => ((), a'.relock b) := by
  unfold mergeInto VAddrAllocator.mergeInto
  by_cases hne : n = p
  · subst hne
    simp
    rfl
  · simp [hne]
    rfl

theorem run_mergeWithNext (n : NodePtr) :
    (mergeWithNext n).run (a.relock b) =
      ((a.nodes n).next.elim (some a) fun nx =>
        if (a.nodes nx).isFree then a.mergeInto n nx else some a).map fun a' =>
          ((), a'.relock b) := by
  rcases hnext : (a.nodes n).next with - | nx
  · simp [mergeWithNext, hnext]
  · by_cases hfree : (a.nodes nx).isFree = true <;> simp [mergeWithNext, hnext, hfree]

@[simp] theorem run_coalesce (n : NodePtr) :
    (coalesce n).run (a.relock b) = (a.coalesce n).map fun a' => ((), a'.relock b) := by
  unfold coalesce VAddrAllocator.coalesce mergeWithPrev
  rcases hprev : (a.nodes n).prev with - | p
  · simp only [hprev, Section.run_bind, run_field, relock_nodes, Option.bind_some,
      Section.run_pure, run_mergeWithNext, Option.bind_eq_bind]
    cases (a.nodes n).next <;> rfl
  · by_cases hfree : (a.nodes p).isFree = true
    · rcases hmerge : a.mergeInto p n with - | a'
      · simp [hprev, hfree, hmerge]
      · simp [hprev, hfree, hmerge, run_mergeWithNext]
        cases (a'.nodes p).next <;> rfl
    · simp [hprev, hfree, run_mergeWithNext]
      cases (a.nodes n).next <;> rfl

@[simp] theorem run_handOut (cur : NodePtr) :
    (handOut cur).run (a.relock b) =
      some (a.vaddrFromPage (a.nodes cur).start,
        (a.modify cur fun n => { n with isFree := false }).relock b) := by
  simp [handOut]

@[simp] theorem run_takeNode (cur : NodePtr) (npages : Word) :
    (takeNode heap cur npages).run (a.relock b) =
      some ((a.takeNode heap cur npages).1, (a.takeNode heap cur npages).2.relock b) := by
  unfold takeNode VAddrAllocator.takeNode
  by_cases hn : npages < (a.nodes cur).npages
  · by_cases hright : (a.splitNodeLeft heap cur npages).1 = cur
    · simp [hn, hright]
    · simp [hn, hright]
  · simp [hn]

@[simp] theorem run_tryNode (cur : NodePtr) (padding npages : Word) :
    (tryNode heap cur padding npages).run (a.relock b) =
      some (((a.tryNode heap cur padding npages).1, (a.tryNode heap cur padding npages).2.1),
        (a.tryNode heap cur padding npages).2.2.relock b) := by
  unfold tryNode VAddrAllocator.tryNode
  by_cases hpad : 0 < padding
  · rw [if_pos hpad, if_pos hpad]
    by_cases hright : (a.splitNodeLeft heap cur padding).1 = cur <;> simp [hright]
  · rw [if_neg hpad, if_neg hpad]
    simp

theorem run_allocLoop (npages alignPages : Word) (fuel : Nat) (cur : Option NodePtr)
    (a : VAddrAllocator maxNodes) :
    (allocLoop heap npages alignPages fuel cur).run (a.relock b) =
      (VAddrAllocator.allocLoop heap npages alignPages fuel cur a).map fun x =>
        (x.1, x.2.relock b) := by
  induction fuel generalizing cur a with
  | zero => simp [allocLoop, VAddrAllocator.allocLoop]
  | succ fuel ih =>
      cases cur with
      | none => simp [allocLoop, VAddrAllocator.allocLoop]
      | some cur =>
          simp only [allocLoop, VAddrAllocator.allocLoop, Section.run_bind, Section.run_ite,
            run_field, Option.bind_some, relock_nodes, run_tryNode, ih]
          split_ifs with hfree hpad
          · rcases htry : a.tryNode heap cur _ npages with ⟨- | vaddr, cur', a'⟩
            · simp [ih]
            · simp
          · rfl
          · rfl

@[simp] theorem run_cutRight (working : NodePtr) (right : Word) :
    (cutRight heap working right).run (a.relock b) =
      some ((a.cutRight heap working right).1, (a.cutRight heap working right).2.relock b) := by
  unfold cutRight VAddrAllocator.cutRight
  by_cases hright : 0 < right
  · rw [if_pos hright, if_pos hright]
    simp
  · rw [if_neg hright, if_neg hright]
    simp

@[simp] theorem run_cutLeft (working : NodePtr) (left : Word) :
    (cutLeft heap working left).run (a.relock b) =
      some ((a.cutLeft heap working left).1, (a.cutLeft heap working left).2.relock b) := by
  unfold cutLeft VAddrAllocator.cutLeft
  by_cases hleft : 0 < left
  · rw [if_pos hleft, if_pos hleft]
    by_cases hmid : (a.splitNodeLeft heap working left).1 = working <;> simp [hmid]
  · rw [if_neg hleft, if_neg hleft]
    simp

@[simp] theorem run_release (p : NodePtr) :
    (release p).run (a.relock b) =
      ((a.modify p fun n => { n with isFree := true }).coalesce p).map fun a' =>
        (true, a'.relock b) := by
  rcases hmerge : (a.modify p fun n => { n with isFree := true }).coalesce p with - | a' <;>
    simp [release, hmerge]

@[simp] theorem run_freePortion (cur : NodePtr) (page npages : Word) :
    (freePortion heap cur page npages).run (a.relock b) =
      (a.freePortion heap cur page npages).map fun x => (x.1, x.2.relock b) := by
  simp only [freePortion, VAddrAllocator.freePortion, Section.run_bind, Section.run_ite,
    run_field, Option.bind_some, relock_nodes, run_cutRight]
  by_cases hlong : (a.nodes cur).start + (a.nodes cur).npages < page + npages
  · rw [if_pos hlong, if_pos hlong]
    rfl
  rw [if_neg hlong, if_neg hlong]
  generalize (a.nodes cur).start + (a.nodes cur).npages - (page + npages) = right
  generalize page - (a.nodes cur).start = left
  rcases hright : a.cutRight heap cur right with ⟨- | -, a₁⟩
  · simp
  rcases hleft : a₁.cutLeft heap cur left with ⟨- | working, a₂⟩
  · simp [hleft]
  · by_cases hn : (a₂.nodes working).npages = npages
    · rcases hmerge : (a₂.modify working fun n => { n with isFree := true }).coalesce working
        with - | a' <;> simp [hleft, hn, hmerge]
    · simp [hleft, hn]

theorem run_freeLoop (page npages : Word) (fuel : Nat) (cur : Option NodePtr) :
    (freeLoop heap page npages fuel cur).run (a.relock b) =
      (VAddrAllocator.freeLoop heap page npages fuel cur a).map fun x => (x.1, x.2.relock b) := by
  induction fuel generalizing cur with
  | zero => simp [freeLoop, VAddrAllocator.freeLoop]
  | succ fuel ih =>
      cases cur with
      | none => simp [freeLoop, VAddrAllocator.freeLoop]
      | some cur =>
          simp only [freeLoop, VAddrAllocator.freeLoop, Section.run_bind, Section.run_ite,
            run_field, Option.bind_some, relock_nodes, run_release, run_freePortion, ih]
          split_ifs
          · rcases hmerge : (a.modify cur fun n => { n with isFree := true }).coalesce cur
              with - | a' <;> simp
          · rfl
          · rfl

end Accesses

end UnnamedKernel.Mm.Vma
