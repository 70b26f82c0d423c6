import UnnamedKernel.Mm.Vma.Guarded
import UnnamedKernel.Mm.Vma.Refine

/-!
# The guarded functions do what the first ones do

Where the nodes in use are those of the list and the other slots lie on the free stack, the
guarded functions return what those of `UnnamedKernel.Mm.Vma.Model` return and keep it so. Then
no node is used before `allocate_node` or after `free_node`, and the `ASSERT` of `free_node`
holds.
-/

namespace UnnamedKernel.Mm.Vma

open UnnamedKernel.Lib UnnamedKernel.Kernel

variable {maxNodes : Nat}

/-- `new` answers what `heap` says, and neither it nor `delete` does anything else. -/
def HeapAnswers.nodeHeap (heap : HeapAnswers) : NodeHeap maxNodes Unit where
  new s := .ok (heap s.allocator.newCount, s)
  delete _ s := .ok s

namespace Guarded

variable {s : Guarded maxNodes Unit} {p q : NodePtr}

theorem node_of_inUse (hp : s.inUse p = true) : s.node p = .ok (s.allocator.nodes p) := if_pos hp

theorem modify_of_inUse (hp : s.inUse p = true) (f : Node → Node) :
    s.modify p f = .ok { s with allocator := s.allocator.modify p f } := if_pos hp

theorem setPrev_of_inUse {x : Option NodePtr} (hx : ∀ p, x = some p → s.inUse p = true)
    (a : VAddrAllocator maxNodes) :
    setPrev { s with allocator := a } x q = .ok { s with allocator := a.setPrev x q } := by
  cases x with
  | none => rfl
  | some p => exact if_pos (hx p rfl)

theorem insertRight_of_inUse (hp : s.inUse p = true) (hq : s.inUse q = true)
    (hnext : ∀ x, (s.allocator.nodes p).next = some x → s.inUse x = true) (left : Word) :
    s.insertRight p q left = .ok { s with allocator := s.allocator.insertRight p q left } := by
  simp only [insertRight, node_of_inUse hp, modify_of_inUse hq, bind, Except.bind]
  rw [setPrev_of_inUse hnext]
  exact if_pos hp

end Guarded

namespace VAddrAllocator

variable {a a' : VAddrAllocator maxNodes} {heap : HeapAnswers} {p q : NodePtr}

theorem insertRight_valid (a : VAddrAllocator maxNodes) (p q : NodePtr) (left : Word)
    (x : NodePtr) : ((a.insertRight p q left).nodes x).valid =
      if x = q then true else (a.nodes x).valid := by
  simp only [insertRight, modify_nodes, setPrev_nodes]
  grind

theorem allocateNode_freeStack (h : a.allocateNode heap = (some q, a')) {i : Nat}
    (hi : i ∈ a.freeStack) : .slot i = q ∨ i ∈ a'.freeStack := by
  cases hs : a.freeStack with
  | nil => simp [hs] at hi
  | cons idx rest =>
      rw [allocateNode_static heap hs] at h
      simp only [Prod.mk.injEq, Option.some.injEq] at h
      obtain ⟨rfl, rfl⟩ := h
      rw [hs, List.mem_cons] at hi
      exact hi.imp (fun he => by rw [he]) id

theorem allocateNode_valid (h : a.allocateNode heap = (some q, a')) :
    (a'.nodes q).valid = true := by
  unfold allocateNode at h
  split at h
  · simp only [Prod.mk.injEq, Option.some.injEq] at h
    obtain ⟨rfl, rfl⟩ := h
    simp
  · split_ifs at h
    · simp only [Prod.mk.injEq, Option.some.injEq] at h
      obtain ⟨rfl, rfl⟩ := h
      simp
    · simp at h

theorem freeNode_valid (h : a.freeNode q = some a') (x : NodePtr) :
    (a'.nodes x).valid = if x = q then false else (a.nodes x).valid := by
  unfold freeNode at h
  by_cases hdyn : (a.nodes q).dynamic = true
  · rw [if_pos hdyn, Option.some.injEq] at h
    subst h
    rw [modify_nodes]
    split_ifs <;> rfl
  · rw [if_neg hdyn] at h
    cases q with
    | heap k => simp at h
    | slot idx =>
        simp only [Option.ite_none_right_eq_some, Option.some.injEq] at h
        obtain ⟨-, rfl⟩ := h
        rw [modify_nodes]
        split_ifs <;> rfl

theorem freeNode_freeStack (h : a.freeNode q = some a')
    (hslot : ∀ i, .slot i = q → (a.nodes q).dynamic = false) {i : Nat}
    (hi : .slot i = q ∨ i ∈ a.freeStack) : i ∈ a'.freeStack := by
  unfold freeNode at h
  cases q with
  | heap k =>
      simp only [reduceCtorEq, false_or, Option.ite_none_right_eq_some, Option.some.injEq] at h hi
      obtain ⟨-, rfl⟩ := h
      exact hi
  | slot idx =>
      simp only [hslot idx rfl, Bool.false_eq_true, if_false, Option.ite_none_right_eq_some,
        Option.some.injEq] at h
      obtain ⟨-, rfl⟩ := h
      rcases hi with hi | hi
      · obtain rfl : i = idx := by simpa using hi
        exact List.mem_cons_self
      · exact List.mem_cons_of_mem _ hi

end VAddrAllocator

/-- The nodes in use are the nodes of the list, and no slot is lost. -/
structure Balanced (s : Guarded maxNodes Unit) (cells : List Cell) : Prop where
  shape : Shape s.allocator cells
  inUse : ∀ p, s.inUse p = true ↔ p ∈ ptrs cells
  valid : ∀ p, (s.allocator.nodes p).valid = s.inUse p
  slots : ∀ i < maxNodes, .slot i ∈ ptrs cells ∨ i ∈ s.allocator.freeStack

namespace Balanced

variable {s : Guarded maxNodes Unit} {l r cells : List Cell} {p q : NodePtr} {t u : PageSeg}

theorem node_eq (h : Balanced s cells) (hp : p ∈ ptrs cells) :
    s.node p = .ok (s.allocator.nodes p) := Guarded.node_of_inUse ((h.inUse p).2 hp)

theorem unlock (h : Balanced s cells) : Balanced s.unlock cells :=
  ⟨VAddrAllocator.relock_shape h.shape, h.inUse, h.valid, h.slots⟩

theorem locked (h : Balanced s cells) :
    Balanced ({ s with allocator := { s.allocator with locked := true } } : Guarded maxNodes Unit)
      cells :=
  ⟨VAddrAllocator.relock_shape h.shape, h.inUse, h.valid, h.slots⟩

theorem modify_isFree (h : Balanced s (l ++ (p, t) :: r)) (b : Bool) :
    Balanced { s with allocator := s.allocator.modify p fun n => { n with isFree := b } }
      (l ++ (p, { t with tag := b }) :: r) := by
  have hptrs : ptrs (l ++ (p, { t with tag := b }) :: r) = ptrs (l ++ (p, t) :: r) := by simp
  refine ⟨h.shape.modify_isFree b, fun x => hptrs ▸ h.inUse x, fun x => ?_, hptrs ▸ h.slots⟩
  rw [← h.valid x, VAddrAllocator.modify_nodes]
  split_ifs with hx
  · rw [hx]
  · rfl

theorem allocateNode_eq (heap : HeapAnswers) (s : Guarded maxNodes Unit) :
    s.allocateNode heap.nodeHeap = .ok ((s.allocator.allocateNode heap).1,
      { s with
        allocator := (s.allocator.allocateNode heap).2
        inUse := match (s.allocator.allocateNode heap).1 with
          | some q => Function.update s.inUse q true
          | none => s.inUse }) := by
  unfold Guarded.allocateNode VAddrAllocator.allocateNode
  cases hs : s.allocator.freeStack with
  | cons idx rest => simp [hs, Guarded.use, VAddrAllocator.modify]
  | nil =>
      by_cases hnew : heap s.allocator.newCount = true
      · simp [hs, HeapAnswers.nodeHeap, hnew, Guarded.use, VAddrAllocator.modify, bind, Except.bind]
      · simp [hs, HeapAnswers.nodeHeap, hnew, bind, Except.bind]

/-- `split_node_left` puts a new node behind `p`, or changes nothing on the list. -/
theorem splitNodeLeft_eq (h : Balanced s (l ++ (p, t) :: r)) (heap : HeapAnswers) (left : Word) :
    (∃ q s' t' u, s.splitNodeLeft heap.nodeHeap p left = .ok (q, s') ∧
      s.allocator.splitNodeLeft heap p left = (q, s'.allocator) ∧ q ≠ p ∧
      Balanced s' (l ++ (p, t') :: (q, u) :: r)) ∨
    ∃ s', s.splitNodeLeft heap.nodeHeap p left = .ok (p, s') ∧
      s.allocator.splitNodeLeft heap p left = (p, s'.allocator) ∧
      Balanced s' (l ++ (p, t) :: r) := by
  have hp : p ∈ ptrs (l ++ (p, t) :: r) := by simp
  have hnode := h.node_eq hp
  by_cases h0 : left = 0
  · exact Or.inr ⟨s, by rw [Guarded.splitNodeLeft, if_pos h0],
      by rw [VAddrAllocator.splitNodeLeft, if_pos h0], h⟩
  by_cases hle : (s.allocator.nodes p).npages ≤ left
  · refine Or.inr ⟨s, ?_, by rw [VAddrAllocator.splitNodeLeft, if_neg h0, if_pos hle], h⟩
    simp only [Guarded.splitNodeLeft, if_neg h0, hnode, bind, Except.bind, if_pos hle]
  have halloc := allocateNode_eq heap s
  rcases h.shape.pool.allocateNode_spec heap with
    ⟨q, a₁, hres, hfresh, hpool, hsame, hhead, -⟩ | ⟨hres, -⟩
  swap
  · rw [hres] at halloc
    refine Or.inr ⟨{ s with allocator := s.allocator.afterNull }, ?_, ?_,
      ⟨VAddrAllocator.afterNull_shape h.shape, h.inUse, h.valid, h.slots⟩⟩
    · simp only [Guarded.splitNodeLeft, if_neg h0, hnode, bind, Except.bind, if_neg hle, halloc]
    · simp only [VAddrAllocator.splitNodeLeft, if_neg h0, if_neg hle, hres]
  left
  rw [hres] at halloc
  have hqp : q ≠ p := fun he => hfresh (by simp [he])
  obtain ⟨hleft, hright, hshape⟩ := h.shape.insertRight_shape hfresh hpool hsame hhead left
  let s₁ : Guarded maxNodes Unit :=
    { s with allocator := a₁, inUse := Function.update s.inUse q true }
  have hkept : ∀ x, s.inUse x = true → s₁.inUse x = true := fun x hx => by
    simp only [s₁, Function.update_apply]
    split_ifs <;> trivial
  have hpUse := hkept p ((h.inUse p).2 hp)
  have hqUse : s₁.inUse q = true := by simp [s₁]
  have hnext : ∀ x, (a₁.nodes p).next = some x → s₁.inUse x = true := fun x hx => by
    rw [hsame p (Ne.symm hqp), h.shape.at_node.2.1] at hx
    exact hkept x ((h.inUse x).2 (by simp [List.mem_of_mem_head? hx]))
  refine ⟨q, { s₁ with allocator := a₁.insertRight p q left }, _, _, ?_, ?_, hqp, hshape, ?_, ?_,
    ?_⟩
  · have hinsert := Guarded.insertRight_of_inUse hpUse hqUse hnext left
    simp only [Guarded.splitNodeLeft, if_neg h0, hnode, bind, Except.bind, if_neg hle, halloc]
    simp only [s₁] at hinsert ⊢
    rw [hinsert]
  · simp only [VAddrAllocator.splitNodeLeft, if_neg h0, if_neg hle, hres]
  · intro x
    simp only [s₁, Function.update_apply, ptrs_append, ptrs_cons, List.mem_append, List.mem_cons]
    have hx := h.inUse x
    simp only [ptrs_append, ptrs_cons, List.mem_append, List.mem_cons] at hx
    split_ifs with hxq
    · simp [hxq]
    · rw [hx]
      tauto
  · intro x
    rw [VAddrAllocator.insertRight_valid]
    simp only [s₁, Function.update_apply]
    split_ifs with hxq
    · rfl
    · rw [hsame x hxq, h.valid x]
  · intro i hi
    rcases h.slots i hi with hmem | hmem
    · left
      simp only [ptrs_append, ptrs_cons, List.mem_append, List.mem_cons] at hmem ⊢
      tauto
    · rcases VAddrAllocator.allocateNode_freeStack hres hmem with he | hmem
      · exact Or.inl (by simp [he])
      · exact Or.inr (by simpa using hmem)

theorem freeNode_eq (heap : HeapAnswers) (hq : s.inUse q = true) {a' : VAddrAllocator maxNodes}
    (h : s.allocator.freeNode q = some a') : s.freeNode heap.nodeHeap q = .ok (s.drop q a') := by
  simp only [Guarded.freeNode, Guarded.node_of_inUse hq, bind, Except.bind]
  unfold VAddrAllocator.freeNode at h
  split_ifs at h ⊢ with hdyn
  · rw [← Option.some.inj h]
    rfl
  · cases q with
    | heap k => simp at h
    | slot idx =>
        simp only [Option.ite_none_right_eq_some, Option.some.injEq] at h
        obtain ⟨hidx, rfl⟩ := h
        simp only [if_pos hidx]

theorem mergeInto_eq (h : Balanced s (l ++ (p, t) :: (q, u) :: r)) (heap : HeapAnswers) :
    ∃ s' t', s.mergeInto heap.nodeHeap p q = .ok s' ∧
      s.allocator.mergeInto p q = some s'.allocator ∧ Balanced s' (l ++ (p, t') :: r) := by
  have hp : p ∈ ptrs (l ++ (p, t) :: (q, u) :: r) := by simp
  have hq : q ∈ ptrs (l ++ (p, t) :: (q, u) :: r) := by simp
  have hq' : Shape s.allocator ((l ++ [(p, t)]) ++ (q, u) :: r) := by simpa using h.shape
  obtain ⟨a', hmerge, -, hshape, -, -⟩ := h.shape.mergeInto_shape
  have hnext : ∀ x, (s.allocator.nodes q).next = some x → s.inUse x = true := fun x hx => by
    rw [hq'.at_node.2.1] at hx
    exact (h.inUse x).2 (by simp [List.mem_of_mem_head? hx])
  have hpUse := (h.inUse p).2 hp
  have hqUse := (h.inUse q).2 hq
  -- the state in which `free_node` is called
  let a₁ := (s.allocator.modify p fun m =>
    { m with npages := m.npages + (s.allocator.nodes q).npages,
             next := (s.allocator.nodes q).next }).setPrev (s.allocator.nodes q).next p
  have hfree : a₁.freeNode q = some a' := hmerge
  have hsame : ∀ x, (a₁.nodes x).valid = (s.allocator.nodes x).valid ∧
      (a₁.nodes x).dynamic = (s.allocator.nodes x).dynamic := by
    intro x
    simp only [a₁, VAddrAllocator.modify_nodes, VAddrAllocator.setPrev_nodes]
    grind
  have hslot : ∀ i, NodePtr.slot i = q → (a₁.nodes q).dynamic = false := by
    rintro i rfl
    rw [(hsame _).2]
    exact (h.shape.pool.slot i hq).2
  refine ⟨({ s with allocator := a₁ } : Guarded maxNodes Unit).drop q a', _, ?_, hmerge, hshape,
    ?_, ?_, ?_⟩
  · simp only [Guarded.mergeInto, Guarded.node_of_inUse hqUse, Guarded.modify_of_inUse hpUse, bind,
      Except.bind]
    rw [Guarded.setPrev_of_inUse hnext]
    exact freeNode_eq (s := { s with allocator := a₁ }) heap hqUse hfree
  · intro x
    have hnodup := h.shape.nodup
    have hx := h.inUse x
    simp only [ptrs_append, ptrs_cons, List.nodup_append, List.nodup_cons, List.mem_cons,
      List.mem_append] at hnodup hx ⊢
    simp only [Guarded.drop, Function.update_apply]
    grind
  · intro x
    rw [show (({ s with allocator := a₁ } : Guarded maxNodes Unit).drop q a').allocator = a'
        from rfl, VAddrAllocator.freeNode_valid hfree, (hsame x).1, h.valid x]
    simp only [Guarded.drop, Function.update_apply]
  · intro i hi
    have hstack : a₁.freeStack = s.allocator.freeStack := by simp [a₁]
    by_cases hiq : NodePtr.slot i = q
    · exact Or.inr (VAddrAllocator.freeNode_freeStack hfree hslot (Or.inl hiq))
    · refine (h.slots i hi).imp (fun hmem => ?_) fun hmem =>
        VAddrAllocator.freeNode_freeStack hfree hslot (Or.inr (hstack ▸ hmem))
      simp only [ptrs_append, ptrs_cons, List.mem_append, List.mem_cons] at hmem ⊢
      tauto

theorem mergeWithNext_eq (h : Balanced s (l ++ (p, t) :: r)) (heap : HeapAnswers) :
    ∃ s' cells', s.mergeWithNext heap.nodeHeap p = .ok s' ∧
      (match (s.allocator.nodes p).next with
        | some nx => if (s.allocator.nodes nx).isFree then s.allocator.mergeInto p nx
            else some s.allocator
        | none => some s.allocator) = some s'.allocator ∧ Balanced s' cells' := by
  have hnode := h.node_eq (p := p) (by simp)
  have hnext := h.shape.at_node.2.1
  cases r with
  | nil =>
      refine ⟨s, _, ?_, by rw [hnext]; rfl, h⟩
      simp only [Guarded.mergeWithNext, hnode, bind, Except.bind, hnext, ptrs_nil, List.head?_nil]
  | cons c r =>
      obtain ⟨q, u⟩ := c
      have hqnode := h.node_eq (p := q) (by simp)
      have hnextq : (s.allocator.nodes p).next = some q := by rw [hnext]; rfl
      simp only [Guarded.mergeWithNext, hnode, bind, Except.bind, hnextq, hqnode]
      by_cases hfree : (s.allocator.nodes q).isFree = true
      · obtain ⟨s', t', hres, hres', hbal⟩ := h.mergeInto_eq heap
        exact ⟨s', _, by rw [if_pos hfree, hres], by rw [if_pos hfree, hres'], hbal⟩
      · exact ⟨s, _, by rw [if_neg hfree], by rw [if_neg hfree], h⟩

theorem mergeWithPrev_eq (h : Balanced s (l ++ (p, t) :: r)) (heap : HeapAnswers) :
    ∃ s' l' p' t', s.mergeWithPrev heap.nodeHeap p = .ok (p', s') ∧
      (∀ next : NodePtr × VAddrAllocator maxNodes → Option (VAddrAllocator maxNodes),
        (match (s.allocator.nodes p).prev with
          | some q => if (s.allocator.nodes q).isFree then do next (q, ← s.allocator.mergeInto q p)
              else next (p, s.allocator)
          | none => next (p, s.allocator)) = next (p', s'.allocator)) ∧
      Balanced s' (l' ++ (p', t') :: r) := by
  have hnode := h.node_eq (p := p) (by simp)
  have hprev := h.shape.at_node.2.2
  rcases List.eq_nil_or_concat l with rfl | ⟨l, ⟨q, u⟩, rfl⟩
  · refine ⟨s, [], p, t, ?_, fun next => by rw [hprev]; rfl, h⟩
    simp only [Guarded.mergeWithPrev, hnode, bind, Except.bind, hprev, ptrs_nil, List.getLast?_nil]
  · rw [List.concat_eq_append] at h hprev
    have hq : Balanced s (l ++ (q, u) :: (p, t) :: r) := by simpa using h
    have hqnode := hq.node_eq (p := q) (by simp)
    have hprevq : (s.allocator.nodes p).prev = some q := by rw [hprev]; simp
    simp only [Guarded.mergeWithPrev, hnode, bind, Except.bind, hprevq, hqnode]
    by_cases hfree : (s.allocator.nodes q).isFree = true
    · obtain ⟨s', t', hres, hres', hbal⟩ := hq.mergeInto_eq heap
      exact ⟨s', l, q, t', by rw [if_pos hfree, hres], fun next => by
        rw [if_pos hfree, hres']; rfl, hbal⟩
    · exact ⟨s, l ++ [(q, u)], p, t, by rw [if_neg hfree], fun next => by rw [if_neg hfree], h⟩

theorem coalesce_eq (h : Balanced s (l ++ (p, t) :: r)) (heap : HeapAnswers) :
    ∃ s' cells', s.coalesce heap.nodeHeap p = .ok s' ∧
      s.allocator.coalesce p = some s'.allocator ∧ Balanced s' cells' := by
  obtain ⟨s₁, l₁, p₁, t₁, hprev, hprev', hbal₁⟩ := h.mergeWithPrev_eq heap
  obtain ⟨s', cells', hnext, hnext', hbal⟩ := hbal₁.mergeWithNext_eq heap
  refine ⟨s', cells', ?_, ?_, hbal⟩
  · simp only [Guarded.coalesce, hprev, bind, Except.bind, hnext]
  · exact (hprev' fun x => match (x.2.nodes x.1).next with
      | some nx => if (x.2.nodes nx).isFree then x.2.mergeInto x.1 nx else some x.2
      | none => some x.2).trans hnext'

/-! ## `alloc_pages` -/

theorem handOut_eq (h : Balanced s (l ++ (p, t) :: r)) :
    s.handOut p =
      .ok (some (s.allocator.vaddrFromPage (s.allocator.nodes p).start),
        ({ s with allocator := s.allocator.modify p fun n => { n with isFree := false } } :
          Guarded maxNodes Unit).unlock) := by
  have hp := (h.inUse p).2 (by simp)
  have hnode : ∀ a, ({ s with allocator := a } : Guarded maxNodes Unit).node p = .ok (a.nodes p) :=
    fun a => if_pos hp
  simp only [Guarded.handOut, Guarded.modify_of_inUse hp, hnode, bind, Except.bind]
  simp [VAddrAllocator.vaddrFromPage, VAddrAllocator.modify]

/-- The guarded `takeNode` marks what the first one marks, and then it releases the lock. -/
theorem takeNode_eq (h : Balanced s (l ++ (p, t) :: r)) (heap : HeapAnswers) (npages : Word) :
    (∃ vaddr s' a' cells', s.takeNode heap.nodeHeap p npages = .ok (some vaddr, s') ∧
      s.allocator.takeNode heap p npages = (some vaddr, a') ∧ s'.allocator = a'.unlock ∧
      Balanced s' cells') ∨
    ∃ s', s.takeNode heap.nodeHeap p npages = .ok (none, s') ∧
      s.allocator.takeNode heap p npages = (none, s'.allocator) ∧
      Balanced s' (l ++ (p, t) :: r) := by
  have hnode := h.node_eq (p := p) (by simp)
  simp only [Guarded.takeNode, hnode, bind, Except.bind, VAddrAllocator.takeNode]
  by_cases hlt : npages < (s.allocator.nodes p).npages
  · simp only [if_pos hlt]
    rcases h.splitNodeLeft_eq heap npages with
      ⟨q, s₁, t', u, hsplit, hsplit', hqp, hbal⟩ | ⟨s₁, hsplit, hsplit', hbal⟩
    · left
      simp only [hsplit, hsplit', if_neg hqp, hbal.handOut_eq]
      refine ⟨_, _, _, _, rfl, ?_, rfl, (hbal.modify_isFree false).unlock⟩
      simp [VAddrAllocator.vaddrFromPage, VAddrAllocator.modify]
    · right
      exact ⟨s₁, by simp only [hsplit, if_true], by simp only [hsplit', if_true], hbal⟩
  · left
    simp only [if_neg hlt, h.handOut_eq]
    refine ⟨_, _, _, _, rfl, ?_, rfl, (h.modify_isFree false).unlock⟩
    simp [VAddrAllocator.vaddrFromPage, VAddrAllocator.modify]

/-- A failed attempt leaves a node of the list from which the walk goes on. -/
theorem tryNode_eq (h : Balanced s (l ++ (p, t) :: r)) (heap : HeapAnswers)
    (padding npages : Word) :
    (∃ vaddr q s' a' cells',
      s.tryNode heap.nodeHeap p padding npages = .ok (some vaddr, q, s') ∧
      s.allocator.tryNode heap p padding npages = (some vaddr, q, a') ∧
      s'.allocator = a'.unlock ∧ Balanced s' cells') ∨
    ∃ q s' l' t', s.tryNode heap.nodeHeap p padding npages = .ok (none, q, s') ∧
      s.allocator.tryNode heap p padding npages = (none, q, s'.allocator) ∧
      Balanced s' (l' ++ (q, t') :: r) := by
  simp only [Guarded.tryNode, bind, Except.bind, VAddrAllocator.tryNode]
  by_cases hpad : 0 < padding
  · simp only [if_pos hpad]
    rcases h.splitNodeLeft_eq heap padding with
      ⟨q, s₁, t', u, hsplit, hsplit', hqp, hbal⟩ | ⟨s₁, hsplit, hsplit', hbal⟩
    · simp only [hsplit, hsplit', if_neg hqp]
      have hq : Balanced s₁ ((l ++ [(p, t')]) ++ (q, u) :: r) := by simpa using hbal
      rcases hq.takeNode_eq heap npages with
        ⟨vaddr, s', a', cells', htake, htake', hlock, hbal'⟩ | ⟨s', htake, htake', hbal'⟩
      · exact Or.inl ⟨vaddr, q, s', a', cells', by simp only [htake], by simp only [htake'],
          hlock, hbal'⟩
      · exact Or.inr ⟨q, s', l ++ [(p, t')], u, by simp only [htake], by simp only [htake'], hbal'⟩
    · exact Or.inr ⟨p, s₁, l, t, by simp only [hsplit, if_true], by simp only [hsplit', if_true],
        hbal⟩
  · simp only [if_neg hpad]
    rcases h.takeNode_eq heap npages with
      ⟨vaddr, s', a', cells', htake, htake', hlock, hbal'⟩ | ⟨s', htake, htake', hbal'⟩
    · exact Or.inl ⟨vaddr, p, s', a', cells', by simp only [htake], by simp only [htake'], hlock,
        hbal'⟩
    · exact Or.inr ⟨p, s', l, t, by simp only [htake], by simp only [htake'], hbal'⟩

theorem allocLoop_eq (heap : HeapAnswers) (npages alignPages : Word) (fuel : Nat)
    (l rest : List Cell) {s : Guarded maxNodes Unit} (h : Balanced s (l ++ rest))
    {res : Option Word} {a' : VAddrAllocator maxNodes}
    (hres : VAddrAllocator.allocLoop heap npages alignPages fuel (ptrs rest).head? s.allocator =
      some (res, a')) :
    ∃ s' cells', Guarded.allocLoop heap.nodeHeap npages alignPages fuel (ptrs rest).head? s =
      .ok (res, s') ∧ s'.allocator = a'.unlock ∧ Balanced s' cells' := by
  induction fuel generalizing l rest s with
  | zero => simp [VAddrAllocator.allocLoop] at hres
  | succ fuel ih =>
      rcases rest with _ | ⟨⟨p, t⟩, rest⟩
      · simp only [ptrs_nil, List.head?_nil, VAddrAllocator.allocLoop, Option.some.injEq,
          Prod.mk.injEq] at hres
        obtain ⟨rfl, rfl⟩ := hres
        exact ⟨s.unlock, _, rfl, rfl, h.unlock⟩
      have hnode := h.node_eq (p := p) (by simp)
      have hskip : VAddrAllocator.allocLoop heap npages alignPages fuel
          (s.allocator.nodes p).next s.allocator = some (res, a') →
          ∃ s' cells', Guarded.allocLoop heap.nodeHeap npages alignPages fuel
            (s.allocator.nodes p).next s = .ok (res, s') ∧ s'.allocator = a'.unlock ∧
            Balanced s' cells' := by
        rw [h.shape.at_node.2.1]
        exact ih (l ++ [(p, t)]) rest (by simpa using h)
      simp only [ptrs_cons, List.head?_cons, VAddrAllocator.allocLoop, Guarded.allocLoop, hnode,
        bind, Except.bind] at hres ⊢
      split_ifs at hres ⊢ with hfree hfit
      · rcases h.tryNode_eq heap
          (alignUp (s.allocator.nodes p).start alignPages - (s.allocator.nodes p).start) npages with
          ⟨vaddr, q, s', a₁, cells', htry, htry', hlock, hbal⟩ |
          ⟨q, s₁, l', t', htry, htry', hbal⟩
        · simp only [htry', Option.some.injEq, Prod.mk.injEq] at hres
          obtain ⟨rfl, rfl⟩ := hres
          exact ⟨s', cells', by simp only [htry], hlock, hbal⟩
        · have hqnode := hbal.node_eq (p := q) (by simp)
          simp only [htry'] at hres
          simp only [htry, hqnode]
          rw [hbal.shape.at_node.2.1] at hres ⊢
          exact ih (l' ++ [(q, t')]) rest (by simpa using hbal) hres
      · exact hskip hres
      · exact hskip hres

/-- Where the first model of `alloc_pages` returns, this one does, and hands out the same. -/
theorem allocPages_eq (h : Balanced s cells) (heap : HeapAnswers) (npages alignPages : Word)
    {res : Option Word} {a' : VAddrAllocator maxNodes}
    (hres : s.allocator.allocPages heap npages alignPages = some (res, a')) :
    ∃ s' cells', s.allocPages heap.nodeHeap npages alignPages = .ok (res, s') ∧
      s'.allocator = a' ∧ Balanced s' cells' := by
  unfold VAddrAllocator.allocPages at hres
  unfold Guarded.allocPages
  split_ifs at hres ⊢ with hzero hassert
  · simp only [Option.some.injEq, Prod.mk.injEq] at hres
    obtain ⟨rfl, rfl⟩ := hres
    exact ⟨s, cells, rfl, rfl, h⟩
  · simp only [VAddrAllocator.lock, Guarded.lock, bind, Except.bind] at hres ⊢
    split_ifs at hres ⊢ with hlocked
    · simp at hres
    · rw [Option.bind_some, Option.bind_eq_some_iff] at hres
      obtain ⟨⟨r, a₁⟩, hloop, hlast⟩ := hres
      simp only [Option.some.injEq, Prod.mk.injEq] at hlast
      obtain ⟨rfl, rfl⟩ := hlast
      have hhead : s.allocator.head = (ptrs cells).head? := h.shape.head
      have heq := allocLoop_eq heap npages alignPages walkLimit [] cells h.locked
        (by rw [← hhead]; exact hloop)
      rwa [← hhead] at heq

/-! ## `free` -/

theorem release_eq (h : Balanced s (l ++ (p, t) :: r)) (heap : HeapAnswers) :
    ∃ s' a' cells', s.release heap.nodeHeap p = .ok (true, s') ∧
      (s.allocator.modify p fun n => { n with isFree := true }).coalesce p = some a' ∧
      s'.allocator = a'.unlock ∧ Balanced s' cells' := by
  have hp := (h.inUse p).2 (by simp)
  obtain ⟨s', cells', hres, hres', hbal⟩ := (h.modify_isFree true).coalesce_eq heap
  refine ⟨s'.unlock, s'.allocator, cells', ?_, hres', rfl, hbal.unlock⟩
  simp only [Guarded.release, Guarded.modify_of_inUse hp, bind, Except.bind, hres]

theorem cutRight_eq (h : Balanced s (l ++ (p, t) :: r)) (heap : HeapAnswers) (right : Word) :
    ∃ b s' t' r', s.cutRight heap.nodeHeap p right = .ok (b, s') ∧
      s.allocator.cutRight heap p right = (b, s'.allocator) ∧
      Balanced s' (l ++ (p, t') :: r') := by
  have hnode := h.node_eq (p := p) (by simp)
  simp only [Guarded.cutRight, hnode, bind, Except.bind, VAddrAllocator.cutRight]
  by_cases hright : 0 < right
  · simp only [if_pos hright]
    rcases h.splitNodeLeft_eq heap ((s.allocator.nodes p).npages - right) with
      ⟨q, s', t', u, hsplit, hsplit', -, hbal⟩ | ⟨s', hsplit, hsplit', hbal⟩
    · exact ⟨q != p, s', t', _, by simp only [hsplit], by simp only [hsplit'], hbal⟩
    · exact ⟨p != p, s', t, _, by simp only [hsplit], by simp only [hsplit'], hbal⟩
  · exact ⟨true, s, t, r, by simp only [if_neg hright], by simp only [if_neg hright], h⟩

theorem cutLeft_eq (h : Balanced s (l ++ (p, t) :: r)) (heap : HeapAnswers) (left : Word) :
    ∃ w s', s.cutLeft heap.nodeHeap p left = .ok (w, s') ∧
      s.allocator.cutLeft heap p left = (w, s'.allocator) ∧
      ∃ cells', Balanced s' cells' ∧
        ∀ x, w = some x → ∃ l' t' r', cells' = l' ++ (x, t') :: r' := by
  simp only [Guarded.cutLeft, bind, Except.bind, VAddrAllocator.cutLeft]
  by_cases hleft : 0 < left
  · simp only [if_pos hleft]
    rcases h.splitNodeLeft_eq heap left with
      ⟨q, s', t', u, hsplit, hsplit', hqp, hbal⟩ | ⟨s', hsplit, hsplit', hbal⟩
    · refine ⟨some q, s', by simp only [hsplit, if_neg hqp], by simp only [hsplit', if_neg hqp], _,
        hbal, ?_⟩
      rintro x hx
      obtain rfl : q = x := by simpa using hx
      exact ⟨l ++ [(p, t')], u, r, by simp⟩
    · exact ⟨none, s', by simp only [hsplit, if_true], by simp only [hsplit', if_true], _, hbal,
        by simp⟩
  · refine ⟨some p, s, by simp only [if_neg hleft], by simp only [if_neg hleft], _, h, ?_⟩
    rintro x hx
    obtain rfl : p = x := by simpa using hx
    exact ⟨l, t, r, rfl⟩

theorem freePortion_eq (h : Balanced s (l ++ (p, t) :: r)) (heap : HeapAnswers)
    (page npages : Word) {b : Bool} {a' : VAddrAllocator maxNodes}
    (hres : s.allocator.freePortion heap p page npages = some (b, a')) :
    ∃ s' cells', s.freePortion heap.nodeHeap p page npages = .ok (b, s') ∧
      s'.allocator = a'.unlock ∧ Balanced s' cells' := by
  have hnode := h.node_eq (p := p) (by simp)
  simp only [Guarded.freePortion, hnode, bind, Except.bind, VAddrAllocator.freePortion] at hres ⊢
  split_ifs at hres ⊢ with hlong
  · simp only [Option.some.injEq, Prod.mk.injEq] at hres
    obtain ⟨rfl, rfl⟩ := hres
    exact ⟨_, _, rfl, rfl, h.unlock⟩
  obtain ⟨b₁, s₁, t₁, r₁, hcut, hcut', hbal₁⟩ := h.cutRight_eq heap
    ((s.allocator.nodes p).start + (s.allocator.nodes p).npages - (page + npages))
  simp only [hcut] at ⊢
  simp only [hcut'] at hres
  cases b₁ with
  | false =>
      simp only [Option.some.injEq, Prod.mk.injEq] at hres
      obtain ⟨rfl, rfl⟩ := hres
      exact ⟨_, _, rfl, rfl, hbal₁.unlock⟩
  | true =>
      obtain ⟨w, s₂, hleft, hleft', cells₂, hbal₂, hw⟩ :=
        hbal₁.cutLeft_eq heap (page - (s.allocator.nodes p).start)
      simp only [hleft] at ⊢
      simp only [hleft'] at hres
      cases w with
      | none =>
          simp only [Option.some.injEq, Prod.mk.injEq] at hres
          obtain ⟨rfl, rfl⟩ := hres
          exact ⟨_, _, rfl, rfl, hbal₂.unlock⟩
      | some w =>
          obtain ⟨l', t', r', rfl⟩ := hw w rfl
          have hwnode := hbal₂.node_eq (p := w) (by simp)
          simp only [hwnode] at ⊢
          by_cases hassert : (s₂.allocator.nodes w).npages = npages
          · obtain ⟨s', a₁, cells', hrel, hrel', hlock, hbal⟩ := hbal₂.release_eq heap
            simp only [if_pos hassert, hrel', Option.bind_some, Option.some.injEq,
              Prod.mk.injEq] at hres
            obtain ⟨rfl, rfl⟩ := hres
            exact ⟨s', cells', by rw [if_pos hassert, hrel], hlock, hbal⟩
          · simp only [if_neg hassert, reduceCtorEq] at hres

theorem freeLoop_eq (heap : HeapAnswers) (page npages : Word) (fuel : Nat) (l rest : List Cell)
    {s : Guarded maxNodes Unit} (h : Balanced s (l ++ rest)) {b : Bool}
    {a' : VAddrAllocator maxNodes}
    (hres : VAddrAllocator.freeLoop heap page npages fuel (ptrs rest).head? s.allocator =
      some (b, a')) :
    ∃ s' cells', Guarded.freeLoop heap.nodeHeap page npages fuel (ptrs rest).head? s =
      .ok (b, s') ∧ s'.allocator = a'.unlock ∧ Balanced s' cells' := by
  induction fuel generalizing l rest with
  | zero => simp [VAddrAllocator.freeLoop] at hres
  | succ fuel ih =>
      rcases rest with _ | ⟨⟨p, t⟩, rest⟩
      · simp only [ptrs_nil, List.head?_nil, VAddrAllocator.freeLoop, Option.some.injEq,
          Prod.mk.injEq] at hres
        obtain ⟨rfl, rfl⟩ := hres
        exact ⟨s.unlock, _, rfl, rfl, h.unlock⟩
      have hnode := h.node_eq (p := p) (by simp)
      simp only [ptrs_cons, List.head?_cons, VAddrAllocator.freeLoop, Guarded.freeLoop, hnode,
        bind, Except.bind] at hres ⊢
      split_ifs at hres ⊢ with hexact hin
      · obtain ⟨s', a₁, cells', hrel, hrel', hlock, hbal⟩ := h.release_eq heap
        simp only [hrel', Option.bind_some, Option.some.injEq, Prod.mk.injEq] at hres
        obtain ⟨rfl, rfl⟩ := hres
        exact ⟨s', cells', hrel, hlock, hbal⟩
      · exact h.freePortion_eq heap page npages hres
      · rw [h.shape.at_node.2.1] at hres ⊢
        exact ih (l ++ [(p, t)]) rest (by simpa using h) hres

theorem free_eq (h : Balanced s cells) (heap : HeapAnswers) (vaddr npages : Word) {b : Bool}
    {a' : VAddrAllocator maxNodes} (hres : s.allocator.free heap vaddr npages = some (b, a')) :
    ∃ s' cells', s.free heap.nodeHeap vaddr npages = .ok (b, s') ∧
      s'.allocator = a' ∧ Balanced s' cells' := by
  simp only [VAddrAllocator.free, Guarded.free] at hres ⊢
  split_ifs at hres ⊢ with hzero hpage
  · simp only [Option.some.injEq, Prod.mk.injEq] at hres
    obtain ⟨rfl, rfl⟩ := hres
    exact ⟨s, cells, rfl, rfl, h⟩
  · simp only [Option.some.injEq, Prod.mk.injEq] at hres
    obtain ⟨rfl, rfl⟩ := hres
    exact ⟨s, cells, rfl, rfl, h⟩
  · simp only [VAddrAllocator.lock, Guarded.lock, bind, Except.bind] at hres ⊢
    split_ifs at hres ⊢ with hlocked
    · simp at hres
    · rw [Option.bind_some, Option.bind_eq_some_iff] at hres
      obtain ⟨⟨r, a₁⟩, hloop, hlast⟩ := hres
      simp only [Option.some.injEq, Prod.mk.injEq] at hlast
      obtain ⟨rfl, rfl⟩ := hlast
      have hhead : s.allocator.head = (ptrs cells).head? := h.shape.head
      have heq := freeLoop_eq heap (s.allocator.pageFromVaddr vaddr) npages walkLimit [] cells
        h.locked (by rw [← hhead]; exact hloop)
      rwa [← hhead] at heq

end Balanced

end UnnamedKernel.Mm.Vma
