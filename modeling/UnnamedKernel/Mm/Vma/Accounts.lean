import UnnamedKernel.Mm.Vma.Balanced
import UnnamedKernel.Mm.Vma.Safety

/-!
# Every node is accounted for

In the runs from `init` each slot is on the list or on the free stack, once, and each heap node
that is not deleted is on the list, once.
-/

namespace UnnamedKernel.Mm.Vma

open UnnamedKernel.Lib UnnamedKernel.Kernel

variable {maxNodes : Nat} {σ : Type}

namespace Guarded

/-- One call; what it returns is dropped. -/
def step (heap : NodeHeap maxNodes σ) (s : Guarded maxNodes σ) :
    Call → Except Stop (Guarded maxNodes σ)
  | .allocPages npages alignPages => do
      let (_, s) ← s.allocPages heap npages alignPages
      .ok s
  | .free vaddr npages => do
      let (_, s) ← s.free heap vaddr npages
      .ok s

end Guarded

/-- Where the nodes are. -/
structure Accounts (s : Guarded maxNodes σ) : Prop where
  list : ∃ ps : List NodePtr, s.allocator.head = ps.head? ∧
    Linked (fun p => (s.allocator.nodes p).next) (fun p => (s.allocator.nodes p).prev)
      none ps none ∧
    (∀ i < maxNodes,
      (ps.count (.slot i) = 1 ∧ s.allocator.freeStack.count i = 0 ∧
        (s.allocator.nodes (.slot i)).valid = true ∧
        (s.allocator.nodes (.slot i)).dynamic = false) ∨
      (ps.count (.slot i) = 0 ∧ s.allocator.freeStack.count i = 1 ∧
        (s.allocator.nodes (.slot i)).valid = false)) ∧
    ∀ k, ps.count (.heap k) = if s.inUse (.heap k) then 1 else 0
  stack : s.allocator.freeStack.length ≤ maxNodes

open VAddrAllocator

namespace Balanced

variable {s : Guarded maxNodes Unit} {cells : List Cell}

theorem accounts (h : Balanced s cells) : Accounts s := by
  have hpool := h.shape.pool
  refine ⟨⟨ptrs cells, h.shape.head, h.shape.linked, fun i hi => ?_, fun k => ?_⟩, ?_⟩
  · by_cases hmem : NodePtr.slot i ∈ ptrs cells
    · have hstack : i ∉ s.allocator.freeStack := fun hm => (hpool.stack i hm).2 hmem
      have hvalid : (s.allocator.nodes (.slot i)).valid = true := by
        rw [h.valid]
        exact (h.inUse _).2 hmem
      exact Or.inl ⟨List.count_eq_one_of_mem h.shape.nodup hmem,
        List.count_eq_zero_of_not_mem hstack, hvalid, (hpool.slot i hmem).2⟩
    · have hstack := (h.slots i hi).resolve_left hmem
      have hvalid : (s.allocator.nodes (.slot i)).valid = false := by
        rw [h.valid, Bool.eq_false_iff]
        exact fun hu => hmem ((h.inUse _).1 hu)
      exact Or.inr ⟨List.count_eq_zero_of_not_mem hmem, List.count_eq_one_of_mem hpool.nodup hstack,
        hvalid⟩
  · split_ifs with hu
    · exact List.count_eq_one_of_mem h.shape.nodup ((h.inUse _).1 hu)
    · exact List.count_eq_zero_of_not_mem fun hm => hu ((h.inUse _).2 hm)
  · have hsub : s.allocator.freeStack ⊆ List.range maxNodes := fun i hi =>
      List.mem_range.2 (hpool.stack i hi).1
    simpa using (hpool.nodup.subperm hsub).length_le

theorem step (h : Balanced s cells) {cells' : List Cell} (hinv : Inv s.allocator cells')
    (heap : HeapAnswers) {c : Call} (hc : c.Legal) :
    ∃ s', s.step heap.nodeHeap c = .ok s' ∧ (∃ cells, Inv s'.allocator cells) ∧
      ∃ cells, Balanced s' cells := by
  cases c with
  | allocPages npages alignPages =>
      by_cases hn : npages = 0
      · refine ⟨s, ?_, ⟨cells', hinv⟩, cells, h⟩
        simp only [Guarded.step, Guarded.allocPages, if_pos hn, bind, Except.bind]
      obtain ⟨r, a', cells₁, ok, hres, hinv', -⟩ := allocPages_spec hinv heap hn hc
      obtain ⟨s', cells₂, hres', rfl, hbal⟩ := h.allocPages_eq heap npages alignPages hres
      refine ⟨s', ?_, ⟨cells₁, hinv'⟩, cells₂, hbal⟩
      simp only [Guarded.step, hres', bind, Except.bind]
  | free vaddr npages =>
      by_cases hn : npages = 0
      · refine ⟨s, ?_, ⟨cells', hinv⟩, cells, h⟩
        simp only [Guarded.step, Guarded.free, if_pos hn, bind, Except.bind]
      obtain ⟨b, a', cells₁, ok, hres, hinv', -⟩ := free_spec hinv heap vaddr hn
      obtain ⟨s', cells₂, hres', rfl, hbal⟩ := h.free_eq heap vaddr npages hres
      refine ⟨s', ?_, ⟨cells₁, hinv'⟩, cells₂, hbal⟩
      simp only [Guarded.step, hres', bind, Except.bind]

theorem run (h : Balanced s cells) {cells' : List Cell} (hinv : Inv s.allocator cells')
    (heap : HeapAnswers) (calls : List Call) (hlegal : ∀ c ∈ calls, c.Legal) :
    ∃ s', calls.foldlM (Guarded.step heap.nodeHeap) s = .ok s' ∧ ∃ cells, Balanced s' cells := by
  induction calls generalizing s cells cells' with
  | nil => exact ⟨s, rfl, cells, h⟩
  | cons c calls ih =>
      obtain ⟨s₁, hstep, ⟨cells₁, hinv₁⟩, cells₂, hbal₁⟩ := h.step hinv heap (hlegal c (by simp))
      obtain ⟨s', hrun, hbal⟩ := ih hbal₁ hinv₁ fun c hc => hlegal c (by simp [hc])
      refine ⟨s', ?_, hbal⟩
      rw [List.foldlM_cons, hstep]
      exact hrun

theorem ofInit {heap : HeapAnswers} {base size : Word} {s₀ : Guarded maxNodes Unit}
    (hinit : Guarded.init heap.nodeHeap base size () = .ok s₀) :
    VAddrAllocator.init heap base size = some s₀.allocator ∧ ∃ cells, Balanced s₀ cells := by
  let blank : VAddrAllocator maxNodes :=
    { base := base, totalPages := size / pageSize, freeStack := List.range maxNodes }
  have halloc := allocateNode_eq heap ({ allocator := blank, rest := () } : Guarded maxNodes Unit)
  unfold Guarded.init at hinit
  simp only [blank] at halloc
  simp only [halloc, bind, Except.bind] at hinit
  rcases (pool_blank maxNodes base size).allocateNode_spec heap with
    ⟨p, a₁, hres, -, -, hsame, -, -⟩ | ⟨hres, -⟩
  swap
  · simp only [hres, reduceCtorEq] at hinit
  have hvalid := VAddrAllocator.allocateNode_valid hres
  simp only [hres, Guarded.modify, Function.update_self, if_true, Except.ok.injEq] at hinit
  have hcall : VAddrAllocator.init heap base size = some s₀.allocator := by
    subst hinit
    simp only [VAddrAllocator.init, hres]
  obtain ⟨p', hinv, -, -⟩ := init_spec hcall
  have hhead := hinv.shape.head
  obtain rfl : p = p' := by
    subst hinit
    simpa using hhead
  refine ⟨hcall, _, hinv.shape, fun x => ?_, fun x => ?_, fun i hi => ?_⟩
  · subst hinit
    simp [Function.update_apply]
  · subst hinit
    simp only [VAddrAllocator.modify_nodes, Function.update_apply]
    split_ifs with hx
    · exact hvalid
    · rw [hsame x hx]
  · subst hinit
    have hslot : NodePtr.slot i = p ∨ i ∈ a₁.freeStack :=
      VAddrAllocator.allocateNode_freeStack hres (List.mem_range.2 hi)
    simpa using hslot

end Balanced

/-- In every run of `alloc_pages` and `free` from `init`, whatever `new` answers, the calls
return: no node is used that is not in use, and the `ASSERT` of `free_node` holds. Every slot is
then on the list or on the free stack, and every heap node in use is on the list. -/
theorem alloc_free_run_accounts (heap : HeapAnswers) {base size : Word}
    {s₀ : Guarded maxNodes Unit} (hinit : Guarded.init heap.nodeHeap base size () = .ok s₀)
    (calls : List Call) (hlegal : ∀ c ∈ calls, c.Legal) :
    ∃ s, calls.foldlM (Guarded.step heap.nodeHeap) s₀ = .ok s ∧ Accounts s := by
  obtain ⟨hcall, cells, hbal⟩ := Balanced.ofInit hinit
  obtain ⟨p, hinv, -, -⟩ := init_spec hcall
  obtain ⟨s, hrun, cells', hbal'⟩ := hbal.run hinv heap calls hlegal
  exact ⟨s, hrun, hbal'.accounts⟩

/-- With one slot, the second node comes from the heap and goes back there. -/
theorem alloc_free_run_accounts_one_slot :
    ∃ s₀ s : Guarded 1 Unit,
      Guarded.init (HeapAnswers.nodeHeap fun _ => true) 0xffff800000000000 0x4000 () = .ok s₀ ∧
      List.foldlM (Guarded.step (HeapAnswers.nodeHeap fun _ => true)) s₀
        [.allocPages 1 2, .free 0xffff800000000000 1] = .ok s ∧ Accounts s := by
  obtain ⟨s₀, hinit⟩ : ∃ s₀ : Guarded 1 Unit,
      Guarded.init (HeapAnswers.nodeHeap fun _ => true) 0xffff800000000000 0x4000 () = .ok s₀ :=
    ⟨_, rfl⟩
  obtain ⟨s, hrun, haccounts⟩ := alloc_free_run_accounts (fun _ => true) hinit
    [.allocPages 1 2, .free 0xffff800000000000 1] (by
      simp only [List.mem_cons, List.not_mem_nil, or_false, forall_eq_or_imp, forall_eq]
      exact ⟨⟨1, rfl⟩, trivial⟩)
  exact ⟨s₀, s, hinit, hrun, haccounts⟩

end UnnamedKernel.Mm.Vma
