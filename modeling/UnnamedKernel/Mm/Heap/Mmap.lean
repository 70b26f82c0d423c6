import UnnamedKernel.Mm.Heap.Contract
import UnnamedKernel.Mm.Heap.Window
import UnnamedKernel.Mm.Vma.Exact
import UnnamedKernel.Mm.Vma.Starve

/-!
# What `mmap` does to the virtual ranges

It takes a run of free pages and comes to its page loop when there is one; when the
loop runs out of frames it gives the run back.
-/

namespace UnnamedKernel.Mm.Heap

open UnnamedKernel.Lib UnnamedKernel.Kernel Vma Vmm RadixTree

/-- The page at index `i` of the window. -/
def HeapState.pageAt (h : HeapState) (i : Nat) : Word :=
  h.allocator.vaddrFromPage (BitVec.ofNat 64 i)

/-- The pages of the window of dynamic addresses. -/
def HeapState.window (h : HeapState) : Set Word :=
  {v | ∃ i < h.allocator.totalPages.toNat, v = h.pageAt i}

/-- `mmap` finds a range for `length`, and comes to its page loop. -/
def HeapState.FindsRange (env : Env) (h : HeapState) (length : Word) : Prop :=
  Kernel.alignUp length pageSize ≠ 0 ∧
    .taken ∈ attempts (Kernel.alignUp length pageSize / pageSize).toNat 1
      (h.allocator.grants env.nodes) h.allocator.ranges

/-- The run of `n` pages at `page` is free in the list `cells`; in `held` it is taken, in `back`
it has been given back. -/
structure Reserved (h : HeapState) (cells : List Cell) (page n : Nat)
    (held back : VAddrAllocator 2048) : Prop where
  fits : page + n ≤ h.allocator.totalPages.toNat
  took : ∃ cells', Inv held cells' ∧ TookRun n page (segs cells) (segs cells')
  gave : ∃ cells', Inv back cells' ∧ ∀ i t, Tagged (segs cells') i t ↔ Tagged (segs cells) i t
  heldWindow : SameWindow h.allocator held
  backWindow : SameWindow h.allocator back

theorem HeapState.pageAt_add (h : HeapState) (page j : Nat) :
    h.pageAt page + BitVec.ofNat 64 (j * 4096) = h.pageAt (page + j) := by
  simp only [pageAt, VAddrAllocator.vaddrFromPage, pageSize]
  bv_omega

theorem HeapState.mem_pagesFrom_pageAt (h : HeapState) {page n : Nat} {v : Word} :
    v ∈ pagesFrom (h.pageAt page) n 0 ↔ ∃ i, page ≤ i ∧ i < page + n ∧ v = h.pageAt i := by
  rw [mem_pagesFrom_zero]
  constructor
  · rintro ⟨j, hj, rfl⟩
    exact ⟨page + j, Nat.le_add_right _ _, Nat.add_lt_add_left hj _, h.pageAt_add page j⟩
  · rintro ⟨i, hlo, hhi, rfl⟩
    refine ⟨i - page, by omega, ?_⟩
    rw [pageAt_add, Nat.add_sub_cancel' hlo]

theorem pageCount_ne_zero {length : Word} (h : Kernel.alignUp length pageSize ≠ 0) :
    Kernel.alignUp length pageSize / pageSize ≠ 0 := by
  intro hnone
  have hmod := alignUp_pageSize_mod length
  have hdiv := congrArg BitVec.toNat hnone
  rw [BitVec.toNat_udiv, toNat_pageSize] at hdiv
  have hzero : (0 : Word).toNat = 0 := rfl
  exact h (by bv_omega)

section Mmap

variable {env : Env} {h : HeapState} {cells : List Cell} {length : Word} {flags : BitVec 32}

/-- `allocate_virtual_memory` for whole pages: nothing, or a run of free pages. -/
theorem allocateVirtualMemory_spec (hinv : Inv h.allocator cells) (env : Env) (length : Word) :
    (¬ h.FindsRange env length ∧ ∃ a' cells',
        h.allocateVirtualMemory env (Kernel.alignUp length pageSize) =
          some (none, { h with allocator := a' }) ∧
        Inv a' cells' ∧ SameWindow h.allocator a' ∧
        ∀ i t, Tagged (segs cells') i t ↔ Tagged (segs cells) i t) ∨
      (h.FindsRange env length ∧ ∃ page a' cells',
        h.allocateVirtualMemory env (Kernel.alignUp length pageSize) =
          some (some (h.pageAt page), { h with allocator := a' }) ∧
        Inv a' cells' ∧ SameWindow h.allocator a' ∧
        page + (Kernel.alignUp length pageSize / pageSize).toNat ≤ h.allocator.totalPages.toNat ∧
        (⟨page, (Kernel.alignUp length pageSize / pageSize).toNat, false⟩ : PageSeg) ∈ segs cells' ∧
        TookRun (Kernel.alignUp length pageSize / pageSize).toNat page (segs cells)
          (segs cells')) := by
  have haligned : checkAligned (Kernel.alignUp length pageSize) pageSize = true :=
    (checkAligned_pageSize _).2 (alignUp_pageSize_mod length)
  by_cases hzero : Kernel.alignUp length pageSize = 0
  · have hnone : h.allocator.allocPages env.nodes (Kernel.alignUp length pageSize / pageSize) 1 =
        some (none, h.allocator) := by
      rw [hzero]
      exact if_pos rfl
    exact Or.inl ⟨fun hfinds => hfinds.1 hzero, h.allocator, cells,
      HeapState.allocateVirtualMemory_eq haligned hnone, hinv, .refl _, fun _ _ => Iff.rfl⟩
  have hn := pageCount_ne_zero hzero
  obtain ⟨r, a', cells', ok, hres, hinv', hwalk, hranges, hwin, -⟩ :=
    VAddrAllocator.allocPages_ranges hinv env.nodes hn (⟨0, rfl⟩ : IsPow2 1)
  have hfinds : h.FindsRange env length ↔ r ≠ none := by
    have hiff : (allocRanges (Kernel.alignUp length pageSize / pageSize).toNat (1 : Word).toNat
        (h.allocator.grants env.nodes) (segs cells)).1 = none ↔ _ := allocRanges_none_iff
    rw [hranges] at hiff
    rw [HeapState.FindsRange, and_iff_right hzero, hinv.ranges_eq, Ne, hiff, not_not]
    rfl
  have hcall := HeapState.allocateVirtualMemory_eq haligned hres
  cases r with
  | none =>
      exact Or.inl ⟨fun hf => hfinds.1 hf rfl, a', cells', hcall, hinv', hwin,
        hwalk.tagged_none rfl⟩
  | some page =>
      exact Or.inr ⟨hfinds.2 (by simp), page, a', cells', hcall, hinv', hwin,
        (hwalk.some_aligned (by decide) hinv.tiles rfl).2.2, hwalk.mem_of_some rfl,
        hwalk.tookRun (by decide) hinv.tiles rfl⟩

theorem mmap_eq (env : Env)
    (hflags : isFlagSet flags mapPrivate = true ∧ isFlagSet flags mapAnonymous = true)
    {length : Word} (hlength : length ≠ 0) :
    h.mmap env length flags = (do
      let (base, h) ← h.allocateVirtualMemory env (Kernel.alignUp length pageSize)
      match base with
      | none => some (mapFailed, h)
      | some base =>
          match mapPages env base (Kernel.alignUp length pageSize / pageSize).toNat 0 h.machine with
          | (none, m) => some (base, { h with machine := m })
          | (some .outOfMemory, m) => do
              let h ← { h with machine := m }.deallocateVirtualMemory env base
                (Kernel.alignUp length pageSize)
              some (mapFailed, h)
          | (some _, m) => some (mapFailed, { h with machine := m })) := by
  unfold HeapState.mmap
  exact (if_neg (by simp [hflags])).trans (if_neg hlength)

/-- `mmap` fails where it finds no range; else it maps one, which it gives back only when there
are no frames. -/
theorem mmap_spec (hinv : Inv h.allocator cells) (env : Env)
    (hflags : isFlagSet flags mapPrivate = true ∧ isFlagSet flags mapAnonymous = true)
    (length : Word) :
    (¬ h.FindsRange env length ∧ ∃ a' cells',
        h.mmap env length flags = some (mapFailed, { h with allocator := a' }) ∧
        Inv a' cells' ∧ SameWindow h.allocator a' ∧
        ∀ i t, Tagged (segs cells') i t ↔ Tagged (segs cells) i t) ∨
      (h.FindsRange env length ∧ ∃ page held back,
        Reserved h cells page (Kernel.alignUp length pageSize / pageSize).toNat held back ∧
        h.mmap env length flags =
          match mapPages env (h.pageAt page) (Kernel.alignUp length pageSize / pageSize).toNat 0
            h.machine with
          | (none, m) => some (h.pageAt page, { h with machine := m, allocator := held })
          | (some .outOfMemory, m) => some (mapFailed, { h with machine := m, allocator := back })
          | (some _, m) => some (mapFailed, { h with machine := m, allocator := held })) := by
  by_cases hlength : length = 0
  · have hmissing : ¬ h.FindsRange env length := fun hfinds => hfinds.1 (by rw [hlength]; decide)
    refine Or.inl ⟨hmissing, h.allocator, cells, ?_, hinv, .refl _, fun _ _ => Iff.rfl⟩
    unfold HeapState.mmap
    rw [if_neg (by simp [hflags]), if_pos hlength]
  rw [mmap_eq env hflags hlength]
  rcases allocateVirtualMemory_spec hinv env length with
    ⟨hmissing, a', cells', hcall, hinv', hwin, hsame⟩ |
    ⟨hfinds, page, held, cells', hcall, hinv', hwin, hfits, hmem, htook⟩
  · exact Or.inl ⟨hmissing, a', cells', by rw [hcall]; rfl, hinv', hwin, hsame⟩
  have hn := pageCount_ne_zero hfinds.1
  -- what is given back is the node that was taken
  obtain ⟨back, cells'', hfree, hinv'', hwin', hreleased⟩ := hinv'.free_node env.nodes hn hmem
  rw [VAddrAllocator.vaddrFromPage_congr hwin.base] at hfree
  refine Or.inr ⟨hfinds, page, held, back, ⟨hfits, ⟨cells', hinv', htook⟩,
    ⟨cells'', hinv'', fun i t => htook.undo hreleased hinv.tiles i t⟩, hwin, hwin.trans hwin'⟩, ?_⟩
  have hback : ∀ m, { h with machine := m, allocator := held }.deallocateVirtualMemory env
      (h.pageAt page) (Kernel.alignUp length pageSize) =
        some { h with machine := m, allocator := back } := by
    intro m
    unfold HeapState.deallocateVirtualMemory
    simp only [HeapState.pageAt, hfree]
    rfl
  rw [hcall]
  simp only [Option.bind_eq_bind, Option.bind_some]
  rcases hloop : mapPages env (h.pageAt page) (Kernel.alignUp length pageSize / pageSize).toNat 0
    h.machine with ⟨code, m⟩
  rcases code with _ | code
  · rfl
  · cases code with
    | outOfMemory =>
        simp only [hback]
        rfl
    | _ => rfl

end Mmap

end UnnamedKernel.Mm.Heap
