import UnnamedKernel.Mm.Vma.Confluence

/-!
# What failed calls leave behind

A failed `alloc_pages` or `free` may already have split a node. The list is as it was
unless the first split of the call succeeded and what followed it did not, and then
an allocated range that was cut can no longer be freed whole.
-/

namespace UnnamedKernel.Mm.Vma

open UnnamedKernel.Lib UnnamedKernel.Kernel VAddrAllocator

variable {maxNodes : Nat}

/-- The list is what it was, and every allocated range of it can still be freed whole. -/
structure Unchanged (heap : HeapAnswers) (a a' : VAddrAllocator maxNodes) : Prop where
  ranges : a'.ranges = a.ranges
  releasable : ∀ r ∈ used a.ranges, (a'.release heap r).isSome

section Failure

variable {heap : HeapAnswers} {a a' : VAddrAllocator maxNodes} {cells cells' : List Cell}

theorem Inv.unchanged_iff (h : Inv a cells) (h' : Inv a' cells') (heap : HeapAnswers) :
    Unchanged heap a a' ↔ segs cells' = segs cells := by
  constructor
  · intro hu
    rw [← h'.ranges_eq, ← h.ranges_eq]
    exact hu.ranges
  · intro heq
    refine ⟨by rw [h'.ranges_eq, h.ranges_eq, heq], fun r hr => ?_⟩
    rw [h.ranges_eq, ← heq] at hr
    obtain ⟨a'', -, -, hres, -⟩ := h'.release_spec heap hr
    simp [hres]

theorem VAddrAllocator.isPow2_of_allocPages {npages alignPages : Word} (hn : npages ≠ 0)
    {res : Option Word × VAddrAllocator maxNodes}
    (hres : a.allocPages heap npages alignPages = some res) : IsPow2 alignPages := by
  rw [allocPages, if_neg hn] at hres
  split_ifs at hres with hassert
  exact .of_and_sub_one hassert.2 hassert.1

/-- A failed `alloc_pages` changes the list just if it is left with half of a cut. -/
theorem Inv.failed_alloc_iff (h : Inv a cells) {npages alignPages : Word}
    (hres : a.allocPages heap npages alignPages = some (none, a')) :
    Unchanged heap a a' ↔ npages = 0 ∨
      .stranded ∉ attempts npages.toNat alignPages.toNat (a.grants heap) a.ranges := by
  by_cases hn : npages = 0
  · rw [allocPages, if_pos hn] at hres
    obtain rfl : a = a' := by simpa using hres
    exact iff_of_true ((h.unchanged_iff h heap).2 rfl) (Or.inl hn)
  obtain ⟨r, a₁, cells', ok, hres', hinv', -, hranges, -, -⟩ :=
    allocPages_ranges h heap hn (isPow2_of_allocPages hn hres)
  rw [hres] at hres'
  simp only [Option.some.injEq, Prod.mk.injEq] at hres'
  obtain ⟨hnone, rfl⟩ := hres'
  obtain rfl : r = none := by simpa using hnone.symm
  rw [h.unchanged_iff hinv', h.ranges_eq, or_iff_right hn]
  have hiff := allocRanges_eq_iff (congrArg Prod.fst hranges)
  rwa [hranges] at hiff

/-- A failed `free` changes the list just if it severs a range. -/
theorem Inv.failed_free_iff (h : Inv a cells) {vaddr npages : Word}
    (hres : a.free heap vaddr npages = some (false, a')) :
    Unchanged heap a a' ↔
      ¬ Severs (a.grants heap) (a.pageFromVaddr vaddr).toNat npages.toNat a.ranges := by
  have hn : npages ≠ 0 := by
    rintro rfl
    simp [free] at hres
  obtain ⟨b, a₁, cells', ok, hres', hinv', -, hranges, -, -⟩ := free_ranges h heap vaddr hn
  rw [hres] at hres'
  simp only [Option.some.injEq, Prod.mk.injEq] at hres'
  obtain ⟨rfl, rfl⟩ := hres'
  rw [h.unchanged_iff hinv', h.ranges_eq]
  have hiff := freeRanges_eq_iff (l := []) (r := segs cells) h.tiles (by simp)
      (congrArg Prod.fst hranges)
  rwa [hranges] at hiff

end Failure

/-- In every state that a run from `init` reaches, a failed call leaves the list as it was just
if it does not stop between its two splits, or behind one that a wrapped page count made. -/
theorem failed_call_run_unchanged (heap : HeapAnswers) {base size : Word}
    {a₀ : VAddrAllocator maxNodes} (hinit : init heap base size = some a₀) (calls : List Call)
    (hlegal : ∀ c ∈ calls, c.Legal) :
    ∃ s, Lib.run (Session.step heap) ⟨a₀, ∅⟩ calls = some s ∧
      (∀ npages alignPages a', s.allocator.allocPages heap npages alignPages = some (none, a') →
        (Unchanged heap s.allocator a' ↔ npages = 0 ∨ .stranded ∉ attempts npages.toNat
          alignPages.toNat (s.allocator.grants heap) s.allocator.ranges)) ∧
      (∀ vaddr npages a', s.allocator.free heap vaddr npages = some (false, a') →
        (Unchanged heap s.allocator a' ↔ ¬ Severs (s.allocator.grants heap)
          (s.allocator.pageFromVaddr vaddr).toNat npages.toNat s.allocator.ranges)) := by
  obtain ⟨s, hrun, cells, h⟩ := Booked.run (Booked.ofInit hinit) calls hlegal
  exact ⟨s, hrun, fun _ _ _ hres => h.inv.failed_alloc_iff hres,
    fun _ _ _ hres => h.inv.failed_free_iff hres⟩

theorem failed_call_run_unchanged_two_nodes :
    ∃ (a₀ : VAddrAllocator 2) (s : Session 2) (a' a'' : VAddrAllocator 2),
      init (fun _ => false) 0xffff800000000000 0x4000 = some a₀ ∧
      Lib.run (Session.step fun _ => false) ⟨a₀, ∅⟩ [.allocPages 1 1] = some s ∧
      s.allocator.allocPages (fun _ => false) 2 1 = some (none, a') ∧
      Unchanged (fun _ => false) s.allocator a' ∧
      s.allocator.free (fun _ => false) 0xffff800000000000 2 = some (false, a'') ∧
      Unchanged (fun _ => false) s.allocator a'' := by
  obtain ⟨a₀, hinit⟩ : ∃ a₀ : VAddrAllocator 2,
      init (fun _ => false) 0xffff800000000000 0x4000 = some a₀ := ⟨_, rfl⟩
  obtain ⟨s, hrun, halloc, hfree⟩ := failed_call_run_unchanged (fun _ => false) hinit
    [.allocPages 1 1] (by
      simp only [List.mem_singleton, forall_eq]
      exact ⟨0, rfl⟩)
  obtain rfl := Option.some.inj hinit
  obtain rfl := Option.some.inj hrun
  refine ⟨_, _, _, _, rfl, rfl, rfl, (halloc 2 1 _ rfl).2 (Or.inr (by decide)), rfl,
    (hfree 0xffff800000000000 2 _ rfl).2 ?_⟩
  rintro ⟨r, hr, -, -, hgrant, -⟩
  exact absurd hgrant (by decide)

/-- With one node left, `alloc_pages` cuts the padding off and then fails, and `free` cuts the tail
off and then fails: what it was to release a part of cannot be released whole any more. -/
theorem split_kept_after_failure :
    (∃ (a₀ : VAddrAllocator 3) (s : Session 3) (a' : VAddrAllocator 3),
      init (fun _ => false) 0xffff800000000000 0x8000 = some a₀ ∧
      Lib.run (Session.step fun _ => false) ⟨a₀, ∅⟩ [.allocPages 1 1] = some s ∧
      s.allocator.allocPages (fun _ => false) 2 2 = some (none, a') ∧
      a'.ranges ≠ s.allocator.ranges) ∧
    ∃ (a₀ : VAddrAllocator 2) (s : Session 2) (a' a'' : VAddrAllocator 2),
      init (fun _ => false) 0xffff800000000000 0x4000 = some a₀ ∧
      Lib.run (Session.step fun _ => false) ⟨a₀, ∅⟩ [.allocPages 4 1] = some s ∧
      s.allocator.free (fun _ => false) 0xffff800000001000 1 = some (false, a') ∧
      a'.ranges ≠ s.allocator.ranges ∧
      a'.free (fun _ => false) 0xffff800000000000 4 = some (false, a'') :=
  ⟨⟨_, _, _, rfl, rfl, rfl, by decide⟩, _, _, _, _, rfl, rfl, rfl, by decide, rfl⟩

end UnnamedKernel.Mm.Vma
