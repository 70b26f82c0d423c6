import UnnamedKernel.Lib.Run
import UnnamedKernel.Lib.Ranges
import UnnamedKernel.Mm.Heap.Model
import UnnamedKernel.Mm.Vma.Refine
import Mathlib.Order.Interval.Set.Basic

/-!
# The window of dynamic kernel addresses

The virtual ranges that the kernel hands out lie between the direct map and the
kernel image. The window starts at the page in which the direct map ends, so it is
clear of the direct map just when that page is empty.
-/

namespace UnnamedKernel.Mm.Heap

open UnnamedKernel.Lib UnnamedKernel.Kernel Vma

/-- A call that takes or gives back dynamic addresses. -/
inductive AddressCall where
  | allocateVirtualMemory (length : Word)
  | deallocateVirtualMemory (address length : Word)

/-- The kernel and what `allocate_virtual_memory` has returned, with the lengths asked for. -/
structure Issue where
  heap : HeapState
  returned : List Range

namespace Issue

def step (env : Env) (s : Issue) : AddressCall → Option Issue
  | .allocateVirtualMemory length => do
      let (r, h) ← s.heap.allocateVirtualMemory env length
      match r with
      | some address => some ⟨h, ⟨address, length⟩ :: s.returned⟩
      | none => some ⟨h, s.returned⟩
  | .deallocateVirtualMemory address length => do
      let h ← s.heap.deallocateVirtualMemory env address length
      some ⟨h, s.returned⟩

end Issue

/-- `[addr, addr + size)`, which does not wrap. -/
def span (r : Range) : Set Nat := Set.Ico r.addr.toNat (r.addr.toNat + r.size.toNat)

/-- `[slide, slide + get_highest_physical_address())`. -/
def directMap (env : Env) (entries : List Pma.MemmapEntry) : Set Nat :=
  Set.Ico env.slide.toNat (env.slide.toNat + (Pma.getHighestPhysicalAddress entries).toNat)

/-- `[kernel_base, 2^64)`. -/
def kernelImage (kernelBase : Word) : Set Nat := Set.Ico kernelBase.toNat (2 ^ 64)

theorem HeapState.allocateVirtualMemory_eq {env : Env} {h : HeapState} {length : Word}
    (halign : checkAligned length pageSize = true) {r : Option Word} {a : VAddrAllocator 2048}
    (hres : h.allocator.allocPages env.nodes (length / pageSize) 1 = some (r, a)) :
    h.allocateVirtualMemory env length = some (r, { h with allocator := a }) := by
  rw [allocateVirtualMemory, if_neg (not_not.2 halign), hres]
  rfl

/-- The window is whole pages, and all ranges returned are in it. -/
structure InWindow (lo hi : Nat) (s : Issue) (cells : List Cell) : Prop where
  inv : Inv s.heap.allocator cells
  base : s.heap.allocator.base.toNat = lo
  total : s.heap.allocator.totalPages.toNat * 4096 ≤ hi - lo
  fits : lo ≤ hi ∧ hi < 2 ^ 64
  inside : ∀ r ∈ s.returned, lo ≤ r.addr.toNat ∧ r.addr.toNat + r.size.toNat ≤ hi

namespace InWindow

variable {lo hi : Nat} {s : Issue} {cells : List Cell}

theorem congr (h : InWindow lo hi s cells) (heap : HeapState) {cells' : List Cell}
    (hinv : Inv heap.allocator cells') (hwin : SameWindow s.heap.allocator heap.allocator) :
    InWindow lo hi ⟨heap, s.returned⟩ cells' :=
  ⟨hinv, (congrArg _ hwin.base).trans h.base, by rw [hwin.totalPages]; exact h.total, h.fits,
    h.inside⟩

theorem toNat_vaddrFromPage (h : InWindow lo hi s cells) {page : Nat}
    (hpage : page ≤ s.heap.allocator.totalPages.toNat) :
    (s.heap.allocator.vaddrFromPage (BitVec.ofNat 64 page)).toNat = lo + page * 4096 := by
  have htotal := h.total
  have hfits := h.fits
  rw [VAddrAllocator.vaddrFromPage, BitVec.toNat_add, BitVec.toNat_mul, BitVec.toNat_ofNat,
    toNat_pageSize, h.base]
  omega

theorem alloc (h : InWindow lo hi s cells) (env : Env) (length : Word) :
    ∃ s', s.step env (.allocateVirtualMemory length) = some s' ∧
      ∃ cells', InWindow lo hi s' cells' := by
  by_cases halign : checkAligned length pageSize = true
  swap
  · exact ⟨⟨s.heap.setError .memoryMisaligned, s.returned⟩,
      by simp [Issue.step, HeapState.allocateVirtualMemory, halign], cells,
      h.congr _ h.inv (.refl _)⟩
  by_cases hn : length / pageSize = 0
  · have hres : s.heap.allocator.allocPages env.nodes (length / pageSize) 1 =
        some (none, s.heap.allocator) := if_pos hn
    exact ⟨s, by simp only [Issue.step, HeapState.allocateVirtualMemory_eq halign hres]; rfl,
      cells, h⟩
  obtain ⟨r, a', cells', ok, hres, hinv', hwalk, hwin, -⟩ :=
    VAddrAllocator.allocPages_spec h.inv env.nodes hn (⟨0, rfl⟩ : IsPow2 1)
  have hcall := HeapState.allocateVirtualMemory_eq halign hres
  have hnext := h.congr { s.heap with allocator := a' } hinv' hwin
  cases r with
  | none => exact ⟨_, by simp only [Issue.step, hcall]; rfl, cells', hnext⟩
  | some page =>
      refine ⟨⟨_, ⟨s.heap.allocator.vaddrFromPage (BitVec.ofNat 64 page), length⟩ :: s.returned⟩,
        by simp only [Issue.step, hcall]; rfl, cells',
          ⟨hnext.inv, hnext.base, hnext.total, hnext.fits, ?_⟩⟩
      rw [List.forall_mem_cons]
      refine ⟨?_, h.inside⟩
      obtain ⟨-, -, hin⟩ := hwalk.some_aligned (by decide) h.inv.tiles rfl
      have hlen := (checkAligned_pageSize length).1 halign
      have htotal := h.total
      have hfits := h.fits
      rw [BitVec.toNat_udiv, toNat_pageSize] at hin
      show lo ≤ (s.heap.allocator.vaddrFromPage (BitVec.ofNat 64 page)).toNat ∧
        (s.heap.allocator.vaddrFromPage (BitVec.ofNat 64 page)).toNat + length.toNat ≤ hi
      rw [h.toNat_vaddrFromPage (by omega)]
      omega

theorem dealloc (h : InWindow lo hi s cells) (env : Env) (address length : Word) :
    ∃ s', s.step env (.deallocateVirtualMemory address length) = some s' ∧
      ∃ cells', InWindow lo hi s' cells' := by
  by_cases hn : length / pageSize = 0
  · exact ⟨s, by simp [Issue.step, HeapState.deallocateVirtualMemory, VAddrAllocator.free, hn],
      cells, h⟩
  obtain ⟨b, a', cells', ok, hres, hinv', -, hwin, -⟩ :=
    VAddrAllocator.free_spec h.inv env.nodes address hn
  exact ⟨_, by simp [Issue.step, HeapState.deallocateVirtualMemory, hres], cells',
    h.congr { s.heap with allocator := a' } hinv' hwin⟩

theorem step (h : ∃ cells, InWindow lo hi s cells) (env : Env) (c : AddressCall) :
    ∃ s', s.step env c = some s' ∧ ∃ cells', InWindow lo hi s' cells' := by
  obtain ⟨cells, h⟩ := h
  cases c with
  | allocateVirtualMemory length => exact h.alloc env length
  | deallocateVirtualMemory address length => exact h.dealloc env address length

theorem run (h : ∃ cells, InWindow lo hi s cells) (env : Env) (calls : List AddressCall) :
    ∃ s', Lib.run (Issue.step env) s calls = some s' ∧ ∃ cells, InWindow lo hi s' cells :=
  legalRun_invariant (P := fun s => ∃ cells, InWindow lo hi s cells)
    (fun _ c hs _ => step hs env c) h calls (legalRun_of_forall _ calls fun _ _ => trivial)

end InWindow

/-- With one slot in its pool `init` cannot fail, and all other slots stay free. -/
theorem init_static (heap : HeapAnswers) (base size : Word) (k : Nat) :
    ∃ a : VAddrAllocator (k + 1), VAddrAllocator.init heap base size = some a ∧
      a.freeStack.length = k := by
  refine ⟨_, by
    simp only [VAddrAllocator.init, VAddrAllocator.allocateNode, List.range_succ_eq_map]
    rfl, ?_⟩
  simp

theorem allocPages_first {heap : HeapAnswers} {base size : Word} {k : Nat}
    {a : VAddrAllocator (k + 1)} (hinit : VAddrAllocator.init heap base size = some a)
    (hslot : 0 < a.freeStack.length) {n : Word} (hn : n ≠ 0)
    (hsize : n.toNat * 4096 ≤ size.toNat) :
    ∃ a', a.allocPages heap n 1 = some (some base, a') := by
  obtain ⟨p, hinv, hbase, htotal⟩ := VAddrAllocator.init_spec hinit
  obtain ⟨r, a', cells', ok, hres, -, -, hranges, -, -⟩ :=
    VAddrAllocator.allocPages_ranges hinv heap hn (⟨0, rfl⟩ : IsPow2 1)
  have hgrant : a.grants heap 0 = true := by simp [VAddrAllocator.grants, hslot]
  have hfits : Fits n.toNat 1 (⟨0, size.toNat / 4096, true⟩ : PageSeg) := by
    refine ⟨rfl, ?_⟩
    simp [ceilTo, Seg.stop]
    omega
  have hattempt : attempt (a.grants heap) n.toNat 1 ⟨0, size.toNat / 4096, true⟩ = .taken := by
    simp [attempt, hgrant, ceilTo]
  obtain rfl : r = some 0 := by
    have := congrArg Prod.fst hranges
    simpa [allocRanges, hfits, hattempt, ceilTo] using this.symm
  exact ⟨a', by simpa [VAddrAllocator.vaddrFromPage, hbase] using hres⟩

theorem first_returned {env : Env} {h₀ : HeapState} {base size : Word}
    (hinit : VAddrAllocator.init env.nodes base size = some h₀.allocator)
    (hslot : 0 < h₀.allocator.freeStack.length) (hsize : 4096 ≤ size.toNat) :
    ∃ s, Lib.run (Issue.step env) ⟨h₀, []⟩ [.allocateVirtualMemory pageSize] = some s ∧
      s.returned = [⟨base, pageSize⟩] := by
  obtain ⟨a', hfirst⟩ := allocPages_first hinit hslot (by decide : (1 : Word) ≠ 0) (by simpa)
  have hcall := HeapState.allocateVirtualMemory_eq
      (by decide : checkAligned pageSize pageSize = true) hfirst
  refine ⟨⟨{ h₀ with allocator := a' }, [⟨base, pageSize⟩]⟩, ?_, rfl⟩
  rw [run_cons]
  simp only [Issue.step, hcall]
  rfl

/-- `init_kernel_virtual_allocator` leaves a window from the page in which the direct map ends to
the kernel image. -/
theorem initKernelVirtualAllocator_spec (env : Env) (entries : List Pma.MemmapEntry)
    {kernelBase : Word} (h : HeapState) (hkernel : kernelBase.toNat % 4096 = 0)
    (hbelow : env.slide.toNat + (Pma.getHighestPhysicalAddress entries).toNat ≤
      kernelBase.toNat) :
    ∃ (h₀ : HeapState) (base size : Word), h.initKernelVirtualAllocator env entries kernelBase =
        some h₀ ∧ VAddrAllocator.init env.nodes base size = some h₀.allocator ∧
      h₀.allocator.freeStack.length = 2047 ∧
      base.toNat =
        (env.slide.toNat + (Pma.getHighestPhysicalAddress entries).toNat) / 4096 * 4096 ∧
      size.toNat = kernelBase.toNat - base.toNat := by
  have hlt := kernelBase.isLt
  obtain ⟨base, hbase⟩ :
      ∃ w, w = alignDown (env.slide + Pma.getHighestPhysicalAddress entries) pageSize := ⟨_, rfl⟩
  obtain ⟨a, hinit, hfree⟩ := init_static env.nodes base (alignDown kernelBase pageSize - base) 2047
  have hbaseNat : base.toNat =
      (env.slide.toNat + (Pma.getHighestPhysicalAddress entries).toNat) / 4096 * 4096 := by
    rw [hbase, alignDown, toNat_roundDown _ isPow2_pageSize, BitVec.toNat_add,
      Nat.mod_eq_of_lt (by omega), toNat_pageSize]
  have hend : (alignDown kernelBase pageSize).toNat = kernelBase.toNat := by
    rw [alignDown, toNat_roundDown _ isPow2_pageSize, toNat_pageSize]
    omega
  refine ⟨{ h with allocator := a }, base, _, ?_, hinit, hfree, hbaseNat, ?_⟩
  · unfold HeapState.initKernelVirtualAllocator
    simp only [← hbase]
    rw [hinit]
    rfl
  · rw [BitVec.toNat_sub_of_le (by rw [BitVec.le_def]; omega), hend]

theorem HeapState.initKernelVirtualAllocator_eq {env : Env} {entries : List Pma.MemmapEntry}
    {kernelBase : Word} {h h₀ : HeapState}
    (hinit : h.initKernelVirtualAllocator env entries kernelBase = some h₀) :
    h₀ = { h with allocator := h₀.allocator } := by
  unfold HeapState.initKernelVirtualAllocator at hinit
  simp only [Option.bind_eq_bind] at hinit
  obtain ⟨a, -, hsome⟩ := Option.bind_eq_some_iff.1 hinit
  rw [← Option.some.inj hsome]

theorem initHeap_first {env : Env} {h₀ : HeapState} {base size : Word}
    (hinit : VAddrAllocator.init env.nodes base size = some h₀.allocator)
    (hslot : 0 < h₀.allocator.freeStack.length) (hsize : 32 * 1024 * 1024 ≤ size.toNat) :
    ∃ h, h₀.initHeap env = some h := by
  have hpages : (32 * 1024 * 1024 / pageSize : Word).toNat = 8192 := by decide
  obtain ⟨a', hfirst⟩ := allocPages_first hinit hslot
    (by decide : (32 * 1024 * 1024 / pageSize : Word) ≠ 0) (by rw [hpages]; omega)
  have hcall := HeapState.allocateVirtualMemory_eq
    (h := { h₀ with heapSize := 32 * 1024 * 1024 })
    (by decide : checkAligned (32 * 1024 * 1024) pageSize = true) hfirst
  refine ⟨{ h₀ with
    allocator := a', isInitialized := true, heapBase := base, heapSize := 32 * 1024 * 1024 }, ?_⟩
  unfold HeapState.initHeap
  simp only [hcall, Option.bind_eq_bind, Option.bind_some]

/-- In every run after `init_kernel_virtual_allocator`, what `allocate_virtual_memory` returns is
clear of the kernel image; it is also clear of the direct map in every run, just if the direct
map ends on a page boundary. -/
theorem dynamic_addresses_clear_iff (env : Env) (entries : List Pma.MemmapEntry)
    {kernelBase : Word} (h : HeapState) (hslide : env.slide.toNat % 4096 = 0)
    (hkernel : kernelBase.toNat % 4096 = 0)
    (hbelow : env.slide.toNat + (Pma.getHighestPhysicalAddress entries).toNat ≤
      kernelBase.toNat) :
    ∃ h₀, h.initKernelVirtualAllocator env entries kernelBase = some h₀ ∧
      (∀ calls, ∃ s, Lib.run (Issue.step env) ⟨h₀, []⟩ calls = some s ∧
        ∀ r ∈ s.returned, Disjoint (span r) (kernelImage kernelBase)) ∧
      ((∀ calls s, Lib.run (Issue.step env) ⟨h₀, []⟩ calls = some s → ∀ r ∈ s.returned,
          Disjoint (span r) (directMap env entries) ∧ Disjoint (span r) (kernelImage kernelBase)) ↔
        (Pma.getHighestPhysicalAddress entries).toNat % 4096 = 0) := by
  obtain ⟨h₀, base, size, hinit, halloc, hslots, hbase, hsize⟩ :=
    initKernelVirtualAllocator_spec env entries h hkernel hbelow
  have hlt := kernelBase.isLt
  obtain ⟨p, hinv, hwindow, htotal⟩ := VAddrAllocator.init_spec halloc
  have hstart : ∃ cells, InWindow base.toNat kernelBase.toNat ⟨h₀, []⟩ cells :=
    ⟨_, hinv, congrArg _ hwindow, by rw [htotal]; omega, by omega, by simp⟩
  have hkernelClear : ∀ calls, ∃ s, Lib.run (Issue.step env) ⟨h₀, []⟩ calls = some s ∧
      (∀ r ∈ s.returned, base.toNat ≤ r.addr.toNat) ∧
      ∀ r ∈ s.returned, Disjoint (span r) (kernelImage kernelBase) := by
    intro calls
    obtain ⟨s, hrun, cells, hs⟩ := InWindow.run hstart env calls
    refine ⟨s, hrun, fun r hr => (hs.inside r hr).1, fun r hr => ?_⟩
    rw [Set.disjoint_left]
    intro x hx hx'
    have := (hs.inside r hr).2
    unfold span kernelImage at *
    rw [Set.mem_Ico] at hx hx'
    omega
  refine ⟨h₀, hinit, fun calls => ?_, ?_, ?_⟩
  · obtain ⟨s, hrun, -, hclear⟩ := hkernelClear calls
    exact ⟨s, hrun, hclear⟩
  · -- the first page handed out is the one in which the direct map ends
    intro hall
    by_contra hpart
    obtain ⟨s, hrun, hreturned⟩ := first_returned halloc (by omega) (by omega)
    have hdisj := (hall _ s hrun ⟨base, pageSize⟩ (by simp [hreturned])).1
    have hspan : base.toNat ∈ span ⟨base, pageSize⟩ := Set.mem_Ico.2 (by simp)
    have hdirect : base.toNat ∈ directMap env entries := Set.mem_Ico.2 (by omega)
    exact Set.disjoint_left.1 hdisj hspan hdirect
  · intro hwhole calls s hrun
    obtain ⟨s', hrun', hlow, hclear⟩ := hkernelClear calls
    obtain rfl := Option.some.inj (hrun.symm.trans hrun')
    refine fun r hr => ⟨?_, hclear r hr⟩
    rw [Set.disjoint_left]
    intro x hx hx'
    have := hlow r hr
    unfold span directMap at *
    rw [Set.mem_Ico] at hx hx'
    omega

theorem dynamic_addresses_clear_iff_two_entries :
    ∃ (h₀ : HeapState) (s : Issue),
      HeapState.initKernelVirtualAllocator ⟨fun _ => 0, fun _ => false, 0xffff800000000000, 0⟩
        [⟨0, 0x9f000, 0⟩, ⟨0xf0000, 0x10000, 1⟩] 0xffffffff80000000
        { allocator := {}, machine := { mem := fun _ => 0 } } = some h₀ ∧
      Lib.run (Issue.step ⟨fun _ => 0, fun _ => false, 0xffff800000000000, 0⟩) ⟨h₀, []⟩
        [.allocateVirtualMemory 0x2000] = some s ∧
      ∀ r ∈ s.returned, Disjoint (span r) (directMap
          ⟨fun _ => 0, fun _ => false, 0xffff800000000000, 0⟩
          [⟨0, 0x9f000, 0⟩, ⟨0xf0000, 0x10000, 1⟩]) ∧
        Disjoint (span r) (kernelImage 0xffffffff80000000) := by
  obtain ⟨h₀, hinit, hrun, hclear⟩ := dynamic_addresses_clear_iff
    ⟨fun _ => 0, fun _ => false, 0xffff800000000000, 0⟩ [⟨0, 0x9f000, 0⟩, ⟨0xf0000, 0x10000, 1⟩]
    { allocator := {}, machine := { mem := fun _ => 0 } } (by decide)
    (by decide : (0xffffffff80000000 : Word).toNat % 4096 = 0) (by decide)
  obtain ⟨s, hs, -⟩ := hrun [.allocateVirtualMemory 0x2000]
  exact ⟨h₀, s, hinit, hs, hclear.2 (by decide) _ s hs⟩

/-- A reserved entry that ends inside a page: the first page handed out is the one it ends in. -/
theorem address_in_direct_map :
    ∃ (h₀ : HeapState) (s : Issue),
      HeapState.initKernelVirtualAllocator ⟨fun _ => 0, fun _ => false, 0xffff800000000000, 0⟩
        [⟨0, 0x9f000, 0⟩, ⟨0x9f000, 0xc00, 1⟩] 0xffffffff80000000
        { allocator := {}, machine := { mem := fun _ => 0 } } = some h₀ ∧
      Lib.run (Issue.step ⟨fun _ => 0, fun _ => false, 0xffff800000000000, 0⟩) ⟨h₀, []⟩
        [.allocateVirtualMemory 0x1000] = some s ∧
      s.returned = [⟨0xffff80000009f000, 0x1000⟩] ∧
      0xffff80000009f000 ∈ directMap ⟨fun _ => 0, fun _ => false, 0xffff800000000000, 0⟩
        [⟨0, 0x9f000, 0⟩, ⟨0x9f000, 0xc00, 1⟩] := by
  obtain ⟨h₀, base, size, hinit, halloc, hslots, hbase, hsize⟩ := initKernelVirtualAllocator_spec
    ⟨fun _ => 0, fun _ => false, 0xffff800000000000, 0⟩ [⟨0, 0x9f000, 0⟩, ⟨0x9f000, 0xc00, 1⟩]
    { allocator := {}, machine := { mem := fun _ => 0 } }
    (by decide : (0xffffffff80000000 : Word).toNat % 4096 = 0) (by decide)
  obtain rfl : base = 0xffff80000009f000 := by
    apply BitVec.eq_of_toNat_eq
    rw [hbase]
    decide
  obtain ⟨s, hrun, hreturned⟩ := first_returned halloc (by omega) (by rw [hsize]; decide)
  exact ⟨h₀, s, hinit, hrun, hreturned, Set.mem_Ico.2 (by decide)⟩

end UnnamedKernel.Mm.Heap
