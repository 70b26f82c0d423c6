import UnnamedKernel.Mm.Heap.Kept
import UnnamedKernel.Mm.Heap.Mmap
import UnnamedKernel.Mm.Vmm.Failed

/-!
# Heap memory is private

Runs of `mmap` and `sbrk` after `init_heap`. The virtual allocator keeps the ranges
apart, `alloc_page` the frames, and `map_virtual` the translations of other pages; the
invariant ties the three to what the calls have returned.
-/

namespace UnnamedKernel.Mm.Heap

open UnnamedKernel.Lib UnnamedKernel.Kernel Vma Vmm RadixTree

/-! ## The window -/

/-- The window does not wrap, and is no larger than what four levels of tables map. -/
structure WindowFits (h : HeapState) : Prop where
  noWrap : h.allocator.base.toNat + h.allocator.totalPages.toNat * 4096 ≤ 2 ^ 64
  small : h.allocator.totalPages.toNat ≤ 2 ^ 36

theorem pagesFrom_eq_map (base : Word) (count : Nat) (i : Word) :
    pagesFrom base count i =
      (List.range count).map fun j => base + (i + BitVec.ofNat 64 j) * pageSize := by
  induction count generalizing i with
  | zero => rfl
  | succ count ih =>
      have hrest : ∀ j ∈ List.range count, base + (i + 1 + BitVec.ofNat 64 j) * pageSize =
          base + (i + BitVec.ofNat 64 (j + 1)) * pageSize := by
        intro j _
        rw [show i + 1 + BitVec.ofNat 64 j = i + BitVec.ofNat 64 (j + 1) by bv_omega]
      simp only [pagesFrom, ih, List.range_succ_eq_map, List.map_cons, List.map_map,
        List.map_congr_left hrest]
      simp [Function.comp_def]

/-- The window that `init_kernel_virtual_allocator` sets up above a direct map in the upper half. -/
theorem initKernelVirtualAllocator_windowFits (env : Env) (entries : List Pma.MemmapEntry)
    {kernelBase : Word} (h : HeapState) (hslide : 2 ^ 64 - 2 ^ 47 ≤ env.slide.toNat)
    (hkernel : kernelBase.toNat % 4096 = 0)
    (hbelow : env.slide.toNat + (Pma.getHighestPhysicalAddress entries).toNat ≤
      kernelBase.toNat) :
    ∃ h₀ cells, h.initKernelVirtualAllocator env entries kernelBase = some h₀ ∧
      Inv h₀.allocator cells ∧ WindowFits h₀ := by
  obtain ⟨h₀, base, size, hinit, halloc, -, hbase, hsize⟩ :=
    initKernelVirtualAllocator_spec env entries h hkernel hbelow
  obtain ⟨p, hinv, hwindow, htotal⟩ := VAddrAllocator.init_spec halloc
  have hlt := kernelBase.isLt
  refine ⟨h₀, _, hinit, hinv, ?_, ?_⟩
  · rw [hwindow, htotal]
    omega
  · rw [htotal]
    omega

section Window

variable {h : HeapState} {i j page n : Nat}

theorem toNat_pageAt (h : HeapState) (i : Nat) :
    (h.pageAt i).toNat = (h.allocator.base.toNat + i * 4096) % 2 ^ 64 := by
  rw [HeapState.pageAt, VAddrAllocator.vaddrFromPage, BitVec.toNat_add, BitVec.toNat_mul,
    BitVec.toNat_ofNat, toNat_pageSize]
  omega

theorem WindowFits.toNat_pageAt (hw : WindowFits h) (hi : i < h.allocator.totalPages.toNat) :
    (h.pageAt i).toNat = h.allocator.base.toNat + i * 4096 := by
  have hwrap := hw.noWrap
  rw [Heap.toNat_pageAt]
  omega

theorem WindowFits.path_pageAt (hw : WindowFits h) (hi : i < h.allocator.totalPages.toNat)
    (hj : j < h.allocator.totalPages.toNat) (hpath : path (h.pageAt i) = path (h.pageAt j)) :
    i = j := by
  have hsmall := hw.small
  have hsame := samePage_of_path hpath
  have hpages : (h.pageAt i).toNat / 2 ^ 12 % 2 ^ 36 = (h.pageAt j).toNat / 2 ^ 12 % 2 ^ 36 := by
    apply Nat.eq_of_testBit_eq
    intro b
    rw [Nat.testBit_mod_two_pow, Nat.testBit_mod_two_pow, Nat.testBit_div_two_pow,
      Nat.testBit_div_two_pow]
    by_cases hb : b < 36
    · have hbit := hsame (b + 12) (by omega) (by omega)
      rw [BitVec.getLsbD, BitVec.getLsbD] at hbit
      rw [hbit]
    · simp [hb]
  rw [hw.toNat_pageAt hi, hw.toNat_pageAt hj] at hpages
  omega

theorem WindowFits.pairwise_path (hw : WindowFits h)
    (hfits : page + n ≤ h.allocator.totalPages.toNat) :
    (pagesFrom (h.pageAt page) n 0).Pairwise fun v w => path v ≠ path w := by
  rw [pagesFrom_eq_map, List.pairwise_map]
  refine List.pairwise_lt_range.imp_of_mem fun {a b} ha hb hab hpath => ?_
  rw [page_offset, page_offset, h.pageAt_add, h.pageAt_add] at hpath
  rw [List.mem_range] at ha hb
  have := hw.path_pageAt (by omega) (by omega) hpath
  omega

/-- `r` is the run of `n` pages at `page`. -/
structure Placed (h : HeapState) (r : Range) (page n : Nat) : Prop where
  addr : r.addr = h.pageAt page
  size : r.size.toNat = n * 4096
  start : page < h.allocator.totalPages.toNat
  fits : page + n ≤ h.allocator.totalPages.toNat

/-- The pages of a range. -/
def pagesOf (r : Range) : Set Word := {v | v ∈ pagesFrom r.addr (r.size / pageSize).toNat 0}

theorem Placed.mem_pagesOf {r : Range} (hr : Placed h r page n) {v : Word} :
    v ∈ pagesOf r ↔ ∃ i, page ≤ i ∧ i < page + n ∧ v = h.pageAt i := by
  have hcount : (r.size / pageSize).toNat = n := by
    rw [BitVec.toNat_udiv, hr.size, toNat_pageSize]
    exact Nat.mul_div_cancel n (by norm_num)
  rw [pagesOf, Set.mem_ofPred_eq, hr.addr, hcount, h.mem_pagesFrom_pageAt]

theorem Placed.disjoint {r r' : Range} {page' n' : Nat} (hw : WindowFits h)
    (hr : Placed h r page n) (hr' : Placed h r' page' n')
    (hnone : ∀ i, page ≤ i → i < page + n → ¬ (page' ≤ i ∧ i < page' + n')) :
    Disjoint (span r) (span r') := by
  have hstart := hw.toNat_pageAt hr.start
  have hstart' := hw.toNat_pageAt hr'.start
  rw [Set.disjoint_left]
  intro x hx hx'
  unfold span at hx hx'
  rw [Set.mem_Ico, hr.addr, hr.size, hstart] at hx
  rw [Set.mem_Ico, hr'.addr, hr'.size, hstart'] at hx'
  exact hnone ((x - h.allocator.base.toNat) / 4096) (by omega) (by omega) (by omega)

end Window

/-! ## Runs -/

/-- The kernel and what its heap calls have returned, the newest first. -/
structure Provision where
  heap : HeapState
  /-- what `sbrk` has returned for positive increments, with the bytes it moved the break by -/
  grown : List Range := []
  /-- what `mmap` has returned, with the bytes it mapped -/
  regions : List Range := []

namespace Provision

def step (env : Env) (s : Provision) : HeapCall → Option Provision
  | .mmap length flags => do
      let (r, h) ← s.heap.mmap env length flags
      if r = mapFailed then some { s with heap := h }
      else some { s with heap := h, regions := ⟨r, Kernel.alignUp length pageSize⟩ :: s.regions }
  | .sbrk increment => do
      let (r, h) ← s.heap.sbrk env increment
      if increment = 0 ∨ r = 0 then some { s with heap := h }
      else some { s with heap := h, grown := ⟨r, Kernel.alignUp increment pageSize⟩ :: s.grown }

/-- Increments are not negative, and `heap_top + aligned_increment` does not wrap. -/
def Legal (s : Provision) : HeapCall → Prop
  | .mmap _ _ => True
  | .sbrk increment =>
      0 ≤ increment.toInt ∧
        s.heap.top.toNat + (Kernel.alignUp increment pageSize).toNat < 2 ^ 64

/-- The heap below the break, and the regions of `mmap`. -/
def ranges (s : Provision) : List Range :=
  ⟨s.heap.heapBase, s.heap.top - s.heap.heapBase⟩ :: s.regions

def owned (s : Provision) : Set Word := {v | ∃ r ∈ s.ranges, v ∈ pagesOf r}

end Provision

/-- The ranges lie end to end from `base` up to `top`, the newest on top. -/
def Stacked (base : Word) : Word → List Range → Prop
  | top, [] => top = base
  | top, r :: l =>
      r.addr.toNat < top.toNat ∧ r.addr + r.size = top ∧ Stacked base r.addr l

/-- The pages given out are mapped and not executable, with frames of their own that are no tables;
the ranges lie apart, and those of `sbrk` end to end. -/
structure Private (env : Env) (root : Frame) (s : Provision) : Prop where
  stacked : Stacked s.heap.heapBase s.heap.top s.grown
  answer : ∃ h, s.heap.sbrk env 0 = some (s.heap.top, h)
  mapped : ∀ v ∈ s.owned, ∃ k, Backed env root s.heap.machine v k
  distinct : ∀ v ∈ s.owned, ∀ w ∈ s.owned, ∀ mv mw,
    walk s.heap.machine.mem env.slide root v = some mv →
    walk s.heap.machine.mem env.slide root w = some mw → mv.phys = mw.phys → v = w
  disjoint : s.ranges.Pairwise fun r r' => Disjoint (span r) (span r')

/-- The pages of `init_heap`. -/
def heapPages : Nat := 8192

theorem placed_heap {h : HeapState} {base top : Word} {page g : Nat} (hbase : base = h.pageAt page)
    (htop : top = h.pageAt (page + g)) (hg : g ≤ heapPages)
    (hfits : page + heapPages ≤ h.allocator.totalPages.toNat) :
    Placed h ⟨base, top - base⟩ page g where
  addr := hbase
  size := by
    unfold heapPages at hg
    rw [hbase, htop, ← h.pageAt_add]
    bv_omega
  start := by
    unfold heapPages at hfits
    omega
  fits := (Nat.add_le_add_left hg page).trans hfits

/-- After `init_heap` reserved the pages from `page` on: `g` of them are below the break. -/
structure Provisioned (env : Env) (root : Frame) (h₀ : HeapState) (page : Nat) (s : Provision)
    (cells : List Cell) (g : Nat) : Prop where
  inv : Inv s.heap.allocator cells
  window : SameWindow h₀.allocator s.heap.allocator
  initialized : s.heap.isInitialized = true
  heapBase : s.heap.heapBase = h₀.pageAt page
  heapSize : s.heap.heapSize.toNat = heapPages * 4096
  top : s.heap.top = h₀.pageAt (page + g)
  grown : g ≤ heapPages
  fits : page + heapPages ≤ h₀.allocator.totalPages.toNat
  reserved : ∀ i, page ≤ i → i < page + heapPages → Tagged (segs cells) i false
  regions : ∀ r ∈ s.regions, ∃ p n, Placed h₀ r p n ∧ ∀ i, p ≤ i → i < p + n →
    Tagged (segs cells) i false ∧ ¬ (page ≤ i ∧ i < page + heapPages)
  apart : s.regions.Pairwise fun r r' => Disjoint (span r) (span r')
  stacked : Stacked s.heap.heapBase s.heap.top s.grown
  kept : Kept env root h₀.window s.owned h₀.machine s.heap.machine

namespace Provisioned

variable {env : Env} {root : Frame} {h₀ : HeapState} {page g : Nat} {s : Provision}
  {cells : List Cell} {v : Word}

theorem placed (hs : Provisioned env root h₀ page s cells g) :
    Placed h₀ ⟨s.heap.heapBase, s.heap.top - s.heap.heapBase⟩ page g :=
  placed_heap hs.heapBase hs.top hs.grown hs.fits

theorem index (hs : Provisioned env root h₀ page s cells g) (hv : v ∈ s.owned) :
    ∃ i < h₀.allocator.totalPages.toNat, v = h₀.pageAt i ∧ Tagged (segs cells) i false ∧
      ¬ (page + g ≤ i ∧ i < page + heapPages) := by
  have hgrown := hs.grown
  have hfits := hs.fits
  obtain ⟨r, hr, hv⟩ := hv
  rcases List.mem_cons.1 hr with rfl | hr
  · obtain ⟨i, hlo, hhi, rfl⟩ := hs.placed.mem_pagesOf.1 hv
    exact ⟨i, by omega, rfl, hs.reserved i hlo (by omega), by omega⟩
  · obtain ⟨p, n, hplaced, hused⟩ := hs.regions r hr
    obtain ⟨i, hlo, hhi, rfl⟩ := hplaced.mem_pagesOf.1 hv
    obtain ⟨htag, hout⟩ := hused i hlo hhi
    have hin := hplaced.fits
    exact ⟨i, by omega, rfl, htag, by omega⟩

theorem isPrivate (hframes : FreshFrames env.frames) (hw : WindowFits h₀)
    (hs : Provisioned env root h₀ page s cells g) : Private env root s where
  stacked := hs.stacked
  answer := by
    obtain ⟨h', hres, -⟩ := s.heap.sbrk_zero env
    rw [if_pos hs.initialized] at hres
    exact ⟨h', hres⟩
  mapped := hs.kept.backed
  distinct := by
    intro v hv w hw mv mw hmv hmw hphys
    obtain ⟨j, hj⟩ := hs.kept.backed v hv
    obtain ⟨k, hk⟩ := hs.kept.backed w hw
    obtain ⟨mv', hmv', hpv, -⟩ := hj.mapped
    obtain ⟨mw', hmw', hpw, -⟩ := hk.mapped
    obtain rfl := Option.some.inj (hmv.symm.trans hmv')
    obtain rfl := Option.some.inj (hmw.symm.trans hmw')
    obtain rfl := hframes.distinct j k hj.answered (hpv.symm.trans (hphys.trans hpw))
    exact hs.kept.distinct v hv w hw j hj hk
  disjoint := by
    refine List.pairwise_cons.2 ⟨fun r hr => ?_, hs.apart⟩
    have hgrown := hs.grown
    obtain ⟨p, n, hplaced, hused⟩ := hs.regions r hr
    refine hs.placed.disjoint hw hplaced fun i hlo hhi hin => ?_
    exact (hused i hin.1 hin.2).2 ⟨hlo, by omega⟩

end Provisioned

/-! ## One call -/

/-- What has been given out stays given out and mapped as it was. -/
structure Keeps (env : Env) (root : Frame) (s s' : Provision) : Prop where
  owned : s.owned ⊆ s'.owned
  walks : ∀ v ∈ s.owned,
    walk s'.heap.machine.mem env.slide root v = walk s.heap.machine.mem env.slide root v

theorem Keeps.trans {env : Env} {root : Frame} {s s₁ s₂ : Provision} (h : Keeps env root s s₁)
    (h' : Keeps env root s₁ s₂) : Keeps env root s s₂ :=
  ⟨h.owned.trans h'.owned, fun v hv => (h'.walks v (h.owned hv)).trans (h.walks v hv)⟩

theorem owned_congr {s : Provision} {heap' : HeapState} (hbase : heap'.heapBase = s.heap.heapBase)
    (htop : heap'.top = s.heap.top) : ({ s with heap := heap' } : Provision).owned = s.owned := by
  simp only [Provision.owned, Provision.ranges, hbase, htop]

namespace Provisioned

variable {env : Env} {root : Frame} {h₀ : HeapState} {page g : Nat} {s : Provision}
  {cells cells' : List Cell}

/-- A call that gives nothing out and takes no range back. -/
theorem refit (hs : Provisioned env root h₀ page s cells g) {heap' : HeapState}
    (hinit : heap'.isInitialized = s.heap.isInitialized)
    (hbase : heap'.heapBase = s.heap.heapBase) (hsize : heap'.heapSize = s.heap.heapSize)
    (htop : heap'.top = s.heap.top) (hinv : Inv heap'.allocator cells')
    (hwin : SameWindow s.heap.allocator heap'.allocator)
    (hused : ∀ i, Tagged (segs cells) i false → Tagged (segs cells') i false)
    (hkept : Kept env root h₀.window s.owned h₀.machine heap'.machine) :
    Provisioned env root h₀ page { s with heap := heap' } cells' g where
  inv := hinv
  window := hs.window.trans hwin
  initialized := hinit.trans hs.initialized
  heapBase := hbase.trans hs.heapBase
  heapSize := (congrArg BitVec.toNat hsize).trans hs.heapSize
  top := htop.trans hs.top
  grown := hs.grown
  fits := hs.fits
  reserved i hlo hhi := hused i (hs.reserved i hlo hhi)
  regions r hr := by
    obtain ⟨p, n, hplaced, hin⟩ := hs.regions r hr
    exact ⟨p, n, hplaced, fun i hlo hhi => ⟨hused i (hin i hlo hhi).1, (hin i hlo hhi).2⟩⟩
  apart := hs.apart
  stacked := by
    show Stacked heap'.heapBase heap'.top s.grown
    rw [hbase, htop]
    exact hs.stacked
  kept := by
    rw [owned_congr hbase htop]
    exact hkept

theorem tookRun_used {n p : Nat} {l l' : List PageSeg} (h : TookRun n p l l') (i : Nat)
    (hi : Tagged l i false) : Tagged l' i false := by
  rw [h.2]
  split_ifs
  · rfl
  · exact hi

theorem addRegion (hw : WindowFits h₀) (hs : Provisioned env root h₀ page s cells g)
    {m : Machine} {held : VAddrAllocator 2048} {r : Range} {p n : Nat} (hplaced : Placed h₀ r p n)
    (hinv : Inv held cells') (hwin : SameWindow s.heap.allocator held)
    (htook : TookRun n p (segs cells) (segs cells'))
    (hkept : Kept env root h₀.window (s.owned ∪ pagesOf r) h₀.machine m) :
    Provisioned env root h₀ page
      { s with heap := { s.heap with machine := m, allocator := held }, regions := r :: s.regions }
      cells' g := by
  have hused := tookRun_used htook
  -- the pages of the region were free
  have hfree : ∀ i, p ≤ i → i < p + n → ¬ Tagged (segs cells) i false := by
    intro i hlo hhi htag
    have := hs.inv.tiles.tag_unique htag (htook.1 i hlo hhi)
    simp at this
  refine ⟨hinv, hs.window.trans hwin, hs.initialized, hs.heapBase, hs.heapSize, hs.top, hs.grown,
    hs.fits, fun i hlo hhi => hused i (hs.reserved i hlo hhi), ?_, ?_, hs.stacked, ?_⟩
  · rw [List.forall_mem_cons]
    refine ⟨⟨p, n, hplaced, fun i hlo hhi => ⟨?_, fun hin => ?_⟩⟩, fun r' hr' => ?_⟩
    · rw [htook.2, if_pos ⟨hlo, hhi⟩]
    · exact hfree i hlo hhi (hs.reserved i hin.1 hin.2)
    · obtain ⟨p', n', hplaced', hin⟩ := hs.regions r' hr'
      exact ⟨p', n', hplaced', fun i hlo hhi => ⟨hused i (hin i hlo hhi).1, (hin i hlo hhi).2⟩⟩
  · refine List.pairwise_cons.2 ⟨fun r' hr' => ?_, hs.apart⟩
    obtain ⟨p', n', hplaced', hin⟩ := hs.regions r' hr'
    exact hplaced.disjoint hw hplaced' fun i hlo hhi hi =>
      hfree i hlo hhi (hin i hi.1 hi.2).1
  · have howned : Provision.owned
        { s with
          heap := { s.heap with machine := m, allocator := held }, regions := r :: s.regions } =
          s.owned ∪ pagesOf r := by
      ext v
      simp only [Provision.owned, Provision.ranges, HeapState.top, List.mem_cons, Set.mem_union,
        Set.mem_ofPred_eq, exists_eq_or_imp]
      exact (or_congr_right or_comm).trans or_assoc.symm
    rw [howned]
    exact hkept

theorem addPages (hs : Provisioned env root h₀ page s cells g) {m : Machine} {increment : Word}
    {n : Nat} (hsize : increment.toNat = n * 4096) (hn : 0 < n) (hgrown : g + n ≤ heapPages)
    (hwrap : s.heap.top.toNat + increment.toNat < 2 ^ 64)
    (hkept : Kept env root h₀.window (s.owned ∪ {v | v ∈ pagesFrom s.heap.top n 0}) h₀.machine m) :
    Provisioned env root h₀ page
      { s with
        heap := { s.heap with machine := m, heapTop := some (s.heap.top + increment) },
        grown := ⟨s.heap.top, increment⟩ :: s.grown }
      cells (g + n) := by
  have htop : s.heap.top + increment = h₀.pageAt (page + (g + n)) := by
    rw [← Nat.add_assoc, ← h₀.pageAt_add, ← hs.top, ← hsize, BitVec.ofNat_toNat, BitVec.setWidth_eq]
  refine ⟨hs.inv, hs.window, hs.initialized, hs.heapBase, hs.heapSize, htop, hgrown, hs.fits,
    hs.reserved, hs.regions, hs.apart, ⟨?_, rfl, hs.stacked⟩, ?_⟩
  · show s.heap.top.toNat < (s.heap.top + increment).toNat
    rw [BitVec.toNat_add, Nat.mod_eq_of_lt hwrap]
    omega
  · have howned : Provision.owned { s with
        heap := { s.heap with machine := m, heapTop := some (s.heap.top + increment) },
        grown := ⟨s.heap.top, increment⟩ :: s.grown } =
          s.owned ∪ {v | v ∈ pagesFrom s.heap.top n 0} := by
      have hheap : pagesOf ⟨s.heap.heapBase, s.heap.top + increment - s.heap.heapBase⟩ =
          pagesOf ⟨s.heap.heapBase, s.heap.top - s.heap.heapBase⟩ ∪
            {v | v ∈ pagesFrom s.heap.top n 0} := by
        ext v
        rw [Set.mem_union, (placed_heap hs.heapBase htop hgrown hs.fits).mem_pagesOf,
          hs.placed.mem_pagesOf, Set.mem_ofPred_eq, hs.top, h₀.mem_pagesFrom_pageAt]
        constructor
        · rintro ⟨i, hlo, hhi, rfl⟩
          rcases Nat.lt_or_ge i (page + g) with hlt | hge
          · exact Or.inl ⟨i, hlo, hlt, rfl⟩
          · exact Or.inr ⟨i, hge, by omega, rfl⟩
        · rintro (⟨i, hlo, hhi, rfl⟩ | ⟨i, hlo, hhi, rfl⟩)
          · exact ⟨i, hlo, by omega, rfl⟩
          · exact ⟨i, by omega, by omega, rfl⟩
      ext v
      simp only [Provision.owned, Provision.ranges, HeapState.top, Option.getD_some, List.mem_cons,
        Set.mem_union, Set.mem_ofPred_eq, exists_eq_or_imp]
      rw [show s.heap.heapTop.getD s.heap.heapBase = s.heap.top from rfl, hheap]
      exact or_right_comm
    rw [howned]
    exact hkept

theorem path_ne (hw : WindowFits h₀) (hs : Provisioned env root h₀ page s cells g) {i : Nat}
    (hi : i < h₀.allocator.totalPages.toNat)
    (hnew : Tagged (segs cells) i true ∨ page + g ≤ i ∧ i < page + heapPages) {v : Word}
    (hv : v ∈ s.owned) : path v ≠ path (h₀.pageAt i) := by
  obtain ⟨j, hj, rfl, htag, hout⟩ := hs.index hv
  intro hpath
  obtain rfl := hw.path_pageAt hj hi hpath
  rcases hnew with hfree | hin
  · have := hs.inv.tiles.tag_unique htag hfree
    simp at this
  · exact hout hin

theorem loop (hcr3 : env.cr3 = root.val) (hframes : FreshFrames env.frames) (hw : WindowFits h₀)
    (hs : Provisioned env root h₀ page s cells g) {p n : Nat}
    (hfits : p + n ≤ h₀.allocator.totalPages.toNat)
    (hnew : ∀ i, p ≤ i → i < p + n →
      Tagged (segs cells) i true ∨ page + g ≤ i ∧ i < page + heapPages) :
    (∀ v ∈ s.owned, walk (mapPages env (h₀.pageAt p) n 0 s.heap.machine).2.mem env.slide root v =
      walk s.heap.machine.mem env.slide root v) ∧
    Kept env root h₀.window s.owned h₀.machine (mapPages env (h₀.pageAt p) n 0 s.heap.machine).2 ∧
    ((mapPages env (h₀.pageAt p) n 0 s.heap.machine).1 = none →
      Kept env root h₀.window (s.owned ∪ {v | v ∈ pagesFrom (h₀.pageAt p) n 0}) h₀.machine
        (mapPages env (h₀.pageAt p) n 0 s.heap.machine).2) := by
  refine hs.kept.loop hcr3 hframes (fun v hv => ?_) (hw.pairwise_path hfits) fun v hv w hwmem => ?_
  · obtain ⟨i, -, hi, rfl⟩ := h₀.mem_pagesFrom_pageAt.1 hv
    exact ⟨i, by omega, rfl⟩
  · obtain ⟨i, hlo, hi, rfl⟩ := h₀.mem_pagesFrom_pageAt.1 hwmem
    exact hs.path_ne hw (by omega) (hnew i hlo hi) hv

theorem pageAt_eq (hs : Provisioned env root h₀ page s cells g) (i : Nat) :
    s.heap.pageAt i = h₀.pageAt i :=
  VAddrAllocator.vaddrFromPage_congr hs.window.base _

theorem totalPages_eq (hs : Provisioned env root h₀ page s cells g) :
    s.heap.allocator.totalPages = h₀.allocator.totalPages := hs.window.totalPages

theorem mmap (hcr3 : env.cr3 = root.val) (hframes : FreshFrames env.frames) (hw : WindowFits h₀)
    (hs : Provisioned env root h₀ page s cells g) (length : Word) (flags : BitVec 32) :
    ∃ s' cells', s.step env (.mmap length flags) = some s' ∧
      Provisioned env root h₀ page s' cells' g ∧ Keeps env root s s' := by
  by_cases hflags : isFlagSet flags mapPrivate = true ∧ isFlagSet flags mapAnonymous = true
  swap
  · have hres : s.heap.mmap env length flags = some (mapFailed, s.heap) :=
      if_pos (not_and_or.1 hflags)
    exact ⟨s, cells, by simp [Provision.step, hres], hs, subset_rfl, fun _ _ => rfl⟩
  rcases mmap_spec hs.inv env hflags length with
    ⟨-, a', cells', hres, hinv', hwin, hsame⟩ | ⟨hfinds, p, held, back, hreserved, hres⟩
  · refine ⟨{ s with heap := { s.heap with allocator := a' } }, cells', ?_, ?_, ?_⟩
    · simp [Provision.step, hres]
    · exact hs.refit rfl rfl rfl rfl hinv' hwin (fun i => (hsame i false).2) hs.kept
    · exact ⟨(owned_congr rfl rfl).ge, fun _ _ => rfl⟩
  obtain ⟨n, hn⟩ : ∃ n, n = (Kernel.alignUp length pageSize / pageSize).toNat := ⟨_, rfl⟩
  have hsize : (Kernel.alignUp length pageSize).toNat = n * 4096 := by
    have hmod := alignUp_pageSize_mod length
    rw [hn, BitVec.toNat_udiv, toNat_pageSize]
    omega
  have hpos : 0 < n := by
    rw [hn]
    exact Nat.pos_of_ne_zero fun he => pageCount_ne_zero hfinds.1 (BitVec.eq_of_toNat_eq he)
  obtain ⟨cellsHeld, hinvHeld, htook⟩ := hreserved.took
  obtain ⟨cellsBack, hinvBack, hback⟩ := hreserved.gave
  have hfits : p + n ≤ h₀.allocator.totalPages.toNat := by
    rw [← hs.totalPages_eq, hn]
    exact hreserved.fits
  rw [← hn] at hres htook
  rw [hs.pageAt_eq] at hres
  obtain ⟨hwalks, hkept, hmapped⟩ := hs.loop hcr3 hframes hw hfits fun i hlo hhi =>
    Or.inl (htook.1 i hlo hhi)
  rcases hloop : mapPages env (h₀.pageAt p) n 0 s.heap.machine with ⟨code, m⟩
  rw [hloop] at hres hwalks hkept hmapped
  rcases code with _ | code
  · -- the region is given out
    have hne : h₀.pageAt p ≠ mapFailed := by
      intro he
      rw [he] at hloop
      exact mapPages_misaligned (by decide) hpos hloop
    have hplaced : Placed h₀ ⟨h₀.pageAt p, Kernel.alignUp length pageSize⟩ p n :=
      ⟨rfl, hsize, by omega, hfits⟩
    have hpages : pagesOf ⟨h₀.pageAt p, Kernel.alignUp length pageSize⟩ =
        {v | v ∈ pagesFrom (h₀.pageAt p) n 0} := by
      rw [hn]
      rfl
    refine ⟨{ s with
        heap := { s.heap with machine := m, allocator := held },
        regions := ⟨h₀.pageAt p, Kernel.alignUp length pageSize⟩ :: s.regions }, cellsHeld, ?_,
      hs.addRegion hw hplaced hinvHeld hreserved.heldWindow htook (hpages ▸ hmapped rfl), ?_,
        hwalks⟩
    · simp [Provision.step, hres, hne]
    · rintro v ⟨r, hr, hv⟩
      rcases List.mem_cons.1 hr with rfl | hr
      · exact ⟨_, List.mem_cons_self .., hv⟩
      · exact ⟨r, List.mem_cons_of_mem _ (List.mem_cons_of_mem _ hr), hv⟩
  · -- the range is given back, or stays out of use
    obtain ⟨a', cells', hinv', hwin, hused, hres⟩ : ∃ a' cells', Inv a' cells' ∧
        SameWindow s.heap.allocator a' ∧
        (∀ i, Tagged (segs cells) i false → Tagged (segs cells') i false) ∧
        s.heap.mmap env length flags =
          some (mapFailed, { s.heap with machine := m, allocator := a' }) := by
      by_cases hmemory : code = .outOfMemory
      · subst hmemory
        exact ⟨back, cellsBack, hinvBack, hreserved.backWindow, fun i => (hback i false).2, hres⟩
      · refine ⟨held, cellsHeld, hinvHeld, hreserved.heldWindow, tookRun_used htook, ?_⟩
        rw [hres]
        cases code <;> first | exact absurd rfl hmemory | rfl
    refine ⟨{ s with heap := { s.heap with machine := m, allocator := a' } }, cells', ?_, ?_, ?_⟩
    · simp [Provision.step, hres]
    · exact hs.refit rfl rfl rfl rfl hinv' hwin hused hkept
    · exact ⟨(owned_congr rfl rfl).ge, hwalks⟩

/-- The room that the window test and the sum that does not wrap leave for an increment. -/
theorem room (hw : WindowFits h₀) (hs : Provisioned env root h₀ page s cells g) {size : Word}
    {n : Nat} (hsize : size.toNat = n * 4096) (hn : 0 < n)
    (hwrap : s.heap.top.toNat + size.toNat < 2 ^ 64)
    (htest : ¬ s.heap.heapBase + s.heap.heapSize < s.heap.top + size) : g + n ≤ heapPages := by
  have hnoWrap := hw.noWrap
  have hfits := hs.fits
  have hgrown := hs.grown
  have hheapSize := hs.heapSize
  rw [hs.top, toNat_pageAt] at hwrap
  rw [hs.heapBase, hs.top, BitVec.lt_def, BitVec.toNat_add, BitVec.toNat_add, toNat_pageAt,
    toNat_pageAt, hheapSize] at htest
  unfold heapPages at *
  omega

theorem sbrk (hcr3 : env.cr3 = root.val) (hframes : FreshFrames env.frames) (hw : WindowFits h₀)
    (hs : Provisioned env root h₀ page s cells g) {increment : Word}
    (hlegal : s.Legal (.sbrk increment)) :
    ∃ s' g', s.step env (.sbrk increment) = some s' ∧
      Provisioned env root h₀ page s' cells g' ∧ Keeps env root s s' := by
  obtain ⟨hsign, hwrap⟩ := hlegal
  -- the frames and tables after a call that does not move the break
  have hstay : ∀ {heap' : HeapState} {r : Word}, s.heap.sbrk env increment = some (r, heap') →
      (increment = 0 ∨ r = 0) → heap'.isInitialized = s.heap.isInitialized →
      heap'.heapBase = s.heap.heapBase → heap'.heapSize = s.heap.heapSize →
      heap'.top = s.heap.top → heap'.allocator = s.heap.allocator →
      Kept env root h₀.window s.owned h₀.machine heap'.machine →
      (∀ v ∈ s.owned, walk heap'.machine.mem env.slide root v =
        walk s.heap.machine.mem env.slide root v) →
      ∃ s' g', s.step env (.sbrk increment) = some s' ∧
        Provisioned env root h₀ page s' cells g' ∧ Keeps env root s s' := by
    intro heap' r hres hr hinit hbase hsize htop halloc hkept hwalks
    refine ⟨{ s with heap := heap' }, g, ?_, ?_, ?_⟩
    · simp only [Provision.step, hres, Option.bind_eq_bind, Option.bind_some, if_pos hr]
    · exact hs.refit hinit hbase hsize htop (halloc ▸ hs.inv) (halloc ▸ .refl _) (fun _ => id) hkept
    · exact ⟨(owned_congr hbase htop).ge, hwalks⟩
  by_cases hzero : increment = 0
  · subst hzero
    have hres : s.heap.sbrk env 0 =
        some (s.heap.top, { s.heap with heapTop := some s.heap.top }) := by
      unfold HeapState.sbrk
      rw [if_neg (by simp [hs.initialized])]
      simp only [if_true]
      rfl
    exact hstay hres (Or.inl rfl) rfl rfl rfl rfl rfl hs.kept fun _ _ => rfl
  have hpos : 0 < increment.toInt := by
    have hne : increment.toInt ≠ 0 := fun he => hzero (BitVec.eq_of_toInt_eq he)
    omega
  obtain ⟨hsize, hn⟩ := toNat_pageCount increment hpos
  have hres := @HeapState.sbrk_eq env s.heap increment hs.initialized hpos
  generalize (Kernel.alignUp increment pageSize / pageSize).toNat = n at hsize hn hres
  split_ifs at hres with htest
  · have hadv : Advances env.frames env.slide root ∅ s.heap.machine
        (s.heap.machine.setError .outOfMemory) := advances_taken hs.kept.tree rfl (Nat.le_refl _)
    exact hstay hres (Or.inr rfl) rfl rfl rfl rfl rfl
      (hs.kept.advances hframes hadv fun _ _ _ hw => hw.elim).1 fun _ _ => rfl
  have hroom := hs.room hw hsize.symm hn hwrap htest
  have hfits := hs.fits
  obtain ⟨hwalks, hkept, hmapped⟩ := hs.loop hcr3 hframes hw (p := page + g) (n := n) (by omega)
    fun i hlo hhi => Or.inr ⟨hlo, by omega⟩
  rw [← hs.top] at hwalks hkept hmapped
  have hnull := mapPages_null hcr3 s.heap.top n 0 s.heap.machine
  rcases hloop : mapPages env s.heap.top n 0 s.heap.machine with ⟨code, m⟩
  rw [hloop] at hres hwalks hkept hmapped hnull
  rcases code with _ | code
  · -- the break moves, and the null page is not below it
    have hne : s.heap.top ≠ 0 := by
      intro he
      refine hnull (mem_pagesFrom_zero.2 ⟨0, hn, ?_⟩) rfl
      simp [he]
    refine ⟨{ s with
        heap := { s.heap with
          machine := m, heapTop := some (s.heap.top + Kernel.alignUp increment pageSize) },
        grown := ⟨s.heap.top, Kernel.alignUp increment pageSize⟩ :: s.grown }, g + n, ?_,
      hs.addPages hsize.symm hn hroom hwrap (hmapped rfl), ?_, hwalks⟩
    · simp only [Provision.step, hres, Option.bind_eq_bind, Option.bind_some,
        if_neg (not_or.2 ⟨hzero, hne⟩)]
    · have hafter := hs.addPages hsize.symm hn hroom hwrap (hmapped rfl)
      rintro v ⟨r, hr, hv⟩
      rcases List.mem_cons.1 hr with rfl | hr
      · obtain ⟨i, hlo, hhi, rfl⟩ := hs.placed.mem_pagesOf.1 hv
        exact ⟨_, List.mem_cons_self .., hafter.placed.mem_pagesOf.2 ⟨i, hlo, by omega, rfl⟩⟩
      · exact ⟨r, List.mem_cons_of_mem _ hr, hv⟩
  · exact hstay hres (Or.inr rfl) rfl rfl rfl rfl rfl hkept hwalks

theorem step (hcr3 : env.cr3 = root.val) (hframes : FreshFrames env.frames) (hw : WindowFits h₀)
    (hs : Provisioned env root h₀ page s cells g) {c : HeapCall} (hlegal : s.Legal c) :
    ∃ s' cells' g', s.step env c = some s' ∧ Provisioned env root h₀ page s' cells' g' ∧
      Keeps env root s s' := by
  cases c with
  | mmap length flags =>
      obtain ⟨s', cells', hstep, hs', hkeeps⟩ := hs.mmap hcr3 hframes hw length flags
      exact ⟨s', cells', g, hstep, hs', hkeeps⟩
  | sbrk increment =>
      obtain ⟨s', g', hstep, hs', hkeeps⟩ := hs.sbrk hcr3 hframes hw hlegal
      exact ⟨s', cells, g', hstep, hs', hkeeps⟩

/-- Increments that do not reach past the end of the addresses from the end of the window are legal
in every run. -/
theorem legalRun (hcr3 : env.cr3 = root.val) (hframes : FreshFrames env.frames)
    (hw : WindowFits h₀) (hs : Provisioned env root h₀ page s cells g) {calls : List HeapCall}
    (hbelow : ∀ increment, .sbrk increment ∈ calls → 0 ≤ increment.toInt ∧
      h₀.allocator.base.toNat + h₀.allocator.totalPages.toNat * 4096 +
        (Kernel.alignUp increment pageSize).toNat < 2 ^ 64) :
    LegalRun (Provision.step env) Provision.Legal s calls := by
  induction calls generalizing s cells g with
  | nil => trivial
  | cons c calls ih =>
      have hlegal : s.Legal c := by
        cases c with
        | mmap length flags => trivial
        | sbrk increment =>
            obtain ⟨hsign, hend⟩ := hbelow increment (List.mem_cons_self ..)
            have hgrown := hs.grown
            have hfits := hs.fits
            refine ⟨hsign, ?_⟩
            rw [hs.top, toNat_pageAt]
            omega
      refine ⟨hlegal, fun s₁ h₁ => ?_⟩
      obtain ⟨s', cells', g', hstep, hs', -⟩ := hs.step hcr3 hframes hw hlegal
      obtain rfl := Option.some.inj (h₁.symm.trans hstep)
      exact ih hs' fun increment hmem => hbelow increment (List.mem_cons_of_mem _ hmem)

theorem run (hcr3 : env.cr3 = root.val) (hframes : FreshFrames env.frames) (hw : WindowFits h₀)
    (hs : Provisioned env root h₀ page s cells g) {calls : List HeapCall}
    (hlegal : LegalRun (Provision.step env) Provision.Legal s calls) :
    ∃ s', Lib.run (Provision.step env) s calls = some s' ∧
      (∃ cells' g', Provisioned env root h₀ page s' cells' g') ∧ Keeps env root s s' := by
  refine legalRun_invariant (P := fun s' =>
    (∃ cells' g', Provisioned env root h₀ page s' cells' g') ∧ Keeps env root s s') ?_
    ⟨⟨cells, g, hs⟩, subset_rfl, fun _ _ => rfl⟩ calls hlegal
  rintro s₁ c ⟨⟨cells₁, g₁, hs₁⟩, hkeeps⟩ hc
  obtain ⟨s₂, cells₂, g₂, hstep, hs₂, hkeeps'⟩ := hs₁.step hcr3 hframes hw hc
  exact ⟨s₂, hstep, ⟨cells₂, g₂, hs₂⟩, hkeeps.trans hkeeps'⟩

end Provisioned

/-- `init_heap` reserves the pages of the heap and gives none of them out. -/
theorem initHeap_provisioned {env : Env} {root : Frame} {h₀ h : HeapState} {cells : List Cell}
    (hinv : Inv h₀.allocator cells) (htree : Tree env.frames env.slide root h₀.machine)
    (hclear : UpperAll tableOf (entry h₀.machine.mem env.slide) root 3 (ClearFor h₀.window))
    (htop : h₀.heapTop = none) (hinit : h₀.initHeap env = some h) :
    ∃ page cells', Provisioned env root h₀ page ⟨h, [], []⟩ cells' 0 := by
  have hround : Kernel.alignUp (32 * 1024 * 1024) pageSize = 32 * 1024 * 1024 := by decide
  have hcount : ((32 * 1024 * 1024 : Word) / pageSize).toNat = heapPages := by decide
  unfold HeapState.initHeap at hinit
  have hspec := allocateVirtualMemory_spec (h := { h₀ with heapSize := 32 * 1024 * 1024 })
    hinv env (32 * 1024 * 1024)
  rw [hround, hcount] at hspec
  rcases hspec with ⟨-, a', cells', hres, -⟩ | ⟨-, page, a', cells', hres, hinv', hwin, hfits, -,
    htook⟩
  · simp only [hres, Option.bind_eq_bind, Option.bind_some, reduceCtorEq] at hinit
  simp only [hres, Option.bind_eq_bind, Option.bind_some, Option.some.injEq] at hinit
  subst hinit
  have hbytes : (32 * 1024 * 1024 : Word).toNat = heapPages * 4096 := by decide
  refine ⟨page, cells', hinv', hwin, rfl, rfl, hbytes, ?_, Nat.zero_le _, hfits,
    fun i hlo hhi => ?_, by simp, List.Pairwise.nil, ?_, ?_⟩
  · simp [HeapState.top, htop]
    rfl
  · rw [htook.2, if_pos ⟨hlo, hhi⟩]
  · simp [Stacked, HeapState.top, htop]
  · have hnone : Provision.owned ⟨{ h₀ with
        allocator := a', isInitialized := true, heapBase := h₀.pageAt page,
        heapSize := 32 * 1024 * 1024 }, [], []⟩ = ∅ := by
      simp [Provision.owned, Provision.ranges, HeapState.top, htop, pagesOf, pagesFrom]
    exact hnone ▸ Kept.empty htree hclear

/-- After every run of `mmap` and `sbrk` that follows `init_heap`, what they have given out is
private, it is writable if the tables that led to the window from the start are, and no later
call changes its translations. -/
theorem heap_private {env : Env} {root : Frame} {h₀ h : HeapState} {cells : List Cell}
    (hframes : FreshFrames env.frames) (hcr3 : env.cr3 = root.val) (hinv : Inv h₀.allocator cells)
    (hw : WindowFits h₀) (htree : Tree env.frames env.slide root h₀.machine)
    (hclear : UpperAll tableOf (entry h₀.machine.mem env.slide) root 3 (ClearFor h₀.window))
    (htop : h₀.heapTop = none) (hinit : h₀.initHeap env = some h) (calls later : List HeapCall)
    (hlegal : LegalRun (Provision.step env) Provision.Legal ⟨h, [], []⟩ (calls ++ later)) :
    ∃ s s', Lib.run (Provision.step env) ⟨h, [], []⟩ calls = some s ∧
      Lib.run (Provision.step env) s later = some s' ∧ s.heap.heapBase = h.heapBase ∧
      Private env root s ∧ Keeps env root s s' ∧
      (UpperAll tableOf (entry h₀.machine.mem env.slide) root 3 (WritableFor h₀.window) →
        ∀ v ∈ s.owned, Writable env root s.heap.machine v) := by
  obtain ⟨page, cells₀, hstart⟩ := initHeap_provisioned hinv htree hclear htop hinit
  obtain ⟨hlegal₁, hlegal₂⟩ := legalRun_append hlegal
  obtain ⟨s, hrun, ⟨cells₁, g, hs⟩, -⟩ := hstart.run hcr3 hframes hw hlegal₁
  obtain ⟨s', hrun', -, hkeeps⟩ := hs.run hcr3 hframes hw (hlegal₂ s hrun)
  exact ⟨s, s', hrun, hrun', hs.heapBase.trans hstart.heapBase.symm, hs.isPrivate hframes hw,
    hkeeps, fun hup => (hs.kept.writable hup).2⟩

/-- Nothing is mapped, and there are frames for two pages of the heap, for one page of a region and
for their tables. -/
private def plainEnv : Env := ⟨frameRow 7, fun _ => false, 0xffff800000000000, 0x1000⟩

/-- A page of the heap, a region, and more heap than there is. -/
private def plainCalls : List HeapCall :=
  [.sbrk 0x1000, .mmap 0x1000 (mapPrivate ||| mapAnonymous), .sbrk 0x4000000]

/-- The last frame goes to the heap, and a region gets none. -/
private def plainLater : List HeapCall :=
  [.sbrk 0x1000, .mmap 0x2000 (mapPrivate ||| mapAnonymous)]

private def plainHeap : HeapState := { allocator := {}, machine := { mem := fun _ => 0 } }

theorem heap_private_five_calls :
    ∃ (h₀ h : HeapState) (s s' : Provision),
      plainHeap.initKernelVirtualAllocator plainEnv [⟨0x1000, 0x100000, 0⟩] 0xffffffff80000000 =
        some h₀ ∧ h₀.initHeap plainEnv = some h ∧
      Lib.run (Provision.step plainEnv) ⟨h, [], []⟩ plainCalls = some s ∧
      Lib.run (Provision.step plainEnv) s plainLater = some s' ∧
      Private plainEnv (frameOf 0x1000) s ∧ Keeps plainEnv (frameOf 0x1000) s s' ∧
      ∀ v ∈ s.owned, Writable plainEnv (frameOf 0x1000) s.heap.machine v := by
  have hkernel : (0xffffffff80000000 : Word).toNat = 0xffffffff80000000 := rfl
  have hpage : (0xffffffff80000000 : Word).toNat % 4096 = 0 := by decide
  have hslide : plainEnv.slide.toNat +
      (Pma.getHighestPhysicalAddress [⟨0x1000, 0x100000, 0⟩]).toNat = 0xffff800000101000 := by
    decide
  obtain ⟨h₀, base, size, hboot, halloc, hslots, hbase, hsize⟩ := initKernelVirtualAllocator_spec
    plainEnv [⟨0x1000, 0x100000, 0⟩] plainHeap hpage (by rw [hslide]; decide)
  obtain ⟨h₁, cells, hboot₁, hinv, hw⟩ := initKernelVirtualAllocator_windowFits plainEnv
    [⟨0x1000, 0x100000, 0⟩] plainHeap (by decide) hpage (by rw [hslide]; decide)
  obtain rfl := Option.some.inj (hboot.symm.trans hboot₁)
  obtain ⟨h, hinit⟩ := initHeap_first halloc (by omega) (by rw [hsize, hkernel]; omega)
  have hplain := HeapState.initKernelVirtualAllocator_eq hboot
  have hzero : ∀ x, h₀.machine.mem x = 0 := fun x => by rw [hplain]; rfl
  have htop : h₀.heapTop = none := by rw [hplain]; rfl
  have hframes : FreshFrames plainEnv.frames := freshFrames_frameRow (by decide : 7 ≤ 1000)
  have hwf : WellFormed plainEnv.frames plainEnv.slide (frameOf 0x1000) h₀.machine :=
    wellFormed_frameRow (by decide : 7 ≤ 1000) fun x _ => hzero x
  have hclear : UpperAll tableOf (entry h₀.machine.mem plainEnv.slide) (frameOf 0x1000) 3
      (ClearFor h₀.window) := fun q j t hlen hp _ _ _ => hwf.small q j t hlen hp
  have hup : UpperAll tableOf (entry h₀.machine.mem plainEnv.slide) (frameOf 0x1000) 3
      (WritableFor h₀.window) := by
    intro q j t _ _
    rw [show entry h₀.machine.mem plainEnv.slide t j = 0 by simp [entry, Mem.read64, hzero]]
    exact (linkable_writableFor _).blank _
  have hwindow : h₀.allocator.base.toNat + h₀.allocator.totalPages.toNat * 4096 ≤
      0xffffffff80000000 := by
    obtain ⟨-, -, hstart, htotal⟩ := VAddrAllocator.init_spec halloc
    rw [hstart, htotal]
    omega
  obtain ⟨page, cells₁, hstart⟩ := initHeap_provisioned hinv hwf.tree hclear htop hinit
  have hlegal : LegalRun (Provision.step plainEnv) Provision.Legal ⟨h, [], []⟩
      (plainCalls ++ plainLater) := by
    refine hstart.legalRun rfl hframes hw fun increment hmem => ?_
    have hsmall : 0 ≤ increment.toInt ∧
        (Kernel.alignUp increment pageSize).toNat ≤ 0x4000000 := by
      simp only [plainCalls, plainLater, List.mem_append, List.mem_cons, List.not_mem_nil,
        HeapCall.sbrk.injEq, reduceCtorEq, or_false, false_or] at hmem
      rcases hmem with (rfl | rfl) | rfl <;> decide
    exact ⟨hsmall.1, by omega⟩
  obtain ⟨s, s', hrun, hrun', -, hprivate, hkeeps, hwritable⟩ := heap_private hframes rfl hinv hw
    hwf.tree hclear htop hinit plainCalls plainLater hlegal
  exact ⟨h₀, h, s, s', hboot, hinit, hrun, hrun', hprivate, hkeeps, hwritable hup⟩

/-- The tables for the first pages of the window, below an entry of the root that is not
writable. -/
private def readOnlyMachine : Machine where
  mem := Mem.write64
    (Mem.write64
      (Mem.write64 (fun _ => 0)
        (entryPtr ((frameOf 0x1000).val + 0xffff800000000000)
          (BitVec.ofNat 64 (256 : Fin 512).val))
        (0x5000 ||| PageBits.present))
      (entryPtr ((frameOf 0x5000).val + 0xffff800000000000) (BitVec.ofNat 64 (1 : Fin 512).val))
      (tableEntry (frameOf 0x7000)))
    (entryPtr ((frameOf 0x7000).val + 0xffff800000000000) (BitVec.ofNat 64 (0 : Fin 512).val))
    (tableEntry (frameOf 0x9000))

private theorem entry_readOnlyMachine (x : Frame) (j : Fin 512) :
    entry readOnlyMachine.mem 0xffff800000000000 x j =
      if x = frameOf 0x7000 ∧ j = 0 then tableEntry (frameOf 0x9000)
      else if x = frameOf 0x5000 ∧ j = 1 then tableEntry (frameOf 0x7000)
      else if x = frameOf 0x1000 ∧ j = 256 then 0x5000 ||| PageBits.present else 0 := by
  have hzero : entry (fun _ => 0) 0xffff800000000000 x j = 0 := by simp [entry, Mem.read64]
  rw [readOnlyMachine]
  split_ifs with h3 h2 h1
  · obtain ⟨rfl, rfl⟩ := h3
    exact (entry_write64 _ _ _ _ _).here
  · obtain ⟨rfl, rfl⟩ := h2
    rw [(entry_write64 _ _ _ _ _).other _ _ h3]
    exact (entry_write64 _ _ _ _ _).here
  · obtain ⟨rfl, rfl⟩ := h1
    rw [(entry_write64 _ _ _ _ _).other _ _ h3, (entry_write64 _ _ _ _ _).other _ _ h2]
    exact (entry_write64 _ _ _ _ _).here
  · rw [(entry_write64 _ _ _ _ _).other _ _ h3, (entry_write64 _ _ _ _ _).other _ _ h2,
      (entry_write64 _ _ _ _ _).other _ _ h1, hzero]

private theorem readOnlyMachine_tableAt {p : List (Fin 512)} {u : Frame}
    (h : tableAt readOnlyMachine.mem 0xffff800000000000 (frameOf 0x1000) p = some u) :
    (p, u) ∈ [([], frameOf 0x1000), ([256], frameOf 0x5000), ([256, 1], frameOf 0x7000),
      ([256, 1, 0], frameOf 0x9000)] := by
  obtain ⟨hroot, h5, h6, h7⟩ :
      (∀ i, tableOf (entry readOnlyMachine.mem 0xffff800000000000 (frameOf 0x1000) i) =
        if i = 256 then some (frameOf 0x5000) else none) ∧
      (∀ i, tableOf (entry readOnlyMachine.mem 0xffff800000000000 (frameOf 0x5000) i) =
        if i = 1 then some (frameOf 0x7000) else none) ∧
      (∀ i, tableOf (entry readOnlyMachine.mem 0xffff800000000000 (frameOf 0x7000) i) =
        if i = 0 then some (frameOf 0x9000) else none) ∧
      ∀ i, tableOf (entry readOnlyMachine.mem 0xffff800000000000 (frameOf 0x9000) i) = none := by
    have hne : frameOf 0x1000 ≠ frameOf 0x5000 ∧ frameOf 0x1000 ≠ frameOf 0x7000 ∧
        frameOf 0x5000 ≠ frameOf 0x7000 ∧ frameOf 0x9000 ≠ frameOf 0x1000 ∧
        frameOf 0x9000 ≠ frameOf 0x5000 ∧ frameOf 0x9000 ≠ frameOf 0x7000 := by decide
    have hlink : tableOf (0x5000 ||| PageBits.present) = some (frameOf 0x5000) := by decide
    simp only [entry_readOnlyMachine, hlink, hne, hne.1.symm, hne.2.1.symm, hne.2.2.1.symm,
      false_and, if_false, true_and, apply_ite tableOf, tableOf_tableEntry, tableOf_zero]
    exact ⟨fun _ => trivial, fun _ => trivial, fun _ => trivial, fun _ => trivial⟩
  rcases descend_only (hroot 256) (fun i hi => (hroot i).trans (if_neg hi)) h with
    ⟨rfl, rfl⟩ | ⟨p, rfl, h⟩
  · simp
  rcases descend_only (h5 1) (fun i hi => (h5 i).trans (if_neg hi)) h with
    ⟨rfl, rfl⟩ | ⟨p, rfl, h⟩
  · simp
  rcases descend_only (h6 0) (fun i hi => (h6 i).trans (if_neg hi)) h with
    ⟨rfl, rfl⟩ | ⟨p, rfl, h⟩
  · simp
  obtain ⟨rfl, rfl⟩ := descend_leaf h7 h
  simp

private theorem tree_readOnlyMachine :
    Tree threeFrames 0xffff800000000000 (frameOf 0x1000) readOnlyMachine := by
  refine ⟨fun p q t _ _ hp hq => ?_, fun k u _ hu hu0 p _ hp => ?_⟩
  · have hp' := readOnlyMachine_tableAt hp
    have hq' := readOnlyMachine_tableAt hq
    have hdistinct : ∀ a ∈ [([], frameOf 0x1000), ([(256 : Fin 512)], frameOf 0x5000),
        ([256, 1], frameOf 0x7000), ([256, 1, 0], frameOf 0x9000)],
        ∀ b ∈ [([], frameOf 0x1000), ([(256 : Fin 512)], frameOf 0x5000),
          ([256, 1], frameOf 0x7000), ([256, 1, 0], frameOf 0x9000)],
          a.2 = b.2 → a.1 = b.1 := by decide
    exact hdistinct _ hp' _ hq' rfl
  · have hp' := readOnlyMachine_tableAt hp
    have hapart : ∀ a ∈ [([], frameOf 0x1000), ([(256 : Fin 512)], frameOf 0x5000),
        ([256, 1], frameOf 0x7000), ([256, 1, 0], frameOf 0x9000)], ∀ j < 3,
        threeFrames j ≠ a.2.val := by decide
    have hk : k < 3 := by
      by_contra hk
      obtain ⟨k, rfl⟩ := Nat.exists_eq_add_of_le (Nat.not_lt.1 hk)
      rw [Nat.add_comm] at hu0
      exact hu0 rfl
    exact hapart _ hp' k hk hu

private theorem noLarge_readOnlyMachine :
    UpperAll tableOf (entry readOnlyMachine.mem 0xffff800000000000) (frameOf 0x1000) 3 NoLarge := by
  intro p i t _ _
  rw [entry_readOnlyMachine]
  have hblank := linkable_noLarge
  split_ifs
  · exact hblank.linked _ _
  · exact hblank.linked _ _
  · intro _
    decide
  · exact hblank.blank _

private def readOnlyEnv : Env := ⟨threeFrames, fun _ => false, 0xffff800000000000, 0x1000⟩

private def readOnlyHeap (a : VAddrAllocator 2048) : HeapState :=
  { allocator := a, machine := readOnlyMachine }

private def readOnlyRun : Option (HeapState × Provision) := do
  let a ← VAddrAllocator.init (fun _ => false) 0xffff800040000000 0x4000000
  let h ← (readOnlyHeap a).initHeap readOnlyEnv
  let s ← Lib.run (Provision.step readOnlyEnv) ⟨h, [], []⟩ [.sbrk 0x1000]
  some (h, s)

private theorem readOnlyRun_result : readOnlyRun.map (fun r =>
    (r.2.heap.heapBase, r.2.heap.top,
      (walk r.2.heap.machine.mem 0xffff800000000000 (frameOf 0x1000) 0xffff800040000000).map
        fun mp => mp.access.writable)) =
      some (0xffff800040000000, 0xffff800040001000, some false) := by
  decide +kernel

private theorem readOnlyRun_cases :
    ∃ (a : VAddrAllocator 2048) (h : HeapState) (s : Provision) (cells : List Cell),
      VAddrAllocator.init (fun _ => false) 0xffff800040000000 0x4000000 = some a ∧
      Inv a cells ∧ WindowFits (readOnlyHeap a) ∧
      (readOnlyHeap a).initHeap readOnlyEnv = some h ∧
      Lib.run (Provision.step readOnlyEnv) ⟨h, [], []⟩ [.sbrk 0x1000] = some s ∧
      s.heap.heapBase = 0xffff800040000000 ∧ s.heap.top = 0xffff800040001000 ∧
      (walk s.heap.machine.mem 0xffff800000000000 (frameOf 0x1000) 0xffff800040000000).map
        (fun mp => mp.access.writable) = some false := by
  obtain ⟨⟨h, s⟩, hrun, hresult⟩ := Option.map_eq_some_iff.1 readOnlyRun_result
  unfold readOnlyRun at hrun
  obtain ⟨a, hinit, hrun⟩ := Option.bind_eq_some_iff.1 hrun
  obtain ⟨h', hheap, hrun⟩ := Option.bind_eq_some_iff.1 hrun
  obtain ⟨s', hsteps, hrun⟩ := Option.bind_eq_some_iff.1 hrun
  obtain ⟨rfl, rfl⟩ := Prod.mk.inj (Option.some.inj hrun)
  simp only [Prod.mk.injEq] at hresult
  obtain ⟨hbase, htop, hwalk⟩ := hresult
  obtain ⟨p, hinv, hwindow, htotal⟩ := VAddrAllocator.init_spec hinit
  have hpages : (0x4000000 : Word).toNat / 4096 = 16384 := by decide
  have hstart : (0xffff800040000000 : Word).toNat = 0xffff800040000000 := by decide
  rw [hpages] at htotal
  refine ⟨a, h', s', _, hinit, hinv, ⟨?_, ?_⟩, hheap, hsteps, hbase, htop, hwalk⟩
  · show a.base.toNat + a.totalPages.toNat * 4096 ≤ 2 ^ 64
    rw [hwindow, htotal, hstart]
    norm_num
  · show a.totalPages.toNat ≤ 2 ^ 36
    rw [htotal]
    norm_num

/-- Below an entry of the root that is present but not writable, the first page of the heap is not
writable. -/
theorem heap_page_not_writable :
    ∃ (a : VAddrAllocator 2048) (h : HeapState) (s : Provision) (cells : List Cell),
      VAddrAllocator.init (fun _ => false) 0xffff800040000000 0x4000000 = some a ∧
      Inv a cells ∧ WindowFits (readOnlyHeap a) ∧ FreshFrames readOnlyEnv.frames ∧
      Tree readOnlyEnv.frames readOnlyEnv.slide (frameOf 0x1000) (readOnlyHeap a).machine ∧
      UpperAll tableOf (entry (readOnlyHeap a).machine.mem readOnlyEnv.slide) (frameOf 0x1000) 3
        (ClearFor (readOnlyHeap a).window) ∧
      (readOnlyHeap a).initHeap readOnlyEnv = some h ∧
      Lib.run (Provision.step readOnlyEnv) ⟨h, [], []⟩ [.sbrk 0x1000] = some s ∧
      0xffff800040000000 ∈ s.owned ∧
      ¬ Writable readOnlyEnv (frameOf 0x1000) s.heap.machine 0xffff800040000000 := by
  obtain ⟨a, h, s, cells, hinit, hinv, hw, hheap, hrun, hbase, htop, hwalk⟩ := readOnlyRun_cases
  refine ⟨a, h, s, cells, hinit, hinv, hw, freshFrames_threeFrames, tree_readOnlyMachine,
    fun q j t hlen hp _ _ _ => noLarge_readOnlyMachine q j t hlen hp, hheap, hrun, ?_, ?_⟩
  · refine ⟨_, List.mem_cons_self .., ?_⟩
    rw [hbase, htop]
    show (0xffff800040000000 : Word) ∈ pagesFrom _ _ _
    decide
  · rintro ⟨mp, hmp, hwritable⟩
    have hwalk' : some mp.access.writable = some false := by
      rw [← hwalk]
      exact (congrArg (Option.map fun mp => mp.access.writable) hmp).symm
    rw [hwritable] at hwalk'
    simp at hwalk'

end UnnamedKernel.Mm.Heap
