import UnnamedKernel.Mm.Vma.Allocated
import UnnamedKernel.Mm.Vma.Safety

/-!
# The exact effect of `free`

On any arguments `free` returns. When no node allocation fails in the call, it
releases the pages it is given if one allocated node holds them all, however large
`npages` is, and leaves the other pages and their nodes alone.
-/

namespace UnnamedKernel.Mm.Vma

open UnnamedKernel.Lib UnnamedKernel.Kernel

variable {maxNodes : Nat}

namespace VAddrAllocator

/-- The `(start, npages, is_free)` triples of the nodes from `cur` on. -/
def rangesLoop (a : VAddrAllocator maxNodes) : Nat → Option NodePtr → List PageSeg
  | 0, _ => []
  | _ + 1, none => []
  | fuel + 1, some cur => (a.nodes cur).seg :: rangesLoop a fuel (a.nodes cur).next

/-- The triples of the list, in its order. -/
def ranges (a : VAddrAllocator maxNodes) : List PageSeg := a.rangesLoop walkLimit a.head

theorem rangesLoop_spec {a : VAddrAllocator maxNodes} (fuel : Nat) (l rest : List Cell)
    (h : Shape a (l ++ rest)) (hfuel : rest.length < fuel) :
    a.rangesLoop fuel (ptrs rest).head? = segs rest := by
  induction fuel generalizing l rest with
  | zero => omega
  | succ fuel ih =>
      rcases rest with _ | ⟨⟨p, s⟩, rest⟩
      · rfl
      have hseg : (a.nodes p).seg = s := h.seg (p, s) (by simp)
      have hrest := ih (l ++ [(p, s)]) rest (by simpa using h) (by simpa using hfuel)
      simp only [ptrs_cons, List.head?_cons, rangesLoop, segs_cons, hseg, h.at_node.2.1, hrest]

end VAddrAllocator

open VAddrAllocator

theorem Inv.ranges_eq {a : VAddrAllocator maxNodes} {cells : List Cell} (h : Inv a cells) :
    a.ranges = segs cells := by
  rw [ranges, h.shape.head]
  exact rangesLoop_spec walkLimit [] cells h.shape h.length_lt

/-- The pages `[page, page + n)` are released and nothing else happens. -/
structure Releases (page n : Nat) (a a' : VAddrAllocator maxNodes) : Prop where
  free : ∀ i, a'.FreePage i ↔ a.FreePage i ∨ (page ≤ i ∧ i < page + n)
  used : ∀ i, a'.UsedPage i ↔ a.UsedPage i ∧ ¬ (page ≤ i ∧ i < page + n)
  /-- The allocated nodes are the ones before, less these pages. -/
  grouping : Vma.used a'.ranges = (Vma.used a.ranges).flatMap (Seg.without page n)

theorem FreeWalk.releases {a a' : VAddrAllocator maxNodes} {cells cells' : List Cell}
    (hinv : Inv a cells) (hinv' : Inv a' cells') {page n : Nat} {ok b : Bool}
    (h : FreeWalk page n ok (segs cells) b (segs cells')) (hb : b = true) (hn : 0 < n) :
    Releases page n a a' := by
  have hrun := h.releasedRun hb hinv.tiles
  have hmark : ∀ i t, (∃ p, a.OnList p ∧ (a.nodes p).isFree = t ∧ (a.nodes p).seg.Covers i) ↔
      Tagged (segs cells) i t := hinv.shape.marked_iff
  have hmark' : ∀ i t, (∃ p, a'.OnList p ∧ (a'.nodes p).isFree = t ∧ (a'.nodes p).seg.Covers i) ↔
      Tagged (segs cells') i t := hinv'.shape.marked_iff
  have hwindow := (hinv.tiles.tagged_bounds (hrun.1 page (Nat.le_refl _) (by omega))).2
  refine ⟨fun i => ?_, fun i => ?_, ?_⟩
  · rw [FreePage, FreePage, hmark, hmark', hrun.2]
    split_ifs with hin <;> simp [hin]
  · rw [UsedPage, UsedPage, hmark, hmark', hrun.2]
    split_ifs with hin <;> simp [hin]
  · rw [hinv.ranges_eq, hinv'.ranges_eq]
    exact h.used_true hb hinv.tiles (hinv.noEmpty_of_pos (by omega))

theorem VAddrAllocator.toNat_pageFromVaddr (a : VAddrAllocator maxNodes) {vaddr : Word}
    (h : a.base.toNat ≤ vaddr.toNat) :
    (a.pageFromVaddr vaddr).toNat = (vaddr.toNat - a.base.toNat) / 4096 := by
  rw [pageFromVaddr, BitVec.toNat_udiv, BitVec.toNat_sub_of_le h]
  rfl

/-- An address below a window that does not wrap counts as one behind the window. -/
theorem VAddrAllocator.totalPages_le_of_below (a : VAddrAllocator maxNodes) {vaddr : Word}
    (hfit : a.base.toNat + a.totalPages.toNat * 4096 ≤ 2 ^ 64)
    (h : vaddr.toNat < a.base.toNat) : a.totalPages.toNat ≤ (a.pageFromVaddr vaddr).toNat := by
  have hsub : (vaddr - a.base).toNat = 2 ^ 64 + vaddr.toNat - a.base.toNat := by bv_omega
  rw [pageFromVaddr, BitVec.toNat_udiv, hsub, toNat_pageSize]
  omega

theorem Inv.free_exact {a : VAddrAllocator maxNodes} {cells : List Cell} (h : Inv a cells)
    (hfit : a.base.toNat + a.totalPages.toNat * 4096 ≤ 2 ^ 64) (heap : HeapAnswers) (vaddr : Word)
    {npages : Word} (hn : npages ≠ 0) :
    ∃ b a', a.free heap vaddr npages = some (b, a') ∧ (NoNull heap a a' →
      (b = true ↔ a.base.toNat ≤ vaddr.toNat ∧
        HeldTogether a.ranges ((vaddr.toNat - a.base.toNat) / 4096) npages.toNat) ∧
      (b = true → Releases ((vaddr.toNat - a.base.toNat) / 4096) npages.toNat a a')) := by
  have hnpos : 0 < npages.toNat := by bv_omega
  obtain ⟨b, a', cells', ok, hres, hinv', hwalk, -, hok⟩ := free_spec h heap vaddr hn
  refine ⟨b, a', hres, fun hno => ?_⟩
  have hbound := h.bound
  rw [h.ranges_eq]
  by_cases hbase : a.base.toNat ≤ vaddr.toNat
  · rw [a.toNat_pageFromVaddr hbase] at hwalk
    refine ⟨⟨fun hb => ⟨hbase, hwalk.heldTogether hb⟩, fun hheld => ?_⟩, fun hb =>
      hwalk.releases h hinv' hb hnpos⟩
    exact hwalk.released (hok hno) h.tiles (by omega) hnpos hheld.2
  · -- the wrapped page index names no page of the window
    have hpage := a.totalPages_le_of_below hfit (Nat.lt_of_not_le hbase)
    have hfalse : b ≠ true := by
      intro hb
      have htagged := (hwalk.releasedRun hb h.tiles).1 _ (Nat.le_refl _) (by omega)
      have := (h.tiles.tagged_bounds htagged).2
      omega
    exact ⟨⟨fun hb => absurd hb hfalse, fun hheld => absurd hheld.1 hbase⟩,
      fun hb => absurd hb hfalse⟩

/-- `free` releases the pages of an allocated node, and needs no node for that. -/
theorem Inv.free_node {a : VAddrAllocator maxNodes} {cells : List Cell} (h : Inv a cells)
    (heap : HeapAnswers) {page : Nat} {npages : Word} (hn : npages ≠ 0)
    (hmem : (⟨page, npages.toNat, false⟩ : PageSeg) ∈ segs cells) :
    ∃ a' cells', a.free heap (a.vaddrFromPage (BitVec.ofNat 64 page)) npages = some (true, a') ∧
      Inv a' cells' ∧ SameWindow a a' ∧
      ReleasedRun npages.toNat page (segs cells) (segs cells') := by
  have hpos : 0 < npages.toNat := by bv_omega
  have hin := h.tiles.mem_bounds hmem
  have hbound := h.bound
  obtain ⟨b, a', cells', ok, hres, hinv', hwalk, hwin, -⟩ :=
    free_spec h heap (a.vaddrFromPage (BitVec.ofNat 64 page)) hn
  have hpage : page < 2 ^ 52 := by
    simp only [Seg.stop] at hin
    omega
  rw [pageFromVaddr_vaddrFromPage hpage] at hwalk
  have hb := hwalk.whole h.tiles hpos npages.isLt hmem
  exact ⟨a', cells', by rw [hres, hb], hinv', hwin, hwalk.releasedRun hb h.tiles⟩

/-- After every run from `init`, `free` returns on any arguments, and when `new` does not
fail in the call it releases its pages, counted without wrapping, just if one allocated
node holds them all. -/
theorem free_run_exact (heap : HeapAnswers) {base size : Word}
    (hfit : base.toNat + size.toNat / 4096 * 4096 ≤ 2 ^ 64) {a₀ : VAddrAllocator maxNodes}
    (hinit : init heap base size = some a₀) (calls : List Call) (hlegal : ∀ c ∈ calls, c.Legal)
    (vaddr : Word) {npages : Word} (hn : npages ≠ 0) :
    ∃ s, Lib.run (Session.step heap) ⟨a₀, ∅⟩ calls = some s ∧
      ∃ b a', s.allocator.free heap vaddr npages = some (b, a') ∧ (NoNull heap s.allocator a' →
        (b = true ↔ base.toNat ≤ vaddr.toNat ∧
          HeldTogether s.allocator.ranges ((vaddr.toNat - base.toNat) / 4096) npages.toNat) ∧
        (b = true →
          Releases ((vaddr.toNat - base.toNat) / 4096) npages.toNat s.allocator a')) := by
  obtain ⟨-, -, hbase, htotal⟩ := init_spec hinit
  obtain ⟨s, hrun, cells, h⟩ := Booked.run (Booked.ofInit hinit) calls hlegal
  have hbase' : s.allocator.base = base := h.window.base.trans hbase
  have hlen : s.allocator.totalPages.toNat = size.toNat / 4096 := h.window.totalPages ▸ htotal
  refine ⟨s, hrun, ?_⟩
  rw [← hbase']
  exact h.inv.free_exact (by rw [hbase', hlen]; exact hfit) heap vaddr hn

theorem free_run_exact_four_pages :
    ∃ (a₀ : VAddrAllocator 8) (s : Session 8) (b : Bool) (a' : VAddrAllocator 8),
      init (fun _ => true) 0xffff800000000000 0x4000 = some a₀ ∧
      Lib.run (Session.step fun _ => true) ⟨a₀, ∅⟩ [.allocPages 4 1] = some s ∧
      s.allocator.free (fun _ => true) 0xffff800000001000 2 = some (b, a') ∧
      (b = true ↔ HeldTogether s.allocator.ranges 1 2) := by
  obtain ⟨a₀, hinit⟩ : ∃ a₀ : VAddrAllocator 8,
      init (fun _ => true) 0xffff800000000000 0x4000 = some a₀ := ⟨_, rfl⟩
  obtain ⟨s, hrun, b, a', hfree, hexact⟩ := free_run_exact (fun _ => true) (by decide) hinit
    [.allocPages 4 1] (by
      simp only [List.mem_singleton, forall_eq]
      exact ⟨0, rfl⟩) 0xffff800000001000 (by decide : (2 : Word) ≠ 0)
  refine ⟨a₀, s, b, a', hinit, hrun, hfree, ?_⟩
  rw [(hexact fun _ _ _ => rfl).1]
  exact and_iff_right (by decide)

end UnnamedKernel.Mm.Vma
