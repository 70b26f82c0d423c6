import UnnamedKernel.Mm.Vma.Exact

/-!
# Frees are confluent and undo allocations

As long as no node allocation fails, the list of nodes is the one tiling in which
the allocated ranges are cut out of a free window. So a `free` that undoes an
`alloc_pages` restores the list, and the order of two frees leaves no trace.
-/

namespace UnnamedKernel.Mm.Vma

open UnnamedKernel.Lib UnnamedKernel.Kernel VAddrAllocator

variable {maxNodes : Nat}

/-- The allocator with the page ranges that were returned and not released since. -/
structure Leases (maxNodes : Nat) where
  allocator : VAddrAllocator maxNodes
  live : List PageSeg

/-- One call, booked by its result; a partial release leaves the rest of a range live. -/
def Leases.step (heap : HeapAnswers) (s : Leases maxNodes) : Call → Option (Leases maxNodes)
  | .allocPages npages alignPages => do
      let (r, a) ← s.allocator.allocPages heap npages alignPages
      match r with
      | some vaddr => some ⟨a, ⟨(a.pageFromVaddr vaddr).toNat, npages.toNat, false⟩ :: s.live⟩
      | none => some ⟨a, s.live⟩
  | .free vaddr npages => do
      let (released, a) ← s.allocator.free heap vaddr npages
      if released ∧ npages ≠ 0 then
        some ⟨a, s.live.flatMap (Seg.without (a.pageFromVaddr vaddr).toNat npages.toNat)⟩
      else some ⟨a, s.live⟩

/-- Release a whole range, which must succeed. -/
def VAddrAllocator.release (heap : HeapAnswers) (a : VAddrAllocator maxNodes) (r : PageSeg) :
    Option (VAddrAllocator maxNodes) := do
  let (released, a) ← a.free heap (a.vaddrFromPage (BitVec.ofNat 64 r.start))
    (BitVec.ofNat 64 r.len)
  if released then some a else none

/-- The invariant of a list whose free ranges are as large as they can be. -/
structure Settled (a : VAddrAllocator maxNodes) (cells : List Cell) : Prop where
  inv : Inv a cells
  noFreePair : NoFreePair (segs cells)
  degenerate : a.totalPages.toNat = 0 → segs cells = [⟨0, 0, true⟩]

theorem Inv.used_pos {a : VAddrAllocator maxNodes} {cells : List Cell} (h : Inv a cells)
    {r : PageSeg} (hr : r ∈ used (segs cells)) : 0 < r.len := by
  obtain ⟨hmem, htag⟩ := mem_used.1 hr
  rcases h.noEmpty with hne | hone
  · exact hne _ hmem
  · rw [hone, List.mem_singleton] at hmem
    simp [hmem] at htag

theorem Inv.release_spec {a : VAddrAllocator maxNodes} {cells : List Cell} (h : Inv a cells)
    (heap : HeapAnswers) {r : PageSeg} (hr : r ∈ used (segs cells)) :
    ∃ a' cells' ok, a.release heap r = some a' ∧ Inv a' cells' ∧
      FreeWalk r.start r.len ok (segs cells) true (segs cells') ∧ SameWindow a a' := by
  have hpos := h.used_pos hr
  obtain ⟨hmem, htag⟩ := mem_used.1 hr
  obtain ⟨page, n, t⟩ := r
  obtain rfl : t = false := htag
  have hstop := (h.tiles.mem_bounds hmem).2
  have hbound := h.bound
  simp only [Seg.stop] at hstop hpos
  have hpage := a.pageFromVaddr_vaddrFromPage (show page < 2 ^ 52 by omega)
  have hlen : (BitVec.ofNat 64 n).toNat = n := by
    rw [BitVec.toNat_ofNat, Nat.mod_eq_of_lt (by omega)]
  have hn : BitVec.ofNat 64 n ≠ 0 := by
    intro hzero
    rw [hzero] at hlen
    exact hpos.ne hlen
  obtain ⟨b, a', cells', ok, hres, hinv', hwalk, hwin, -⟩ :=
    free_spec h heap (a.vaddrFromPage (BitVec.ofNat 64 page)) hn
  rw [hpage, hlen] at hwalk
  obtain rfl := hwalk.whole h.tiles hpos (by omega) hmem
  exact ⟨a', cells', ok, by simp [VAddrAllocator.release, hres], hinv', hwalk, hwin⟩

namespace Settled

variable {heap : HeapAnswers} {a a' : VAddrAllocator maxNodes} {cells cells' : List Cell}

theorem ranges_eq_of_used_eq (h : Settled a cells) (h' : Settled a' cells')
    (hwin : a'.totalPages = a.totalPages) (hused : used (segs cells) = used (segs cells')) :
    a.ranges = a'.ranges := by
  rw [h.inv.ranges_eq, h'.inv.ranges_eq]
  rcases Nat.eq_zero_or_pos a.totalPages.toNat with hz | hpos
  · rw [h.degenerate hz, h'.degenerate (hwin ▸ hz)]
  · have ht' := h'.inv.tiles
    rw [hwin] at ht'
    exact eq_of_used_eq h.inv.tiles ht' (h.inv.noEmpty_of_pos hpos)
      (h'.inv.noEmpty_of_pos (hwin ▸ hpos)) h.noFreePair h'.noFreePair hused

theorem ranges_of_used_nil (h : Settled a cells) (hused : used (segs cells) = []) :
    a.ranges = [⟨0, a.totalPages.toNat, true⟩] := by
  rw [h.inv.ranges_eq]
  rcases Nat.eq_zero_or_pos a.totalPages.toNat with hz | hpos
  · rw [h.degenerate hz, hz]
  · exact eq_of_used_eq h.inv.tiles (by simp [Seg.stop]) (h.inv.noEmpty_of_pos hpos)
      (by simpa using hpos) h.noFreePair (by simp [NoFreePair]) (by simpa using hused)

theorem ofAlloc (h : Settled a cells) (hinv' : Inv a' cells') (hwin : SameWindow a a') {n al : Nat}
    {r : Option Nat} (hn : 0 < n) (hwalk : AllocWalk n al true (segs cells) r (segs cells')) :
    Settled a' cells' := by
  refine ⟨hinv', hwalk.noFreePair rfl h.noFreePair, fun hz => ?_⟩
  rw [hwin.totalPages] at hz
  rw [h.degenerate hz] at hwalk
  exact hwalk.empty hn

theorem ofFree (h : Settled a cells) (hinv' : Inv a' cells') (hwin : SameWindow a a')
    {page n : Nat} {ok b : Bool} (hwalk : FreeWalk page n ok (segs cells) b (segs cells')) :
    Settled a' cells' := by
  refine ⟨hinv', hwalk.noFreePair h.noFreePair, fun hz => ?_⟩
  rw [hwin.totalPages] at hz
  rw [hwalk.of_used_nil (by simp [h.degenerate hz]), h.degenerate hz]

theorem free (h : Settled a cells) (heap : HeapAnswers) (vaddr : Word) {npages : Word}
    (hn : npages ≠ 0) :
    ∃ b a' cells' ok, a.free heap vaddr npages = some (b, a') ∧ Settled a' cells' ∧
      FreeWalk (a.pageFromVaddr vaddr).toNat npages.toNat ok (segs cells) b (segs cells') ∧
      SameWindow a a' ∧ (NoNull heap a a' → ok = true) := by
  obtain ⟨b, a', cells', ok, hres, hinv', hwalk, hwin, hok⟩ := free_spec h.inv heap vaddr hn
  exact ⟨b, a', cells', ok, hres, h.ofFree hinv' hwin hwalk, hwalk, hwin, hok⟩

theorem pages_pos (h : Settled a cells) {page n : Nat} (hn : 0 < n)
    (hheld : HeldTogether (segs cells) page n) : 0 < a.totalPages.toNat := by
  obtain ⟨s, hs, -, hlo, hhi⟩ := hheld
  have := (h.inv.tiles.mem_bounds hs).2
  omega

theorem free_two (h : Settled a cells) (heap : HeapAnswers) {v₁ n₁ v₂ n₂ : Word} (hn₁ : n₁ ≠ 0)
    (hn₂ : n₂ ≠ 0)
    (hheld₁ : HeldTogether (segs cells) (a.pageFromVaddr v₁).toNat n₁.toNat)
    (hheld₂ : HeldTogether (segs cells) (a.pageFromVaddr v₂).toNat n₂.toNat)
    (hapart : (a.pageFromVaddr v₁).toNat + n₁.toNat ≤ (a.pageFromVaddr v₂).toNat ∨
      (a.pageFromVaddr v₂).toNat + n₂.toNat ≤ (a.pageFromVaddr v₁).toNat) :
    ∃ b₁ a₁ b₂ a₂, a.free heap v₁ n₁ = some (b₁, a₁) ∧ a₁.free heap v₂ n₂ = some (b₂, a₂) ∧
      (NoNull heap a a₂ → b₁ = true ∧ b₂ = true ∧ ∃ cells₂, Settled a₂ cells₂ ∧
        a₂.totalPages = a.totalPages ∧ used (segs cells₂) = (used (segs cells)).flatMap fun s =>
          (Seg.without (a.pageFromVaddr v₁).toNat n₁.toNat s).flatMap
            (Seg.without (a.pageFromVaddr v₂).toNat n₂.toNat)) := by
  have hpos₁ : 0 < n₁.toNat := by bv_omega
  have hpos₂ : 0 < n₂.toNat := by bv_omega
  have htotal := h.pages_pos hpos₁ hheld₁
  have hbound := h.inv.bound
  obtain ⟨b₁, a₁, cells₁, ok₁, hres₁, hset₁, hwalk₁, hwin₁, hok₁⟩ := h.free heap v₁ hn₁
  obtain ⟨b₂, a₂, cells₂, ok₂, hres₂, hset₂, hwalk₂, hwin₂, hok₂⟩ := hset₁.free heap v₂ hn₂
  refine ⟨b₁, a₁, b₂, a₂, hres₁, hres₂, fun hno => ?_⟩
  have htrue₁ := hwalk₁.released (hok₁ (hno.left hwin₂)) h.inv.tiles (by omega) hpos₁ hheld₁
  have hpage : (a₁.pageFromVaddr v₂) = a.pageFromVaddr v₂ := by
    unfold pageFromVaddr
    rw [hwin₁.base]
  have htotal₁ : a₁.totalPages = a.totalPages := hwin₁.totalPages
  rw [hpage] at hwalk₂
  have hne := h.inv.noEmpty_of_pos htotal
  have hheld := hheld₂.after hwalk₁ htrue₁ h.inv.tiles hne hpos₂ hapart.symm
  have htrue₂ := hwalk₂.released (hok₂ (hno.right hwin₁)) hset₁.inv.tiles
    (by rw [htotal₁]; omega) hpos₂ hheld
  refine ⟨htrue₁, htrue₂, cells₂, hset₂, hwin₂.totalPages.trans htotal₁, ?_⟩
  rw [hwalk₂.used_true htrue₂ hset₁.inv.tiles (hset₁.inv.noEmpty_of_pos (by rw [htotal₁]; omega)),
    hwalk₁.used_true htrue₁ h.inv.tiles hne, List.flatMap_assoc]

theorem release (h : Settled a cells) (heap : HeapAnswers) {r : PageSeg} {order : List PageSeg}
    (hperm : (r :: order).Perm (used (segs cells))) :
    ∃ a' cells', a.release heap r = some a' ∧ Settled a' cells' ∧
      a'.totalPages = a.totalPages ∧ order.Perm (used (segs cells')) := by
  have hr := hperm.mem_iff.1 (List.mem_cons_self ..)
  obtain ⟨a', cells', ok, hres, hinv', hwalk, hwin⟩ := h.inv.release_spec heap hr
  refine ⟨a', cells', hres, h.ofFree hinv' hwin hwalk, hwin.totalPages, ?_⟩
  have hpos := h.inv.used_pos hr
  have hbounds := h.inv.tiles.mem_bounds (mem_used.1 hr).1
  unfold Seg.stop at hbounds
  obtain ⟨pre, post, hused⟩ := List.append_of_mem hr
  have hsame : (⟨r.start, r.len, false⟩ : PageSeg) = r := by rw [← (mem_used.1 hr).2]
  rw [hwalk.used_whole rfl h.inv.tiles (h.inv.noEmpty_of_pos (by omega)) (hsame ▸ hused)]
  rw [hused] at hperm
  exact (hperm.trans List.perm_middle).cons_inv

/-- Releasing all allocated ranges, in whatever order, leaves one free range. -/
theorem drain {order : List PageSeg} (h : Settled a cells)
    (hperm : order.Perm (used (segs cells))) :
    ∃ a', Lib.run (VAddrAllocator.release heap) a order = some a' ∧
      a'.ranges = [⟨0, a.totalPages.toNat, true⟩] := by
  induction order generalizing a cells with
  | nil => exact ⟨a, rfl, h.ranges_of_used_nil (List.nil_perm.1 hperm)⟩
  | cons r order ih =>
      obtain ⟨a₁, cells₁, hres, hset, htotal, hperm₁⟩ := h.release heap hperm
      obtain ⟨a', hrun, hranges⟩ := ih hset hperm₁
      exact ⟨a', by simp [hres, hrun], by rw [hranges, htotal]⟩

/-- A `free` that undoes an `alloc_pages` restores the list. -/
theorem undo (h : Settled a cells) {npages alignPages vaddr : Word} (hal : IsPow2 alignPages)
    (hcall : a.allocPages heap npages alignPages = some (some vaddr, a')) (hno : NoNull heap a a') :
    ∃ a'', a'.free heap vaddr npages = some (true, a'') ∧ a''.ranges = a.ranges := by
  have hn := ne_zero_of_allocPages hcall
  have hpos : 0 < npages.toNat := by bv_omega
  have hbound := h.inv.bound
  obtain ⟨r, a₁, cells', ok, hres, hinv', htake, hwin, hok⟩ := allocPages_spec h.inv heap hn hal
  rw [hcall] at hres
  cases r with
  | none => simp at hres
  | some page =>
      simp only [Option.map_some, Option.some.injEq, Prod.mk.injEq] at hres
      obtain ⟨rfl, rfl⟩ := hres
      obtain rfl := hok hno
      have hset := h.ofAlloc hinv' hwin hpos htake
      obtain ⟨pre, post, hused, hused'⟩ := htake.used_some rfl
      have hfit := (htake.some_aligned hal.pos h.inv.tiles rfl).2.2
      obtain ⟨b, a₂, cells₂, ok, hfree, hset₂, hwalk, hwin₂, -⟩ :=
        hset.free heap (a.vaddrFromPage (BitVec.ofNat 64 page)) hn
      rw [← vaddrFromPage_congr hwin.base, pageFromVaddr_vaddrFromPage (by omega)] at hwalk
      have htotal : 0 < a'.totalPages.toNat := by
        rw [hwin.totalPages]
        omega
      have hmem : (⟨page, npages.toNat, false⟩ : PageSeg) ∈ segs cells' :=
        (mem_used.1 (by simp [hused'])).1
      have hb := hwalk.whole hset.inv.tiles hpos npages.isLt hmem
      refine ⟨a₂, by rw [hfree, hb], ?_⟩
      refine (h.ranges_eq_of_used_eq hset₂ (hwin₂.totalPages.trans hwin.totalPages) ?_).symm
      rw [hwalk.used_whole hb hset.inv.tiles (hset.inv.noEmpty_of_pos htotal) hused', hused]

end Settled

/-- `free` is not called with a page count that wraps to a page inside the node it stops at. -/
def Call.Clean (s : Leases maxNodes) : Call → Prop
  | .allocPages _ _ => True
  | .free vaddr npages =>
      NoWrapInside s.allocator.ranges (s.allocator.pageFromVaddr vaddr).toNat npages.toNat

/-- The allocator, reached from `a₀`. -/
structure Leased (heap : HeapAnswers) (a₀ : VAddrAllocator maxNodes) (s : Leases maxNodes)
    (cells : List Cell) : Prop where
  inv : Inv s.allocator cells
  window : SameWindow a₀ s.allocator
  settled : NoNull heap a₀ s.allocator → Settled s.allocator cells

/-- The live ranges are the allocated ones. -/
def Tracked (heap : HeapAnswers) (a₀ : VAddrAllocator maxNodes) (s : Leases maxNodes)
    (cells : List Cell) : Prop :=
  NoNull heap a₀ s.allocator → s.live.Perm (used (segs cells))

namespace Leased

variable {heap : HeapAnswers} {a₀ : VAddrAllocator maxNodes} {s : Leases maxNodes}
  {cells : List Cell}

theorem ofInit {base size : Word} (hinit : init heap base size = some a₀) :
    ∃ cells, Leased heap a₀ ⟨a₀, []⟩ cells ∧ Tracked heap a₀ ⟨a₀, []⟩ cells := by
  obtain ⟨p, hinv, -, htotal⟩ := init_spec hinit
  refine ⟨_, ⟨hinv, .refl a₀, fun _ => ⟨hinv, by simp [NoFreePair], fun hz => ?_⟩⟩,
    fun _ => by simp⟩
  have hzero : size.toNat / 4096 = 0 := htotal ▸ hz
  simp [hzero]

theorem alloc (h : Leased heap a₀ s cells) {npages alignPages : Word} (hn : npages ≠ 0)
    (hal : IsPow2 alignPages) :
    ∃ s' cells', s.step heap (.allocPages npages alignPages) = some s' ∧
      Leased heap a₀ s' cells' ∧ (Tracked heap a₀ s cells → Tracked heap a₀ s' cells') := by
  have hpos : 0 < npages.toNat := by bv_omega
  have hbound := h.inv.bound
  obtain ⟨r, a', cells', ok, hres, hinv', hwalk, hwin, hok⟩ := allocPages_spec h.inv heap hn hal
  have hset : NoNull heap a₀ a' → Settled a' cells' := by
    intro hno
    obtain rfl := hok (hno.right h.window)
    exact (h.settled (hno.left hwin)).ofAlloc hinv' hwin hpos hwalk
  cases r with
  | none =>
      refine ⟨⟨a', s.live⟩, cells', by simp only [Leases.step, hres]; rfl,
        ⟨hinv', h.window.trans hwin, hset⟩, fun htracked hno => ?_⟩
      rw [hwalk.used_none rfl]
      exact htracked (hno.left hwin)
  | some page =>
      have hin := (hwalk.some_aligned hal.pos h.inv.tiles rfl).2.2
      have hpage : (a'.pageFromVaddr (s.allocator.vaddrFromPage (BitVec.ofNat 64 page))).toNat =
          page := by
        rw [← vaddrFromPage_congr hwin.base, pageFromVaddr_vaddrFromPage (by omega)]
      refine ⟨⟨a', ⟨page, npages.toNat, false⟩ :: s.live⟩, cells',
        by simp [Leases.step, hres, hpage],
        ⟨hinv', h.window.trans hwin, hset⟩, fun htracked hno => ?_⟩
      obtain ⟨pre, post, hused, hused'⟩ := hwalk.used_some rfl
      have hperm := htracked (hno.left hwin)
      rw [hused] at hperm
      rw [hused']
      exact (hperm.cons _).trans List.perm_middle.symm

theorem free (h : Leased heap a₀ s cells) (vaddr npages : Word) :
    ∃ s' cells', s.step heap (.free vaddr npages) = some s' ∧ Leased heap a₀ s' cells' ∧
      (Call.Clean s (.free vaddr npages) → Tracked heap a₀ s cells →
        Tracked heap a₀ s' cells') := by
  by_cases hn : npages = 0
  · subst hn
    refine ⟨s, cells, ?_, h, fun _ => id⟩
    simp only [Leases.step, free_zero]
    rfl
  have hpos : 0 < npages.toNat := by bv_omega
  obtain ⟨b, a', cells', ok, hres, hinv', hwalk, hwin, hok⟩ := free_spec h.inv heap vaddr hn
  have hpage : a'.pageFromVaddr vaddr = s.allocator.pageFromVaddr vaddr := by
    unfold pageFromVaddr
    rw [hwin.base]
  have hset : NoNull heap a₀ a' → Settled a' cells' := fun hno =>
    (h.settled (hno.left hwin)).ofFree hinv' hwin hwalk
  cases b with
  | false =>
      refine ⟨⟨a', s.live⟩, cells', by simp only [Leases.step, hres]; rfl,
        ⟨hinv', h.window.trans hwin, hset⟩, fun hclean htracked hno => ?_⟩
      have hclean' : NoWrapInside (segs cells) (s.allocator.pageFromVaddr vaddr).toNat
          npages.toNat := h.inv.ranges_eq ▸ hclean
      rw [hwalk.eq_of_false (hok (hno.right h.window)) rfl hclean']
      exact htracked (hno.left hwin)
  | true =>
      refine ⟨⟨a', s.live.flatMap (Seg.without (a'.pageFromVaddr vaddr).toNat npages.toNat)⟩,
        cells',
        ?_, ⟨hinv', h.window.trans hwin, hset⟩, fun _ htracked hno => ?_⟩
      · simp only [Leases.step, hres]
        exact if_pos ⟨rfl, hn⟩
      have hno' := hno.left hwin
      have htotal := (h.settled hno').pages_pos hpos (hwalk.heldTogether rfl)
      rw [hwalk.used_true rfl h.inv.tiles (h.inv.noEmpty_of_pos htotal)]
      simp only [hpage]
      exact (htracked hno').flatMap_right _

theorem step (h : Leased heap a₀ s cells) {c : Call} (hc : c.Legal) :
    ∃ s' cells', s.step heap c = some s' ∧ Leased heap a₀ s' cells' ∧
      (c.Clean s → Tracked heap a₀ s cells → Tracked heap a₀ s' cells') := by
  cases c with
  | allocPages npages alignPages =>
      by_cases hn : npages = 0
      · subst hn
        exact ⟨s, cells, by simp only [Leases.step, allocPages_zero]; rfl, h, fun _ => id⟩
      · obtain ⟨s', cells', hstep, h', htracked⟩ := h.alloc hn hc
        exact ⟨s', cells', hstep, h', fun _ => htracked⟩
  | free vaddr npages => exact h.free vaddr npages

theorem run (h : ∃ cells, Leased heap a₀ s cells) (calls : List Call)
    (hlegal : ∀ c ∈ calls, c.Legal) :
    ∃ s', Lib.run (Leases.step heap) s calls = some s' ∧ ∃ cells, Leased heap a₀ s' cells := by
  have hstep : ∀ (s : Leases maxNodes) (c : Call), (∃ cells, Leased heap a₀ s cells) → c.Legal →
      ∃ s', s.step heap c = some s' ∧ ∃ cells, Leased heap a₀ s' cells := by
    rintro s c ⟨cells, hs⟩ hc
    obtain ⟨s', cells', hres, h', -⟩ := hs.step hc
    exact ⟨s', hres, cells', h'⟩
  exact run_invariant hstep h calls hlegal

theorem cleanRun (h : ∃ cells, Leased heap a₀ s cells ∧ Tracked heap a₀ s cells)
    (calls : List Call)
    (hlegal : LegalRun (Leases.step heap) (fun s c => c.Legal ∧ c.Clean s) s calls) :
    ∃ s', Lib.run (Leases.step heap) s calls = some s' ∧
      ∃ cells, Leased heap a₀ s' cells ∧ Tracked heap a₀ s' cells := by
  have hstep : ∀ (s : Leases maxNodes) (c : Call),
      (∃ cells, Leased heap a₀ s cells ∧ Tracked heap a₀ s cells) → c.Legal ∧ c.Clean s →
      ∃ s', s.step heap c = some s' ∧ ∃ cells, Leased heap a₀ s' cells ∧
          Tracked heap a₀ s' cells := by
    rintro s c ⟨cells, hs, htracked⟩ hc
    obtain ⟨s', cells', hres, h', hnext⟩ := hs.step hc.1
    exact ⟨s', hres, cells', h', hnext hc.2 htracked⟩
  exact legalRun_invariant hstep h calls hlegal

end Leased

/-- What the order and the undoing of calls leave behind in a state. -/
structure Confluent (heap : HeapAnswers) (s : Leases maxNodes) : Prop where
  /-- Freeing what `alloc_pages` returned restores the list. -/
  undo : ∀ npages alignPages vaddr a', IsPow2 alignPages →
    s.allocator.allocPages heap npages alignPages = some (some vaddr, a') →
    NoNull heap s.allocator a' →
      ∃ a'', a'.free heap vaddr npages = some (true, a'') ∧ a''.ranges = s.allocator.ranges
  /-- Two frees of pages apart, each held by one node, succeed in either order alike. -/
  swap : ∀ v₁ n₁ v₂ n₂ : Word, n₁ ≠ 0 → n₂ ≠ 0 →
    HeldTogether s.allocator.ranges (s.allocator.pageFromVaddr v₁).toNat n₁.toNat →
    HeldTogether s.allocator.ranges (s.allocator.pageFromVaddr v₂).toNat n₂.toNat →
    Disjoint (s.allocator.pageRun v₁ n₁) (s.allocator.pageRun v₂ n₂) →
      ∃ b₁ a₁ b₂ a₁₂ c₂ a₂ c₁ a₂₁, s.allocator.free heap v₁ n₁ = some (b₁, a₁) ∧
        a₁.free heap v₂ n₂ = some (b₂, a₁₂) ∧ s.allocator.free heap v₂ n₂ = some (c₂, a₂) ∧
        a₂.free heap v₁ n₁ = some (c₁, a₂₁) ∧
        (NoNull heap s.allocator a₁₂ → NoNull heap s.allocator a₂₁ →
          b₁ = true ∧ b₂ = true ∧ c₂ = true ∧ c₁ = true ∧ a₁₂.ranges = a₂₁.ranges)

/-- Freeing all live ranges, in whatever order, leaves one free node. -/
def Drains (heap : HeapAnswers) (s : Leases maxNodes) : Prop :=
  ∀ order : List PageSeg, order.Perm s.live →
    ∃ a', Lib.run (VAddrAllocator.release heap) s.allocator order = some a' ∧
      a'.ranges = [⟨0, s.allocator.totalPages.toNat, true⟩]

theorem Settled.swap {heap : HeapAnswers} {a : VAddrAllocator maxNodes} {cells : List Cell}
    (h : Settled a cells) {v₁ n₁ v₂ n₂ : Word} (hn₁ : n₁ ≠ 0) (hn₂ : n₂ ≠ 0)
    (hheld₁ : HeldTogether (segs cells) (a.pageFromVaddr v₁).toNat n₁.toNat)
    (hheld₂ : HeldTogether (segs cells) (a.pageFromVaddr v₂).toNat n₂.toNat)
    (hapart : (a.pageFromVaddr v₁).toNat + n₁.toNat ≤ (a.pageFromVaddr v₂).toNat ∨
      (a.pageFromVaddr v₂).toNat + n₂.toNat ≤ (a.pageFromVaddr v₁).toNat) :
    ∃ b₁ a₁ b₂ a₁₂ c₂ a₂ c₁ a₂₁, a.free heap v₁ n₁ = some (b₁, a₁) ∧
      a₁.free heap v₂ n₂ = some (b₂, a₁₂) ∧ a.free heap v₂ n₂ = some (c₂, a₂) ∧
      a₂.free heap v₁ n₁ = some (c₁, a₂₁) ∧ (NoNull heap a a₁₂ → NoNull heap a a₂₁ →
        b₁ = true ∧ b₂ = true ∧ c₂ = true ∧ c₁ = true ∧ a₁₂.ranges = a₂₁.ranges) := by
  obtain ⟨b₁, a₁, b₂, a₁₂, hres₁, hres₁₂, hall₁⟩ :=
    h.free_two heap hn₁ hn₂ hheld₁ hheld₂ hapart
  obtain ⟨c₂, a₂, c₁, a₂₁, hres₂, hres₂₁, hall₂⟩ :=
    h.free_two heap hn₂ hn₁ hheld₂ hheld₁ hapart.symm
  refine ⟨b₁, a₁, b₂, a₁₂, c₂, a₂, c₁, a₂₁, hres₁, hres₁₂, hres₂, hres₂₁, fun hno₁ hno₂ => ?_⟩
  obtain ⟨hb₁, hb₂, cells₁, hset₁, htotal₁, hused₁⟩ := hall₁ hno₁
  obtain ⟨hc₂, hc₁, cells₂, hset₂, htotal₂, hused₂⟩ := hall₂ hno₂
  refine ⟨hb₁, hb₂, hc₂, hc₁, hset₁.ranges_eq_of_used_eq hset₂ (htotal₂.trans htotal₁.symm) ?_⟩
  rw [hused₁, hused₂]
  refine List.flatMap_congr fun s _ => ?_
  rcases hapart with hbefore | hbehind
  · exact Seg.without_comm hbefore s
  · exact (Seg.without_comm hbehind s).symm

theorem VAddrAllocator.apart_of_disjoint {a : VAddrAllocator maxNodes} {v₁ n₁ v₂ n₂ : Word}
    (hn₁ : n₁ ≠ 0) (hn₂ : n₂ ≠ 0) (h : Disjoint (a.pageRun v₁ n₁) (a.pageRun v₂ n₂)) :
    (a.pageFromVaddr v₁).toNat + n₁.toNat ≤ (a.pageFromVaddr v₂).toNat ∨
      (a.pageFromVaddr v₂).toNat + n₂.toNat ≤ (a.pageFromVaddr v₁).toNat := by
  by_contra hover
  rw [not_or] at hover
  have hpos₁ : 0 < n₁.toNat := by bv_omega
  have hpos₂ : 0 < n₂.toNat := by bv_omega
  have hboth : max (a.pageFromVaddr v₁).toNat (a.pageFromVaddr v₂).toNat ∈ a.pageRun v₁ n₁ ∧
      max (a.pageFromVaddr v₁).toNat (a.pageFromVaddr v₂).toNat ∈ a.pageRun v₂ n₂ := by
    simp only [pageRun, Finset.mem_Ico]
    omega
  exact Finset.disjoint_left.1 h hboth.1 hboth.2

/-- In every state that a run from `init` reaches without `new` ever failing, frees undo
allocations and are confluent; and when no `free` of the run wrapped inside a node, freeing
the live ranges leaves one free node. -/
theorem alloc_free_run_confluent (heap : HeapAnswers) {base size : Word}
    {a₀ : VAddrAllocator maxNodes} (hinit : init heap base size = some a₀) (calls : List Call)
    (hlegal : ∀ c ∈ calls, c.Legal) :
    ∃ s, Lib.run (Leases.step heap) ⟨a₀, []⟩ calls = some s ∧
      (NoNull heap a₀ s.allocator → Confluent heap s ∧
        (LegalRun (Leases.step heap) (fun s c => c.Clean s) ⟨a₀, []⟩ calls → Drains heap s)) := by
  obtain ⟨cells₀, hinit', htracked⟩ := Leased.ofInit hinit
  obtain ⟨s, hrun, cells, h⟩ := Leased.run ⟨cells₀, hinit'⟩ calls hlegal
  refine ⟨s, hrun, fun hno => ⟨⟨fun npages alignPages vaddr a' hal hcall hno' =>
    (h.settled hno).undo hal hcall hno', ?_⟩, fun hclean order hperm => ?_⟩⟩
  · intro v₁ n₁ v₂ n₂ hn₁ hn₂ hheld₁ hheld₂ hdisj
    rw [h.inv.ranges_eq] at hheld₁ hheld₂
    exact (h.settled hno).swap hn₁ hn₂ hheld₁ hheld₂ (apart_of_disjoint hn₁ hn₂ hdisj)
  · obtain ⟨s', hrun', cells', h', htracked'⟩ := Leased.cleanRun ⟨cells₀, hinit', htracked⟩ calls
      (legalRun_and (legalRun_of_forall _ calls hlegal) hclean)
    obtain rfl : s = s' := Option.some.inj (hrun.symm.trans hrun')
    exact (h'.settled hno).drain (hperm.trans (htracked' hno))

theorem alloc_free_run_confluent_four_pages :
    ∃ (a₀ : VAddrAllocator 8) (s : Leases 8),
      init (fun _ => true) 0xffff800000000000 0x4000 = some a₀ ∧
      Lib.run (Leases.step fun _ => true) ⟨a₀, []⟩
        [.allocPages 1 1, .allocPages 2 1] = some s ∧
      Confluent (fun _ => true) s ∧ Drains (fun _ => true) s := by
  obtain ⟨a₀, hinit⟩ : ∃ a₀ : VAddrAllocator 8,
      init (fun _ => true) 0xffff800000000000 0x4000 = some a₀ := ⟨_, rfl⟩
  obtain ⟨s, hrun, h⟩ := alloc_free_run_confluent (fun _ => true) hinit
    [.allocPages 1 1, .allocPages 2 1] (by
      simp only [List.mem_cons, List.not_mem_nil, or_false, forall_eq_or_imp, forall_eq]
      exact ⟨⟨0, rfl⟩, ⟨0, rfl⟩⟩)
  obtain ⟨hconfluent, hdrains⟩ := h fun _ _ _ => rfl
  exact ⟨a₀, s, hinit, hrun, hconfluent,
    hdrains ⟨trivial, fun _ _ => ⟨trivial, fun _ _ => trivial⟩⟩⟩

/-- A `free` that wraps inside a node returns false and leaves a range that cannot be freed. -/
theorem live_range_stuck_after_wrapped_free :
    ∃ (a₀ : VAddrAllocator 8) (s : Leases 8),
      init (fun _ => true) 0xffff800000000000 0x4000 = some a₀ ∧
      Lib.run (Leases.step fun _ => true) ⟨a₀, []⟩
        [.allocPages 4 1, .free 0xffff800000002000 0xffffffffffffffff] = some s ∧
      NoNull (fun _ => true) a₀ s.allocator ∧ s.live = [⟨0, 4, false⟩] ∧
      ¬ Drains (fun _ => true) s := by
  have hstuck : ∀ s : Leases 8, (Lib.run (VAddrAllocator.release fun _ => true) s.allocator
      s.live).isNone = true → ¬ Drains (fun _ => true) s := by
    intro s hnone hdrains
    obtain ⟨a', hrun, -⟩ := hdrains s.live (List.Perm.refl _)
    simp [hrun] at hnone
  exact ⟨_, _, rfl, rfl, fun _ _ _ => rfl, rfl, hstuck _ rfl⟩

end UnnamedKernel.Mm.Vma
