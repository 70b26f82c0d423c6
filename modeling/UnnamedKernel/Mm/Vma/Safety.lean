import UnnamedKernel.Lib.Run
import UnnamedKernel.Mm.Vma.Refine

/-!
# Ranges handed out never overlap

Runs of `alloc_pages` and `free` from a fresh allocator, with a ledger of the
pages that were returned and not yet released. The ledger only looks at
arguments and results; the invariant ties it to the node list.
-/

namespace UnnamedKernel.Mm.Vma

open UnnamedKernel.Lib UnnamedKernel.Kernel

variable {maxNodes : Nat}

/-- A call of the allocator. -/
inductive Call where
  | allocPages (npages alignPages : Word)
  | free (vaddr npages : Word)

/-- `alloc_pages` asserts that the alignment is a power of two. -/
def Call.Legal : Call → Prop
  | .allocPages _ alignPages => IsPow2 alignPages
  | .free _ _ => True

/-- The pages of the window that `npages` pages from `vaddr` on name. -/
def VAddrAllocator.pageRun (a : VAddrAllocator maxNodes) (vaddr npages : Word) : Finset Nat :=
  Finset.Ico (a.pageFromVaddr vaddr).toNat ((a.pageFromVaddr vaddr).toNat + npages.toNat)

structure Session (maxNodes : Nat) where
  allocator : VAddrAllocator maxNodes
  /-- the pages returned by `alloc_pages` and not released since -/
  held : Finset Nat

namespace Session

/-- One call, booked by its result. -/
def step (heap : HeapAnswers) (s : Session maxNodes) : Call → Option (Session maxNodes)
  | .allocPages npages alignPages => do
      let (r, a) ← s.allocator.allocPages heap npages alignPages
      match r with
      | some vaddr => some ⟨a, s.held ∪ a.pageRun vaddr npages⟩
      | none => some ⟨a, s.held⟩
  | .free vaddr npages => do
      let (released, a) ← s.allocator.free heap vaddr npages
      some ⟨a, if released then s.held \ a.pageRun vaddr npages else s.held⟩

end Session

namespace VAddrAllocator

variable {a : VAddrAllocator maxNodes}

theorem pageFromVaddr_vaddrFromPage {page : Nat} (hpage : page < 2 ^ 52) :
    (a.pageFromVaddr (a.vaddrFromPage (BitVec.ofNat 64 page))).toNat = page := by
  have hmul : (BitVec.ofNat 64 page * pageSize).toNat = page * 4096 := by
    rw [BitVec.toNat_mul, BitVec.toNat_ofNat, Nat.mod_eq_of_lt (by omega : page < 2 ^ 64)]
    refine Nat.mod_eq_of_lt (?_ : page * 4096 < 2 ^ 64)
    omega
  have hsub : a.base + BitVec.ofNat 64 page * pageSize - a.base =
      BitVec.ofNat 64 page * pageSize := by bv_omega
  rw [pageFromVaddr, vaddrFromPage, hsub, BitVec.toNat_udiv, hmul]
  exact Nat.mul_div_cancel page (by norm_num)

theorem pageRun_congr {a' : VAddrAllocator maxNodes} (h : a'.base = a.base) (v n : Word) :
    a'.pageRun v n = a.pageRun v n := by
  unfold pageRun pageFromVaddr
  rw [h]

end VAddrAllocator

open VAddrAllocator

/-- The allocator `a`, reached from `a₀`, agrees with the ledger. -/
structure Booked (heap : HeapAnswers) (a₀ : VAddrAllocator maxNodes) (s : Session maxNodes)
    (cells : List Cell) : Prop where
  inv : Inv s.allocator cells
  held : ∀ i, i ∈ s.held ↔ Tagged (segs cells) i false
  window : SameWindow a₀ s.allocator
  noFreePair : NoNull heap a₀ s.allocator → NoFreePair (segs cells)

namespace Booked

variable {heap : HeapAnswers} {a₀ : VAddrAllocator maxNodes} {s : Session maxNodes}
  {cells : List Cell}

theorem ofInit {base size : Word} (hinit : init heap base size = some a₀) :
    ∃ cells, Booked heap a₀ ⟨a₀, ∅⟩ cells := by
  obtain ⟨p, hinv, -, -⟩ := init_spec hinit
  refine ⟨_, hinv, fun i => ?_, .refl a₀, fun _ => ?_⟩
  · simp
  · simp [NoFreePair]

/-- What one `alloc_pages` does, and what it does to the ledger. -/
theorem alloc (h : Booked heap a₀ s cells) {npages alignPages : Word} (hn : npages ≠ 0)
    (hal : IsPow2 alignPages) :
    ∃ r a' cells' ok, s.allocator.allocPages heap npages alignPages =
        some (r.map fun page => s.allocator.vaddrFromPage (BitVec.ofNat 64 page), a') ∧
      AllocWalk npages.toNat alignPages.toNat ok (segs cells) r (segs cells') ∧
      SameWindow s.allocator a' ∧ (NoNull heap s.allocator a' → ok = true) ∧
      (∀ page ∈ r, a'.pageRun (s.allocator.vaddrFromPage (BitVec.ofNat 64 page)) npages =
        Finset.Ico page (page + npages.toNat)) ∧
      ∃ held', (s.step heap (.allocPages npages alignPages)) = some ⟨a', held'⟩ ∧
        Booked heap a₀ ⟨a', held'⟩ cells' := by
  obtain ⟨r, a', cells', ok, hres, hinv, hwalk, hwin, hok⟩ := allocPages_spec h.inv heap hn hal
  have hrun : ∀ page ∈ r, a'.pageRun (s.allocator.vaddrFromPage (BitVec.ofNat 64 page)) npages =
      Finset.Ico page (page + npages.toNat) := by
    intro page hpage
    have hin := (hwalk.some_aligned hal.pos h.inv.tiles hpage).2.2
    have hbound := h.inv.bound
    rw [pageRun_congr hwin.base, pageRun, pageFromVaddr_vaddrFromPage (by omega)]
  have hpair : NoNull heap a₀ a' → NoFreePair (segs cells') := fun hno =>
    hwalk.noFreePair (hok (hno.right h.window)) (h.noFreePair (hno.left hwin))
  refine ⟨r, a', cells', ok, hres, hwalk, hwin, hok, hrun, ?_⟩
  cases r with
  | none =>
      refine ⟨s.held, by simp [Session.step, hres], hinv, fun i => ?_, h.window.trans hwin, hpair⟩
      rw [h.held, hwalk.tagged_none rfl]
  | some page =>
      refine ⟨s.held ∪ Finset.Ico page (page + npages.toNat), ?_, hinv, fun i => ?_,
        h.window.trans hwin, hpair⟩
      · simp [Session.step, hres, hrun page rfl]
      · rw [Finset.mem_union, h.held, Finset.mem_Ico,
          (hwalk.tookRun hal.pos h.inv.tiles rfl).2]
        split_ifs with hin
        · simp [hin]
        · simp [hin]

theorem free (h : Booked heap a₀ s cells) (vaddr npages : Word) :
    ∃ s' cells', s.step heap (.free vaddr npages) = some s' ∧ Booked heap a₀ s' cells' := by
  by_cases hn : npages = 0
  · subst hn
    refine ⟨s, cells, ?_, h⟩
    simp only [Session.step, free_zero]
    simp [pageRun]
  obtain ⟨b, a', cells', ok, hres, hinv, hwalk, hwin, hok⟩ := free_spec h.inv heap vaddr hn
  have hpair : NoNull heap a₀ a' → NoFreePair (segs cells') := fun hno =>
    hwalk.noFreePair (h.noFreePair (hno.left hwin))
  have hpage : (a'.pageFromVaddr vaddr).toNat = (s.allocator.pageFromVaddr vaddr).toNat := by
    unfold pageFromVaddr
    rw [hwin.base]
  refine ⟨_, cells', by simp only [Session.step, hres]; rfl, hinv, fun i => ?_,
    h.window.trans hwin, hpair⟩
  cases b with
  | false => simp [h.held, hwalk.tagged_false rfl]
  | true =>
      have hmem := (hwalk.releasedRun rfl h.inv.tiles).2 i false
      simp only [if_true, Finset.mem_sdiff, h.held, pageRun, Finset.mem_Ico, hpage, hmem]
      split_ifs with hin
      · simp [hin]
      · simp [hin]

theorem step (h : ∃ cells, Booked heap a₀ s cells) {c : Call} (hc : c.Legal) :
    ∃ s', s.step heap c = some s' ∧ ∃ cells, Booked heap a₀ s' cells := by
  obtain ⟨cells, h⟩ := h
  cases c with
  | allocPages npages alignPages =>
      by_cases hn : npages = 0
      · subst hn
        exact ⟨s, by simp only [Session.step, allocPages_zero]; rfl, cells, h⟩
      · obtain ⟨r, a', cells', ok, -, -, -, -, -, held', hstep, h'⟩ := h.alloc hn hc
        exact ⟨_, hstep, cells', h'⟩
  | free vaddr npages =>
      obtain ⟨s', cells', hstep, h'⟩ := h.free vaddr npages
      exact ⟨s', hstep, cells', h'⟩

theorem run (h : ∃ cells, Booked heap a₀ s cells) (calls : List Call)
    (hlegal : ∀ c ∈ calls, c.Legal) :
    ∃ s', Lib.run (Session.step heap) s calls = some s' ∧ ∃ cells, Booked heap a₀ s' cells := by
  have hstep : ∀ (s : Session maxNodes) (c : Call), (∃ cells, Booked heap a₀ s cells) → c.Legal →
      ∃ s', s.step heap c = some s' ∧ ∃ cells, Booked heap a₀ s' cells :=
    fun _ _ hs hc => step hs hc
  exact run_invariant hstep h calls hlegal

end Booked

/-- What the callers of the allocator may rely on. -/
structure Safe (heap : HeapAnswers) (base size : Word) (s : Session maxNodes) : Prop where
  /-- The list from `head_` is linked in both directions and tiles the window. -/
  list : ∃ ps : List NodePtr, s.allocator.head = ps.head? ∧ ps.Nodup ∧
    Linked (fun p => (s.allocator.nodes p).next) (fun p => (s.allocator.nodes p).prev)
      none ps none ∧
    Tiles 0 (size.toNat / 4096) (ps.map fun p => (s.allocator.nodes p).seg)
  /-- The non-free nodes cover the pages returned and not released since. -/
  held : ∀ i, i ∈ s.held ↔ s.allocator.UsedPage i
  /-- A range that `alloc_pages` returns lies in the window and misses every held page. -/
  returned : ∀ npages alignPages vaddr a', IsPow2 alignPages →
    s.allocator.allocPages heap npages alignPages = some (some vaddr, a') →
      base.toNat ≤ vaddr.toNat ∧
      vaddr.toNat + npages.toNat * 4096 ≤ base.toNat + size.toNat ∧
      Disjoint s.held (s.allocator.pageRun vaddr npages)
  freePages : ∃ total, s.allocator.freePagesTotal = some total ∧
    total.toNat + s.held.card = s.allocator.totalPages.toNat
  totalPages : s.allocator.totalPages.toNat = size.toNat / 4096

theorem Booked.safe {heap : HeapAnswers} {a₀ : VAddrAllocator maxNodes} {s : Session maxNodes}
    {cells : List Cell} {base size : Word} (h : Booked heap a₀ s cells)
    (hbase : a₀.base = base) (htotal : a₀.totalPages.toNat = size.toNat / 4096)
    (hfit : base.toNat + size.toNat ≤ 2 ^ 64) : Safe heap base size s := by
  have hsegs : (ptrs cells).map (fun p => (s.allocator.nodes p).seg) = segs cells := by
    rw [ptrs, segs, List.map_map]
    exact List.map_congr_left fun c hc => h.inv.shape.seg c hc
  have hlen : s.allocator.totalPages.toNat = size.toNat / 4096 := h.window.totalPages ▸ htotal
  have hbase' : s.allocator.base = base := h.window.base.trans hbase
  refine ⟨⟨ptrs cells, h.inv.shape.head, h.inv.shape.nodup, h.inv.shape.linked, ?_⟩, fun i => ?_,
    ?_, ?_, hlen⟩
  · rw [hsegs, ← hlen]
    exact h.inv.tiles
  · rw [h.held, ← h.inv.shape.marked_iff]
    rfl
  · intro npages alignPages vaddr a' hal hcall
    have hn := ne_zero_of_allocPages hcall
    obtain ⟨r, a₁, cells', ok, hres, hwalk, hwin, -, hrun, -⟩ := h.alloc hn hal
    rw [hcall] at hres
    cases r with
    | none => simp at hres
    | some page =>
        simp only [Option.map_some, Option.some.injEq, Prod.mk.injEq] at hres
        obtain ⟨rfl, rfl⟩ := hres
        have hin := hwalk.some_aligned hal.pos h.inv.tiles rfl
        have hfree := (hwalk.tookRun hal.pos h.inv.tiles rfl).1
        rw [hlen] at hin
        have hv : (s.allocator.vaddrFromPage (BitVec.ofNat 64 page)).toNat =
            base.toNat + page * 4096 := by
          rw [vaddrFromPage, hbase', BitVec.toNat_add, BitVec.toNat_mul, BitVec.toNat_ofNat,
            Nat.mod_eq_of_lt (by omega : page < 2 ^ 64)]
          have hp : page * pageSize.toNat = page * 4096 := rfl
          have hnpos : 0 < npages.toNat := by bv_omega
          rw [hp, Nat.mod_eq_of_lt (by omega : page * 4096 < 2 ^ 64), Nat.mod_eq_of_lt (by omega)]
        refine ⟨by omega, by omega, ?_⟩
        rw [← pageRun_congr hwin.base, hrun page rfl, Finset.disjoint_left]
        intro i hheld hi
        rw [Finset.mem_Ico] at hi
        have := h.inv.tiles.tag_unique ((h.held i).1 hheld) (hfree i hi.1 hi.2)
        simp at this
  · have hsum : (((segs cells).filter Seg.tag).map Seg.len).sum + s.held.card =
        s.allocator.totalPages.toNat := by
      rw [h.inv.tiles.card_tagged false h.held, ← h.inv.sum_len]
      simpa using sum_len_filter (segs cells) Seg.tag
    refine ⟨_, freePagesTotal_spec h.inv, ?_⟩
    have hbound := h.inv.bound
    rw [BitVec.toNat_ofNat, Nat.mod_eq_of_lt (by omega)]
    exact hsum

/-- Every run of `alloc_pages` and `free` from `init` returns and is safe, whatever
the heap answers when the node pool is empty. -/
theorem alloc_free_run_safe (heap : HeapAnswers) {base size : Word}
    (hfit : base.toNat + size.toNat ≤ 2 ^ 64) {a₀ : VAddrAllocator maxNodes}
    (hinit : init heap base size = some a₀) (calls : List Call)
    (hlegal : ∀ c ∈ calls, c.Legal) :
    ∃ s, Lib.run (Session.step heap) ⟨a₀, ∅⟩ calls = some s ∧ Safe heap base size s := by
  obtain ⟨-, -, hbase, htotal⟩ := init_spec hinit
  obtain ⟨s, hrun, cells, h⟩ := Booked.run (Booked.ofInit hinit) calls hlegal
  exact ⟨s, hrun, h.safe hbase htotal hfit⟩

theorem alloc_free_run_safe_four_pages :
    ∃ (a₀ : VAddrAllocator 2) (s : Session 2),
      init (fun _ => false) 0xffff800000000000 0x4000 = some a₀ ∧
      Lib.run (Session.step fun _ => false) ⟨a₀, ∅⟩
        [.allocPages 1 2, .allocPages 4 1, .free 0xffff800000000000 1] = some s ∧
      Safe (fun _ => false) 0xffff800000000000 0x4000 s := by
  obtain ⟨a₀, hinit⟩ : ∃ a₀ : VAddrAllocator 2,
      init (fun _ => false) 0xffff800000000000 0x4000 = some a₀ := ⟨_, rfl⟩
  obtain ⟨s, hrun, hsafe⟩ := alloc_free_run_safe (fun _ => false) (by decide) hinit
    [.allocPages 1 2, .allocPages 4 1, .free 0xffff800000000000 1] (by
      simp only [List.mem_cons, List.not_mem_nil, or_false, forall_eq_or_imp, forall_eq]
      exact ⟨⟨1, rfl⟩, ⟨0, rfl⟩, trivial⟩)
  exact ⟨a₀, s, hinit, hrun, hsafe⟩

end UnnamedKernel.Mm.Vma
