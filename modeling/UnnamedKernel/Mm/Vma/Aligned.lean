import UnnamedKernel.Mm.Vma.Safety

/-!
# Alignment of the addresses that `alloc_pages` returns

`alloc_pages` rounds page indices, and the indices count from the base of the window. The
addresses are as well aligned as the base is.
-/

namespace UnnamedKernel.Mm.Vma

open UnnamedKernel.Lib UnnamedKernel.Kernel

variable {maxNodes : Nat}

namespace VAddrAllocator

variable {a : VAddrAllocator maxNodes} {cells : List Cell}

theorem toNat_vaddrFromPage {page : Nat} (hpage : page < 2 ^ 52) :
    (a.vaddrFromPage (BitVec.ofNat 64 page)).toNat =
      (a.base.toNat + page * 4096) % 2 ^ 64 := by
  rw [vaddrFromPage, BitVec.toNat_add, BitVec.toNat_mul, BitVec.toNat_ofNat,
    Nat.mod_eq_of_lt (by omega : page < 2 ^ 64), toNat_pageSize, Nat.add_mod_mod]

theorem dvd_vaddrFromPage_iff {page : Nat} {al : Word} (hal : IsPow2 al) (hpage : page < 2 ^ 52)
    (hdvd : al.toNat ∣ page) :
    al.toNat * 4096 ∣ (a.vaddrFromPage (BitVec.ofNat 64 page)).toNat ↔
      al.toNat * 4096 ∣ a.base.toNat := by
  rw [toNat_vaddrFromPage hpage]
  obtain ⟨k, hk⟩ := hal
  by_cases hsmall : k ≤ 52
  · have hwrap : al.toNat * 4096 ∣ 2 ^ 64 := by
      rw [hk, show 2 ^ 64 = 2 ^ 52 * 4096 by norm_num]
      exact Nat.mul_dvd_mul_right (Nat.pow_dvd_pow 2 hsmall) 4096
    rw [Nat.dvd_mod_iff hwrap]
    exact (Nat.dvd_add_iff_left (Nat.mul_dvd_mul_right hdvd 4096)).symm
  · -- no page but the first is so far aligned
    have hlarge : 2 ^ 52 ≤ al.toNat := hk ▸ Nat.pow_le_pow_right (by omega) (by omega)
    obtain rfl : page = 0 := Nat.eq_zero_of_dvd_of_lt hdvd (by omega)
    rw [Nat.zero_mul, Nat.add_zero, Nat.mod_eq_of_lt a.base.isLt]

end VAddrAllocator

open VAddrAllocator

variable {a a' : VAddrAllocator maxNodes} {cells : List Cell} {heap : HeapAnswers}
  {npages alignPages vaddr : Word}

theorem Inv.alloc_page (h : Inv a cells) (hal : IsPow2 alignPages)
    (hcall : a.allocPages heap npages alignPages = some (some vaddr, a')) :
    ∃ page, vaddr = a.vaddrFromPage (BitVec.ofNat 64 page) ∧ alignPages.toNat ∣ page ∧
      page < a.totalPages.toNat := by
  have hn := ne_zero_of_allocPages hcall
  obtain ⟨r, a₁, cells', ok, hres, -, hwalk, -⟩ := allocPages_spec h heap hn hal
  rw [hcall] at hres
  cases r with
  | none => simp at hres
  | some page =>
      have hin := hwalk.some_aligned hal.pos h.tiles rfl
      simp only [Option.map_some, Option.some.injEq, Prod.mk.injEq] at hres
      exact ⟨page, hres.1, hin.1, by bv_omega⟩

/-- An allocator all of whose pages are in one free node hands out its base. -/
theorem Inv.alloc_whole {p : NodePtr} (h : Inv a [(p, ⟨0, a.totalPages.toNat, true⟩)])
    (hn : a.totalPages ≠ 0) (hal : IsPow2 alignPages) (heap : HeapAnswers) :
    ∃ a', a.allocPages heap a.totalPages alignPages = some (some a.base, a') := by
  obtain ⟨r, a', cells', ok, hres, -, -, hranges, -⟩ := allocPages_ranges h heap hn hal
  have hzero : ceilTo 0 alignPages.toNat = 0 := ceilTo_of_dvd hal.pos (dvd_zero _)
  have hfit : Fits a.totalPages.toNat alignPages.toNat ⟨0, a.totalPages.toNat, true⟩ := by
    simp [Fits, Seg.stop, hzero]
  have htaken : attempt (a.grants heap) a.totalPages.toNat alignPages.toNat
      ⟨0, a.totalPages.toNat, true⟩ = .taken := by
    apply attempt_eq_taken <;> simp [Seg.stop, hzero]
  have hr : some 0 = r := by
    have hfirst := congrArg Prod.fst hranges
    simpa only [segs_cons, allocRanges, if_pos hfit, htaken, hzero] using hfirst
  refine ⟨a', ?_⟩
  rw [hres, ← hr]
  simp [vaddrFromPage]

/-- The addresses returned in the runs from `init` are multiples of `align_pages * PAGE_SIZE`
just if the base is, or if the window has no page to return. -/
theorem allocPages_aligned_iff (heap : HeapAnswers) {base size : Word}
    (hsize : checkAligned size pageSize = true) {a₀ : VAddrAllocator maxNodes}
    (hinit : init heap base size = some a₀) {alignPages : Word} (hal : IsPow2 alignPages) :
    (∀ calls : List Call, (∀ c ∈ calls, c.Legal) → ∀ s,
      Lib.run (Session.step heap) ⟨a₀, ∅⟩ calls = some s → ∀ npages vaddr a', npages ≠ 0 →
        s.allocator.allocPages heap npages alignPages = some (some vaddr, a') →
          alignPages.toNat * 4096 ∣ vaddr.toNat) ↔
      alignPages.toNat * 4096 ∣ base.toNat ∨ size = 0 := by
  obtain ⟨p, hinv, hbase, htotal⟩ := init_spec hinit
  rw [checkAligned_pageSize] at hsize
  constructor
  · intro haligned
    by_cases hempty : size = 0
    · exact Or.inr hempty
    · left
      have hn : a₀.totalPages ≠ 0 := by bv_omega
      rw [← htotal] at hinv
      obtain ⟨a', hcall⟩ := hinv.alloc_whole hn hal heap
      have := haligned [] (by simp) ⟨a₀, ∅⟩ rfl _ _ _ hn hcall
      rwa [hbase] at this
  · rintro hcond calls hlegal s hrun npages vaddr a' - hcall
    obtain ⟨s', hrun', cells, h⟩ := Booked.run (Booked.ofInit hinit) calls hlegal
    obtain rfl : s' = s := Option.some.inj (hrun'.symm.trans hrun)
    have hbase' : s'.allocator.base = base := h.window.base.trans hbase
    obtain ⟨page, rfl, hdvd, hpage⟩ := h.inv.alloc_page hal hcall
    have hbound := h.inv.bound
    rw [dvd_vaddrFromPage_iff hal (by omega) hdvd, hbase']
    rcases hcond with hbase' | rfl
    · exact hbase'
    · rw [h.window.totalPages, htotal] at hpage
      simp at hpage

/-- In the window that starts one page behind an aligned address, two aligned pages are not
aligned. -/
theorem allocPages_unaligned :
    ∃ a₀ a' : VAddrAllocator 2,
      checkAligned 0xffff800000001000 pageSize = true ∧ checkAligned 0x4000 pageSize = true ∧
      init (fun _ => true) 0xffff800000001000 0x4000 = some a₀ ∧ IsPow2 2 ∧
      a₀.allocPages (fun _ => true) 2 2 = some (some 0xffff800000001000, a') ∧
      ¬ (2 : Word).toNat * 4096 ∣ (0xffff800000001000 : Word).toNat := by
  refine ⟨_, _, by decide, by decide, rfl, ⟨1, rfl⟩, rfl, by decide⟩

theorem allocPages_aligned_iff_four_pages :
    ∃ a₀ : VAddrAllocator 2, init (fun _ => true) 0xffff800000000000 0x4000 = some a₀ ∧
      ∀ calls : List Call, (∀ c ∈ calls, c.Legal) → ∀ s,
        Lib.run (Session.step fun _ => true) ⟨a₀, ∅⟩ calls = some s →
          ∀ npages vaddr a', npages ≠ 0 →
            s.allocator.allocPages (fun _ => true) npages 2 = some (some vaddr, a') →
              (2 : Word).toNat * 4096 ∣ vaddr.toNat := by
  refine ⟨_, rfl, ?_⟩
  have hsize : checkAligned 0x4000 pageSize = true := by decide
  exact (allocPages_aligned_iff (fun _ => true) hsize rfl ⟨1, rfl⟩).2 (Or.inl (by decide))

end UnnamedKernel.Mm.Vma
