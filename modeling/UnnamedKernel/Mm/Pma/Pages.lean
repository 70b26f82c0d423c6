import UnnamedKernel.Mm.Pma.Safety

/-!
# Pages of the allocator

What `init` and `alloc` write to, and where a page that `alloc` has returned lies.
-/

namespace UnnamedKernel.Mm.Pma

open UnnamedKernel.Lib UnnamedKernel.Kernel FreeListAllocator

/-- The page at a physical address. -/
def pageAt (p : Word) : Range := ⟨p, pageSize⟩

variable {slide : Word} {entries : List MemmapEntry} {pma : FreeListAllocator}
  {blocks held held' : List Range} {q : Word}

theorem alloc_mem {fits : Range → Prop} (h : FreeList pma blocks)
    (hl : Layout fits slide blocks held) {size p : Word} {a : FreeListAllocator}
    (hsize : Aligned size) (hwrap : 4096 + size.toNat + 16 < 2 ^ 64)
    (hres : pma.alloc slide size = some (p, a)) {x : Word} (hx : ∀ b ∈ blocks, x ∉ b) :
    a.mem x = pma.mem x := by
  rcases alloc_cases h hl hsize fun _ => hwrap with
    ⟨hnone, -⟩ | ⟨pre, r, post, rfl, -, hle, -, hsome, -⟩
  · obtain ⟨-, rfl⟩ := Prod.mk.inj (Option.some.inj (hres.symm.trans hnone))
    rfl
  · obtain ⟨-, rfl⟩ := Prod.mk.inj (Option.some.inj (hres.symm.trans hsome))
    have htotal : (4096 + size).toNat = 4096 + size.toNat := by bv_omega
    refine h.takeFrom_mem ((by decide : Aligned 4096).add hsize) (by omega) (fun b hb hxb => ?_)
      fun hsplit hxn => ?_
    · exact hx b (by simp [hb])
        ((Layout.header_within (hl.whole b (by simp [hb])).2).mem hxb)
    · have hnew : (⟨r.addr + (4096 + size), 16⟩ : Range) = r.part (4096 + size) 16 := rfl
      rw [hnew] at hxn
      have h16 : (16 : Word).toNat = 16 := rfl
      exact hx r (by simp) ((Range.part_within (by omega)).mem hxn)

theorem Apportioned.perm {fits : Range → Prop} (h : Apportioned fits slide ⟨pma, held⟩ blocks)
    (hperm : held.Perm held') : Apportioned fits slide ⟨pma, held'⟩ blocks := by
  have hall := (hperm.map (Range.shift slide)).append_left blocks
  exact ⟨h.list, ⟨pairwise_perm h.layout.apart hall,
    fun r hr => h.layout.whole r (hall.mem_iff.2 hr),
    fun r hr => h.layout.inside r (hall.mem_iff.2 hr)⟩,
    fun r hr => h.nonzero r (hperm.mem_iff.2 hr)⟩

/-- A page of usable memory, which ends below `2 ^ 52`, is the page of a frame. -/
theorem Apportioned.frame (hslide : Aligned slide) (hmap : LegalMap entries)
    (hphys : ∀ u ∈ usableRanges entries, u.addr.toNat + u.size.toNat ≤ 2 ^ 52)
    (h : Apportioned (InEntry slide entries) slide ⟨pma, held⟩ blocks) (hq : pageAt q ∈ held) :
    q ≠ 0 ∧ q.toNat % 4096 = 0 ∧ q.toNat < 2 ^ 52 := by
  have hmem : (pageAt q).shift slide ∈ blocks ++ held.map (Range.shift slide) :=
    List.mem_append_right _ (List.mem_map_of_mem hq)
  obtain ⟨haligned, -, hpos⟩ := h.layout.whole _ hmem
  obtain ⟨u, hu, -, hle⟩ := InEntry.physical (r := pageAt q) hmap hpos (h.layout.inside _ hmem)
  have hend := hphys u hu
  have hsub := haligned.sub hslide
  have hback : slide + q - slide = q := by bv_omega
  rw [Range.shift, pageAt, hback] at hsub
  refine ⟨h.nonzero _ hq, hsub, ?_⟩
  have hsize : (pageAt q).size.toNat = 4096 := toNat_pageSize
  have haddr : (pageAt q).addr = q := rfl
  rw [haddr, hsize] at hle
  omega

end UnnamedKernel.Mm.Pma
