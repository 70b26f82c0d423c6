import UnnamedKernel.Mm.Paging.Model
import UnnamedKernel.Mm.Pma.Pages
import UnnamedKernel.Mm.Vmm.Refine
import UnnamedKernel.Mm.Vmm.Writes

/-!
# Page tables and free blocks in one memory

The pages of tables, the pages handed out to callers and the free blocks lie apart. So what
`alloc_page` writes to its headers changes no table, and what `map_virtual` writes to its tables
changes no header.
-/

namespace UnnamedKernel.Mm.Paging

open UnnamedKernel.Lib UnnamedKernel.Kernel RadixTree Pma Vmm FreeListAllocator

/-- The page shares no byte with usable memory. -/
def Reserved (entries : List MemmapEntry) (x : Frame) : Prop :=
  ∀ u ∈ usableRanges entries, Range.Apart (pageAt x.val) u

/-! ## The invariant -/

/-- Free blocks, tables and the pages of callers lie apart; `tables` are the pages that have been
taken for tables. -/
structure Shared (slide : Word) (entries : List MemmapEntry) (root : Frame) (held : List Range)
    (s : State) (blocks tables : List Range) : Prop where
  apportioned : Apportioned (InEntry slide entries) slide ⟨s.pma, tables ++ held⟩ blocks
  pages : ∀ r ∈ tables, r.size = pageSize
  placed : ∀ p x, p.length ≤ 3 → tableAt s.mem slide root p = some x →
    Reserved entries x ∨ pageAt x.val ∈ tables
  noSharing : NoSharing tableOf (entry s.mem slide) root 3

section Shared

variable {slide : Word} {entries : List MemmapEntry} {root t x : Frame} {held : List Range}
  {s : State} {blocks tables : List Range} {y : Word}

theorem mem_pageAt_shift {p : Word} :
    y ∈ (pageAt p).shift slide ↔ Mem.InRange (p + slide) 0x1000 y := by
  rw [Range.shift, BitVec.add_comm]
  rfl

theorem Shared.table_apart (h : Shared slide entries root held s blocks tables)
    {p : List (Fin 512)} (hlen : p.length ≤ 3) (hp : tableAt s.mem slide root p = some x)
    (hy : y ∈ (pageAt x.val).shift slide) :
    (∀ b ∈ blocks, y ∉ b) ∧ ∀ r ∈ held, y ∉ r.shift slide := by
  have hlayout := h.apportioned.layout
  rcases h.placed p x hlen hp with hreserved | htable
  · have hout : ∀ r, InEntry slide entries r → y ∉ r := by
      rintro r ⟨u, hu, hin⟩ hyr
      exact (Range.shift_apart slide).2 (hreserved u hu) y hy (hin.mem hyr)
    exact ⟨fun b hb => hout b (hlayout.inside b (by simp [hb])),
      fun r hr => hout _ (hlayout.inside _ (List.mem_append_right _
        (List.mem_map_of_mem (List.mem_append_right _ hr))))⟩
  · have hall := List.pairwise_append.1 hlayout.apart
    have hmem : (pageAt x.val).shift slide ∈ (tables ++ held).map (Range.shift slide) :=
      List.mem_map_of_mem (List.mem_append_left _ htable)
    refine ⟨fun b hb hyb => hall.2.2 b hb _ hmem y hyb hy, fun r hr => ?_⟩
    have hheld := hall.2.1
    rw [List.map_append] at hheld
    exact (List.pairwise_append.1 hheld).2.2 _ (List.mem_map_of_mem htable) _
      (List.mem_map_of_mem hr) y hy

theorem Shared.sameTables (h : Shared slide entries root held s blocks tables) {m : Mem}
    (hm : ∀ y, (∀ b ∈ blocks, y ∉ b) → (∀ r ∈ held, y ∉ r.shift slide) → m y = s.mem y) :
    SameTables tableOf (entry s.mem slide) (entry m slide) root 3 := by
  intro p x i hlen hp
  refine Mem.read64_congr fun y hy => ?_
  have hpage : y ∈ (pageAt x.val).shift slide := mem_pageAt_shift.2 (mem_entryPtr hy)
  obtain ⟨hblocks, hheld⟩ := h.table_apart hlen hp hpage
  exact hm y hblocks hheld

theorem walk_of_sameTables {m m' : Mem}
    (h : SameTables tableOf (entry m slide) (entry m' slide) root 3) (va : Word) :
    walk m' slide root va = walk m slide root va := by
  have hpaths : (path va).length ≤ 3 + 1 := Nat.le_refl 4
  unfold walk
  rw [(h.paths hpaths).2]

end Shared

/-! ## Pages -/

section Pages

variable {slide : Word} {entries : List MemmapEntry} {root : Frame} {held : List Range}
  {s : State} {blocks tables : List Range} {q : Word}

theorem Shared.alloc (hmap : LegalMap entries)
    (h : Shared slide entries root held s blocks tables) :
    ∃ q a, Pma.allocPage slide s.pma = some (q, a) ∧
      (∀ y, (∀ b ∈ blocks, y ∉ b) → a.mem y = s.mem y) ∧ (q = 0 → a = s.pma) ∧
      (q ≠ 0 → ∃ blocks', Shared slide entries root (pageAt q :: held) { s with pma := a }
        blocks' tables) := by
  have hlegal : (Pma.Call.alloc pageSize).Legal ⟨s.pma, tables ++ held⟩ :=
    ⟨by decide, by decide, fun _ => by decide⟩
  obtain ⟨q, a, hres, hzero, ⟨blocks', hnext⟩, -, -⟩ := h.apportioned.alloc hmap hlegal
  have hmem : ∀ y, (∀ b ∈ blocks, y ∉ b) → a.mem y = s.mem y := fun y hy =>
    alloc_mem h.apportioned.list h.apportioned.layout (by decide) (by decide) hres hy
  refine ⟨q, a, hres, hmem, hzero, fun hq => ⟨blocks', ?_⟩⟩
  rw [if_neg hq] at hnext
  have hsame := h.sameTables (m := a.mem) fun y hy _ => hmem y hy
  refine ⟨hnext.perm List.perm_middle.symm, h.pages, fun p x hlen hp => ?_,
    hsame.noSharing h.noSharing⟩
  exact h.placed p x hlen ((hsame.descend hlen).symm.trans hp)

/-- A page is taken for a table. -/
theorem Shared.adopt (h : Shared slide entries root (pageAt q :: held) s blocks tables) :
    Shared slide entries root held s blocks (pageAt q :: tables) := by
  refine ⟨h.apportioned.perm List.perm_middle, fun r hr => ?_, fun p x hlen hp => ?_,
    h.noSharing⟩
  · rcases List.mem_cons.1 hr with rfl | hr
    · rfl
    · exact h.pages r hr
  · exact (h.placed p x hlen hp).imp_right (List.mem_cons_of_mem _)

theorem Shared.setMem (h : Shared slide entries root held s blocks tables) {m : Mem}
    (hm : ∀ y, ∀ b ∈ blocks, y ∈ b → m y = s.mem y)
    (hplaced : ∀ p x, p.length ≤ 3 → tableAt m slide root p = some x →
      Reserved entries x ∨ pageAt x.val ∈ tables)
    (hns : NoSharing tableOf (entry m slide) root 3) :
    Shared slide entries root held (s.setMem m) blocks tables := by
  refine ⟨⟨h.apportioned.list.congr_mem rfl fun b hb y hy => ?_, h.apportioned.layout,
    h.apportioned.nonzero⟩, h.pages, hplaced, hns⟩
  exact hm y b hb ((Layout.header_within (h.apportioned.layout.whole b (by simp [hb])).2).mem hy)

end Pages

end UnnamedKernel.Mm.Paging
