import UnnamedKernel.Mm.Pma.Alloc

/-!
# Where free blocks and handed-out ranges lie

`Layout` keeps the blocks of the free list and the ranges handed out apart from
each other and inside a region of the direct map. Ranges handed out are named by
physical address; `slide` higher they are ranges of the direct map.
-/

namespace UnnamedKernel.Mm.Pma

open UnnamedKernel.Lib UnnamedKernel.Kernel FreeListAllocator

/-- The usable physical memory of a map. -/
def usableRanges (entries : List MemmapEntry) : List Range :=
  (entries.filter fun e => e.type = memmapUsable).map fun e => ⟨e.base, e.length⟩

/-- Usable entries are disjoint, page-aligned, and some pages long. -/
structure LegalMap (entries : List MemmapEntry) : Prop where
  aligned : ∀ u ∈ usableRanges entries, Aligned u.addr ∧ u.size.toNat % 4096 = 0
  nonempty : ∀ u ∈ usableRanges entries, 0 < u.size.toNat
  bound : ∀ u ∈ usableRanges entries, u.addr.toNat + u.size.toNat ≤ 2 ^ 64
  apart : (usableRanges entries).Pairwise Range.Apart

/-- A region that contains the parts of what it contains. -/
def Downward (fits : Range → Prop) : Prop := ∀ r s : Range, r.Within s → fits s → fits r

structure Layout (fits : Range → Prop) (slide : Word) (blocks held : List Range) : Prop where
  apart : (blocks ++ held.map (Range.shift slide)).Pairwise Range.Apart
  whole : ∀ r ∈ blocks ++ held.map (Range.shift slide),
    Aligned r.addr ∧ r.size.toNat % 4096 = 0 ∧ 0 < r.size.toNat
  inside : ∀ r ∈ blocks ++ held.map (Range.shift slide), fits r

theorem Chained.length_lt {s : FreeListAllocator} {blocks : List Range} (h : Chained s blocks) :
    blocks.length < walkLimit := by
  have hzero : (0 : Word) ∉ (addrs blocks).toFinset := by
    rw [List.mem_toFinset]
    intro hm
    obtain ⟨r, hr, hr0⟩ := List.mem_map.1 hm
    exact h.nonnull r hr hr0
  have := Range.card_lt_of_not_mem _ hzero
  rw [List.toFinset_card_of_nodup h.nodup, addrs, List.length_map] at this
  exact this

theorem FreeList.length_lt {s : FreeListAllocator} {blocks : List Range} (h : FreeList s blocks) :
    blocks.length < walkLimit :=
  h.chained.length_lt

theorem pairwise_perm {l l' : List Range} (h : l.Pairwise Range.Apart) (hp : l.Perm l') :
    l'.Pairwise Range.Apart :=
  (hp.pairwise_iff fun hrs => Range.Apart.symm hrs).1 h

theorem perm_front (pre post l : List Range) (r : Range) :
    (pre ++ r :: post ++ l).Perm (r :: (pre ++ post ++ l)) :=
  List.perm_middle.append_right l

namespace Layout

variable {fits : Range → Prop} {slide : Word} {blocks held pre post : List Range} {r : Range}
  {size : Word}

theorem block (h : Layout fits slide (pre ++ r :: post) held) :
    Aligned r.addr ∧ r.size.toNat % 4096 = 0 ∧ 0 < r.size.toNat ∧ fits r := by
  have hw := h.whole r (by simp)
  exact ⟨hw.1, hw.2.1, hw.2.2, h.inside r (by simp)⟩

theorem not_mem_addrs (h : Layout fits slide (pre ++ r :: post) held) {x : Word} (hx : x ∈ r)
    (hne : x ≠ r.addr) : x ∉ addrs (pre ++ r :: post) := by
  have hpairs := pairwise_perm h.apart (perm_front pre post _ r)
  rw [List.pairwise_cons] at hpairs
  intro hm
  rw [addrs_append, addrs_cons, List.mem_append, List.mem_cons] at hm
  have hother : ∀ q ∈ pre ++ post, x ≠ q.addr := by
    intro q hq he
    have hqr : q ∈ pre ∨ q ∈ r :: post := by
      rcases List.mem_append.1 hq with hq | hq
      · exact Or.inl hq
      · exact Or.inr (by simp [hq])
    have hpos := (h.whole q (List.mem_append_left _ (List.mem_append.2 hqr))).2.2
    exact hpairs.1 q (List.mem_append_left _ hq) x hx (he ▸ Range.addr_mem hpos)
  rcases hm with hm | rfl | hm
  · obtain ⟨q, hq, rfl⟩ := List.mem_map.1 hm
    exact hother q (by simp [hq]) rfl
  · exact hne rfl
  · obtain ⟨q, hq, rfl⟩ := List.mem_map.1 hm
    exact hother q (by simp [hq]) rfl

theorem shift_taken (slide : Word) (r : Range) (size : Word) :
    Range.shift slide ⟨r.addr + 4096 - slide, size⟩ = r.part 4096 size := by
  have haddr : slide + (r.addr + 4096 - slide) = r.addr + 4096 := by bv_omega
  simp only [Range.shift, Range.part, haddr]

/-- What there is after a cut: what is left of the block, and what was there beside it. -/
theorem mem_cut {l : List Range} {total : Word} {q : Range}
    (hq : q ∈ pre ++ takeBlock total r post ++ l) :
    (total.toNat + 16 < r.size.toNat ∧ q = r.part total (r.size - total)) ∨
      q ∈ pre ++ post ++ l := by
  rcases List.mem_append.1 hq with hq | hq
  · rcases List.mem_append.1 hq with hq | hq
    · exact Or.inr (by simp [hq])
    rcases mem_takeBlock hq with hq | hq
    · exact Or.inr (by simp [hq])
    · exact Or.inl hq
  · exact Or.inr (by simp [hq])

theorem beside (h : Layout fits slide (pre ++ r :: post) held) {q : Range}
    (hq : q ∈ pre ++ post ++ held.map (Range.shift slide)) :
    q ∈ pre ++ r :: post ++ held.map (Range.shift slide) ∧ Range.Apart r q := by
  have hfront := pairwise_perm h.apart (perm_front pre post _ r)
  exact ⟨(perm_front pre post _ r).mem_iff.2 (List.mem_cons_of_mem _ hq),
    (List.pairwise_cons.1 hfront).1 q hq⟩

theorem cut (h : Layout fits slide (pre ++ r :: post) held) (hmono : Downward fits) {total : Word}
    (ht : Aligned total) : Layout fits slide (pre ++ takeBlock total r post) held := by
  obtain ⟨hr, hrs, -, hrf⟩ := h.block
  have hfront := pairwise_perm h.apart (perm_front pre post _ r)
  have hleft : total.toNat + 16 < r.size.toNat →
      (r.part total (r.size - total)).Within r := fun hsplit =>
    Range.part_within (by bv_omega)
  refine ⟨?_, fun q hq => ?_, fun q hq => ?_⟩
  · by_cases hsplit : total.toNat + 16 < r.size.toNat
    · refine List.Pairwise.sublist (List.Sublist.append_right
        (List.Sublist.append_left (takeBlock_sublist total r post) pre) _) ?_
      refine pairwise_perm ?_ (perm_front pre post _ _).symm
      exact List.pairwise_cons.2 ⟨fun q hq => (h.beside hq).2.mono (hleft hsplit) (.refl q),
        (List.pairwise_cons.1 hfront).2⟩
    · rw [takeBlock, if_neg hsplit]
      exact (List.pairwise_cons.1 hfront).2
  · rcases mem_cut hq with ⟨hsplit, rfl⟩ | hq
    · have hrest : (r.size - total).toNat = r.size.toNat - total.toNat := by bv_omega
      refine ⟨hr.add ht, ?_, ?_⟩
      · show (r.size - total).toNat % 4096 = 0
        unfold Aligned at ht
        omega
      · show 0 < (r.size - total).toNat
        omega
    · exact h.whole q (h.beside hq).1
  · rcases mem_cut hq with ⟨hsplit, rfl⟩ | hq
    · exact hmono _ _ (hleft hsplit) hrf
    · exact h.inside q (h.beside hq).1

theorem hand (h : Layout fits slide blocks held)
    (hapart : ∀ q ∈ blocks ++ held.map (Range.shift slide), Range.Apart (r.shift slide) q)
    (hwhole : Aligned (r.shift slide).addr ∧ r.size.toNat % 4096 = 0 ∧ 0 < r.size.toNat)
    (hinside : fits (r.shift slide)) : Layout fits slide blocks (r :: held) := by
  have hperm : (r.shift slide :: (blocks ++ held.map (Range.shift slide))).Perm
      (blocks ++ (r :: held).map (Range.shift slide)) := List.perm_middle.symm
  refine ⟨pairwise_perm (List.pairwise_cons.2 ⟨hapart, h.apart⟩) hperm, fun q hq => ?_,
    fun q hq => ?_⟩
  · rcases List.mem_cons.1 (hperm.mem_iff.2 hq) with rfl | hq
    · exact hwhole
    · exact h.whole q hq
  · rcases List.mem_cons.1 (hperm.mem_iff.2 hq) with rfl | hq
    · exact hinside
    · exact h.inside q hq

theorem take (h : Layout fits slide (pre ++ r :: post) held) (hmono : Downward fits)
    (hsize : Aligned size) (hpos : 0 < size.toNat) (hle : 4096 + size.toNat ≤ r.size.toNat) :
    Layout fits slide (pre ++ takeBlock (4096 + size) r post)
      (⟨r.addr + 4096 - slide, size⟩ :: held) := by
  obtain ⟨hr, -, -, hrf⟩ := h.block
  have htaken : (r.part 4096 size).Within r := Range.part_within hle
  refine (h.cut hmono ((by decide : Aligned 4096).add hsize)).hand ?_ ?_ ?_
  · intro q hq
    rw [shift_taken]
    rcases mem_cut hq with ⟨hsplit, rfl⟩ | hq
    · exact Range.parts_apart (by bv_omega) (by bv_omega)
    · exact (h.beside hq).2.mono htaken (.refl q)
  · rw [shift_taken]
    exact ⟨hr.add (by decide : Aligned 4096), hsize, hpos⟩
  · rw [shift_taken]
    exact hmono _ _ htaken hrf

/-- Nothing covers the header page of a block that was cut. -/
theorem take_not_mem (h : Layout fits slide (pre ++ r :: post) held)
    (hle : 4096 + size.toNat ≤ r.size.toNat) {q : Range}
    (hq : q ∈ pre ++ takeBlock (4096 + size) r post ++
      (⟨r.addr + 4096 - slide, size⟩ :: held).map (Range.shift slide)) : r.addr ∉ q := by
  have hpos : 0 < r.size.toNat := h.block.2.2.1
  rcases mem_cut hq with ⟨-, rfl⟩ | hq
  · rw [Range.mem_iff, Range.part]
    simp only
    bv_omega
  rw [List.map_cons, shift_taken] at hq
  rcases List.mem_cons.1 (List.perm_middle.mem_iff.1 hq) with rfl | hq
  · rw [Range.mem_iff, Range.part]
    simp only
    bv_omega
  · exact (h.beside hq).2 r.addr (Range.addr_mem hpos)

theorem header_within {b : Range} (h : b.size.toNat % 4096 = 0 ∧ 0 < b.size.toNat) :
    (⟨b.addr, 16⟩ : Range).Within b := by
  have h16 : (0 : Word).toNat + (16 : Word).toNat = 16 := rfl
  exact ⟨0, by simp, by simp only [h16]; omega⟩

/-- Handed-out ranges keep their bytes when a block is cut. -/
theorem take_mem {s : FreeListAllocator} (h : FreeList s (pre ++ r :: post))
    (hl : Layout fits slide (pre ++ r :: post) held) (hsize : Aligned size)
    (hwrap : 4096 + size.toNat + 16 < 2 ^ 64) (hle : 4096 + size.toNat ≤ r.size.toNat) {x : Word}
    (hx : x ∈ r.part 4096 size ∨ ∃ q ∈ held, x ∈ q.shift slide) :
    (s.takeFrom (linkTo pre) (4096 + size)).mem x = s.mem x := by
  have htotal : (4096 + size).toNat = 4096 + size.toNat := by bv_omega
  have h16 : (16 : Word).toNat = 16 := rfl
  have htaken : (r.part 4096 size).Within r := Range.part_within hle
  have hfront := pairwise_perm hl.apart (perm_front pre post _ r)
  rw [List.pairwise_cons] at hfront
  have hheld : ∀ q ∈ held, q.shift slide ∈ held.map (Range.shift slide) := fun q hq =>
    List.mem_map_of_mem hq
  refine h.takeFrom_mem ((by decide : Aligned 4096).add hsize) (by omega) (fun b hb hxb => ?_)
    fun hsplit hxn => ?_
  · have hxb' := (header_within (hl.whole b (by simp [hb])).2).mem hxb
    rcases hx with hx | ⟨q, hq, hxq⟩
    · exact hfront.1 b (by simp [hb]) x (htaken.mem hx) hxb'
    · exact (List.pairwise_append.1 hl.apart).2.2 b (by simp [hb]) _ (hheld q hq) x hxb' hxq
  · have hnew : (⟨r.addr + (4096 + size), 16⟩ : Range) = r.part (4096 + size) 16 := rfl
    rw [hnew] at hxn
    rcases hx with hx | ⟨q, hq, hxq⟩
    · have hend : (4096 : Word).toNat + size.toNat ≤ (4096 + size).toNat := Nat.le_of_eq htotal.symm
      exact Range.parts_apart hend (by omega) x hx hxn
    · have hxr := (Range.part_within (show (4096 + size).toNat + (16 : Word).toNat ≤ _ by
        omega)).mem hxn
      exact (List.pairwise_append.1 hl.apart).2.2 r (by simp) _ (hheld q hq) x hxr hxq

end Layout

theorem alloc_cases {fits : Range → Prop} {slide size : Word} {s : FreeListAllocator}
    {blocks held : List Range} (h : FreeList s blocks) (hl : Layout fits slide blocks held)
    (hsize : Aligned size) (hwrap : s.head ≠ 0 → 4096 + size.toNat + 16 < 2 ^ 64) :
    (s.alloc slide size = some (0, s) ∧ ∀ r ∈ blocks, r.size.toNat < 4096 + size.toNat) ∨
    ∃ pre r post, blocks = pre ++ r :: post ∧ (∀ q ∈ pre, q.size.toNat < 4096 + size.toNat) ∧
      4096 + size.toNat ≤ r.size.toNat ∧ 4096 + size.toNat + 16 < 2 ^ 64 ∧
      s.alloc slide size =
        some (r.addr + 4096 - slide, s.takeFrom (linkTo pre) (4096 + size)) ∧
      FreeList (s.takeFrom (linkTo pre) (4096 + size))
        (pre ++ takeBlock (4096 + size) r post) := by
  have hhead : blocks ≠ [] → s.head ≠ 0 := by
    intro hne
    obtain ⟨r, rest, rfl⟩ := List.exists_cons_of_ne_nil hne
    have hr : s.head = r.addr := h.links.1
    rw [hr]
    exact h.nonnull r (by simp)
  have hcall : s.alloc slide size = allocLoop slide size walkLimit (linkTo []) s := by
    rw [alloc, if_pos ((umod_pageSize_eq_zero_iff size).2 hsize), utilsAlignUp_aligned hsize]
    rfl
  rcases allocLoop_spec slide walkLimit [] blocks h (fun hne => hwrap (hhead hne)) h.length_lt with
    ⟨hres, hall⟩ | ⟨pre, r, post, rfl, hpre, hle, hres⟩
  · exact Or.inl ⟨hcall.trans hres, hall⟩
  · have hw := hwrap (hhead (by simp))
    have htotal : (4096 + size).toNat = 4096 + size.toNat := by bv_omega
    refine Or.inr ⟨pre, r, post, rfl, hpre, hle, hw, hcall.trans hres, ?_⟩
    refine h.takeFrom_spec ((by decide : Aligned 4096).add hsize) (by omega) fun hsplit => ?_
    refine hl.not_mem_addrs ?_ ?_
    · rw [Range.mem_iff]
      bv_omega
    · bv_omega

/-- `alloc` finds no block and changes nothing, or hands out the pages behind the header page
of the first block that fits. -/
theorem alloc_spec {fits : Range → Prop} (hmono : Downward fits) {slide size : Word}
    {s : FreeListAllocator} {blocks held : List Range} (h : FreeList s blocks)
    (hl : Layout fits slide blocks held) (hsize : Aligned size) (hpos : size ≠ 0)
    (hwrap : s.head ≠ 0 → 4096 + size.toNat + 16 < 2 ^ 64) :
    (s.alloc slide size = some (0, s) ∧ ∀ r ∈ blocks, r.size.toNat < 4096 + size.toNat) ∨
    ∃ pre r post s', blocks = pre ++ r :: post ∧
      (∀ q ∈ pre, q.size.toNat < 4096 + size.toNat) ∧ 4096 + size.toNat ≤ r.size.toNat ∧
      s.alloc slide size = some (r.addr + 4096 - slide, s') ∧
      FreeList s' (pre ++ takeBlock (4096 + size) r post) ∧
      Layout fits slide (pre ++ takeBlock (4096 + size) r post)
        (⟨r.addr + 4096 - slide, size⟩ :: held) ∧
      ∀ x, (∃ q ∈ (⟨r.addr + 4096 - slide, size⟩ :: held : List Range), x ∈ q.shift slide) →
        s'.mem x = s.mem x := by
  have hposNat : 0 < size.toNat := by bv_omega
  rcases alloc_cases h hl hsize hwrap with hnone | ⟨pre, r, post, rfl, hpre, hle, hw, hres, hlist⟩
  · exact Or.inl hnone
  refine Or.inr ⟨pre, r, post, _, rfl, hpre, hle, hres, hlist,
    hl.take hmono hsize hposNat hle, fun x hx => ?_⟩
  refine Layout.take_mem h hl hsize hw hle ?_
  obtain ⟨q, hq, hxq⟩ := hx
  rcases List.mem_cons.1 hq with rfl | hq
  · exact Or.inl (Layout.shift_taken slide r size ▸ hxq)
  · exact Or.inr ⟨q, hq, hxq⟩

/-! ## `init` -/

theorem usableRanges_cons (e : MemmapEntry) (es : List MemmapEntry) :
    usableRanges (e :: es) =
      if e.type = memmapUsable then ⟨e.base, e.length⟩ :: usableRanges es else usableRanges es := by
  unfold usableRanges
  by_cases hu : e.type = memmapUsable <;> simp [hu]

/-- The loop of `init` pushes the entries on the list; one at the null address drops
what was there. -/
theorem init_spec {slide : Word} (hslide : Aligned slide) (entries : List MemmapEntry)
    {s : FreeListAllocator} {blocks : List Range} (h : FreeList s blocks)
    (haligned : ∀ u ∈ usableRanges entries, Aligned u.addr)
    (hdistinct : (addrs blocks ++ addrs ((usableRanges entries).map (Range.shift slide))).Nodup) :
    ∃ blocks', FreeList (init slide entries s) blocks' ∧
      blocks'.Sublist (((usableRanges entries).map (Range.shift slide)).reverse ++ blocks) ∧
      ((∀ u ∈ usableRanges entries, slide + u.addr ≠ 0) →
        blocks' = ((usableRanges entries).map (Range.shift slide)).reverse ++ blocks) := by
  induction entries generalizing s blocks with
  | nil => exact ⟨blocks, h, by simp [usableRanges], fun _ => by simp [usableRanges]⟩
  | cons e es ih =>
      rw [usableRanges_cons] at haligned hdistinct ⊢
      by_cases hu : e.type = memmapUsable
      swap
      · simp only [if_neg hu] at haligned hdistinct ⊢
        have hskip : init slide (e :: es) s = init slide es s := by
          simp [init, initEntry, hu]
        rw [hskip]
        exact ih h haligned hdistinct
      simp only [if_pos hu, List.map_cons, addrs_cons] at haligned hdistinct ⊢
      have hstep : init slide (e :: es) s = init slide es (initEntry slide s e) := rfl
      rw [hstep]
      have hfresh : slide + e.base ∉ addrs blocks := fun hm =>
        (List.nodup_append.1 hdistinct).2.2 _ hm (slide + e.base) (by simp [Range.shift]) rfl
      have hbase : Aligned e.base := haligned ⟨e.base, e.length⟩ (by simp)
      have hnext := initEntry_spec h hu (hslide.add hbase) hfresh
      have hrest : ∀ u ∈ usableRanges es, Aligned u.addr := fun u hm => haligned u (by simp [hm])
      have hpush : (addrs (⟨slide + e.base, e.length⟩ :: blocks) ++
          addrs ((usableRanges es).map (Range.shift slide))).Nodup :=
        (List.perm_middle.nodup_iff).1 hdistinct
      split_ifs at hnext with hnull
      · obtain ⟨blocks', hb, hsub, -⟩ := ih hnext hrest (List.nodup_append.1 hpush).2.1
        refine ⟨blocks', hb, hsub.trans ?_, fun hnz =>
          absurd hnull (hnz ⟨e.base, e.length⟩ (by simp))⟩
        simp
      · obtain ⟨blocks', hb, hsub, hall⟩ := ih hnext hrest hpush
        refine ⟨blocks', hb, by simpa [Range.shift] using hsub, fun hnz => ?_⟩
        rw [hall fun u hm => hnz u (by simp [hm])]
        simp [Range.shift]

end UnnamedKernel.Mm.Pma
