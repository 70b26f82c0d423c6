import UnnamedKernel.Mm.Pma.Reclaim

/-!
# `alloc_pages_continuous` for every page count

The byte size is the page count times the page size, and the walk adds the header page,
both modulo `2 ^ 64`. A page count that wraps is granted when a block is as large as the
wrapped sum, and what is granted then is smaller than what was asked for.
-/

namespace UnnamedKernel.Mm.Pma

open UnnamedKernel.Lib UnnamedKernel.Kernel FreeListAllocator Relation

/-- All bytes asked for, their number not wrapped, are at `slide + p`; they were free and
are not any more. -/
structure Grant (slide pageCount p : Word) (s s' : FreeListAllocator) : Prop where
  noWrap : 4096 + pageCount.toNat * 4096 + 16 < 2 ^ 64
  wasFree : ∀ i < pageCount.toNat * 4096, slide + p + BitVec.ofNat 64 i ∈ freeBytes s
  taken : ∀ i < pageCount.toNat * 4096, slide + p + BitVec.ofNat 64 i ∉ freeBytes s'

/-- The call returns 0 and changes nothing, or grants what was asked for. -/
def Sound (slide : Word) (s : FreeListAllocator) (pageCount : Word) : Prop :=
  ∃ p s', allocPagesContinuous slide s pageCount = some (p, s') ∧
    ((p = 0 ∧ s' = s) ∨ Grant slide pageCount p s s')

/-- The sum of header page and size does not wrap, or no block is as large as the wrapped sum, or
that sum is 0 and the first block's second page is at `slide`, which is returned as 0. -/
def Measured (slide : Word) (s : FreeListAllocator) (pageCount : Word) : Prop :=
  pageCount.toNat + 1 < 2 ^ 52 ∨ (∀ b, Listed s b → s.sizeOf b < (pageCount + 1) * pageSize) ∨
    ((pageCount + 1) * pageSize = 0 ∧ s.head + pageSize = slide)

theorem toNat_total (pageCount : Word) :
    ((pageCount + 1) * pageSize).toNat = (pageCount.toNat + 1) * 4096 % 2 ^ 64 := by
  rw [BitVec.toNat_mul, toNat_pageSize, BitVec.toNat_add]
  have hone : (1 : Word).toNat = 1 := rfl
  omega

section Call

variable {fits : Range → Prop} {slide : Word} {s : FreeListAllocator} {blocks held : List Range}

/-- A sum that wraps to 0 fits into any block; the split then writes back what was there. -/
theorem alloc_zero (h : FreeList s blocks) (hl : Layout fits slide blocks held) (hne : blocks ≠ [])
    {size : Word} (hsize : Aligned size) (hzero : 4096 + size = 0) :
    s.alloc slide size = some (s.head + 4096 - slide, s) := by
  obtain ⟨r, rest, rfl⟩ := List.exists_cons_of_ne_nil hne
  have hhead : s.head = r.addr := h.links.1
  have hr : Aligned r.addr := h.aligned r (by simp)
  have hrsize : s.sizeOf r.addr = r.size := h.size r (by simp)
  have hbig : (0 : Word) + sizeofFreeBlock < r.size := by
    have hwhole := hl.whole r (by simp)
    unfold sizeofFreeBlock
    bv_omega
  have hsum : r.addr + 4096 - r.addr + size = 0 := by bv_omega
  obtain ⟨fuel, hfuel⟩ : ∃ fuel, walkLimit = fuel + 1 := ⟨walkLimit - 1, by decide⟩
  have hsame : s.takeFrom .head 0 = s := by
    have hadd : r.addr + 0 = r.addr := by simp
    have hsub : r.size - 0 = r.size := by simp
    have hback : s.setSize r.addr r.size = s := by
      rw [← hrsize, setSize, FreeListAllocator.sizeOf, Mem.write64_read64]
    unfold takeFrom
    simp only [load, hhead, hrsize, if_pos hbig, hadd, hsub, hback]
    rw [setNext, nextOf, Mem.write64_read64, store, ← hhead]
  rw [alloc, if_pos ((umod_pageSize_eq_zero_iff size).2 hsize), utilsAlignUp_aligned hsize, hfuel,
    allocLoop]
  simp only [load, hhead, if_neg (h.nonnull r (by simp)), utilsAlignUp_header hr, hsum, hrsize]
  rw [if_pos (by bv_omega), hsame]

/-- `alloc_pages_continuous` refuses; or it takes the first block that holds the sum; or the sum
is 0, and it takes nothing off the first block. -/
theorem allocPagesContinuous_cases (h : FreeList s blocks) (hl : Layout fits slide blocks held)
    (pageCount : Word) :
    (allocPagesContinuous slide s pageCount = some (0, s) ∧
      ∀ r ∈ blocks, r.size < (pageCount + 1) * pageSize) ∨
    (∃ pre r post, blocks = pre ++ r :: post ∧
      4096 + (pageCount * pageSize).toNat ≤ r.size.toNat ∧
      (pageCount + 1) * pageSize ≠ 0 ∧ (pageCount + 1) * pageSize ≤ r.size ∧
      4096 + (pageCount * pageSize).toNat + 16 < 2 ^ 64 ∧
      allocPagesContinuous slide s pageCount =
        some (r.addr + 4096 - slide, s.takeFrom (linkTo pre) (4096 + pageCount * pageSize)) ∧
      FreeList (s.takeFrom (linkTo pre) (4096 + pageCount * pageSize))
        (pre ++ takeBlock (4096 + pageCount * pageSize) r post)) ∨
    ((pageCount + 1) * pageSize = 0 ∧ blocks ≠ [] ∧
      allocPagesContinuous slide s pageCount = some (s.head + 4096 - slide, s)) := by
  have hmul : (pageCount * pageSize).toNat = pageCount.toNat * 4096 % 2 ^ 64 := by
    rw [BitVec.toNat_mul, toNat_pageSize]
  have htotal := toNat_total pageCount
  have hsize : Aligned (pageCount * pageSize) := by
    unfold Aligned
    omega
  have hadd : 4096 + pageCount * pageSize = (pageCount + 1) * pageSize := by
    apply BitVec.eq_of_toNat_eq
    rw [BitVec.toNat_add, hmul, htotal]
    have h4096 : (4096 : Word).toNat = 4096 := rfl
    omega
  by_cases hzero : (pageCount + 1) * pageSize = 0
  · by_cases hne : blocks = []
    · have hhead : s.head = 0 := by
        rw [hne] at h
        exact h.links
      rcases alloc_cases h hl hsize (fun hh => absurd hhead hh) with
        ⟨hres, -⟩ | ⟨pre, r, post, hb, -⟩
      · exact Or.inl ⟨hres, by simp [hne]⟩
      · simp [hne] at hb
    · exact Or.inr (Or.inr ⟨hzero, hne, alloc_zero h hl hne hsize (hadd.trans hzero)⟩)
  · have hsum : ((pageCount + 1) * pageSize).toNat = 4096 + (pageCount * pageSize).toNat := by
      have : ((pageCount + 1) * pageSize).toNat ≠ 0 := fun he =>
        hzero (BitVec.eq_of_toNat_eq he)
      omega
    rcases alloc_cases h hl hsize (fun _ => by omega) with
      ⟨hres, hall⟩ | ⟨pre, r, post, hb, -, hle, hw, hres, hlist⟩
    · refine Or.inl ⟨hres, fun r hr => ?_⟩
      rw [BitVec.lt_def, hsum]
      exact hall r hr
    · refine Or.inr (Or.inl ⟨pre, r, post, hb, hle, hzero, ?_, hw, hres, hlist⟩)
      rw [BitVec.le_def, hsum]
      exact hle

theorem takeFrom_ne {pre post : List Range} {r : Range} {size : Word}
    (h : FreeList s (pre ++ r :: post)) (hl : Layout fits slide (pre ++ r :: post) held)
    (hle : 4096 + size.toNat ≤ r.size.toNat)
    (h' : FreeList (s.takeFrom (linkTo pre) (4096 + size))
      (pre ++ takeBlock (4096 + size) r post)) :
    s.takeFrom (linkTo pre) (4096 + size) ≠ s := by
  intro heq
  rw [heq] at h'
  have hmem : r.addr ∈ freeBytes s := by
    rw [h.freeBytes_eq]
    exact ⟨r, by simp, Range.addr_mem hl.block.2.2.1⟩
  rw [h'.freeBytes_eq] at hmem
  obtain ⟨q, hq, hrq⟩ := hmem
  exact hl.take_not_mem hle (List.mem_append_left _ hq) hrq

theorem grant_of_take {pre post : List Range} {r : Range} {pageCount : Word}
    (hcount : pageCount.toNat + 1 < 2 ^ 52) (h : FreeList s (pre ++ r :: post))
    (hl : Layout fits slide (pre ++ r :: post) held)
    (hle : 4096 + (pageCount * pageSize).toNat ≤ r.size.toNat)
    (h' : FreeList (s.takeFrom (linkTo pre) (4096 + pageCount * pageSize))
      (pre ++ takeBlock (4096 + pageCount * pageSize) r post)) :
    Grant slide pageCount (r.addr + 4096 - slide) s
      (s.takeFrom (linkTo pre) (4096 + pageCount * pageSize)) := by
  have hmul : (pageCount * pageSize).toNat = pageCount.toNat * 4096 := by
    rw [BitVec.toNat_mul, toNat_pageSize, Nat.mod_eq_of_lt (by omega)]
  have hpart : ∀ i < pageCount.toNat * 4096, slide + (r.addr + 4096 - slide) + BitVec.ofNat 64 i ∈
      r.part 4096 (pageCount * pageSize) := by
    intro i hi
    have hi64 : (BitVec.ofNat 64 i).toNat = i := by
      rw [BitVec.toNat_ofNat, Nat.mod_eq_of_lt (by omega)]
    rw [Range.mem_iff, Range.part, BitVec.lt_def]
    simp only
    rw [show slide + (r.addr + 4096 - slide) + BitVec.ofNat 64 i - (r.addr + 4096) =
      BitVec.ofNat 64 i by bv_omega, hi64, hmul]
    exact hi
  have hwithin : (r.part 4096 (pageCount * pageSize)).Within r := Range.part_within hle
  refine ⟨by omega, fun i hi => ?_, fun i hi hfree => ?_⟩
  · rw [h.freeBytes_eq]
    exact ⟨r, by simp, hwithin.mem (hpart i hi)⟩
  · rw [h'.freeBytes_eq] at hfree
    obtain ⟨q, hq, hxq⟩ := hfree
    rcases Layout.mem_cut (l := []) (by simpa using hq) with ⟨hsplit, rfl⟩ | hq
    · exact Range.parts_apart (by bv_omega) (by bv_omega) _ (hpart i hi) hxq
    · refine (hl.beside (q := q) ?_).2 _ (hwithin.mem (hpart i hi)) hxq
      exact List.mem_append_left _ (by simpa using hq)

theorem sound_iff (h : FreeList s blocks) (hl : Layout fits slide blocks held) (pageCount : Word) :
    Sound slide s pageCount ↔ Measured slide s pageCount := by
  have htotal := toNat_total pageCount
  have hlisted : (∀ b, Listed s b → s.sizeOf b < (pageCount + 1) * pageSize) ↔
      ∀ r ∈ blocks, r.size < (pageCount + 1) * pageSize := by
    constructor
    · intro hall r hr
      rw [← h.size r hr]
      exact hall _ ((h.listed_iff _).2 (mem_addrs hr))
    · intro hall b hb
      obtain ⟨r, hr, rfl⟩ := List.mem_map.1 ((h.listed_iff b).1 hb)
      rw [h.size r hr]
      exact hall r hr
  unfold Measured
  rw [hlisted]
  rcases allocPagesContinuous_cases h hl pageCount with
    ⟨hres, hall⟩ | ⟨pre, r, post, rfl, hle, hne, hfits, -, hres, hlist⟩ | ⟨hzero, hne, hres⟩
  · exact iff_of_true ⟨0, s, hres, Or.inl ⟨rfl, rfl⟩⟩ (Or.inr (Or.inl hall))
  · constructor
    · rintro ⟨p, s', hres', hcase⟩
      obtain ⟨rfl, rfl⟩ := Prod.mk.inj (Option.some.inj (hres.symm.trans hres'))
      rcases hcase with ⟨-, hsame⟩ | hgrant
      · exact absurd hsame (takeFrom_ne h hl hle hlist)
      · have := hgrant.noWrap
        exact Or.inl (by omega)
    · rintro (hcount | hall | ⟨hzero, -⟩)
      · exact ⟨_, _, hres, Or.inr (grant_of_take hcount h hl hle hlist)⟩
      · exact absurd hfits (BitVec.not_le.2 (hall r (by simp)))
      · exact absurd hzero hne
  · obtain ⟨r, rest, rfl⟩ := List.exists_cons_of_ne_nil hne
    constructor
    · rintro ⟨p, s', hres', hcase⟩
      obtain ⟨rfl, rfl⟩ := Prod.mk.inj (Option.some.inj (hres.symm.trans hres'))
      rcases hcase with ⟨hp, -⟩ | hgrant
      · refine Or.inr (Or.inr ⟨hzero, ?_⟩)
        have : s.head + 4096 = slide := by bv_omega
        exact this
      · have := hgrant.noWrap
        exact Or.inl (by omega)
    · rintro (hcount | hall | ⟨-, hhead⟩)
      · rw [hzero] at htotal
        have hz : (0 : Word).toNat = 0 := rfl
        omega
      · have := hall r (by simp)
        rw [hzero] at this
        bv_omega
      · have hp : s.head + 4096 - slide = 0 := by
          have : s.head + 4096 = slide := hhead
          bv_omega
        exact ⟨0, s, hp ▸ hres, Or.inl ⟨rfl, rfl⟩⟩

end Call

/-- A call with a page count. -/
inductive PageCall where
  | allocPagesContinuous (pageCount : Word)
  /-- `dealloc_pages_continuous` of all pages of a range handed out -/
  | deallocPagesContinuous (r : Range)
  | write (x : Word) (b : BitVec 8)

/-- Where `free` puts the block for `r` there is nothing else; callers free what they hold. -/
structure Lands (slide : Word) (s : Session) (r : Range) : Prop where
  held : r ∈ s.held
  nonnull : r.addr - slide ≠ 0
  clear : ∀ x ∈ (⟨r.addr - slide, r.size⟩ : Range),
    x ∉ freeBytes s.pma ∧ ∀ q ∈ s.held.erase r, x ∉ q.shift slide

namespace PageCall

def Legal (slide : Word) (s : Session) : PageCall → Prop
  | .allocPagesContinuous pageCount => Measured slide s.pma pageCount
  | .deallocPagesContinuous r => Lands slide s r
  | .write _ _ => True

/-- One call. No page is no range to hold. -/
def step (slide : Word) (s : Session) : PageCall → Option Session
  | .allocPagesContinuous pageCount => do
      let (p, a) ← Pma.allocPagesContinuous slide s.pma pageCount
      some ⟨a, if p = 0 ∨ pageCount = 0 then s.held else ⟨p, pageCount * pageSize⟩ :: s.held⟩
  | .deallocPagesContinuous r => do
      let a ← Pma.deallocPagesContinuous slide s.pma r.addr (r.size / pageSize)
      some ⟨a, s.held.erase r⟩
  | .write x b => s.step slide (.write x b)

end PageCall

namespace Circulating

variable {M : Set Word} {slide : Word} {s : Session} {blocks : List Range} {r : Range}

theorem allocPages (h : Circulating M slide s blocks) {pageCount : Word}
    (hlegal : Measured slide s.pma pageCount) :
    ∃ s', PageCall.step slide s (.allocPagesContinuous pageCount) = some s' ∧
      ∃ blocks', Circulating M slide s' blocks' := by
  obtain ⟨p, a, hres, hcase⟩ := (sound_iff h.list h.layout pageCount).2 hlegal
  have hstep : PageCall.step slide s (.allocPagesContinuous pageCount) = some ⟨a,
      if p = 0 ∨ pageCount = 0 then s.held else ⟨p, pageCount * pageSize⟩ :: s.held⟩ := by
    simp only [PageCall.step, hres]
    rfl
  refine ⟨_, hstep, ?_⟩
  rcases hcase with ⟨rfl, rfl⟩ | hgrant
  · exact ⟨blocks, by simpa using h⟩
  have hwrap := hgrant.noWrap
  have hmul : (pageCount * pageSize).toNat = pageCount.toNat * 4096 := by
    rw [BitVec.toNat_mul, toNat_pageSize, Nat.mod_eq_of_lt (by omega)]
  have hsize : Aligned (pageCount * pageSize) := by
    unfold Aligned
    omega
  by_cases hzero : pageCount = 0
  · -- no page is taken, but a header page is
    rw [if_pos (Or.inr hzero)]
    rcases allocPagesContinuous_cases h.list h.layout pageCount with
      ⟨hres', -⟩ | ⟨pre, r, post, rfl, hle, -, -, -, hres', hlist⟩ | ⟨-, -, hres'⟩
    · obtain ⟨-, rfl⟩ := Prod.mk.inj (Option.some.inj (hres.symm.trans hres'))
      exact ⟨blocks, h⟩
    · obtain ⟨-, rfl⟩ := Prod.mk.inj (Option.some.inj (hres.symm.trans hres'))
      exact ⟨_, h.lose hsize hle hlist⟩
    · obtain ⟨-, rfl⟩ := Prod.mk.inj (Option.some.inj (hres.symm.trans hres'))
      exact ⟨blocks, h⟩
  · have hne : pageCount * pageSize ≠ 0 := by
      intro he
      rw [he] at hmul
      have hz : (0 : Word).toNat = 0 := rfl
      bv_omega
    have hlegal : (Call.alloc (pageCount * pageSize)).Legal s :=
      ⟨hsize, hne, fun _ => by rw [hmul]; exact hwrap⟩
    obtain ⟨s', hs', hnext⟩ := h.alloc hlegal
    have hcall : s.pma.alloc slide (pageCount * pageSize) = some (p, a) := hres
    simp only [Session.step, hcall] at hs'
    obtain rfl := Option.some.inj hs'
    simpa only [or_iff_left hzero] using hnext

/-- A block that lands clear of everything else takes the place of the range freed. -/
theorem land (h : Circulating Set.univ slide s blocks) (hslide : Aligned slide)
    (hr : Lands slide s r) :
    Layout (fun r => ∀ x ∈ r, x ∈ Set.univ) slide (⟨r.addr - slide, r.size⟩ :: blocks)
        (s.held.erase r) ∧
      ∃ x, x ∉ Layout.bytes slide (⟨r.addr - slide, r.size⟩ :: blocks) (s.held.erase r) := by
  have hback := h.layout.handBack hr.held
  obtain ⟨haligned, hsize, hpos⟩ := hback.whole (r.shift slide) (by simp)
  have hblock : Aligned (r.addr - slide) := by
    have hsub := (haligned.sub hslide).sub hslide
    rwa [Range.shift, show slide + r.addr - slide - slide = r.addr - slide by bv_omega] at hsub
  have hothers := (List.pairwise_cons.1 hback.apart).2
  obtain ⟨x, hx⟩ := h.spare (List.ne_nil_of_mem hr.held)
  refine ⟨⟨List.pairwise_cons.2 ⟨fun q hq y hy hyq => ?_, hothers⟩, fun q hq => ?_, by simp⟩, ?_⟩
  · obtain ⟨hfree, hheld⟩ := hr.clear y hy
    rcases List.mem_append.1 hq with hq | hq
    · rw [h.list.freeBytes_eq] at hfree
      exact hfree ⟨q, hq, hyq⟩
    · obtain ⟨u, hu, rfl⟩ := List.mem_map.1 hq
      exact hheld u hu hyq
  · rcases List.mem_cons.1 hq with rfl | hq
    · exact ⟨hblock, hsize, hpos⟩
    · exact hback.whole q (List.mem_cons_of_mem _ hq)
  · -- the sizes are what they were
    have hsum := Range.sum_size_lt h.layout.apart fun q hq hxq => hx ⟨q, hq, hxq⟩
    rw [((Layout.perm_handBack slide blocks hr.held).map fun q => q.size.toNat).sum_eq] at hsum
    have hfew : ((⟨r.addr - slide, r.size⟩ :: blocks ++
        (s.held.erase r).map (Range.shift slide)).map fun q => q.size.toNat).sum < 2 ^ 64 := by
      simpa [Range.shift] using hsum
    obtain ⟨y, hy⟩ := Range.exists_not_mem_of_sum_lt hfew
    refine ⟨y, ?_⟩
    rintro ⟨q, hq, hyq⟩
    exact hy q hq hyq

theorem deallocPages (h : Circulating Set.univ slide s blocks) (hslide : Aligned slide)
    (hr : Lands slide s r) :
    ∃ s', PageCall.step slide s (.deallocPagesContinuous r) = some s' ∧
      ∃ blocks', Circulating Set.univ slide s' blocks' := by
  obtain ⟨hlayout, x, hx⟩ := h.land hslide hr
  obtain ⟨hblock, hsize, hpos⟩ := hlayout.whole ⟨r.addr - slide, r.size⟩ (by simp)
  obtain ⟨a, blocks', hres, hlist, hjoins⟩ := free_joins h.list hsize hblock fun hm => by
    obtain ⟨b, hb, hba⟩ := List.mem_map.1 hm
    have hbpos : 0 < b.size.toNat := (h.layout.whole b (List.mem_append_left _ hb)).2.2
    exact ((List.pairwise_cons.1 hlayout.apart).1 b (by simp [hb])).addr_ne hbpos hpos hba.symm
  rw [if_neg hr.nonnull] at hjoins
  obtain ⟨hlayout', hsame⟩ := hlayout.joins hx hjoins
  have hcount : r.size / pageSize * pageSize = r.size := by
    apply BitVec.eq_of_toNat_eq
    have := r.size.isLt
    rw [BitVec.toNat_mul, BitVec.toNat_udiv, toNat_pageSize]
    simp only at hsize
    omega
  refine ⟨⟨a, s.held.erase r⟩, ?_, blocks', ⟨hlist, hlayout', fun q hq => ?_⟩, fun _ => ⟨x, ?_⟩⟩
  · simp only [PageCall.step, deallocPagesContinuous, hcount, hres]
    rfl
  · exact h.nonzero q (List.mem_of_mem_erase hq)
  · rw [hsame]
    exact hx

theorem pageStep (h : ∃ blocks, Circulating Set.univ slide s blocks) (hslide : Aligned slide)
    {c : PageCall} (hc : c.Legal slide s) :
    ∃ s', c.step slide s = some s' ∧ ∃ blocks, Circulating Set.univ slide s' blocks := by
  obtain ⟨blocks, h⟩ := h
  cases c with
  | allocPagesContinuous pageCount => exact h.allocPages hc
  | deallocPagesContinuous r => exact h.deallocPages hslide hc
  | write x b => exact h.write x b

end Circulating

/-- In every run of measured calls, stores by owners and frees that land clear, the next
`alloc_pages_continuous` refuses or grants what it is asked for, just if it is measured. -/
theorem allocPagesContinuous_run_sound_iff {slide : Word} (hslide : Aligned slide)
    {entries : List MemmapEntry} (hmap : LegalMap entries) (mem : Mem) (calls : List PageCall)
    (hlegal : LegalRun (PageCall.step slide) (fun s c => c.Legal slide s)
      ⟨init slide entries { mem := mem }, []⟩ calls) :
    ∃ s, run (PageCall.step slide) ⟨init slide entries { mem := mem }, []⟩ calls = some s ∧
      ∀ pageCount, Sound slide s.pma pageCount ↔ Measured slide s.pma pageCount := by
  obtain ⟨blocks₀, h₀, -⟩ := Apportioned.ofInit (fun r => ∀ x ∈ r, x ∈ Set.univ) hslide hmap mem
    fun u _ x _ => Set.mem_univ x
  obtain ⟨s, hrun, blocks, h⟩ := legalRun_invariant
    (fun s c hs hc => Circulating.pageStep hs hslide hc)
    ⟨blocks₀, (⟨h₀, fun h => absurd rfl h⟩ : Circulating Set.univ slide _ blocks₀)⟩ calls hlegal
  exact ⟨s, hrun, sound_iff h.list h.layout⟩

/-- A page is taken and given back. -/
theorem allocPagesContinuous_run_sound_iff_one_page :
    ∃ s, run (PageCall.step 0xffff800000000000)
        ⟨init 0xffff800000000000 [⟨0x1000, 0x3000, 0⟩] { mem := fun _ => 0 }, []⟩
        [.allocPagesContinuous 2, .deallocPagesContinuous ⟨0x2000, 0x2000⟩] = some s ∧
      ∀ pageCount, Sound 0xffff800000000000 s.pma pageCount ↔
        Measured 0xffff800000000000 s.pma pageCount := by
  refine allocPagesContinuous_run_sound_iff (by decide)
    ⟨by decide, by decide, by decide, List.pairwise_singleton _ _⟩ _ _
    ⟨Or.inl (by decide), fun s hs => ⟨?_, fun _ _ => trivial⟩⟩
  have hstate : (PageCall.step 0xffff800000000000
      ⟨init 0xffff800000000000 [⟨0x1000, 0x3000, 0⟩] { mem := fun _ => 0 }, []⟩
      (.allocPagesContinuous 2)).map (fun s => (s.held, s.pma.head)) =
        some ([⟨0x2000, 0x2000⟩], 0) := by decide
  rw [hs] at hstate
  obtain ⟨hheld, hhead⟩ := Prod.mk.inj (Option.some.inj hstate)
  refine ⟨by simp [hheld], by decide, fun x _ => ⟨?_, ?_⟩⟩
  · -- nothing is free
    rintro ⟨b, hb, -⟩
    induction hb with
    | head hne => exact hne hhead
    | next _ _ ih => exact ih
  · rw [hheld]
    simp

/-- `2 ^ 52` pages, whose byte size wraps to 0, are granted out of a block of two pages. -/
theorem wrapped_count_granted :
    ¬ Sound 0xffff800000000000
      (init 0xffff800000000000 [⟨0x1000, 0x2000, 0⟩] { mem := fun _ => 0 }) 0x10000000000000 := by
  rintro ⟨p, s', hres, hcase⟩
  have hp : (allocPagesContinuous 0xffff800000000000
      (init 0xffff800000000000 [⟨0x1000, 0x2000, 0⟩] { mem := fun _ => 0 })
      0x10000000000000).map Prod.fst = some 0x2000 := by decide
  rw [hres] at hp
  rcases hcase with ⟨rfl, -⟩ | hgrant
  · simp at hp
  · exact absurd hgrant.noWrap (by decide)

end UnnamedKernel.Mm.Pma
