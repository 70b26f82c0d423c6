import UnnamedKernel.Mm.Pma.Free

/-!
# When `coalesce` joins all that it should

`free` puts the block it is given in front of the list, and `coalesce` goes over the list
once. Blocks that follow each other in memory become one if they do so in the list as
well; of two that stand the other way round the second stays where it is.
-/

namespace UnnamedKernel.Mm.Pma

open UnnamedKernel.Lib UnnamedKernel.Kernel FreeListAllocator

/-- No block of the list ends where one starts. -/
def NoneAdjacent (s : FreeListAllocator) : Prop :=
  ∀ a b, Listed s a → Listed s b → a + s.sizeOf a ≠ b

/-- Whether `alloc` refuses depends on which bytes are free, and not on the blocks that they are
divided into. -/
def DecidedByBytes (slide : Word) (s : FreeListAllocator) : Prop :=
  ∀ size, Aligned size → 4096 + size.toNat + 16 < 2 ^ 64 →
    (s.alloc slide size = some (0, s) ↔
      ∀ r : Range, r.size = 4096 + size → ∃ x ∈ r, x ∉ freeBytes s)

/-- `free` leaves no two blocks that could be one. -/
def Complete (slide : Word) (s : FreeListAllocator) (ptr size : Word) : Prop :=
  ∃ s', s.free slide ptr size = some s' ∧ NoneAdjacent s' ∧ DecidedByBytes slide s'

section List

variable {s : FreeListAllocator} {blocks : List Range}

theorem Chained.noneAdjacent_iff (h : Chained s blocks) :
    NoneAdjacent s ↔ Range.Separate blocks := by
  constructor
  · intro hnone a ha b hb
    have hab := hnone a.addr b.addr ((h.listed_iff _).2 (mem_addrs ha))
      ((h.listed_iff _).2 (mem_addrs hb))
    rwa [h.size a ha] at hab
  · intro hsep x y hx hy
    obtain ⟨a, ha, rfl⟩ := List.mem_map.1 ((h.listed_iff x).1 hx)
    obtain ⟨b, hb, rfl⟩ := List.mem_map.1 ((h.listed_iff y).1 hy)
    rw [h.size a ha]
    exact hsep a ha b hb

theorem FreeList.alloc_refuses_iff (h : FreeList s blocks) (hapart : blocks.Pairwise Range.Apart)
    (hpos : ∀ r ∈ blocks, 0 < r.size.toNat) (slide : Word) {size : Word} (hsize : Aligned size)
    (hwrap : 4096 + size.toNat + 16 < 2 ^ 64) :
    s.alloc slide size = some (0, s) ↔ ∀ r ∈ blocks, r.size.toNat < 4096 + size.toNat := by
  have hcall : s.alloc slide size = allocLoop slide size walkLimit (linkTo []) s := by
    rw [alloc, if_pos ((umod_pageSize_eq_zero_iff size).2 hsize), utilsAlignUp_aligned hsize]
    rfl
  rw [hcall]
  rcases allocLoop_spec slide walkLimit [] blocks h (fun _ => hwrap) h.length_lt with
    ⟨hres, hall⟩ | ⟨pre, r, post, rfl, -, hle, hres⟩
  · exact ⟨fun _ => hall, fun _ => hres⟩
  have htotal : (4096 + size).toNat = 4096 + size.toNat := by bv_omega
  have hsplit : (4096 + size).toNat + 16 < r.size.toNat →
      r.addr + (4096 + size) ∉ addrs (pre ++ r :: post) := by
    intro hlarge hm
    obtain ⟨q, hq, hqa⟩ := List.mem_map.1 hm
    have hne : r ≠ q := by
      rintro rfl
      bv_omega
    refine hapart.forall (by simp) hq hne q.addr ?_ (Range.addr_mem (hpos q hq))
    rw [hqa, Range.mem_iff]
    bv_omega
  have hlist := h.takeFrom_spec ((by decide : Aligned 4096).add hsize) (by omega) hsplit
  refine ⟨fun hnone => ?_, fun hall => ?_⟩
  · -- the block that was cut has gone from the list, or starts elsewhere
    rw [hres, List.nil_append] at hnone
    have hsame := (Prod.mk.inj (Option.some.inj hnone)).2
    have hmem : r.addr ∈ addrs (pre ++ takeBlock (4096 + size) r post) := by
      rw [← hlist.listed_iff, hsame, h.listed_iff]
      simp
    rw [addrs_append, List.mem_append] at hmem
    rcases hmem with hm | hm
    · exact absurd hm h.addr_not_mem.1
    obtain ⟨q, hq, hqa⟩ := List.mem_map.1 hm
    rcases mem_takeBlock hq with hq | ⟨-, rfl⟩
    · exact absurd (hqa ▸ mem_addrs hq) h.addr_not_mem.2
    · rw [Range.part] at hqa
      simp only at hqa
      bv_omega
  · exact absurd (hall r (by simp)) (by omega)

theorem FreeList.decidedByBytes (h : FreeList s blocks) (hapart : blocks.Pairwise Range.Apart)
    (hpos : ∀ r ∈ blocks, 0 < r.size.toNat) (hsep : Range.Separate blocks) (slide : Word) :
    DecidedByBytes slide s := by
  intro size hsize hwrap
  have htotal : (4096 + size).toNat = 4096 + size.toNat := by bv_omega
  rw [h.alloc_refuses_iff hapart hpos slide hsize hwrap, h.freeBytes_eq]
  constructor
  · intro hsmall r hr
    by_contra hall
    push Not at hall
    obtain ⟨b, hb, hwithin⟩ := Range.exists_within_of_covered hapart hsep
      (by rw [hr, htotal]; omega) hall
    have hlt := hsmall b hb
    obtain ⟨k, -, hk⟩ := hwithin
    rw [hr, htotal] at hk
    omega
  · intro hrun r hr
    by_contra hlarge
    obtain ⟨x, hx, hfree⟩ := hrun (r.part 0 (4096 + size)) rfl
    have hwithin : (r.part 0 (4096 + size)).Within r := Range.part_within (by
      rw [htotal]
      have : (0 : Word).toNat = 0 := rfl
      omega)
    exact hfree ⟨r, hr, hwithin.mem hx⟩

end List

/-- `free` leaves no two adjacent blocks just if no block of the list, the new one in front, starts
where a later one ends. On a list of pages the list is complete then. -/
theorem free_complete_iff {slide ptr size : Word} {s : FreeListAllocator} {blocks : List Range}
    (h : Chained s blocks) (hsize : Aligned size)
    (hheaders : ∀ r ∈ blocks, HeadersApart (ptr - slide) r.addr)
    (hapart : (⟨ptr - slide, size⟩ :: blocks).Pairwise Range.Apart)
    (hpos : ∀ r ∈ (⟨ptr - slide, size⟩ :: blocks : List Range), 0 < r.size.toNat) :
    ((∃ s', s.free slide ptr size = some s' ∧ NoneAdjacent s') ↔ ptr - slide = 0 ∨
      (⟨ptr - slide, size⟩ :: blocks).Pairwise fun a b => b.addr + b.size ≠ a.addr) ∧
    (Aligned (ptr - slide) → (∀ r ∈ blocks, Aligned r.addr) →
      (Complete slide s ptr size ↔ ptr - slide = 0 ∨
        (⟨ptr - slide, size⟩ :: blocks).Pairwise fun a b => b.addr + b.size ≠ a.addr)) := by
  obtain ⟨s', hres, hlist⟩ := h.free_spec hsize hheaders
  have hreturns : ∀ P : FreeListAllocator → Prop,
      (∃ s₁, s.free slide ptr size = some s₁ ∧ P s₁) ↔ P s' := by
    intro P
    rw [hres]
    simp
  have hiff := Range.separate_joined_iff (Range.Distinct.of_apart hapart hpos)
  have horder := Range.inOrder_iff hpos
  have hadjacent : NoneAdjacent s' ↔ ptr - slide = 0 ∨
      (⟨ptr - slide, size⟩ :: blocks).Pairwise fun a b => b.addr + b.size ≠ a.addr := by
    rw [hlist.noneAdjacent_iff]
    by_cases hnull : ptr - slide = 0
    · -- the header at the null address makes an empty list
      rw [if_pos hnull, Range.joined_nil]
      exact iff_of_true (by simp [Range.Separate]) (Or.inl hnull)
    · rw [if_neg hnull, hiff, or_iff_right hnull]
      exact horder
  refine ⟨(hreturns NoneAdjacent).trans hadjacent, fun hblock haligned => ?_⟩
  rw [Complete, hreturns fun s₁ => NoneAdjacent s₁ ∧ DecidedByBytes slide s₁, ← hadjacent]
  refine and_iff_left_of_imp fun hnone => ?_
  -- on pages the free bytes decide
  have hsep := hlist.noneAdjacent_iff.1 hnone
  by_cases hnull : ptr - slide = 0
  · rw [if_pos hnull, Range.joined_nil] at hlist hsep
    exact (FreeList.ofChained hlist (by simp)).decidedByBytes .nil (by simp) hsep slide
  · rw [if_neg hnull] at hlist hsep
    have hin := hiff.1 hsep
    obtain ⟨hapart', hpos', -⟩ := Range.joins_apart (Range.joined_joins [] _) hapart
      (hin.not_covered hapart (hpos _ List.mem_cons_self)) hpos
    refine (FreeList.ofChained hlist fun r hr => ?_).decidedByBytes hapart' hpos' hsep slide
    obtain ⟨b, hb, hbr⟩ := List.mem_map.1 (Range.joins_starts_subset
      (Range.joined_joins [] _) (mem_addrs hr))
    rw [← hbr]
    rcases List.mem_cons.1 hb with rfl | hb
    · exact hblock
    · exact haligned b hb

/-- Two pages are freed, the lower one second. -/
theorem free_complete_iff_lower_second :
    ∃ s, Chained s [⟨0x2000, 0x1000⟩] ∧
      ((∃ s', s.free 0 0x1000 0x1000 = some s' ∧ NoneAdjacent s') ↔ (0x1000 : Word) - 0 = 0 ∨
        [(⟨0x1000 - 0, 0x1000⟩ : Range), ⟨0x2000, 0x1000⟩].Pairwise
          fun a b => b.addr + b.size ≠ a.addr) ∧
      (Complete 0 s 0x1000 0x1000 ↔ (0x1000 : Word) - 0 = 0 ∨
        [(⟨0x1000 - 0, 0x1000⟩ : Range), ⟨0x2000, 0x1000⟩].Pairwise
          fun a b => b.addr + b.size ≠ a.addr) := by
  have hempty : FreeList { mem := fun _ => 0 } [] := ⟨rfl, by simp, by simp, by simp, by simp⟩
  have hlist := (hempty.push (b := 0x2000) (by decide) 0x1000 (by simp)).chained
  rw [if_neg (by decide)] at hlist
  have hapart : [(⟨0x1000 - 0, 0x1000⟩ : Range), ⟨0x2000, 0x1000⟩].Pairwise Range.Apart := by
    refine List.pairwise_pair.2 fun x hx hx' => ?_
    rw [Range.mem_iff] at hx hx'
    bv_omega
  have hheaders : ∀ r ∈ [(⟨0x2000, 0x1000⟩ : Range)], HeadersApart (0x1000 - 0) r.addr := by
    rw [List.forall_mem_singleton, HeadersApart]
    decide
  obtain ⟨hnone, hcomplete⟩ :=
    free_complete_iff hlist (by decide) hheaders hapart (by decide)
  exact ⟨_, hlist, hnone, hcomplete (by decide) (by decide)⟩

/-- Two pages are freed, the lower one first: they stay two blocks, and a request that needs both
is refused. The other way round it is granted. -/
theorem lower_first_not_complete :
    ∃ s, FreeListAllocator.free 0 { mem := fun _ => 0 } 0x1000 0x1000 = some s ∧
      FreeList s [⟨0x1000, 0x1000⟩] ∧ ¬ Complete 0 s 0x2000 0x1000 ∧
      ((s.free 0 0x2000 0x1000).bind (alloc 0 · 0x1000)).map Prod.fst = some 0 ∧
      (((FreeListAllocator.free 0 { mem := fun _ => 0 } 0x2000 0x1000).bind
        (FreeListAllocator.free 0 · 0x1000 0x1000)).bind (alloc 0 · 0x1000)).map Prod.fst =
          some 0x2000 := by
  have hempty : FreeList { mem := fun _ => 0 } [] := ⟨rfl, by simp, by simp, by simp, by simp⟩
  obtain ⟨s, hres, hlist⟩ := @free_spec 0 0x1000 0x1000 _ _ hempty (by decide) (by decide)
    (by simp)
  rw [if_neg (by decide), Range.joined_cons, Range.absorb_nil, Range.joined_nil] at hlist
  have hrefused : ((FreeListAllocator.free 0 { mem := fun _ => 0 } 0x1000 0x1000).bind fun s =>
      (s.free 0 0x2000 0x1000).bind (alloc 0 · 0x1000)).map Prod.fst = some 0 := by decide
  have hafter : ((FreeListAllocator.free 0 { mem := fun _ => 0 } 0x1000 0x1000).bind fun s =>
      s.free 0 0x2000 0x1000).map (fun s => (s.head, s.nextOf s.head, s.sizeOf (s.nextOf s.head))) =
        some (0x2000, 0x1000, 0x1000) := by decide
  rw [hres, Option.bind_some] at hrefused hafter
  refine ⟨s, hres, hlist, ?_, hrefused, by decide⟩
  rintro ⟨s', hres', hnone, -⟩
  rw [hres', Option.map_some] at hafter
  obtain ⟨hhead, hrest⟩ := Prod.mk.inj (Option.some.inj hafter)
  obtain ⟨hnext, hsize⟩ := Prod.mk.inj hrest
  have hfirst : Listed s' s'.head := .head (by rw [hhead]; decide)
  refine hnone (s'.nextOf s'.head) s'.head (.next hfirst (by rw [hnext]; decide)) hfirst ?_
  rw [hsize, hnext, hhead]
  decide

end UnnamedKernel.Mm.Pma
