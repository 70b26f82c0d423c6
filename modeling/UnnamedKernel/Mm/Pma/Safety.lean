import UnnamedKernel.Lib.Run
import UnnamedKernel.Mm.Pma.Layout

/-!
# Page frames are handed out once

Runs of `alloc` from `init`, in which the owners of the ranges handed out may write
to them at any time. Free blocks and handed-out ranges stay apart, so the headers
in the free blocks and the bytes of the owners never meet.
-/

namespace UnnamedKernel.Mm.Pma

open UnnamedKernel.Lib UnnamedKernel.Kernel FreeListAllocator

structure Session where
  pma : FreeListAllocator
  /-- the physical ranges returned so far -/
  held : List Range

inductive Call where
  | alloc (size : Word)
  /-- a store to the direct map by the owner of a range -/
  | write (x : Word) (b : BitVec 8)

/-- Requests are whole pages, and no sum wraps when there is a block to look at. -/
def Call.Legal (s : Session) : Call → Prop
  | .alloc size =>
      Aligned size ∧ size ≠ 0 ∧ (s.pma.head ≠ 0 → 4096 + size.toNat + 16 < 2 ^ 64)
  | .write _ _ => True

namespace Session

/-- One call. Stores outside the ranges handed out are no owner's and are ignored. -/
def step (slide : Word) (s : Session) : Call → Option Session
  | .alloc size => do
      let (p, a) ← s.pma.alloc slide size
      some ⟨a, if p = 0 then s.held else ⟨p, size⟩ :: s.held⟩
  | .write x b =>
      if ∃ r ∈ s.held, x ∈ r.shift slide then
        some { s with pma := { s.pma with mem := Function.update s.pma.mem x b } }
      else some s

end Session

/-- A range of the direct map lies inside one usable entry. -/
def InEntry (slide : Word) (entries : List MemmapEntry) (r : Range) : Prop :=
  ∃ u ∈ usableRanges entries, r.Within (u.shift slide)

theorem inEntry_downward (slide : Word) (entries : List MemmapEntry) :
    Downward (InEntry slide entries) := by
  rintro r s hrs ⟨u, hu, hsu⟩
  exact ⟨u, hu, hrs.trans hsu⟩

theorem FreeList.congr_mem {s s' : FreeListAllocator} {blocks : List Range} (h : FreeList s blocks)
    (hhead : s'.head = s.head)
    (hmem : ∀ b ∈ blocks, ∀ x ∈ (⟨b.addr, 16⟩ : Range), s'.mem x = s.mem x) :
    FreeList s' blocks := by
  refine h.congr hhead (fun b hb => Mem.read64_congr fun x hx => hmem b hb x ?_)
    fun b hb => Mem.read64_congr fun x hx => hmem b hb x ?_
  · rw [Range.mem_iff]
    unfold Mem.InRange at hx
    bv_omega
  · rw [Range.mem_iff]
    unfold Mem.InRange at hx
    bv_omega

/-- The allocator of a session and what it has handed out. -/
structure Apportioned (fits : Range → Prop) (slide : Word) (s : Session) (blocks : List Range) :
    Prop where
  list : FreeList s.pma blocks
  layout : Layout fits slide blocks s.held
  nonzero : ∀ r ∈ s.held, r.addr ≠ 0

namespace Apportioned

variable {fits : Range → Prop} {slide : Word} {s : Session} {blocks : List Range}

/-- After `init` every usable entry is a free block, and nothing is handed out. -/
theorem ofInit (fits : Range → Prop) (hslide : Aligned slide) {entries : List MemmapEntry}
    (hmap : LegalMap entries)
    (mem : Mem) (hfits : ∀ u ∈ usableRanges entries, fits (u.shift slide)) :
    ∃ blocks, Apportioned fits slide ⟨init slide entries { mem := mem }, []⟩ blocks ∧
      ((∀ u ∈ usableRanges entries, slide + u.addr ≠ 0) →
        blocks = ((usableRanges entries).map (Range.shift slide)).reverse) := by
  have hempty : FreeList { mem := mem } [] := ⟨rfl, by simp, by simp, by simp, by simp⟩
  have hapart : ((usableRanges entries).map (Range.shift slide)).Pairwise Range.Apart := by
    rw [List.pairwise_map]
    exact hmap.apart.imp fun h => (Range.shift_apart slide).2 h
  have hdistinct : (addrs ((usableRanges entries).map (Range.shift slide))).Nodup := by
    rw [List.Nodup, addrs, List.pairwise_map, List.pairwise_map]
    refine hmap.apart.imp_of_mem fun {u v} hu hv huv => ?_
    exact ((Range.shift_apart slide).2 huv).addr_ne (hmap.nonempty v hv) (hmap.nonempty u hu)
  obtain ⟨blocks, hb, hsub, hall⟩ := init_spec hslide entries hempty
    (fun u hu => (hmap.aligned u hu).1) (by simpa using hdistinct)
  rw [List.append_nil] at hsub hall
  have hmem : ∀ r ∈ blocks, ∃ u ∈ usableRanges entries, u.shift slide = r := fun r hr =>
    List.mem_map.1 (List.mem_reverse.1 (hsub.subset hr))
  refine ⟨blocks, ⟨hb, ⟨?_, fun r hr => ?_, fun r hr => ?_⟩, by simp⟩, hall⟩
  · rw [List.map_nil, List.append_nil]
    exact List.Pairwise.sublist hsub (pairwise_perm hapart (List.reverse_perm _).symm)
  · obtain ⟨u, hu, rfl⟩ := hmem r (by simpa using hr)
    exact ⟨hslide.add (hmap.aligned u hu).1, (hmap.aligned u hu).2, hmap.nonempty u hu⟩
  · obtain ⟨u, hu, rfl⟩ := hmem r (by simpa using hr)
    exact hfits u hu

/-- Owners write to their own ranges, which hold no header. -/
theorem write (h : Apportioned fits slide s blocks) (x : Word) (b : BitVec 8) :
    ∃ s', s.step slide (.write x b) = some s' ∧ s'.held = s.held ∧
      Apportioned fits slide s' blocks := by
  by_cases hx : ∃ r ∈ s.held, x ∈ r.shift slide
  · refine ⟨{ s with pma := { s.pma with mem := Function.update s.pma.mem x b } },
      by simp only [Session.step, if_pos hx], rfl, ?_, h.layout, h.nonzero⟩
    refine h.list.congr_mem rfl fun q hq y hy => Function.update_of_ne ?_ _ _
    rintro rfl
    obtain ⟨r, hr, hxr⟩ := hx
    have hq' := (Layout.header_within (h.layout.whole q (by simp [hq])).2).mem hy
    exact (List.pairwise_append.1 h.layout.apart).2.2 q hq _ (List.mem_map_of_mem hr) y hq' hxr
  · exact ⟨s, by simp only [Session.step, if_neg hx], rfl, h⟩

end Apportioned

theorem InEntry.physical {slide : Word} {entries : List MemmapEntry} (hmap : LegalMap entries)
    {r : Range} (hpos : 0 < r.size.toNat) (h : InEntry slide entries (r.shift slide)) :
    ∃ u ∈ usableRanges entries, u.addr.toNat ≤ r.addr.toNat ∧
      r.addr.toNat + r.size.toNat ≤ u.addr.toNat + u.size.toNat := by
  obtain ⟨u, hu, hw⟩ := h
  obtain ⟨k, hk, hle⟩ := (Range.shift_within slide).1 hw
  have hbound := hmap.bound u hu
  refine ⟨u, hu, ?_⟩
  bv_omega

theorem InEntry.taken_ne_zero {slide : Word} {entries : List MemmapEntry} (hmap : LegalMap entries)
    {r : Range} {size : Word} (hle : 4096 + size.toNat ≤ r.size.toNat) (hpos : 0 < size.toNat)
    (h : InEntry slide entries r) : r.addr + 4096 - slide ≠ 0 := by
  obtain ⟨u, hu, k, hk, hks⟩ := h
  have hbound := hmap.bound u hu
  simp only [Range.shift] at hk hks
  bv_omega

/-- What the callers of the allocator may rely on. -/
structure Safe (slide : Word) (entries : List MemmapEntry) (s : Session) : Prop where
  /-- Every range returned is page-aligned and lies in one usable entry. -/
  returned : ∀ r ∈ s.held, r.addr ≠ 0 ∧ Aligned r.addr ∧
    ∃ u ∈ usableRanges entries, u.addr.toNat ≤ r.addr.toNat ∧
      r.addr.toNat + r.size.toNat ≤ u.addr.toNat + u.size.toNat
  disjoint : s.held.Pairwise Range.Apart
  /-- The free blocks are apart, in the image of usable memory, and clear of what is held. -/
  blocks : ∃ blocks, FreeList s.pma blocks ∧ blocks.Pairwise Range.Apart ∧
    (∀ b ∈ blocks, InEntry slide entries b) ∧
    ∀ b ∈ blocks, ∀ r ∈ s.held, Range.Apart b (r.shift slide)
  /-- The next call returns, leaves the bytes of all handed-out ranges alone, and
  changes nothing when it fails. -/
  next : ∀ size, (Call.alloc size).Legal s → ∃ p s', s.pma.alloc slide size = some (p, s') ∧
    (p = 0 → s' = s.pma) ∧
    (∀ r ∈ s.held, ∀ x ∈ r.shift slide, s'.mem x = s.pma.mem x) ∧
    (p ≠ 0 → ∀ x ∈ Range.shift slide ⟨p, size⟩, s'.mem x = s.pma.mem x)

section Entries

variable {slide : Word} {entries : List MemmapEntry} {s : Session} {blocks : List Range}

theorem Apportioned.alloc (hmap : LegalMap entries)
    (h : Apportioned (InEntry slide entries) slide s blocks) {size : Word}
    (hlegal : (Call.alloc size).Legal s) :
    ∃ p a, s.pma.alloc slide size = some (p, a) ∧ (p = 0 → a = s.pma) ∧
      (∃ blocks', Apportioned (InEntry slide entries) slide
        ⟨a, if p = 0 then s.held else ⟨p, size⟩ :: s.held⟩ blocks') ∧
      (∀ r ∈ s.held, ∀ x ∈ r.shift slide, a.mem x = s.pma.mem x) ∧
      (p ≠ 0 → ∀ x ∈ Range.shift slide ⟨p, size⟩, a.mem x = s.pma.mem x) := by
  obtain ⟨hsize, hne, hwrap⟩ := hlegal
  rcases alloc_spec (inEntry_downward slide entries) h.list h.layout hsize hne hwrap with
    ⟨hres, -⟩ | ⟨pre, r, post, a, rfl, -, hle, hres, hlist, hlayout, hmem⟩
  · exact ⟨0, s.pma, hres, fun _ => rfl, ⟨blocks, by simpa using h⟩, fun _ _ _ _ => rfl,
      fun _ _ _ => rfl⟩
  · have hpos : 0 < size.toNat := by bv_omega
    have hp : r.addr + 4096 - slide ≠ 0 := InEntry.taken_ne_zero hmap hle hpos
      h.layout.block.2.2.2
    refine ⟨_, a, hres, fun hp0 => absurd hp0 hp, ⟨pre ++ takeBlock (4096 + size) r post, ?_⟩,
      fun q hq x hx => ?_, fun _ x hx => ?_⟩
    · rw [if_neg hp]
      refine ⟨hlist, hlayout, fun q hq => ?_⟩
      rcases List.mem_cons.1 hq with rfl | hq
      · exact hp
      · exact h.nonzero q hq
    · exact hmem x ⟨q, by simp [hq], hx⟩
    · exact hmem x ⟨_, List.mem_cons_self .., hx⟩

theorem Apportioned.step (hmap : LegalMap entries)
    (h : ∃ blocks, Apportioned (InEntry slide entries) slide s blocks) {c : Call}
    (hc : c.Legal s) :
    ∃ s', s.step slide c = some s' ∧
      ∃ blocks, Apportioned (InEntry slide entries) slide s' blocks := by
  obtain ⟨blocks, h⟩ := h
  cases c with
  | alloc size =>
      obtain ⟨p, a, hres, -, hnext, -, -⟩ := h.alloc hmap hc
      exact ⟨_, by simp only [Session.step, hres]; rfl, hnext⟩
  | write x b =>
      obtain ⟨s', hres, -, hnext⟩ := h.write x b
      exact ⟨s', hres, blocks, hnext⟩

theorem Apportioned.safe (hmap : LegalMap entries) (hslide : Aligned slide)
    (h : Apportioned (InEntry slide entries) slide s blocks) : Safe slide entries s := by
  obtain ⟨hb, hh, hbh⟩ := List.pairwise_append.1 h.layout.apart
  refine ⟨fun r hr => ?_, ?_, ⟨blocks, h.list, hb, fun b hb => h.layout.inside b (by simp [hb]),
    fun b hb r hr => hbh b hb _ (List.mem_map_of_mem hr)⟩, fun size hlegal => ?_⟩
  · have hmem : r.shift slide ∈ blocks ++ s.held.map (Range.shift slide) :=
      List.mem_append_right _ (List.mem_map_of_mem hr)
    obtain ⟨hra, -, hpos⟩ := h.layout.whole _ hmem
    have hphys := InEntry.physical (r := r) hmap hpos (h.layout.inside _ hmem)
    have haligned : Aligned r.addr := by
      have hsub := hra.sub hslide
      rwa [Range.shift, show slide + r.addr - slide = r.addr by bv_omega] at hsub
    exact ⟨h.nonzero r hr, haligned, hphys⟩
  · rw [List.pairwise_map] at hh
    exact hh.imp fun h => (Range.shift_apart slide).1 h
  · obtain ⟨p, a, hres, hzero, -, hheld, hnew⟩ := h.alloc hmap hlegal
    exact ⟨p, a, hres, hzero, hheld, hnew⟩

end Entries

/-- Every run of `alloc` after `init` returns and hands out each byte of usable memory
at most once, whatever the owners of handed-out ranges write to them. -/
theorem alloc_run_safe {slide : Word} (hslide : Aligned slide) {entries : List MemmapEntry}
    (hmap : LegalMap entries) (mem : Mem) (calls : List Call)
    (hlegal : LegalRun (Session.step slide) (fun s c => c.Legal s)
      ⟨init slide entries { mem := mem }, []⟩ calls) :
    ∃ s, run (Session.step slide) ⟨init slide entries { mem := mem }, []⟩ calls = some s ∧
      Safe slide entries s := by
  obtain ⟨blocks₀, h₀, -⟩ := Apportioned.ofInit (InEntry slide entries) hslide hmap mem
    fun u hu => ⟨u, hu, .refl _⟩
  obtain ⟨s, hrun, blocks, h⟩ := legalRun_invariant
    (fun s c hs hc => Apportioned.step hmap hs hc) ⟨blocks₀, h₀⟩ calls hlegal
  exact ⟨s, hrun, h.safe hmap hslide⟩

/-- One page out of a map of three. -/
theorem alloc_run_safe_three_pages :
    ∃ s, run (Session.step 0xffff800000000000)
        ⟨init 0xffff800000000000 [⟨0x1000, 0x3000, 0⟩] { mem := fun _ => 0 }, []⟩
        [.alloc 0x1000] = some s ∧ Safe 0xffff800000000000 [⟨0x1000, 0x3000, 0⟩] s :=
  alloc_run_safe (by decide) ⟨by decide, by decide, by decide, List.pairwise_singleton _ _⟩ _ _
    ⟨⟨by decide, by decide, fun _ => by decide⟩, fun _ _ => trivial⟩

/-- An empty entry inside another one makes the list circular: its header is the header
of the block that `init` pushes next, and the same page is handed out twice. -/
theorem alloc_twice_of_empty_entry :
    (usableRanges [⟨0x1000, 0, 0⟩, ⟨0x1000, 0x3000, 0⟩]).Pairwise Range.Apart ∧
      (∀ u ∈ usableRanges [⟨0x1000, 0, 0⟩, ⟨0x1000, 0x3000, 0⟩],
        Aligned u.addr ∧ u.size.toNat % 4096 = 0) ∧
      LegalRun (Session.step 0xffff800000000000) (fun s c => c.Legal s)
        ⟨init 0xffff800000000000 [⟨0x1000, 0, 0⟩, ⟨0x1000, 0x3000, 0⟩] { mem := fun _ => 0 }, []⟩
        [.alloc 0x1000, .alloc 0x1000] ∧
      (run (Session.step 0xffff800000000000)
        ⟨init 0xffff800000000000 [⟨0x1000, 0, 0⟩, ⟨0x1000, 0x3000, 0⟩] { mem := fun _ => 0 }, []⟩
        [.alloc 0x1000, .alloc 0x1000]).map Session.held =
          some [⟨0x2000, 0x1000⟩, ⟨0x2000, 0x1000⟩] := by
  refine ⟨?_, by decide, ?_, by decide⟩
  · refine List.pairwise_pair.2 fun x hx => ?_
    rw [Range.mem_iff] at hx
    bv_omega
  · have hcall : ∀ s : Session, (Call.alloc 0x1000).Legal s := fun _ =>
      ⟨by decide, by decide, fun _ => by decide⟩
    exact ⟨hcall _, fun _ _ => ⟨hcall _, fun _ _ => trivial⟩⟩

end UnnamedKernel.Mm.Pma
