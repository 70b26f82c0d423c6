import UnnamedKernel.Lib.Joining
import UnnamedKernel.Mm.Pma.Layout

/-!
# `free` and `coalesce` on the free list

`coalesce` joins the blocks of the list in one pass. On a list whose blocks lie apart
that leaves the free bytes as they are; on any list, a circular one too, it adds none.
-/

namespace UnnamedKernel.Mm.Pma

open UnnamedKernel.Lib UnnamedKernel.Kernel FreeListAllocator Relation

theorem linkTo_congr {pre pre' : List Range} (h : addrs pre = addrs pre') :
    linkTo pre = linkTo pre' := by
  have hlast : ∀ l : List Range, linkTo l = ((addrs l).getLast?.map Link.next).getD .head := by
    intro l
    unfold linkTo addrs
    rw [List.getLast?_map]
    cases l.getLast? <;> rfl
  rw [hlast, hlast, h]

/-- The inner loop: `a` swallows the blocks behind `b` that start at its end. -/
theorem absorbLoop_spec (fuel : Nat) (pre : List Range) (a : Range) (mid post : List Range)
    {b : Word} {s : FreeListAllocator} (h : Chained s (pre ++ a :: (mid ++ post)))
    (hb : linkTo (pre ++ a :: mid) = .next b) (hfuel : post.length < fuel) :
    ∃ s', absorbLoop a.addr fuel b s = some s' ∧
      Chained s' (pre ++ (Range.absorb a post).1 :: (mid ++ (Range.absorb a post).2)) := by
  induction fuel generalizing a mid post b s with
  | zero => omega
  | succ fuel ih =>
      have hnext : s.nextOf b = s.load (linkTo (pre ++ a :: mid)) := by rw [hb]; rfl
      rcases post with _ | ⟨r, post⟩
      · have h' : Chained s (pre ++ a :: mid) := by simpa using h
        rw [h'.load_end] at hnext
        exact ⟨s, by rw [absorbLoop, if_pos hnext], h⟩
      have h' : Chained s ((pre ++ a :: mid) ++ r :: post) := by simpa using h
      rw [h'.load_at] at hnext
      have hsize : s.sizeOf a.addr = a.size := h.size a (by simp)
      have hrsize : s.sizeOf r.addr = r.size := h'.size r (by simp)
      have hnonnull : r.addr ≠ 0 := h'.nonnull r (by simp)
      simp only [absorbLoop, hnext, if_neg hnonnull, hsize, hrsize]
      by_cases hadj : a.addr + a.size = r.addr
      · rw [if_pos hadj, Range.absorb_cons_of_eq hadj]
        have hgrown := h.resize (a.size + r.size)
        have hgrown' : Chained (s.setSize a.addr (a.size + r.size))
            ((pre ++ ⟨a.addr, a.size + r.size⟩ :: mid) ++ r :: post) := by simpa using hgrown
        have hlink : linkTo (pre ++ (⟨a.addr, a.size + r.size⟩ : Range) :: mid) = .next b := by
          rw [← hb]
          exact linkTo_congr (by simp)
        have hnext' : (s.setSize a.addr (a.size + r.size)).nextOf b = r.addr := by
          have hload := hgrown'.load_at
          rwa [hlink] at hload
        have hdrop := hgrown'.unlink
        rw [hlink] at hdrop
        rw [hnext']
        have hdrop' : Chained ((s.setSize a.addr (a.size + r.size)).setNext b
            ((s.setSize a.addr (a.size + r.size)).nextOf r.addr))
            (pre ++ ⟨a.addr, a.size + r.size⟩ :: (mid ++ post)) := by simpa [store] using hdrop
        exact ih ⟨a.addr, a.size + r.size⟩ mid post hdrop' hlink (by simpa using hfuel)
      · rw [if_neg hadj, Range.absorb_cons_of_ne hadj]
        have hstep := ih a (mid ++ [r]) post (by simpa using h)
          (by rw [← linkTo_concat (pre ++ a :: mid) r]; simp) (by simpa using hfuel)
        simpa using hstep

theorem coalesceLoop_spec (fuel : Nat) (pre rest : List Range) {s : FreeListAllocator}
    (h : Chained s (pre ++ rest)) (hfuel : rest.length < fuel) :
    ∃ s', coalesceLoop fuel (s.load (linkTo pre)) s = some s' ∧
      Chained s' (pre ++ Range.joined rest) := by
  induction fuel generalizing pre rest s with
  | zero => omega
  | succ fuel ih =>
      rcases rest with _ | ⟨a, rest⟩
      · rw [List.append_nil] at h
        rw [Range.joined_nil, List.append_nil]
        exact ⟨s, by rw [coalesceLoop, if_pos h.load_end], h⟩
      have hlen : rest.length < walkLimit := by
        have := h.length_lt
        simp only [List.length_append, List.length_cons] at this
        omega
      obtain ⟨s₁, hres, hlist⟩ :=
        absorbLoop_spec walkLimit pre a [] rest (by simpa using h) (linkTo_concat pre a) hlen
      have hle := Range.length_absorb_le a rest
      have haddr := Range.absorb_addr a rest
      rw [Range.joined_cons]
      generalize Range.absorb a rest = absorbed at hlist hle haddr ⊢
      obtain ⟨a', rest'⟩ := absorbed
      have hlist' : Chained s₁ ((pre ++ [a']) ++ rest') := by simpa using hlist
      have hnext : s₁.load (linkTo (pre ++ [a'])) = s₁.nextOf a.addr := by
        rw [linkTo_concat, haddr]
        rfl
      simp only [List.length_cons] at hle hfuel
      obtain ⟨s', hres', hlist'⟩ := ih (pre ++ [a']) rest' hlist' (by omega)
      rw [hnext] at hres'
      refine ⟨s', ?_, by simpa using hlist'⟩
      rw [h.load_at, coalesceLoop, if_neg (h.nonnull a (by simp)), hres]
      exact hres'

/-- `coalesce` returns, and all it does to the list is one pass of joining. -/
theorem Chained.coalesce_spec {s : FreeListAllocator} {blocks : List Range} (h : Chained s blocks) :
    ∃ s', s.coalesce = some s' ∧ Chained s' (Range.joined blocks) :=
  coalesceLoop_spec walkLimit [] blocks h h.length_lt

theorem coalesce_spec {s : FreeListAllocator} {blocks : List Range} (h : FreeList s blocks) :
    ∃ s', s.coalesce = some s' ∧ FreeList s' (Range.joined blocks) := by
  obtain ⟨s', hres, hlist⟩ := h.chained.coalesce_spec
  refine ⟨s', hres, .ofChained hlist fun r hr => ?_⟩
  obtain ⟨b, hb, hbr⟩ := List.mem_map.1 (Range.joins_starts_subset
    (Range.joined_joins [] blocks) (mem_addrs hr))
  exact hbr ▸ h.aligned b hb

theorem headers_of_apart {blocks : List Range} (hapart : blocks.Pairwise Range.Apart)
    (hsize : ∀ r ∈ blocks, 16 ≤ r.size.toNat) : (addrs blocks).Pairwise HeadersApart := by
  refine List.pairwise_map.2 (hapart.imp_of_mem fun {r t} hr ht hrt => ?_)
  have hr' := hsize r hr
  have ht' := hsize t ht
  have hrt' : r.addr ∉ t := hrt r.addr (Range.addr_mem (by omega))
  have htr' : t.addr ∉ r := hrt.symm t.addr (Range.addr_mem (by omega))
  rw [Range.mem_iff] at hrt' htr'
  unfold HeadersApart
  bv_omega

/-- A block that is not empty and does not wrap. -/
def Proper (r : Range) : Prop := 0 < r.size.toNat ∧ r.addr.toNat + r.size.toNat ≤ 2 ^ 64

instance (r : Range) : Decidable (Proper r) := inferInstanceAs (Decidable (_ ∧ _))

theorem zero_not_covered {blocks : List Range} (hproper : ∀ r ∈ blocks, Proper r)
    (hnonnull : ∀ r ∈ blocks, r.addr ≠ 0) : (0 : Word) ∉ Range.covered blocks := by
  rintro ⟨r, hr, hzero⟩
  have hfit := (hproper r hr).2
  have hne := hnonnull r hr
  rw [Range.mem_iff] at hzero
  bv_omega

/-- On any acyclic list of blocks that lie apart, whatever their order, `coalesce` returns and
leaves such a list. It covers the same bytes, and each of its blocks is some of the blocks
before, one behind the other. -/
theorem coalesce_only_merges {s : FreeListAllocator} {blocks : List Range}
    (h : Chained s blocks) (hapart : blocks.Pairwise Range.Apart)
    (hproper : ∀ r ∈ blocks, Proper r) :
    ∃ s' blocks', s.coalesce = some s' ∧ Chained s' blocks' ∧ blocks'.Pairwise Range.Apart ∧
      (∀ r ∈ blocks', Proper r) ∧ Range.covered blocks' = Range.covered blocks ∧
      ∃ parts : List (List Range), List.Forall₂ Range.UnionOf blocks' parts ∧
        parts.flatten.Perm blocks := by
  obtain ⟨s', hres, hlist⟩ := h.coalesce_spec
  have hjoins := Range.joined_joins [] blocks
  rw [List.nil_append, List.nil_append] at hjoins
  have hpos : ∀ r ∈ blocks, 0 < r.size.toNat := fun r hr => (hproper r hr).1
  have hzero := zero_not_covered hproper h.nonnull
  obtain ⟨hapart', hpos', hsame⟩ := Range.joins_apart hjoins hapart hzero hpos
  refine ⟨s', Range.joined blocks, hres, hlist, hapart', fun r hr => ⟨hpos' r hr, ?_⟩, hsame,
    Range.joins_unions hjoins hapart hzero hpos⟩
  have hmiss : (0 : Word) ∉ r := fun hm => hzero (hsame ▸ ⟨r, hr, hm⟩)
  rw [Range.mem_iff] at hmiss
  bv_omega

/-- Two neighbours, the upper one first in the list, and a block behind them. -/
theorem coalesce_only_merges_three_blocks :
    let s : FreeListAllocator := { mem := fun _ => 0, head := 0x1020 }
    let s := ((s.setSize 0x1020 0x10).setNext 0x1020 0x1000).setSize 0x1000 0x20
    let s := ((s.setNext 0x1000 0x1030).setSize 0x1030 0x18).setNext 0x1030 0
    ∃ s' blocks', s.coalesce = some s' ∧ Chained s' blocks' ∧ blocks'.Pairwise Range.Apart ∧
      (∀ r ∈ blocks', Proper r) ∧
      Range.covered blocks' = Range.covered [⟨0x1020, 0x10⟩, ⟨0x1000, 0x20⟩, ⟨0x1030, 0x18⟩] ∧
      ∃ parts : List (List Range), List.Forall₂ Range.UnionOf blocks' parts ∧
        parts.flatten.Perm [⟨0x1020, 0x10⟩, ⟨0x1000, 0x20⟩, ⟨0x1030, 0x18⟩] := by
  have hapart : List.Pairwise Range.Apart
      [⟨0x1020, 0x10⟩, ⟨0x1000, 0x20⟩, ⟨0x1030, 0x18⟩] := by
    simp only [List.pairwise_cons, List.mem_cons, List.not_mem_nil, or_false, forall_eq_or_imp,
      forall_eq, Range.Apart, Range.mem_iff]
    refine ⟨⟨fun x => ?_, fun x => ?_⟩, fun x => ?_, by simp⟩ <;> bv_omega
  exact coalesce_only_merges
    ⟨⟨rfl, by decide, by decide, Links.nil_iff.2 (by decide)⟩, by decide, by decide,
      headers_of_apart hapart (by decide)⟩ hapart (by decide)

/-- `free` pushes the block at `ptr - slide`, then coalesces. -/
theorem Chained.free_spec {slide ptr size : Word} {s : FreeListAllocator} {blocks : List Range}
    (h : Chained s blocks) (hsize : Aligned size)
    (hfresh : ∀ r ∈ blocks, HeadersApart (ptr - slide) r.addr) :
    ∃ s', s.free slide ptr size = some s' ∧ Chained s' (Range.joined
      (if ptr - slide = 0 then [] else ⟨ptr - slide, size⟩ :: blocks)) := by
  obtain ⟨s', hres, hlist⟩ := (h.push size hfresh).coalesce_spec
  exact ⟨s', by rw [FreeListAllocator.free,
    if_pos ((umod_pageSize_eq_zero_iff size).2 hsize)]; exact hres, hlist⟩

theorem free_spec {slide ptr size : Word} {s : FreeListAllocator} {blocks : List Range}
    (h : FreeList s blocks) (hsize : Aligned size) (hblock : Aligned (ptr - slide))
    (hfresh : ptr - slide ∉ addrs blocks) :
    ∃ s', s.free slide ptr size = some s' ∧ FreeList s' (Range.joined
      (if ptr - slide = 0 then [] else ⟨ptr - slide, size⟩ :: blocks)) := by
  obtain ⟨s', hres, hlist⟩ := coalesce_spec (h.push hblock size hfresh)
  exact ⟨s', by rw [FreeListAllocator.free,
    if_pos ((umod_pageSize_eq_zero_iff size).2 hsize)]; exact hres, hlist⟩

theorem free_joins {slide ptr size : Word} {s : FreeListAllocator} {blocks : List Range}
    (h : FreeList s blocks) (hsize : Aligned size) (hblock : Aligned (ptr - slide))
    (hfresh : ptr - slide ∉ addrs blocks) :
    ∃ s' blocks', s.free slide ptr size = some s' ∧ FreeList s' blocks' ∧
      ReflTransGen Range.Join
        (if ptr - slide = 0 then [] else ⟨ptr - slide, size⟩ :: blocks) blocks' := by
  obtain ⟨s', hres, hlist⟩ := free_spec h hsize hblock hfresh
  exact ⟨s', _, hres, hlist, Range.joined_joins [] _⟩

end UnnamedKernel.Mm.Pma
