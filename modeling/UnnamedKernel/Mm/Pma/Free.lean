import UnnamedKernel.Mm.Pma.Coalesce
import UnnamedKernel.Mm.Pma.Safety

/-!
# What `free` gives back

`alloc` returns a direct-map address minus `slide`; `free` takes `slide` off once
more where it should add it. The two agree when twice `slide` is nothing, and then
a freed range is free again byte for byte. Otherwise the bytes that `free` puts on
the list are not the ones that `alloc` took off it.
-/

namespace UnnamedKernel.Mm.Pma

open UnnamedKernel.Lib UnnamedKernel.Kernel FreeListAllocator Relation

/-- The blocks that the pointers lead to from `m_head`. -/
inductive Listed (s : FreeListAllocator) : Word → Prop where
  | head (h : s.head ≠ 0) : Listed s s.head
  | next {b : Word} (hb : Listed s b) (h : s.nextOf b ≠ 0) : Listed s (s.nextOf b)

/-- The free bytes, by direct-map address. -/
def freeBytes (s : FreeListAllocator) : Set Word :=
  {x | ∃ b, Listed s b ∧ x ∈ (⟨b, s.sizeOf b⟩ : Range)}

/-- Freeing `r` makes its bytes free that were not, and changes no other byte's state. -/
def GivesBack (slide : Word) (s : FreeListAllocator) (r : Range) : Prop :=
  ∃ s', s.free slide r.addr r.size = some s' ∧
    Disjoint (freeBytes s) {x | x ∈ r.shift slide} ∧
    freeBytes s' = freeBytes s ∪ {x | x ∈ r.shift slide}

theorem Chained.listed_iff {s : FreeListAllocator} {blocks : List Range} (h : Chained s blocks)
    (b : Word) : Listed s b ↔ b ∈ addrs blocks := by
  constructor
  · intro hb
    induction hb with
    | head hne =>
        rcases blocks with _ | ⟨r, blocks⟩
        · exact absurd h.links hne
        · rw [show s.head = r.addr from h.links.1]
          simp
    | next hb hne ih =>
        obtain ⟨r, hr, rfl⟩ := List.mem_map.1 ih
        obtain ⟨pre, post, rfl⟩ := List.append_of_mem hr
        have hlinks := h.next_links
        rcases post with _ | ⟨q, post⟩
        · exact absurd hlinks hne
        · rw [show s.nextOf r.addr = q.addr from hlinks.1]
          simp
  · intro hb
    obtain ⟨r, hr, rfl⟩ := List.mem_map.1 hb
    obtain ⟨pre, post, rfl⟩ := List.append_of_mem hr
    clear hb hr
    -- along the list, from `m_head` on
    induction pre using List.reverseRecOn generalizing r post with
    | nil =>
        have hhead : s.head = r.addr := h.links.1
        rw [← hhead]
        exact .head (hhead ▸ h.nonnull r (by simp))
    | append_singleton pre q ih =>
        have h' : Chained s (pre ++ q :: r :: post) := by simpa using h
        have hnext : s.nextOf q.addr = r.addr := h'.next_links.1
        rw [← hnext]
        exact .next (ih q (r :: post) h') (hnext ▸ h.nonnull r (by simp))

theorem FreeList.listed_iff {s : FreeListAllocator} {blocks : List Range} (h : FreeList s blocks)
    (b : Word) : Listed s b ↔ b ∈ addrs blocks :=
  h.chained.listed_iff b

theorem FreeList.freeBytes_eq {s : FreeListAllocator} {blocks : List Range}
    (h : FreeList s blocks) : freeBytes s = Range.covered blocks := by
  ext x
  constructor
  · rintro ⟨b, hb, hx⟩
    obtain ⟨r, hr, rfl⟩ := List.mem_map.1 ((h.listed_iff b).1 hb)
    rw [h.size r hr] at hx
    exact ⟨r, hr, hx⟩
  · rintro ⟨r, hr, hx⟩
    refine ⟨r.addr, (h.listed_iff _).2 (mem_addrs hr), ?_⟩
    rwa [h.size r hr]

/-! ## `coalesce` adds no byte -/

/-- The pointers stay among the blocks `V`, whose bytes are in `S`. -/
structure Closed (s : FreeListAllocator) (V S : Set Word) : Prop where
  aligned : ∀ a ∈ V, Aligned a
  head : s.head = 0 ∨ s.head ∈ V
  next : ∀ a ∈ V, s.nextOf a = 0 ∨ s.nextOf a ∈ V
  bytes : ∀ a ∈ V, ∀ x ∈ (⟨a, s.sizeOf a⟩ : Range), x ∈ S

namespace Closed

variable {s s' : FreeListAllocator} {V S : Set Word}

theorem listed (h : Closed s V S) {b : Word} (hb : Listed s b) : b ∈ V := by
  induction hb with
  | head hne => exact h.head.resolve_left hne
  | next hb hne ih => exact (h.next _ ih).resolve_left hne

theorem freeBytes_subset (h : Closed s V S) : freeBytes s ⊆ S := by
  rintro x ⟨b, hb, hx⟩
  exact h.bytes b (h.listed hb) x hx

theorem setNext (h : Closed s V S) {b v : Word} (hb : b ∈ V) (hv : v = 0 ∨ v ∈ V) :
    Closed (s.setNext b v) V S := by
  refine ⟨h.aligned, h.head, fun a ha => ?_, fun a ha x hx => ?_⟩
  · rw [nextOf_setNext (h.aligned b hb) (h.aligned a ha)]
    split_ifs
    · exact hv
    · exact h.next a ha
  · rw [sizeOf_setNext (h.aligned b hb) (h.aligned a ha)] at hx
    exact h.bytes a ha x hx

/-- A block that grows over the one at its end; a sum that overflows makes it smaller. -/
theorem grow (h : Closed s V S) {a r : Word} (ha : a ∈ V) (hr : r ∈ V)
    (hadj : a + s.sizeOf a = r) : Closed (s.setSize a (s.sizeOf a + s.sizeOf r)) V S := by
  refine ⟨h.aligned, h.head, fun b hb => ?_, fun b hb x hx => ?_⟩
  · rw [nextOf_setSize (h.aligned a ha) (h.aligned b hb)]
    exact h.next b hb
  · rw [sizeOf_setSize (h.aligned a ha) (h.aligned b hb)] at hx
    split_ifs at hx with hba
    · subst hba
      rw [Range.mem_iff] at hx
      have hcases : x - b < s.sizeOf b ∨ x - r < s.sizeOf r := by bv_omega
      rcases hcases with hx | hx
      · exact h.bytes b hb x hx
      · exact h.bytes r hr x hx
    · exact h.bytes b hb x hx

theorem absorbLoop (h : Closed s V S) {a b : Word} (ha : a ∈ V) (hb : b ∈ V) {fuel : Nat}
    (hres : absorbLoop a fuel b s = some s') : Closed s' V S := by
  induction fuel generalizing b s with
  | zero => simp [FreeListAllocator.absorbLoop] at hres
  | succ fuel ih =>
      rw [FreeListAllocator.absorbLoop] at hres
      by_cases hend : s.nextOf b = 0
      · rw [if_pos hend] at hres
        obtain rfl : s = s' := by simpa using hres
        exact h
      have hr : s.nextOf b ∈ V := (h.next b hb).resolve_left hend
      rw [if_neg hend] at hres
      simp only at hres
      by_cases hadj : a + s.sizeOf a = s.nextOf b
      · rw [if_pos hadj] at hres
        have hgrown := h.grow ha hr hadj
        have hkeep : (s.setSize a (s.sizeOf a + s.sizeOf (s.nextOf b))).nextOf b = s.nextOf b :=
          nextOf_setSize (h.aligned a ha) (h.aligned b hb) _
        refine ih (hgrown.setNext hb ?_) hb hres
        rw [hkeep]
        exact hgrown.next _ hr
      · rw [if_neg hadj] at hres
        exact ih h hr hres

theorem coalesceLoop (h : Closed s V S) {a : Word} (ha : a = 0 ∨ a ∈ V) {fuel : Nat}
    (hres : coalesceLoop fuel a s = some s') : Closed s' V S := by
  induction fuel generalizing a s with
  | zero => simp [FreeListAllocator.coalesceLoop] at hres
  | succ fuel ih =>
      rw [FreeListAllocator.coalesceLoop] at hres
      by_cases hend : a = 0
      · rw [if_pos hend] at hres
        obtain rfl : s = s' := by simpa using hres
        exact h
      have ha' := ha.resolve_left hend
      rw [if_neg hend] at hres
      obtain ⟨s₁, hres₁, hres⟩ := Option.bind_eq_some_iff.1 hres
      have h₁ := h.absorbLoop ha' ha' hres₁
      exact ih h₁ (h₁.next a ha') hres

end Closed

/-- Whatever list it is given, `free` frees no byte outside the block it writes. -/
theorem free_subset {slide ptr size : Word} {s s' : FreeListAllocator} {blocks : List Range}
    (h : FreeList s blocks) (hblock : Aligned (ptr - slide))
    (hres : s.free slide ptr size = some s') :
    freeBytes s' ⊆ Range.covered blocks ∪ {x | x ∈ (⟨ptr - slide, size⟩ : Range)} := by
  set b := ptr - slide with hb
  set s₁ := (s.setSize b size).setNext b s.head with hs₁
  have hsizeOf : ∀ a, Aligned a → s₁.sizeOf a = if a = b then size else s.sizeOf a := by
    intro a ha
    rw [hs₁, sizeOf_setNext hblock ha, sizeOf_setSize hblock ha]
  have hnextOf : ∀ a, Aligned a → s₁.nextOf a = if a = b then s.head else s.nextOf a := by
    intro a ha
    rw [hs₁, nextOf_setNext hblock ha, nextOf_setSize hblock ha]
  have halign : ∀ a ∈ ({b} ∪ {a | a ∈ addrs blocks} : Set Word), Aligned a := by
    rintro a (rfl | ha)
    · exact hblock
    · obtain ⟨r, hr, rfl⟩ := List.mem_map.1 ha
      exact h.aligned r hr
  have hclosed : Closed { s₁ with head := b } ({b} ∪ {a | a ∈ addrs blocks})
      (Range.covered blocks ∪ {x | x ∈ (⟨b, size⟩ : Range)}) := by
    refine ⟨halign, Or.inr (Or.inl rfl), fun a ha => ?_, fun a ha x hx => ?_⟩
    · show s₁.nextOf a = 0 ∨ s₁.nextOf a ∈ _
      rw [hnextOf a (halign a ha)]
      by_cases hne : (if a = b then s.head else s.nextOf a) = 0
      · exact Or.inl hne
      refine Or.inr (Or.inr ?_)
      split_ifs at hne ⊢ with hab
      · exact (h.listed_iff _).1 (.head hne)
      · exact (h.listed_iff _).1 (.next ((h.listed_iff a).2 (ha.resolve_left hab)) hne)
    · have hx' : x ∈ (⟨a, s₁.sizeOf a⟩ : Range) := hx
      rw [hsizeOf a (halign a ha)] at hx'
      split_ifs at hx' with hab
      · exact Or.inr (hab ▸ hx')
      · obtain ⟨r, hr, rfl⟩ := List.mem_map.1 (ha.resolve_left hab)
        rw [h.size r hr] at hx'
        exact Or.inl ⟨r, hr, hx'⟩
  unfold FreeListAllocator.free at hres
  split_ifs at hres
  exact (hclosed.coalesceLoop (Or.inr (Or.inl rfl)) hres).freeBytes_subset

end UnnamedKernel.Mm.Pma
