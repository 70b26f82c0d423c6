import UnnamedKernel.Mm.Pma.FreeList

/-!
# `init` and `alloc` on the free list

`alloc` takes the first block that holds a header page and the request behind it.
It cuts that block down, writes headers inside free blocks only, and changes
nothing when no block fits.
-/

namespace UnnamedKernel.Mm.Pma

open UnnamedKernel.Lib UnnamedKernel.Kernel FreeListAllocator

/-- What is left of the list from block `r` on when `total` bytes are taken off its front. -/
def takeBlock (total : Word) (r : Range) (rest : List Range) : List Range :=
  if total.toNat + 16 < r.size.toNat then
    -- a block at the null address ends the list
    if r.addr + total = 0 then [] else r.part total (r.size - total) :: rest
  else rest

theorem takeBlock_sublist (total : Word) (r : Range) (rest : List Range) :
    (takeBlock total r rest).Sublist (r.part total (r.size - total) :: rest) := by
  unfold takeBlock
  split_ifs
  · exact List.nil_sublist _
  · exact List.Sublist.refl _
  · exact List.sublist_cons_self _ _

theorem mem_takeBlock {total : Word} {r q : Range} {rest : List Range}
    (hq : q ∈ takeBlock total r rest) :
    q ∈ rest ∨ total.toNat + 16 < r.size.toNat ∧ q = r.part total (r.size - total) := by
  unfold takeBlock at hq
  split_ifs at hq with hsplit hnull
  · simp at hq
  · rcases List.mem_cons.1 hq with hq | hq
    · exact Or.inr ⟨hsplit, hq⟩
    · exact Or.inl hq
  · exact Or.inl hq

theorem utilsAlignUp_header {addr : Word} (h : Aligned addr) :
    utilsAlignUp (addr + sizeofFreeBlock) pageSize = addr + 4096 := by
  apply BitVec.eq_of_toNat_eq
  rw [utilsAlignUp, roundUp_eq_roundDown, toNat_roundDown _ isPow2_pageSize, toNat_pageSize]
  unfold Aligned at h
  have hsum : addr + sizeofFreeBlock + (pageSize - 1) = addr + 4111 := by
    rw [sizeofFreeBlock, show pageSize - 1 = 4095 by decide]
    bv_omega
  rw [hsum]
  bv_omega

theorem utilsAlignUp_aligned {size : Word} (h : Aligned size) :
    utilsAlignUp size pageSize = size := by
  apply BitVec.eq_of_toNat_eq
  rw [utilsAlignUp, roundUp_eq_roundDown, toNat_roundDown _ isPow2_pageSize, toNat_pageSize]
  unfold Aligned at h
  have hmask : pageSize - 1 = 4095 := by decide
  rw [hmask]
  bv_omega

theorem umod_pageSize_eq_zero_iff (size : Word) : size % pageSize = 0 ↔ Aligned size := by
  rw [← BitVec.toNat_inj, BitVec.toNat_umod, toNat_pageSize]
  rfl

namespace FreeList

variable {s : FreeListAllocator} {blocks pre post : List Range} {r : Range} {total : Word}

/-- A new size in a header does not move the link in front of it. -/
theorem load_setSize (h : FreeList s (pre ++ post)) {a : Word} (ha : Aligned a) (v : Word) :
    (s.setSize a v).load (linkTo pre) = s.load (linkTo pre) := by
  rcases List.eq_nil_or_concat pre with rfl | ⟨pre, b, rfl⟩
  · rfl
  · rw [List.concat_eq_append] at h ⊢
    rw [linkTo_concat]
    exact nextOf_setSize ha (h.aligned b (by simp)) v

theorem takeFrom_split (h : FreeList s (pre ++ r :: post)) (ht : Aligned total)
    (hwrap : total.toNat + 16 < 2 ^ 64) (hsplit : total.toNat + 16 < r.size.toNat) :
    s.takeFrom (linkTo pre) total =
      (((s.setSize (r.addr + total) (r.size - total)).setNext (r.addr + total)
        (s.nextOf r.addr)).store (linkTo pre) (r.addr + total)) := by
  have hr : Aligned r.addr := h.aligned r (by simp)
  have hsize : s.sizeOf r.addr = r.size := h.size r (by simp)
  have hcond : total + sizeofFreeBlock < r.size := by
    unfold sizeofFreeBlock
    bv_omega
  have hnb := hr.add ht
  unfold takeFrom
  simp only [h.load_at, hsize, if_pos hcond, h.load_setSize hnb, nextOf_setSize hnb hr]

theorem takeFrom_drop (h : FreeList s (pre ++ r :: post)) (hwrap : total.toNat + 16 < 2 ^ 64)
    (hsplit : ¬ total.toNat + 16 < r.size.toNat) :
    s.takeFrom (linkTo pre) total = s.store (linkTo pre) (s.nextOf r.addr) := by
  have hsize : s.sizeOf r.addr = r.size := h.size r (by simp)
  have hcond : ¬ total + sizeofFreeBlock < r.size := by
    unfold sizeofFreeBlock
    bv_omega
  unfold takeFrom
  simp only [h.load_at, hsize, if_neg hcond]

/-- `takeFrom` leaves `takeBlock` of the chosen block and the blocks after it. -/
theorem takeFrom_spec (h : FreeList s (pre ++ r :: post)) (ht : Aligned total)
    (hwrap : total.toNat + 16 < 2 ^ 64)
    (hfresh : total.toNat + 16 < r.size.toNat → r.addr + total ∉ addrs (pre ++ r :: post)) :
    FreeList (s.takeFrom (linkTo pre) total) (pre ++ takeBlock total r post) := by
  have hr : Aligned r.addr := h.aligned r (by simp)
  have hnodup := h.nodup
  rw [addrs_append, addrs_cons, List.nodup_append] at hnodup
  unfold takeBlock
  by_cases hsplit : total.toNat + 16 < r.size.toNat
  · have hnb := hr.add ht
    have hfresh := hfresh hsplit
    rw [addrs_append, addrs_cons, List.mem_append, List.mem_cons] at hfresh
    simp only [not_or] at hfresh
    rw [h.takeFrom_split ht hwrap hsplit, if_pos hsplit]
    -- the two stores into the new header touch no other header
    have hsizeOf : ∀ b, Aligned b → b ≠ r.addr + total →
        ((s.setSize (r.addr + total) (r.size - total)).setNext (r.addr + total)
          (s.nextOf r.addr)).sizeOf b = s.sizeOf b := by
      intro b hb hbn
      rw [sizeOf_setNext hnb hb, sizeOf_setSize hnb hb, if_neg hbn]
    have hnextOf : ∀ b, Aligned b → b ≠ r.addr + total →
        ((s.setSize (r.addr + total) (r.size - total)).setNext (r.addr + total)
          (s.nextOf r.addr)).nextOf b = s.nextOf b := by
      intro b hb hbn
      rw [nextOf_setNext hnb hb, if_neg hbn, nextOf_setSize hnb hb]
    have hpre : ∀ b ∈ pre, Aligned b.addr ∧ b.addr ≠ r.addr + total := fun b hb =>
      ⟨h.aligned b (by simp [hb]), fun he => hfresh.1 (he ▸ mem_addrs hb)⟩
    refine h.relink rfl (fun b hb => hsizeOf _ (hpre b hb).1 (hpre b hb).2)
      (fun b hb => hnextOf _ (hpre b hb).1 (hpre b hb).2)
      (h.tail.push hnb (r.size - total) hfresh.2.2) fun b hb hm => ?_
    split_ifs at hb
    · simp at hb
    rcases List.mem_cons.1 hb with rfl | hb
    · exact hfresh.1 hm
    · exact hnodup.2.2 _ hm b.addr (by simp [mem_addrs hb]) rfl
  · rw [h.takeFrom_drop hwrap hsplit, if_neg hsplit]
    exact h.unlink

/-- `takeFrom` writes headers only: of the blocks before, and of the new block. -/
theorem takeFrom_mem (h : FreeList s (pre ++ r :: post)) (ht : Aligned total)
    (hwrap : total.toNat + 16 < 2 ^ 64) {x : Word}
    (hpre : ∀ b ∈ pre, x ∉ (⟨b.addr, 16⟩ : Range))
    (hnew : total.toNat + 16 < r.size.toNat → x ∉ (⟨r.addr + total, 16⟩ : Range)) :
    (s.takeFrom (linkTo pre) total).mem x = s.mem x := by
  have hstore : ∀ (s' : FreeListAllocator) v, (s'.store (linkTo pre) v).mem x = s'.mem x := by
    intro s' v
    rcases List.eq_nil_or_concat pre with rfl | ⟨pre, b, rfl⟩
    · rfl
    · rw [List.concat_eq_append] at hpre ⊢
      rw [linkTo_concat]
      exact setNext_mem_of_not_mem _ _ (hpre b (by simp))
  by_cases hsplit : total.toNat + 16 < r.size.toNat
  · rw [h.takeFrom_split ht hwrap hsplit, hstore, setNext_mem_of_not_mem _ _ (hnew hsplit),
      setSize_mem_of_not_mem _ _ (hnew hsplit)]
  · rw [h.takeFrom_drop hwrap hsplit, hstore]

end FreeList

/-- The walk of `alloc`: no block fits, or the first one that does is cut. -/
theorem allocLoop_spec (slide : Word) {size : Word} (fuel : Nat) (pre rest : List Range)
    {s : FreeListAllocator} (h : FreeList s (pre ++ rest))
    (hwrap : rest ≠ [] → 4096 + size.toNat + 16 < 2 ^ 64) (hfuel : rest.length < fuel) :
    (allocLoop slide size fuel (linkTo pre) s = some (0, s) ∧
      ∀ r ∈ rest, r.size.toNat < 4096 + size.toNat) ∨
    ∃ mid r post, rest = mid ++ r :: post ∧ (∀ q ∈ mid, q.size.toNat < 4096 + size.toNat) ∧
      4096 + size.toNat ≤ r.size.toNat ∧ allocLoop slide size fuel (linkTo pre) s =
        some (r.addr + 4096 - slide, s.takeFrom (linkTo (pre ++ mid)) (4096 + size)) := by
  induction fuel generalizing pre rest with
  | zero => omega
  | succ fuel ih =>
      rcases rest with _ | ⟨r, rest⟩
      · left
        rw [List.append_nil] at h
        simp [allocLoop, h.load_end]
      have hr : Aligned r.addr := h.aligned r (by simp)
      have hsize : s.sizeOf r.addr = r.size := h.size r (by simp)
      have hnonnull : r.addr ≠ 0 := h.nonnull r (by simp)
      have hwrap' := hwrap (by simp)
      have htotal : r.addr + 4096 - r.addr + size = 4096 + size := by bv_omega
      simp only [allocLoop, h.load_at, if_neg hnonnull, utilsAlignUp_header hr, htotal, hsize]
      by_cases hfit : 4096 + size ≤ r.size
      · right
        refine ⟨[], r, rest, rfl, by simp, ?_, by rw [if_pos hfit, List.append_nil]⟩
        bv_omega
      · have hsmall : r.size.toNat < 4096 + size.toNat := by bv_omega
        rw [if_neg hfit, ← linkTo_concat pre r]
        rcases ih (pre ++ [r]) rest (by simpa using h) (fun _ => hwrap') (by simpa using hfuel) with
          ⟨hres, hall⟩ | ⟨mid, q, post, rfl, hmid, hq, hres⟩
        · exact Or.inl ⟨hres, by simpa [hsmall] using hall⟩
        · refine Or.inr ⟨r :: mid, q, post, rfl, by simpa [hsmall] using hmid, hq, ?_⟩
          simpa using hres

/-! ## `init` -/

/-- One usable entry becomes the first block; at the null address it ends the list. -/
theorem initEntry_spec {slide : Word} {s : FreeListAllocator} {blocks : List Range}
    (h : FreeList s blocks) {e : MemmapEntry} (hu : e.type = memmapUsable)
    (ha : Aligned (slide + e.base)) (hfresh : slide + e.base ∉ addrs blocks) :
    FreeList (initEntry slide s e)
      (if slide + e.base = 0 then [] else ⟨slide + e.base, e.length⟩ :: blocks) := by
  rw [initEntry, if_neg (by simp [hu])]
  exact h.push ha e.length hfresh

end UnnamedKernel.Mm.Pma
