import UnnamedKernel.Lib.Ranges
import UnnamedKernel.Mm.Heap.Contract
import UnnamedKernel.Mm.Vmm.Failed

/-!
# How `sYSMALLOc` uses what `sbrk` answers (`lib/dlmalloc/malloc.c`)

`sYSMALLOc` from the point where it records the old top to the point where it sets the
new one: `MORECORE` is `sbrk`, `MMAP` is `mmap`. What comes before it returns without a
call of `MORECORE`, and what comes after cuts the request off the top; the statistics
and the fenceposts in the old top are left out.
-/

namespace UnnamedKernel.Mm.Heap

open UnnamedKernel.Lib UnnamedKernel.Kernel Vmm RadixTree

/-- What `sYSMALLOc` uses of `malloc_state`. -/
structure MallocState where
  /-- `av->top` -/
  top : Word
  /-- `av->top->size` -/
  topHead : Word
  /-- `av->top_pad` -/
  topPad : Word
  /-- `contiguous(av)` -/
  contiguous : Bool
  deriving DecidableEq, Repr

/-- `MALLOC_ALIGNMENT`. -/
def mallocAlignment : Word := 16

/-- `MALLOC_ALIGN_MASK`. -/
def mallocAlignMask : Word := mallocAlignment - 1

/-- `MINSIZE`. -/
def minsize : Word := 32

/-- `PREV_INUSE`. -/
def prevInuse : Word := 1

/-- `SIZE_BITS`. -/
def sizeBits : Word := 3

/-- `MMAP_AS_MORECORE_SIZE`. -/
def mmapAsMorecoreSize : Word := 1024 * 1024

/-- `pagesize - 1`, for the page size of 4096. -/
def pagemask : Word := pageSize - 1

/-- `chunksize`, of a size field. -/
def chunksize (head : Word) : Word := head &&& ~~~sizeBits

/-- `chunk2mem`. -/
def chunk2mem (p : Word) : Word := p + 16

/-- `(x + pagemask) & ~pagemask`. -/
def pageUp (x : Word) : Word := (x + pagemask) &&& ~~~pagemask

/-- The heap, and the ranges that `sbrk` and `mmap` have mapped. -/
structure Supply where
  heap : HeapState
  mapped : List Range := []

/-- `MORECORE`. -/
def morecore (env : Env) (s : Supply) (increment : Word) : Option (Word × Supply) := do
  let (r, h) ← s.heap.sbrk env increment
  some (r, ⟨h, ⟨s.heap.top, h.top - s.heap.top⟩ :: s.mapped⟩)

/-- `MMAP`. -/
def mmapCall (env : Env) (s : Supply) (size : Word) : Option (Word × Supply) := do
  let (r, h) ← s.heap.mmap env size (mapPrivate ||| mapAnonymous)
  if r = mapFailed then some (r, ⟨h, s.mapped⟩)
  else some (r, ⟨h, ⟨r, Kernel.alignUp size pageSize⟩ :: s.mapped⟩)

namespace MallocState

/-- The size of the first `MORECORE` call. -/
def growth (av : MallocState) (nb : Word) : Word :=
  let size := nb + av.topPad + minsize
  pageUp (if av.contiguous then size - chunksize av.topHead else size)

/-- The `mmap` that stands in for a `MORECORE` that failed: `brk`, `snd_brk` and the size. -/
def backup (env : Env) (nb : Word) (av : MallocState) (size : Word) (s : Supply) :
    Option ((Word × Word × Word) × MallocState × Supply) :=
  let size := if av.contiguous then pageUp (size + chunksize av.topHead) else size
  let size := if size < mmapAsMorecoreSize then mmapAsMorecoreSize else size
  if nb < size then do
    let (brk, s) ← mmapCall env s size
    if brk ≠ morecoreFailure then
      some ((brk, brk + size, size), { av with contiguous := false }, s)
    else some ((brk, morecoreFailure, size), av, s)
  else some ((morecoreFailure, morecoreFailure, size), av, s)

/-- An address below the end of the old top shows that `MORECORE` is not contiguous. -/
def noteGap (av : MallocState) (brk : Word) : MallocState :=
  if av.contiguous ∧ chunksize av.topHead ≠ 0 ∧ brk < av.top + chunksize av.topHead then
    { av with contiguous := false }
  else av

/-- The bytes in front of the first chunk of new space. -/
def frontCorrection (brk : Word) : Word :=
  let frontMisalign := chunk2mem brk &&& mallocAlignMask
  if 0 < frontMisalign then mallocAlignment - frontMisalign else 0

/-- The contiguous cases: the second `MORECORE` call takes new space up to a page boundary. -/
def pageEnd (env : Env) (brk size : Word) (av : MallocState) (s : Supply) :
    Option ((Word × Word × Word) × MallocState × Supply) := do
  let alignedBrk := brk + frontCorrection brk
  let correction := frontCorrection brk + chunksize av.topHead
  let endMisalign := brk + size + correction
  let correction := correction + (pageUp endMisalign - endMisalign)
  let (sndBrk, s) ← morecore env s correction
  if sndBrk = morecoreFailure then do
    let (sndBrk, s) ← morecore env s 0
    some ((sndBrk, alignedBrk, 0), av, s)
  else if sndBrk < brk then
    some ((brk + size, alignedBrk, 0), { av with contiguous := false }, s)
  else some ((sndBrk, alignedBrk, correction), av, s)

/-- The calls of `MORECORE` that find the end of new space that does not extend the old top:
`snd_brk`, `aligned_brk` and the correction. -/
def findEnd (env : Env) (brk sndBrk size : Word) (av : MallocState) (s : Supply) :
    Option ((Word × Word × Word) × MallocState × Supply) :=
  if (av.noteGap brk).contiguous then (av.noteGap brk).pageEnd env brk size s
  else if sndBrk = morecoreFailure then do
    let (sndBrk, s) ← morecore env s 0
    some ((sndBrk, brk, 0), av.noteGap brk, s)
  else some ((sndBrk, brk, 0), av.noteGap brk, s)

/-- New space at `brk` extends the old top, or is the new one. -/
def adjustTop (env : Env) (brk sndBrk size : Word) (av : MallocState) (s : Supply) :
    Option (MallocState × Supply) :=
  if brk = av.top + chunksize av.topHead ∧ sndBrk = morecoreFailure then
    some ({ av with topHead := (size + chunksize av.topHead) ||| prevInuse }, s)
  else do
    let ((sndBrk, alignedBrk, correction), av, s) ← av.findEnd env brk sndBrk size s
    if sndBrk = morecoreFailure then some (av, s)
    else
      some ({ av with
        top := alignedBrk, topHead := (sndBrk - alignedBrk + correction) ||| prevInuse }, s)

/-- `sYSMALLOc`, from the old top to the new one. -/
def sysmalloc (env : Env) (nb : Word) (av : MallocState) (s : Supply) :
    Option (MallocState × Supply) := do
  let size := av.growth nb
  let (brk, s) ← if (0 : Word).slt size then morecore env s size else some (morecoreFailure, s)
  let ((brk, sndBrk, size), av, s) ←
    if brk = morecoreFailure then av.backup env nb size s
    else some ((brk, morecoreFailure, size), av, s)
  if brk = morecoreFailure then some (av, s) else av.adjustTop env brk sndBrk size s

/-- The bytes of the top chunk, and its first one. -/
def topBytes (av : MallocState) : Set Word :=
  {x | x = av.top ∨ x ∈ (⟨av.top, chunksize av.topHead⟩ : Range)}

end MallocState

/-! ## Sizes -/

theorem chunksize_prevInuse (x : Word) : chunksize (x ||| prevInuse) = chunksize x := by
  unfold chunksize
  rw [BitVec.and_or_distrib_right, show prevInuse &&& ~~~sizeBits = 0 by decide]
  simp

theorem chunksize_le (x : Word) : (chunksize x).toNat ≤ x.toNat := by
  rw [chunksize, BitVec.toNat_and]
  exact Nat.and_le_left

theorem mem_chunk {a x size : Word}
    (h : x ∈ (⟨a, chunksize (size ||| prevInuse)⟩ : Range)) : x ∈ (⟨a, size⟩ : Range) := by
  rw [chunksize_prevInuse, Range.mem_iff, BitVec.lt_def] at h
  rw [Range.mem_iff, BitVec.lt_def]
  exact lt_of_lt_of_le h (chunksize_le size)

theorem pageUp_eq (x : Word) : pageUp x = Kernel.alignUp x pageSize := (alignUp_eq_roundUp x _).symm

theorem pageUp_mod (x : Word) : (pageUp x).toNat % 4096 = 0 := by
  rw [pageUp_eq]
  exact alignUp_pageSize_mod x

/-! ## The calls -/

section Calls

variable {env : Env} {root : Frame} {s s' : Supply} {increment r : Word}

theorem morecore_answer (hcr3 : env.cr3 = root.val) (hpos : 0 < increment.toInt)
    (hpages : increment.toNat % 4096 = 0) (hres : morecore env s increment = some (r, s')) :
    s'.heap.isInitialized = s.heap.isInitialized ∧
      ((r = 0 ∧ s'.heap.top = s.heap.top ∧ Range.covered s'.mapped = Range.covered s.mapped) ∨
        r = s.heap.top ∧ s'.heap.top = s.heap.top + increment ∧ s.heap.top.toNat % 4096 = 0 ∧
        s.heap.top ≠ 0 ∧ s.heap.top.toNat + increment.toNat ≤ 2 ^ 64 ∧
        s'.mapped = ⟨s.heap.top, increment⟩ :: s.mapped) := by
  obtain ⟨r', h', hcall, hinit, hcases⟩ := HeapState.sbrk_answer (h := s.heap) hcr3 hpos
  rw [alignUp_of_mod hpages] at hcases
  unfold morecore at hres
  rw [hcall] at hres
  obtain ⟨rfl, rfl⟩ := Prod.mk.inj (Option.some.inj hres)
  refine ⟨hinit, ?_⟩
  rcases hcases with ⟨hr, htop⟩ | ⟨hr, -, htop, haligned, hne, hfits⟩
  · left
    refine ⟨hr, htop, ?_⟩
    have hnothing : h'.top - s.heap.top = 0 := by rw [htop]; simp
    rw [hnothing]
    ext x
    simp [Range.covered, Range.mem_iff]
  · right
    refine ⟨hr, htop, haligned, hne, hfits, ?_⟩
    have hgrown : h'.top - s.heap.top = increment := by rw [htop]; bv_omega
    rw [hgrown]

theorem morecore_zero (env : Env) (s : Supply) :
    ∃ s', morecore env s 0 = some (if s.heap.isInitialized then s.heap.top else 0, s') ∧
      Range.covered s'.mapped = Range.covered s.mapped := by
  obtain ⟨h', hcall, htop, -⟩ := s.heap.sbrk_zero env
  unfold morecore
  rw [hcall]
  refine ⟨_, rfl, ?_⟩
  have hnothing : h'.top - s.heap.top = 0 := by rw [htop]; simp
  rw [hnothing]
  ext x
  simp [Range.covered, Range.mem_iff]

/-- `MORECORE` for some whole pages or none, when there is a break: what it returns is 0 or the
break, from which on the pages are mapped. -/
theorem morecore_pages (hcr3 : env.cr3 = root.val) (hinit : s.heap.isInitialized = true)
    (hpages : increment.toNat % 4096 = 0) (hres : morecore env s increment = some (r, s')) :
    Range.covered s.mapped ⊆ Range.covered s'.mapped ∧
      (r = 0 ∨ r = s.heap.top ∧ ∀ x ∈ (⟨s.heap.top, increment⟩ : Range),
          x ∈ Range.covered s'.mapped) := by
  by_cases hzero : increment = 0
  · subst hzero
    obtain ⟨s₁, hcall, hsame⟩ := morecore_zero env s
    obtain ⟨rfl, rfl⟩ := Prod.mk.inj (Option.some.inj (hres.symm.trans hcall))
    refine ⟨hsame.ge, Or.inr ⟨if_pos hinit, fun x hx => ?_⟩⟩
    simp [Range.mem_iff] at hx
  by_cases hslt : increment.slt 0 = true
  · have hhalt : s.heap.sbrk env increment = none := by
      unfold HeapState.sbrk
      rw [if_neg (by simp [hinit])]
      simp only [if_neg hzero, if_pos hslt]
    unfold morecore at hres
    rw [hhalt] at hres
    simp at hres
  · obtain ⟨-, ⟨hr, -, hsame⟩ | ⟨hr, -, -, -, -, hmapped⟩⟩ :=
      morecore_answer hcr3 (toInt_pos hzero hslt) hpages hres
    · exact ⟨hsame.ge, Or.inl hr⟩
    · rw [hmapped, Range.covered_cons]
      exact ⟨Set.subset_union_right, Or.inr ⟨hr, fun x hx => Or.inl hx⟩⟩

theorem mmap_aligned {h h' : HeapState} {length : Word} {flags : BitVec 32}
    (hres : h.mmap env length flags = some (r, h')) (hr : r ≠ mapFailed) : r.toNat % 4096 = 0 := by
  unfold HeapState.mmap at hres
  split_ifs at hres
  · exact absurd (Prod.mk.inj (Option.some.inj hres)).1.symm hr
  · exact absurd (Prod.mk.inj (Option.some.inj hres)).1.symm hr
  obtain ⟨⟨base, h₁⟩, halloc, hres⟩ := Option.bind_eq_some_iff.1 hres
  cases base with
  | none => exact absurd (Prod.mk.inj (Option.some.inj hres)).1.symm hr
  | some base =>
      have hcount : 0 < (Kernel.alignUp length pageSize / pageSize).toNat := by
        rw [Nat.pos_iff_ne_zero]
        intro hnone
        have hpages : Kernel.alignUp length pageSize / pageSize = 0 := BitVec.eq_of_toNat_eq hnone
        unfold HeapState.allocateVirtualMemory at halloc
        split_ifs at halloc
        · obtain ⟨⟨r', a⟩, hpagesRes, halloc⟩ := Option.bind_eq_some_iff.1 halloc
          rw [hpages, Vma.VAddrAllocator.allocPages, if_pos rfl] at hpagesRes
          obtain ⟨rfl, -⟩ := Prod.mk.inj (Option.some.inj hpagesRes)
          simp at halloc
        · simp at halloc
      simp only at hres
      split at hres
      · obtain ⟨rfl, -⟩ := Prod.mk.inj (Option.some.inj hres)
        by_contra hmis
        exact mapPages_misaligned hmis hcount ‹_›
      · obtain ⟨h₂, -, hres⟩ := Option.bind_eq_some_iff.1 hres
        exact absurd (Prod.mk.inj (Option.some.inj hres)).1.symm hr
      · exact absurd (Prod.mk.inj (Option.some.inj hres)).1.symm hr

end Calls

/-! ## The new top -/

section Top

variable {env : Env} {root : Frame} {s s' : Supply} {av av' : MallocState}
  {brk size sndBrk alignedBrk correction nb : Word}

@[simp] theorem noteGap_top (av : MallocState) (brk : Word) : (av.noteGap brk).top = av.top := by
  unfold MallocState.noteGap
  split_ifs <;> rfl

@[simp] theorem noteGap_topHead (av : MallocState) (brk : Word) :
    (av.noteGap brk).topHead = av.topHead := by
  unfold MallocState.noteGap
  split_ifs <;> rfl

/-- A page needs no bytes in front of its first chunk. -/
theorem frontCorrection_page (h : brk.toNat % 4096 = 0) :
    MallocState.frontCorrection brk = 0#64 := by
  have hmask : chunk2mem brk &&& mallocAlignMask = 0 := by
    apply BitVec.eq_of_toNat_eq
    rw [BitVec.toNat_and, chunk2mem, show mallocAlignMask.toNat = 2 ^ 4 - 1 by decide,
      Nat.and_two_pow_sub_one_eq_mod, BitVec.toNat_add]
    have hsixteen : (16 : Word).toNat = 16 := rfl
    have hzero : (0 : Word).toNat = 0 := rfl
    omega
  unfold MallocState.frontCorrection
  rw [hmask]
  rfl

/-- Two parts that follow each other hold what both hold as one, even if their sum wraps. -/
theorem mem_or_mem_of_mem_add {a x n m : Word} (h : x ∈ (⟨a, n + m⟩ : Range)) :
    x ∈ (⟨a, n⟩ : Range) ∨ x ∈ (⟨a + n, m⟩ : Range) := by
  rw [Range.mem_iff] at *
  rw [Range.mem_iff]
  simp only at *
  bv_omega

theorem pageEnd_mapped (hcr3 : env.cr3 = root.val) (hinit : s.heap.isInitialized = true)
    (htop : s.heap.top = brk + size) (haligned : brk.toNat % 4096 = 0)
    (hsize : size.toNat % 4096 = 0) (hne : brk ≠ 0)
    (hmapped : ∀ x ∈ (⟨brk, size⟩ : Range), x ∈ Range.covered s.mapped)
    (hres : av.pageEnd env brk size s = some ((sndBrk, alignedBrk, correction), av', s')) :
    alignedBrk = brk ∧ Range.covered s.mapped ⊆ Range.covered s'.mapped ∧
      ∀ x ∈ (⟨brk, sndBrk - brk + correction⟩ : Range), x ∈ Range.covered s'.mapped := by
  unfold MallocState.pageEnd at hres
  rw [frontCorrection_page haligned] at hres
  simp only [BitVec.zero_add, BitVec.add_zero] at hres
  obtain ⟨⟨r, s₁⟩, hcall, hres⟩ := Option.bind_eq_some_iff.1 hres
  -- the second call is for whole pages, and what it answers is no failure
  have hpages := pageUp_mod (brk + size + chunksize av.topHead)
  obtain ⟨hkept, hr⟩ := morecore_pages hcr3 hinit (by bv_omega) hcall
  rw [htop] at hr
  have hnofail : r ≠ morecoreFailure := by
    rcases hr with rfl | ⟨rfl, -⟩
    · decide
    · intro he
      have hmod := congrArg BitVec.toNat he
      rw [show morecoreFailure.toNat = 2 ^ 64 - 1 by decide] at hmod
      bv_omega
  simp only [if_neg hnofail] at hres
  split_ifs at hres with hlow
  · simp only [Option.some.injEq, Prod.mk.injEq] at hres
    obtain ⟨⟨rfl, rfl, rfl⟩, -, rfl⟩ := hres
    rw [show brk + size - brk + 0 = size by bv_omega]
    exact ⟨rfl, hkept, fun x hx => hkept (hmapped x hx)⟩
  · simp only [Option.some.injEq, Prod.mk.injEq] at hres
    obtain ⟨⟨rfl, rfl, rfl⟩, -, rfl⟩ := hres
    refine ⟨rfl, hkept, fun x hx => ?_⟩
    rcases hr with rfl | ⟨rfl, hnew⟩
    · -- null lies below the new space
      exact absurd (show (0 : Word) < brk by bv_omega) hlow
    · rw [show brk + size - brk = size by bv_omega] at hx
      rcases mem_or_mem_of_mem_add hx with hx | hx
      · exact hkept (hmapped x hx)
      · exact hnew x hx

theorem findEnd_mapped (hcr3 : env.cr3 = root.val) (hinit : s.heap.isInitialized = true)
    (htop : s.heap.top = brk + size) (haligned : brk.toNat % 4096 = 0)
    (hsize : size.toNat % 4096 = 0) (hne : brk ≠ 0)
    (hmapped : ∀ x ∈ (⟨brk, size⟩ : Range), x ∈ Range.covered s.mapped)
    (hres : av.findEnd env brk morecoreFailure size s =
      some ((sndBrk, alignedBrk, correction), av', s')) :
    alignedBrk = brk ∧ Range.covered s.mapped ⊆ Range.covered s'.mapped ∧
      ∀ x ∈ (⟨brk, sndBrk - brk + correction⟩ : Range), x ∈ Range.covered s'.mapped := by
  unfold MallocState.findEnd at hres
  by_cases hcontiguous : (av.noteGap brk).contiguous = true
  · rw [if_pos hcontiguous] at hres
    exact pageEnd_mapped hcr3 hinit htop haligned hsize hne hmapped hres
  · obtain ⟨s₁, hcall, hsame⟩ := morecore_zero env s
    rw [if_neg hcontiguous, if_pos rfl, hcall, if_pos hinit, htop] at hres
    simp only [Option.bind_eq_bind, Option.bind_some, Option.some.injEq, Prod.mk.injEq] at hres
    obtain ⟨⟨rfl, rfl, rfl⟩, -, rfl⟩ := hres
    rw [show brk + size - brk + 0 = size by bv_omega, hsame]
    exact ⟨rfl, subset_rfl, hmapped⟩

/-- Space at the null address becomes the new top, although nothing is mapped for it. -/
theorem findEnd_null (env : Env) (hsize : size.toNat % 4096 = 0)
    (htop : s.heap.top ≠ morecoreFailure)
    (hend : av.top + chunksize av.topHead ≠ 0) :
    ∃ r av' s', av.findEnd env 0#64 morecoreFailure size s = some ((r, 0#64, 0#64), av', s') ∧
      r ≠ morecoreFailure ∧ Range.covered s'.mapped = Range.covered s.mapped := by
  obtain ⟨s₁, hcall, hsame⟩ := morecore_zero env s
  have hnofail : (if s.heap.isInitialized then s.heap.top else 0) ≠ morecoreFailure := by
    split_ifs
    · exact htop
    · decide
  have hnull : MallocState.frontCorrection 0#64 = 0#64 := by decide
  unfold MallocState.findEnd
  by_cases hcontiguous : (av.noteGap 0#64).contiguous = true
  · -- the old top is empty, and the new space ends on a page boundary
    have hold : chunksize av.topHead = 0#64 := by
      by_contra hsome
      have hgap : 0 < av.top + chunksize av.topHead := by bv_omega
      unfold MallocState.noteGap at hcontiguous
      split_ifs at hcontiguous with hnote
      exact hnote ⟨hcontiguous, hsome, hgap⟩
    have hpage : pageUp size = size := by rw [pageUp_eq, alignUp_of_mod hsize]
    refine ⟨_, av.noteGap 0#64, s₁, ?_, hnofail, hsame⟩
    rw [if_pos hcontiguous]
    unfold MallocState.pageEnd
    have hcall₀ : morecore env s 0#64 =
        some (if s.heap.isInitialized then s.heap.top else 0, s₁) := hcall
    simp only [hnull, noteGap_topHead, hold, BitVec.zero_add, BitVec.add_zero, hpage,
      BitVec.sub_self, hcall₀, Option.bind_eq_bind, Option.bind_some, if_neg hnofail,
      if_neg (BitVec.not_lt_zero)]
  · refine ⟨_, av.noteGap 0#64, s₁, ?_, hnofail, hsame⟩
    rw [if_neg hcontiguous, if_pos rfl, hcall]
    rfl

theorem pageEnd_keeps {out : Word × Word × Word}
    (hres : av.pageEnd env brk size s = some (out, av', s')) :
    av'.top = av.top ∧ av'.topHead = av.topHead := by
  unfold MallocState.pageEnd at hres
  obtain ⟨⟨r, s₁⟩, -, hres⟩ := Option.bind_eq_some_iff.1 hres
  simp only at hres
  split_ifs at hres
  · obtain ⟨⟨r₂, s₂⟩, -, hres⟩ := Option.bind_eq_some_iff.1 hres
    cases hres
    exact ⟨rfl, rfl⟩
  · cases hres
    exact ⟨rfl, rfl⟩
  · cases hres
    exact ⟨rfl, rfl⟩

theorem findEnd_keeps {out : Word × Word × Word}
    (hres : av.findEnd env brk sndBrk size s = some (out, av', s')) :
    av'.top = av.top ∧ av'.topHead = av.topHead := by
  rw [← noteGap_top av brk, ← noteGap_topHead av brk]
  unfold MallocState.findEnd at hres
  split_ifs at hres
  · exact pageEnd_keeps hres
  · obtain ⟨⟨r, s₁⟩, -, hres⟩ := Option.bind_eq_some_iff.1 hres
    cases hres
    exact ⟨rfl, rfl⟩
  · cases hres
    exact ⟨rfl, rfl⟩

theorem mmapCall_answer (hsize : size.toNat % 4096 = 0)
    (hres : mmapCall env s size = some (brk, s')) :
    brk = morecoreFailure ∨ brk ≠ morecoreFailure ∧ brk.toNat % 4096 = 0 ∧
      ∀ x ∈ (⟨brk, size⟩ : Range), x ∈ Range.covered s'.mapped := by
  obtain ⟨⟨r, h⟩, hcall, hres⟩ := Option.bind_eq_some_iff.1 hres
  simp only at hres
  split_ifs at hres with hfail
  · simp only [Option.some.injEq, Prod.mk.injEq] at hres
    exact Or.inl (hres.1 ▸ hfail)
  · simp only [Option.some.injEq, Prod.mk.injEq] at hres
    obtain ⟨rfl, rfl⟩ := hres
    refine Or.inr ⟨hfail, mmap_aligned hcall hfail, fun x hx => ?_⟩
    rw [Range.covered_cons, alignUp_of_mod hsize]
    exact Or.inl hx

/-- The memory that stands in for a `MORECORE` that failed comes from `mmap`. -/
theorem backup_mapped (hsize : size.toNat % 4096 = 0) {n : Word}
    (hres : av.backup env nb size s = some ((brk, sndBrk, n), av', s')) :
    av'.top = av.top ∧ av'.topHead = av.topHead ∧ (brk = morecoreFailure ∨
      brk ≠ morecoreFailure ∧ sndBrk = brk + n ∧ sndBrk ≠ morecoreFailure ∧
        av'.contiguous = false ∧ 0 < n ∧
        ∀ x ∈ (⟨brk, n⟩ : Range), x ∈ Range.covered s'.mapped) := by
  unfold MallocState.backup at hres
  simp only at hres
  obtain ⟨m, hm, hmod⟩ : ∃ m, (if (if av.contiguous = true then pageUp (size + chunksize av.topHead)
      else size) < mmapAsMorecoreSize then mmapAsMorecoreSize else
        if av.contiguous = true then pageUp (size + chunksize av.topHead) else size) = m ∧
      m.toNat % 4096 = 0 := by
    refine ⟨_, rfl, ?_⟩
    split_ifs
    · decide
    · exact pageUp_mod _
    · decide
    · exact hsize
  rw [hm] at hres
  split_ifs at hres with hsome
  · obtain ⟨⟨r, s₁⟩, hcall, hres⟩ := Option.bind_eq_some_iff.1 hres
    have hpos : 0 < m := by bv_omega
    simp only at hres
    rcases mmapCall_answer hmod hcall with hfail | ⟨hne, haligned, hmapped⟩
    · rw [if_neg (not_not.2 hfail)] at hres
      simp only [Option.some.injEq, Prod.mk.injEq] at hres
      obtain ⟨⟨rfl, rfl, rfl⟩, rfl, rfl⟩ := hres
      exact ⟨rfl, rfl, Or.inl hfail⟩
    · rw [if_pos hne] at hres
      simp only [Option.some.injEq, Prod.mk.injEq] at hres
      obtain ⟨⟨rfl, rfl, rfl⟩, rfl, rfl⟩ := hres
      refine ⟨rfl, rfl, Or.inr ⟨hne, rfl, fun he => ?_, rfl, hpos, hmapped⟩⟩
      -- the end of the region is the end of a page
      have hmod' := congrArg BitVec.toNat he
      rw [show morecoreFailure.toNat = 2 ^ 64 - 1 by decide] at hmod'
      bv_omega
  · simp only [Option.some.injEq, Prod.mk.injEq] at hres
    obtain ⟨⟨rfl, rfl, rfl⟩, rfl, rfl⟩ := hres
    exact ⟨rfl, rfl, Or.inl rfl⟩

/-! ## `sYSMALLOc` -/

/-- All bytes of a new top that were not in the old one are in memory that `sbrk` or `mmap` has
mapped. -/
def TopMapped (env : Env) (nb : Word) (av : MallocState) (h : HeapState) : Prop :=
  ∀ av' s', av.sysmalloc env nb ⟨h, []⟩ = some (av', s') →
    av'.topBytes ⊆ av.topBytes ∪ Range.covered s'.mapped

theorem topBytes_subset {a n : Word} {S : Set Word} (hpos : 0 < size)
    (hfirst : ∀ x ∈ (⟨a, size⟩ : Range), x ∈ S) (hall : ∀ x ∈ (⟨a, n⟩ : Range), x ∈ S)
    (htop : av'.top = a) (hhead : av'.topHead = n ||| prevInuse) : av'.topBytes ⊆ S := by
  rintro x (rfl | hx)
  · rw [htop]
    exact hfirst a (Range.addr_mem (by simp only; bv_omega))
  · rw [htop, hhead] at hx
    exact hall x (mem_chunk hx)

theorem adjustTop_mapped (hcr3 : env.cr3 = root.val) (hinit : s.heap.isInitialized = true)
    (htop : s.heap.top = brk + size) (haligned : brk.toNat % 4096 = 0)
    (hsize : size.toNat % 4096 = 0) (hne : brk ≠ 0) (hpos : 0 < size)
    (hmapped : ∀ x ∈ (⟨brk, size⟩ : Range), x ∈ Range.covered s.mapped)
    (hres : av.adjustTop env brk morecoreFailure size s = some (av', s')) :
    av'.topBytes ⊆ av.topBytes ∪ Range.covered s'.mapped := by
  unfold MallocState.adjustTop at hres
  split_ifs at hres with hextends
  · simp only [Option.some.injEq, Prod.mk.injEq] at hres
    obtain ⟨rfl, rfl⟩ := hres
    rintro x (hx | hx)
    · exact Or.inl (Or.inl hx)
    · have hx' := mem_chunk hx
      rw [BitVec.add_comm] at hx'
      rcases mem_or_mem_of_mem_add hx' with hold | hnew
      · exact Or.inl (Or.inr hold)
      · exact Or.inr (hmapped x (hextends.1 ▸ hnew))
  · obtain ⟨⟨⟨snd, a, c⟩, av₁, s₁⟩, hfind, hset⟩ := Option.bind_eq_some_iff.1 hres
    obtain ⟨hfirst, hkept, hend⟩ :=
      findEnd_mapped hcr3 hinit htop haligned hsize hne hmapped hfind
    have hkeeps := findEnd_keeps hfind
    simp only at hset
    split_ifs at hset
    · simp only [Option.some.injEq, Prod.mk.injEq] at hset
      obtain ⟨rfl, rfl⟩ := hset
      rintro x hx
      left
      rwa [MallocState.topBytes, hkeeps.1, hkeeps.2] at hx
    · simp only [Option.some.injEq, Prod.mk.injEq] at hset
      obtain ⟨rfl, rfl⟩ := hset
      apply Set.subset_union_of_subset_right
      exact topBytes_subset hpos (fun x hx => hkept (hmapped x hx)) hend hfirst (by rw [hfirst])

theorem adjustTop_mmap (hcontiguous : av.contiguous = false) (hsnd : brk + size ≠ morecoreFailure)
    (hpos : 0 < size) (hmapped : ∀ x ∈ (⟨brk, size⟩ : Range), x ∈ Range.covered s.mapped)
    (hres : av.adjustTop env brk (brk + size) size s = some (av', s')) :
    av'.topBytes ⊆ Range.covered s'.mapped := by
  have hgap : av.noteGap brk = av := by
    unfold MallocState.noteGap
    rw [if_neg (by simp [hcontiguous])]
  have hfind : av.findEnd env brk (brk + size) size s = some ((brk + size, brk, 0), av, s) := by
    unfold MallocState.findEnd
    rw [hgap, if_neg (by simp [hcontiguous]), if_neg hsnd]
  unfold MallocState.adjustTop at hres
  rw [if_neg fun h => hsnd h.2, hfind] at hres
  simp only [Option.bind_eq_bind, Option.bind_some, if_neg hsnd, Option.some.injEq,
    Prod.mk.injEq] at hres
  obtain ⟨rfl, rfl⟩ := hres
  have hend : brk + size - brk + 0 = size := by bv_omega
  exact topBytes_subset hpos hmapped hmapped rfl (by rw [hend])

/-- Without memory for the first `MORECORE` call the null address is the new top. -/
theorem adjustTop_null (env : Env) (hsize : size.toNat % 4096 = 0)
    (htop : s.heap.top ≠ morecoreFailure)
    (hend : av.top + chunksize av.topHead ≠ 0) :
    ∃ av' s', av.adjustTop env 0#64 morecoreFailure size s = some (av', s') ∧ av'.top = 0 ∧
      Range.covered s'.mapped = Range.covered s.mapped := by
  obtain ⟨r, av₁, s₁, hfind, hnofail, hsame⟩ := findEnd_null env hsize htop hend
  unfold MallocState.adjustTop
  rw [if_neg fun h => hend h.1.symm, hfind]
  simp only [Option.bind_eq_bind, Option.bind_some, if_neg hnofail]
  exact ⟨_, _, rfl, rfl, hsame⟩

theorem slt_zero_iff (w : Word) : (0 : Word).slt w = true ↔ 0 < w.toInt := by
  rw [BitVec.slt_eq_decide, decide_eq_true_eq]
  rfl

theorem sysmalloc_mmap {h : HeapState} (hsize : (av.growth nb).toNat % 4096 = 0)
    (hpos : ¬ 0 < (av.growth nb).toInt) : TopMapped env nb av h := by
  intro av' s' hres
  unfold MallocState.sysmalloc at hres
  simp only [slt_zero_iff, if_neg hpos, Option.bind_eq_bind, Option.bind_some, if_pos] at hres
  obtain ⟨⟨⟨brk, snd, n⟩, av₁, s₁⟩, hbackup, hset⟩ := Option.bind_eq_some_iff.1 hres
  obtain ⟨htop, hhead, hcases⟩ := backup_mapped hsize hbackup
  simp only at hset
  rcases hcases with hfail | ⟨hne, rfl, hsnd, hcontiguous, hn, hmapped⟩
  · rw [if_pos hfail] at hset
    simp only [Option.some.injEq, Prod.mk.injEq] at hset
    obtain ⟨rfl, rfl⟩ := hset
    rintro x hx
    left
    rwa [MallocState.topBytes, htop, hhead] at hx
  · rw [if_neg hne] at hset
    apply Set.subset_union_of_subset_right
    exact adjustTop_mmap hcontiguous hsnd hn hmapped hset

theorem topMapped_iff (hframes : FreshFrames env.frames) (hcr3 : env.cr3 = root.val)
    {h : HeapState} (hgrow : Growable env root h)
    (hbreak : h.top ≠ morecoreFailure) (hne : av.top ≠ 0)
    (hend : av.top.toNat + (chunksize av.topHead).toNat < 2 ^ 64) :
    TopMapped env nb av h ↔
      (0 < (av.growth nb).toInt → Room env root h (av.growth nb)) := by
  have hsize : (av.growth nb).toNat % 4096 = 0 := pageUp_mod _
  by_cases hpos : 0 < (av.growth nb).toInt
  swap
  · exact ⟨fun _ hp => absurd hp hpos, fun _ => sysmalloc_mmap hsize hpos⟩
  have hnonzero := toNat_lt_of_toInt_pos hpos
  have hstart : ∀ {brk s₁}, morecore env ⟨h, []⟩ (av.growth nb) = some (brk, s₁) →
      brk ≠ morecoreFailure → av.sysmalloc env nb ⟨h, []⟩ =
        av.adjustTop env brk morecoreFailure (av.growth nb) s₁ := by
    intro brk s₁ hcall hnofail
    unfold MallocState.sysmalloc
    simp only [slt_zero_iff, if_pos hpos, hcall, Option.bind_eq_bind, Option.bind_some,
      if_neg hnofail]
  rw [← HeapState.sbrk_extends_iff hframes hcr3 hgrow hpos, alignUp_of_mod hsize]
  obtain ⟨r, h₁, hcall, hinit, hcases⟩ := HeapState.sbrk_answer (h := h) hcr3 hpos
  have hmore : morecore env ⟨h, []⟩ (av.growth nb) = some (r, ⟨h₁, [⟨h.top, h₁.top - h.top⟩]⟩) := by
    unfold morecore
    rw [hcall]
    rfl
  rw [alignUp_of_mod hsize] at hcases
  rcases hcases with ⟨rfl, htop⟩ | ⟨rfl, hset, htop, haligned, hnull, -⟩
  · -- `sbrk` has returned 0
    constructor
    · intro hmapped
      exfalso
      have hend' : av.top + chunksize av.topHead ≠ 0 := by bv_omega
      obtain ⟨av', s', hset, hzero, hsame⟩ := adjustTop_null env
        (s := ⟨h₁, [⟨h.top, h₁.top - h.top⟩]⟩) hsize (htop ▸ hbreak) hend'
      have hnew : (0 : Word) ∈ av'.topBytes := Or.inl hzero.symm
      rcases hmapped av' s' ((hstart hmore (by decide)).trans hset) hnew with (hold | hold) | hnone
      · exact hne hold.symm
      · rw [Range.mem_iff] at hold
        simp only at hold
        bv_omega
      · rw [hsame, htop] at hnone
        simp [Range.covered, Range.mem_iff] at hnone
    · intro hroom
      obtain ⟨h', hres, htop'⟩ := hroom hpos
      obtain ⟨-, rfl⟩ := Prod.mk.inj (Option.some.inj (hres.symm.trans hcall))
      rw [htop] at htop'
      bv_omega
  · have hnofail : h.top ≠ morecoreFailure := hbreak
    refine ⟨fun _ _ => ⟨h₁, hcall, htop⟩, fun _ av' s' hres => ?_⟩
    rw [hstart hmore hnofail] at hres
    refine adjustTop_mapped hcr3 (hinit.trans hset) htop haligned hsize hnull (by bv_omega) ?_ hres
    intro x hx
    have hgrown : h₁.top - h.top = av.growth nb := by rw [htop]; bv_omega
    rw [hgrown, Range.covered_cons]
    exact Or.inl hx

end Top

/-- `sbrk` answers an increment as `MORECORE` should just if there is room for it, or no increment
and a break; and a new top of `sYSMALLOc` is mapped just if there is room for its first call. -/
theorem sbrk_contract_iff {env : Env} {root : Frame} {h : HeapState}
    (hframes : FreshFrames env.frames) (hcr3 : env.cr3 = root.val) (hgrow : Growable env root h) :
    (∀ increment : Word, 0 ≤ increment.toInt →
      (MeetsMorecore env h increment ↔ Answered env root h increment)) ∧
    (h.top ≠ morecoreFailure → ∀ nb (av : MallocState), av.top ≠ 0 →
      av.top.toNat + (chunksize av.topHead).toNat < 2 ^ 64 →
      (TopMapped env nb av h ↔
        (0 < (av.growth nb).toInt → Room env root h (av.growth nb)))) :=
  ⟨fun _ hsign => meetsMorecore_iff hframes hcr3 hgrow hsign,
    fun hbreak _ _ hne hend => topMapped_iff hframes hcr3 hgrow hbreak hne hend⟩

private def threeFrameEnv : Env :=
  ⟨threeFrames, fun _ => false, 0xffff800000000000, (frameOf 0x1000).val⟩

private def freshHeap : HeapState :=
  { allocator := {}, machine := { mem := fun _ => 0 }, isInitialized := true,
    heapBase := 0xffff800040000000, heapSize := 0x2000000 }

/-- `av` before the first allocation: the top is an empty chunk in `av_` itself. -/
private def initialState : MallocState := ⟨0xffffffff80200000, 0, 0, true⟩

/-- Three frames are not enough for a page and the tables on the way to it. -/
theorem sbrk_contract_iff_three_frames :
    (MeetsMorecore threeFrameEnv freshHeap 0x1000 ↔
      Answered threeFrameEnv (frameOf 0x1000) freshHeap 0x1000) ∧
    (TopMapped threeFrameEnv 0x100 initialState freshHeap ↔
      (0 < (initialState.growth 0x100).toInt →
        Room threeFrameEnv (frameOf 0x1000) freshHeap (initialState.growth 0x100))) := by
  have hwf : WellFormed threeFrames 0xffff800000000000 (frameOf 0x1000) freshHeap.machine := by
    refine .ofZeroed (fun _ _ => rfl) (fun k _ => ?_) (by decide) fun k hk => ?_
    · match k with
      | 0 | 1 | 2 => decide
      | _ + 3 => simp [threeFrames, frameOf, ppnMask]
    · match k with
      | 0 | 1 | 2 => decide
      | _ + 3 => exact absurd rfl hk
  obtain ⟨hsbrk, htop⟩ := @sbrk_contract_iff threeFrameEnv (frameOf 0x1000) freshHeap
    freshFrames_threeFrames rfl ⟨hwf.tree, hwf.visible, fun q j t hlen hp _ _ _ =>
      hwf.small q j t hlen hp⟩
  exact ⟨hsbrk 0x1000 (by decide), htop (by decide) 0x100 initialState (by decide) (by decide)⟩

private def noFrameEnv : Env := ⟨fun _ => 0, fun _ => false, 0xffff800000000000, 0x1000⟩

/-- Without a frame `sbrk` returns 0, which is not `MORECORE_FAILURE`: the first allocation takes
the null address for new space, up to the break. -/
theorem refused_growth_becomes_top :
    (freshHeap.sbrk noFrameEnv 0x1000).map (fun p => (p.1, p.2.top)) =
        some (0, 0xffff800040000000) ∧
      ¬ MeetsMorecore noFrameEnv freshHeap 0x1000 ∧
      (initialState.sysmalloc noFrameEnv 0x100 ⟨freshHeap, []⟩).map Prod.fst =
        some { initialState with top := 0, topHead := 0xffff800040000001 } ∧
      ¬ TopMapped noFrameEnv 0x100 initialState freshHeap := by
  have hsbrk : (freshHeap.sbrk noFrameEnv 0x1000).map (fun p => (p.1, p.2.top)) =
      some (0, 0xffff800040000000) := by decide
  have hsysmalloc : (initialState.sysmalloc noFrameEnv 0x100 ⟨freshHeap, []⟩).map
      (fun p => (p.1, p.2.mapped)) =
        some ({ initialState with top := 0, topHead := 0xffff800040000001 },
          [⟨0xffff800040000000, 0⟩, ⟨0xffff800040000000, 0⟩]) := by decide
  refine ⟨hsbrk, ?_, by decide, fun hmapped => ?_⟩
  · rintro ⟨r, h', hres, hcases⟩
    rw [hres] at hsbrk
    obtain ⟨rfl, htop⟩ := Prod.mk.inj (Option.some.inj hsbrk)
    rcases hcases with ⟨hr, -⟩ | ⟨hr, -⟩
    · exact absurd hr (by decide)
    · exact absurd hr (by decide)
  · obtain ⟨⟨av', s'⟩, hres, heq⟩ := Option.map_eq_some_iff.1 hsysmalloc
    obtain ⟨rfl, hlist⟩ := Prod.mk.inj heq
    rcases hmapped _ _ hres (Or.inl rfl) with (hold | hold) | hnew
    · exact absurd hold (by decide)
    · exact absurd hold (by decide)
    · rw [hlist] at hnew
      simp [Range.covered, Range.mem_iff] at hnew

end UnnamedKernel.Mm.Heap
