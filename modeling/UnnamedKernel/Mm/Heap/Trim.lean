import UnnamedKernel.Mm.Heap.Growth

/-!
# Trimming the heap

`sYSTRIm` passes `sbrk` a negative increment, and `sbrk` halts the kernel then. Which calls of
`free` get there depends on what is free at the end of the heap.
-/

namespace UnnamedKernel.Mm.Heap

open UnnamedKernel.Lib UnnamedKernel.Kernel Vma Vmm

/-! ## What `free` does -/

namespace Arena

/-- The size of the chunk `c` with the free neighbours that it has. -/
def joinedSize (a : Arena) (before : List Chunk) (c : Chunk) (after : List Chunk) : Nat :=
  freeLen ChunkUse.isBinned before.getLast? + c.len +
    freeLen ChunkUse.isBinned (after ++ [a.topChunk]).head?

/-- How much is free at the end of the heap, up to the first chunk in use, when `c` is free and
nothing is in the fastbins. -/
def spaceAtEnd (a : Arena) (before : List Chunk) (c : Chunk) (after : List Chunk) : Nat :=
  trailing ChunkUse.isInUse (before ++ { c with tag := .binned } :: (after ++ [a.topChunk]))

/-- `free(mem)` asks for the top to be trimmed: the chunk is too large for the fastbins, it is at
least half of the trim threshold with its free neighbours, and what is free at the end of the heap
then is at least the trim threshold and leaves a page to release. -/
def Trims (a : Arena) (mem : Word) : Prop :=
  mem ≠ 0 ∧ ∃ before c after, a.chunks = before ++ c :: after ∧
    c.start = (mem2chunk mem).toNat ∧ c.tag = .inUse ∧ a.maxFast.toNat < c.len ∧
    fastbinConsolidationThreshold.toNat ≤ a.joinedSize before c after ∧
    trimThreshold.toNat ≤ a.spaceAtEnd before c after ∧
    (0 : Word).slt (DlHeap.trimExtra a.av.topPad (BitVec.ofNat 64 (a.spaceAtEnd before c after)))

end Arena

section Free

variable {env : Env} {k k' : DlHeap} {mem : Word} {lo hi : Nat} {a : Arena}
  {before after : List Chunk} {c : Chunk}

theorem neg_slt_zero {x : Word} (h : (0 : Word).slt x = true) : -x ≠ 0 ∧ (-x).slt 0 = true := by
  rw [slt_zero_iff] at h
  obtain ⟨hne, -, hpos, hlt⟩ := toNat_lt_of_toInt_pos h
  have hnegne : -x ≠ 0 := by bv_omega
  refine ⟨hnegne, ?_⟩
  have hzero : (0 : Word).toInt = 0 := rfl
  rw [BitVec.slt_eq_decide, decide_eq_true_eq, BitVec.toInt_eq_toNat_cond, BitVec.toNat_neg, hzero]
  split_ifs <;> omega

/-- `sYSTRIm` halts the kernel, if it has something to release. -/
theorem systrim_eq (h : Grown k) : DlHeap.systrim env k =
    if (0 : Word).slt (DlHeap.trimExtra k.arena.av.topPad (chunksize k.arena.av.topHead)) then none
    else some k := by
  obtain ⟨lo, hi, hsound, hend⟩ := h.sound
  unfold DlHeap.systrim
  simp only
  by_cases hextra : (0 : Word).slt
      (DlHeap.trimExtra k.arena.av.topPad (chunksize k.arena.av.topHead)) = true
  swap
  · rw [if_neg hextra, if_neg hextra]
  · obtain ⟨s₁, hcall, hsame⟩ := morecore_zero_same env k.supply
    have hbrk : (if k.supply.heap.isInitialized then k.supply.heap.top else 0) =
        k.arena.av.top + chunksize k.arena.av.topHead := by
      rw [if_pos h.initialized, hend, hsound.laid.topEnd]
    obtain ⟨hne, hneg⟩ := neg_slt_zero hextra
    have hhalt : ∀ increment : Word, increment ≠ 0 → increment.slt 0 = true →
        morecore env s₁ increment = none := by
      intro increment hne hneg
      have hinit : s₁.heap.isInitialized = true := hsame.initialized.trans h.initialized
      have hsbrk : s₁.heap.sbrk env increment = none := by
        unfold HeapState.sbrk
        rw [if_neg (by simp [hinit])]
        simp only [if_neg hne, if_pos hneg]
      unfold morecore
      rw [hsbrk]
      exact Option.bind_none ..
    rw [if_pos hextra, if_pos hextra, hcall]
    simp only [Option.bind_eq_bind, Option.bind_some, if_pos hbrk, hhalt _ hne hneg,
      Option.bind_none]

theorem Sound.free (h : Sound lo hi a) (hc : a.chunks = before ++ c :: after)
    (htag : c.tag = .inUse) :
    Sound lo hi ({ a with anychunks := true }.consolidate before c after).2 ∧
      ({ a with anychunks := true }.consolidate before c after).1.toNat =
        a.joinedSize before c after ∧
      trailing ChunkUse.isInUse ({ a with anychunks := true }.consolidate before c after).2.all =
        a.spaceAtEnd before c after := by
  have hlaid : Laid lo hi { a with anychunks := true } := h.laid.congr rfl
  have hsettings := consolidate_settings { a with anychunks := true } before c after
  have hpending : ({ a with anychunks := true }.consolidate before c after).2.pending =
      a.pending := by
    rw [Arena.pending, hsettings.maxFast, hsettings.fastbins]
    rfl
  have hfast := h.fast
  rw [hc, FastIn.other_iff (by simp [htag])] at hfast
  refine ⟨⟨hlaid.consolidate_laid hc, hsettings.maxFast.trans h.maxFast, ?_, fun hflag => ?_⟩,
    (hlaid.consolidate hc).2, hlaid.consolidate_trailing hc⟩
  · rw [hpending]
    exact hlaid.consolidate_fast hc hfast
  · rw [hpending]
    exact h.flag (hsettings.fastchunks.symm.trans hflag)

/-- All that is free at the end is the top, after `malloc_consolidate` if that is due. -/
theorem Sound.sweep (h : Sound lo hi a) :
    Swept lo hi a (if a.fastchunks then a.mallocConsolidate else a) := by
  cases hflag : a.fastchunks
  · have hfast := h.fast
    rw [h.flag hflag] at hfast
    exact ⟨h, hflag, (h.laid.trailing_eq_top hfast).symm, rfl⟩
  · exact h.mallocConsolidate

theorem freeLarge_spec (env : Env) (h : Grown k) (hc : k.arena.chunks = before ++ c :: after)
    (htag : c.tag = .inUse) :
    (k.freeLarge env before c after = .error .sbrkHalted ↔
      fastbinConsolidationThreshold.toNat ≤ k.arena.joinedSize before c after ∧
        trimThreshold.toNat ≤ k.arena.spaceAtEnd before c after ∧
        (0 : Word).slt (DlHeap.trimExtra k.arena.av.topPad
          (BitVec.ofNat 64 (k.arena.spaceAtEnd before c after))) = true) ∧
      Ends (fun _ => False) Settled (k.freeLarge env before c after) := by
  obtain ⟨lo, hi, hsound, hend⟩ := h.sound
  obtain ⟨hfreed, hsize, hspace⟩ := hsound.free hc htag
  have hpad := (consolidate_settings { k.arena with anychunks := true } before c after).topPad
  unfold DlHeap.freeLarge
  rcases hres : { k.arena with anychunks := true }.consolidate before c after with ⟨size, a⟩
  simp only [hres] at hfreed hsize hspace hpad ⊢
  have hswept := hfreed.sweep
  generalize hsweep : (if a.fastchunks = true then a.mallocConsolidate else a) = a' at hswept
  have htop := hswept.top
  rw [hspace] at htop
  have htopPad : a'.av.topPad = k.arena.av.topPad := hswept.topPad.trans hpad
  have htopSize : chunksize a'.av.topHead =
      BitVec.ofNat 64 (k.arena.spaceAtEnd before c after) := by
    rw [← htop, BitVec.ofNat_toNat]
    simp
  have hgrown : Grown { k with arena := a } := ⟨⟨lo, hi, hfreed, hend⟩, h.initialized⟩
  have hgrown' : Grown { k with arena := a' } := ⟨⟨lo, hi, hswept.sound, hend⟩, h.initialized⟩
  by_cases hlarge : fastbinConsolidationThreshold ≤ size
  swap
  · rw [if_neg hlarge]
    rw [BitVec.le_def, hsize] at hlarge
    exact ⟨iff_of_false (by simp) fun h => hlarge h.1, .ok (Or.inr hgrown)⟩
  rw [if_pos hlarge, htopSize]
  rw [BitVec.le_def, hsize] at hlarge
  by_cases hthreshold : trimThreshold ≤ BitVec.ofNat 64 (k.arena.spaceAtEnd before c after)
  swap
  · rw [if_neg hthreshold]
    rw [BitVec.le_def, ← htopSize, htop] at hthreshold
    exact ⟨iff_of_false (by simp) fun h => hthreshold h.2.1, .ok (Or.inr hgrown')⟩
  rw [if_pos hthreshold, systrim_eq hgrown']
  rw [BitVec.le_def, ← htopSize, htop] at hthreshold
  simp only [htopPad, htopSize]
  split_ifs with hextra
  · exact ⟨iff_of_true rfl ⟨hlarge, hthreshold, hextra⟩, .error id⟩
  · exact ⟨iff_of_false (by simp) fun h => hextra h.2.2, .ok (Or.inr hgrown')⟩

theorem Sound.freeFast (h : Sound lo hi a) (hc : a.chunks = before ++ c :: after)
    (htag : c.tag = .inUse) (hsmall : BitVec.ofNat 64 c.len ≤ a.maxFast) {bin : Nat}
    (hbin : bin = fastbinIndex (BitVec.ofNat 64 c.len)) :
    Sound lo hi { a with
      anychunks := true
      fastchunks := true
      fastbins := Function.update a.fastbins bin (c.start :: a.fastbins bin)
      chunks := before ++ { c with tag := .fast } :: after } := by
  subst hbin
  have hsizes := h.laid.sizes
  rw [Laid.all_eq hc] at hsizes
  have hlen := hsizes c (by simp)
  have hword := h.laid.toNat_len hc
  have hperm := flatMap_update_perm a.fastbins List.nodup_range
    (fastbinIndex_le h.maxFast (by omega) hsmall) c.start
    (a.fastbins (fastbinIndex (BitVec.ofNat 64 c.len)))
  rw [Function.update_eq_self] at hperm
  have hfast := h.fast
  rw [hc, FastIn.other_iff (by simp [htag])] at hfast
  refine ⟨h.laid.retag (t := .fast) (Laid.all_eq hc) rfl (by simp [Arena.all, Arena.topChunk]),
    h.maxFast, ?_, by simp⟩
  have hne : ∀ u ∈ before ++ after, u.start ≠ c.start := h.laid.start_ne hc
  have hcons : FastIn (c.start :: a.pending) (before ++ { c with tag := .fast } :: after) :=
    (FastIn.cons_iff (c := { c with tag := .fast }) rfl hne).2 hfast
  exact hcons.perm hperm.symm

theorem free_spec (h : Settled k) (mem : Word) :
    (k.free env mem = .error .sbrkHalted ↔ k.arena.Trims mem) ∧
      Ends (fun _ => False) Settled (k.free env mem) := by
  unfold DlHeap.free
  by_cases hzero : mem = 0
  · rw [if_pos hzero]
    exact ⟨iff_of_false (by simp) fun ht => ht.1 hzero, .ok h⟩
  rw [if_neg hzero]
  rcases h with h | h
  · rw [h.chunks]
    refine ⟨iff_of_false (by simp [locate]) ?_, .error id⟩
    rintro ⟨-, before, c, after, hc, -⟩
    rw [h.chunks] at hc
    simp at hc
  obtain ⟨lo, hi, hsound, hend⟩ := h.sound
  -- a chunk at this address is the one that is found
  have hlocate : ∀ {before after : List Chunk} {c : Chunk},
      k.arena.chunks = before ++ c :: after → c.start = (mem2chunk mem).toNat →
      locate (mem2chunk mem).toNat k.arena.chunks = some (before, c, after) := by
    intro before after c hc hstart
    rw [← hstart]
    exact hsound.laid.locate hc
  rcases hfound : locate (mem2chunk mem).toNat k.arena.chunks with - | ⟨before, c, after⟩
  · refine ⟨iff_of_false (by simp) ?_, .error id⟩
    rintro ⟨-, before, c, after, hc, hstart, -⟩
    rw [hlocate hc hstart] at hfound
    simp at hfound
  obtain ⟨hc, hstart⟩ := locate_eq_some hfound
  have htrims : k.arena.Trims mem ↔ c.tag = .inUse ∧ k.arena.maxFast.toNat < c.len ∧
      fastbinConsolidationThreshold.toNat ≤ k.arena.joinedSize before c after ∧
      trimThreshold.toNat ≤ k.arena.spaceAtEnd before c after ∧
      (0 : Word).slt (DlHeap.trimExtra k.arena.av.topPad
        (BitVec.ofNat 64 (k.arena.spaceAtEnd before c after))) = true := by
    constructor
    · rintro ⟨-, before', c', after', hc', hstart', hrest⟩
      have hsame := hfound.symm.trans (hlocate hc' hstart')
      simp only [Option.some.injEq, Prod.mk.injEq] at hsame
      obtain ⟨rfl, rfl, rfl⟩ := hsame
      exact hrest
    · exact fun hrest => ⟨hzero, before, c, after, hc, hstart, hrest⟩
  have hword := hsound.laid.toNat_len hc
  rw [htrims]
  simp only
  by_cases htag : c.tag = .inUse
  swap
  · rw [if_pos htag]
    exact ⟨iff_of_false (by simp) fun ht => htag ht.1, .error id⟩
  rw [if_neg (not_not.2 htag)]
  by_cases hsmall : BitVec.ofNat 64 c.len ≤ k.arena.maxFast
  · rw [if_pos hsmall]
    refine ⟨iff_of_false (by simp) fun ht => ?_, .ok (Or.inr ?_)⟩
    · rw [BitVec.le_def, hword] at hsmall
      omega
    · exact ⟨⟨lo, hi, hsound.freeFast hc htag hsmall rfl, hend⟩, h.initialized⟩
  · rw [if_neg hsmall]
    rw [BitVec.le_def, hword, not_le] at hsmall
    obtain ⟨hhalts, hsettled⟩ := freeLarge_spec env h hc htag
    refine ⟨hhalts.trans ?_, hsettled⟩
    simp [htag, hsmall]

end Free

/-! ## Runs -/

section Runs

variable {env : Env} {root : Frame}

theorem settled_start (initialTop : Word) (h : HeapState) : Settled (DlHeap.start initialTop h) :=
  Or.inl ⟨rfl, rfl, rfl, fun _ => rfl, Or.inl rfl⟩

theorem step_malloc_eq {k k' : DlHeap} {bytes mem : Word} {bins : BinSearch}
    (h : k.malloc env bins bytes = .ok (mem, k')) : k.step env (.malloc bytes bins) = .ok k' := by
  unfold DlHeap.step
  simp only [h]
  rfl

theorem step_malloc_ends (hcr3 : env.cr3 = root.val) {k : DlHeap} (h : Settled k) (bytes : Word)
    (bins : BinSearch) : Ends Halts Settled (k.step env (.malloc bytes bins)) :=
  (malloc_ends hcr3 h bins bytes).bind fun _ hk => .ok hk

theorem step_settled (hcr3 : env.cr3 = root.val) {k : DlHeap} (h : Settled k) (c : DlCall) :
    Ends (fun _ => False) Settled (k.step env c) := by
  cases c with
  | malloc bytes bins => exact (step_malloc_ends hcr3 h bytes bins).weaken fun _ => False.elim
  | free mem => exact (free_spec h mem).2
  | other allocator machine => exact .ok (h.imp id fun h => h.of_sameEnd ⟨rfl, rfl⟩)

/-- Only `free` halts the kernel, when it trims. -/
theorem step_halts_iff (hcr3 : env.cr3 = root.val) {k : DlHeap} (h : Settled k) (c : DlCall) :
    k.step env c = .error .sbrkHalted ↔ ∃ mem, c = .free mem ∧ k.arena.Trims mem := by
  cases c with
  | malloc bytes bins =>
      exact iff_of_false ((step_malloc_ends hcr3 h bytes bins).ne_error rfl) (by simp)
  | free mem =>
      refine (free_spec h mem).1.trans ?_
      simp
  | other allocator machine => simp [DlHeap.step]

end Runs

/-- A run of one block. -/
theorem run_halts_of_trims {env : Env} {root : Frame} (hcr3 : env.cr3 = root.val)
    {initialTop bytes mem mem' : Word} {h : HeapState} {bins : BinSearch} {k : DlHeap}
    (hmalloc : (DlHeap.start initialTop h).malloc env bins bytes = .ok (mem, k))
    (htrims : k.arena.Trims mem') :
    (DlHeap.start initialTop h).run env [.malloc bytes bins, .free mem'] =
      .error .sbrkHalted := by
  have hstep := step_malloc_eq hmalloc
  have hends := step_settled hcr3 (settled_start initialTop h) (.malloc bytes bins)
  rw [hstep] at hends
  cases hends with
  | ok hk =>
      have hhalts := (step_halts_iff hcr3 hk (.free mem')).2 ⟨mem', rfl, htrims⟩
      rw [DlHeap.run, List.foldlM_cons, hstep]
      show DlHeap.step env k (.free mem') >>= _ = _
      rw [hhalts]
      rfl

/-- From the first call on, `sbrk` never halts the kernel just if no call of `free` trims. -/
theorem never_halts_iff {env : Env} {root : Frame} (hcr3 : env.cr3 = root.val) (initialTop : Word)
    (h : HeapState) (calls : List DlCall) :
    (DlHeap.start initialTop h).run env calls ≠ .error .sbrkHalted ↔
      ∀ front mem rest k, calls = front ++ .free mem :: rest →
        (DlHeap.start initialTop h).run env front = .ok k → ¬ k.arena.Trims mem := by
  have hsettled : ∀ front k, (DlHeap.start initialTop h).run env front = .ok k → Settled k := by
    intro front k hrun
    have hends := Ends.foldlM (fun k c hk => step_settled hcr3 hk c) front
      (settled_start initialTop h)
    rw [DlHeap.run] at hrun
    rw [hrun] at hends
    cases hends with
    | ok hk => exact hk
  rw [ne_eq, DlHeap.run, foldlM_eq_error_iff]
  constructor
  · intro hnone front mem rest k hcalls hrun htrims
    exact hnone ⟨front, .free mem, rest, k, hcalls, hrun,
      (step_halts_iff hcr3 (hsettled front k hrun) _).2 ⟨mem, rfl, htrims⟩⟩
  · rintro hnone ⟨front, c, rest, k, hcalls, hrun, hhalts⟩
    obtain ⟨mem, rfl, htrims⟩ := (step_halts_iff hcr3 (hsettled front k hrun) c).1 hhalts
    exact hnone front mem rest k hcalls hrun htrims

/-! ## One block -/

theorem sbrk_of_zeroed {h : HeapState} {increment : Word} {count : Nat} (hcount : count ≤ 1000)
    (nodes : HeapAnswers) (hzero : ∀ x, h.machine.mem x = 0) (htaken : h.machine.taken = 0)
    (hinit : h.isInitialized = true) (haligned : h.top.toNat % 4096 = 0) (hnonnull : h.top ≠ 0)
    (hnoWrap : h.top.toNat + (Kernel.alignUp increment pageSize).toNat ≤ 2 ^ 64)
    (hwindow : ¬ h.heapBase + h.heapSize < h.top + Kernel.alignUp increment pageSize)
    (hpos : 0 < increment.toInt)
    (hpages : 4 * (Kernel.alignUp increment pageSize / pageSize).toNat ≤ count) :
    ∃ h', h.sbrk ⟨frameRow count, nodes, 0xffff800000000000, (frameOf 0x1000).val⟩ increment =
        some (h.top, h') ∧ h'.top = h.top + Kernel.alignUp increment pageSize := by
  have hwf : WellFormed (frameRow count) 0xffff800000000000 (frameOf 0x1000) h.machine :=
    wellFormed_frameRow hcount fun x _ => hzero x
  have hgrow : Growable ⟨frameRow count, nodes, 0xffff800000000000, (frameOf 0x1000).val⟩
      (frameOf 0x1000) h :=
    ⟨hwf.tree, hwf.visible, fun q j t hlen hp _ _ _ => hwf.small q j t hlen hp⟩
  have hneed := framesNeeded_le (hasTable 0xffff800000000000 (frameOf 0x1000) h.machine)
    (pagesFrom h.top (Kernel.alignUp increment pageSize / pageSize).toNat 0)
  rw [length_pagesFrom] at hneed
  refine (HeapState.sbrk_extends_iff (freshFrames_frameRow hcount) rfl hgrow hpos).2
    ⟨hinit, haligned, hnonnull, hnoWrap, hwindow, ?_⟩
  have hall : Supplied (frameRow count) 0 count := supplied_frameRow hcount
  rw [htaken]
  exact fun j hj => hall j (Nat.lt_of_lt_of_le hj (Nat.le_trans hneed hpages))

private def rowEnv : Env :=
  ⟨frameRow 1000, fun _ => false, 0xffff800000000000, (frameOf 0x1000).val⟩

/-- The heap as `init_heap` leaves it. -/
private def newHeap : HeapState :=
  { allocator := {}, machine := { mem := fun _ => 0 }, isInitialized := true,
    heapBase := 0xffff800040000000, heapSize := 0x2000000 }

/-- The bins are empty. -/
private def noBins : BinSearch := ⟨fun _ _ => none, fun _ _ => none, by simp, by simp⟩

private theorem newHeap_sbrk :
    ∃ h', newHeap.sbrk rowEnv 0x41000 = some (0xffff800040000000, h') ∧
      h'.top = 0xffff800040041000 := by
  obtain ⟨h', hres, htop⟩ := @sbrk_of_zeroed newHeap 0x41000 1000 (by decide) (fun _ => false)
    (fun _ => rfl) rfl rfl (by decide) (by decide) (by decide) (by decide) (by decide) (by decide)
  exact ⟨h', hres, htop.trans (by decide)⟩

/-- A block of 0x3fff0 bytes is all that is in use, and the top is the rest of 65 pages. -/
private theorem trims_block {a : Arena}
    (hchunks : a.chunks = [⟨0xffff800040000000, 0x3fff0, .inUse⟩])
    (htop : (chunksize a.av.topHead).toNat = 0x1010) (hpad : a.av.topPad = 0)
    (hmax : a.maxFast = request2size defaultMxfast) : a.Trims 0xffff800040000010 := by
  have hmaxval : a.maxFast.toNat = 80 := by
    rw [hmax]
    decide
  have hjoined : a.joinedSize [] ⟨0xffff800040000000, 0x3fff0, .inUse⟩ [] = 0x41000 := by
    simp [Arena.joinedSize, freeLen, Arena.topChunk, ChunkUse.isBinned, htop]
  have hspace : a.spaceAtEnd [] ⟨0xffff800040000000, 0x3fff0, .inUse⟩ [] = 0x41000 := by
    simp [Arena.spaceAtEnd, trailing, Arena.topChunk, ChunkUse.isInUse, htop]
  have hhalf : fastbinConsolidationThreshold.toNat = 0x20000 := by decide
  have hwhole : trimThreshold.toNat = 0x40000 := by decide
  have hextra : (0 : Word).slt (DlHeap.trimExtra 0 0x41000) = true := by decide
  refine ⟨by decide, [], _, [], hchunks, by decide, rfl, ?_, ?_, ?_, ?_⟩
  · rw [hmaxval]
    norm_num
  · rw [hjoined, hhalf]
    norm_num
  · rw [hspace, hwhole]
    norm_num
  · rw [hspace, hpad]
    exact hextra

/-- Freeing the first block, with almost all of its 65 pages in use, halts the kernel. -/
theorem free_halts :
    (DlHeap.start 0xffffffff80200000 newHeap).run rowEnv
        [.malloc 0x3ffe0 noBins, .free 0xffff800040000010] = .error .sbrkHalted := by
  have hgrowth : (Arena.mallocInitState
      (DlHeap.start 0xffffffff80200000 newHeap).arena).av.growth 0x3fff0 = 0x41000 := by decide
  have hstart : newHeap.top = 0xffff800040000000 := by decide
  have haddr : (0xffff800040000000 : Word).toNat = 0xffff800040000000 := by decide
  have hlen : (0x3fff0 : Word).toNat = 0x3fff0 := by decide
  have hhead : (chunksize ((0x41000 - 0x3fff0) ||| prevInuse)).toNat = 0x1010 := by decide
  obtain ⟨h', hsbrk, hmoved⟩ := newHeap_sbrk
  obtain ⟨k, hmalloc, hfirst⟩ :=
    @malloc_first rowEnv (frameOf 0x1000) 0x3fff0 rfl newHeap h' 0xffffffff80200000 0x3ffe0 _ noBins
      (by decide) (by decide) (by decide) (by rw [hgrowth]; decide) (by rw [hgrowth]; exact hsbrk)
      (by rw [hmoved, hstart]; decide) (by rw [hgrowth]; decide)
  have hchunks := hfirst.chunks
  have htop := hfirst.topHead
  rw [hstart, haddr, hlen] at hchunks
  rw [hgrowth] at htop
  exact run_halts_of_trims rfl hmalloc
    (trims_block hchunks (by rw [htop]; exact hhead) hfirst.topPad hfirst.maxFast)

theorem never_halts_iff_one_block :
    (DlHeap.start 0xffffffff80200000 newHeap).run rowEnv
        [.malloc 0x3ffe0 noBins, .free 0xffff800040000010] ≠ .error .sbrkHalted ↔
      ∀ front mem rest k,
        [.malloc 0x3ffe0 noBins, .free 0xffff800040000010] = front ++ .free mem :: rest →
        (DlHeap.start 0xffffffff80200000 newHeap).run rowEnv front = .ok k →
        ¬ k.arena.Trims mem :=
  @never_halts_iff rowEnv (frameOf 0x1000) rfl 0xffffffff80200000 newHeap
    [.malloc 0x3ffe0 noBins, .free 0xffff800040000010]

end UnnamedKernel.Mm.Heap
