import UnnamedKernel.Mm.Heap.Chunks

/-!
# How `malloc` gets memory from `sbrk`

`sYSMALLOc` never passes `sbrk` a negative increment, and the chunks go on to reach up to the
break: no call of `malloc` halts the kernel there.
-/

namespace UnnamedKernel.Mm.Heap

open UnnamedKernel.Lib UnnamedKernel.Kernel Vma Vmm

/-! ## `sYSMALLOc` -/

/-- The break has not moved. -/
structure SameEnd (s s' : Supply) : Prop where
  initialized : s'.heap.isInitialized = s.heap.isInitialized
  top : s'.heap.top = s.heap.top

theorem SameEnd.trans {s s' s'' : Supply} (h : SameEnd s s') (h' : SameEnd s' s'') :
    SameEnd s s'' :=
  ⟨h'.initialized.trans h.initialized, h'.top.trans h.top⟩

theorem morecore_zero_same (env : Env) (s : Supply) :
    ∃ s', morecore env s 0 = some (if s.heap.isInitialized then s.heap.top else 0, s') ∧
      SameEnd s s' := by
  obtain ⟨h', hcall, htop, hinit⟩ := s.heap.sbrk_zero env
  unfold morecore
  rw [hcall]
  exact ⟨_, rfl, hinit, htop⟩

theorem mmapCall_same {env : Env} {s s' : Supply} {size r : Word}
    (hres : mmapCall env s size = some (r, s')) : SameEnd s s' := by
  obtain ⟨⟨r', h⟩, hcall, hres⟩ := Option.bind_eq_some_iff.1 hres
  obtain ⟨hinit, hbase, -, htop⟩ := sameBreak_mmap hcall
  have hend : h.top = s.heap.top := by
    unfold HeapState.top
    rw [htop, hbase]
  simp only at hres
  split_ifs at hres
  · obtain ⟨-, rfl⟩ := Prod.mk.inj (Option.some.inj hres)
    exact ⟨hinit, hend⟩
  · obtain ⟨-, rfl⟩ := Prod.mk.inj (Option.some.inj hres)
    exact ⟨hinit, hend⟩

section Sysmalloc

variable {env : Env} {s : Supply} {av : MallocState} {brk size nb : Word}

/-- Without an old top the second increment for new pages is 0. -/
theorem pageEnd_same (hold : chunksize av.topHead = 0#64) (hbrk : brk.toNat % 4096 = 0)
    (hsize : size.toNat % 4096 = 0) :
    ∃ out av' s', av.pageEnd env brk size s = some (out, av', s') ∧ SameEnd s s' ∧
      av'.topPad = av.topPad ∧ (s.heap.isInitialized = true → s.heap.top = brk + size →
        out = (brk + size, brk, 0)) := by
  have hend := add_page_mod hbrk hsize
  have hpage : pageUp (brk + size) = brk + size := by rw [pageUp_eq, alignUp_of_mod hend]
  obtain ⟨s₁, hcall, hsame⟩ := morecore_zero_same env s
  have hcall₀ : morecore env s 0#64 =
    some (if s.heap.isInitialized then s.heap.top else 0, s₁) := hcall
  unfold MallocState.pageEnd
  simp only [frontCorrection_page hbrk, hold, BitVec.add_zero, hpage,
    BitVec.sub_self, hcall₀, Option.bind_eq_bind, Option.bind_some]
  by_cases hfail : (if s.heap.isInitialized = true then s.heap.top else 0) = morecoreFailure
  · obtain ⟨s₂, hcall₁, hsame₁⟩ := morecore_zero_same env s₁
    rw [if_pos hfail, hcall₁]
    refine ⟨_, _, _, rfl, hsame.trans hsame₁, rfl, fun hinit htop => ?_⟩
    rw [if_pos hinit, htop] at hfail
    exact absurd hfail (ne_morecoreFailure hend)
  · rw [if_neg hfail]
    by_cases hlow : (if s.heap.isInitialized = true then s.heap.top else 0) < brk
    · rw [if_pos hlow]
      exact ⟨_, _, _, rfl, hsame, rfl, fun _ _ => rfl⟩
    · rw [if_neg hlow]
      exact ⟨_, _, _, rfl, hsame, rfl, fun hinit htop =>
        congrArg (fun x : Word => (x, brk, (0 : Word))) ((if_pos hinit).trans htop)⟩

/-- The end of new space is found without a negative increment, if there is no old top or `brk`
lies in front of its end. -/
theorem findEnd_same (env : Env) (s : Supply) (hbrk : brk.toNat % 4096 = 0)
    (hsize : size.toNat % 4096 = 0)
    (hold : chunksize av.topHead = 0#64 ∨ brk < av.top + chunksize av.topHead) :
    ∃ out av' s', av.findEnd env brk morecoreFailure size s = some (out, av', s') ∧
      SameEnd s s' ∧ av'.topPad = av.topPad ∧
        (s.heap.isInitialized = true → s.heap.top = brk + size →
          out = (brk + size, brk, 0)) := by
  have hpad : (av.noteGap brk).topPad = av.topPad := by
    unfold MallocState.noteGap
    split_ifs <;> rfl
  unfold MallocState.findEnd
  by_cases hcontiguous : (av.noteGap brk).contiguous = true
  · have hempty : chunksize (av.noteGap brk).topHead = 0#64 := by
      rw [noteGap_topHead]
      by_contra hsome
      have hgap := hold.resolve_left hsome
      unfold MallocState.noteGap at hcontiguous
      split_ifs at hcontiguous with hnote
      exact hnote ⟨hcontiguous, hsome, hgap⟩
    rw [if_pos hcontiguous, ← hpad]
    exact pageEnd_same hempty hbrk hsize
  · obtain ⟨s₁, hcall, hsame⟩ := morecore_zero_same env s
    rw [if_neg hcontiguous, if_pos rfl, hcall]
    refine ⟨_, _, _, rfl, hsame, hpad, fun hinit htop => ?_⟩
    rw [if_pos hinit, htop]

theorem adjustTop_same (env : Env) (s : Supply) (hbrk : brk.toNat % 4096 = 0)
    (hsize : size.toNat % 4096 = 0)
    (hold : brk = av.top + chunksize av.topHead ∨ chunksize av.topHead = 0#64 ∨
      brk < av.top + chunksize av.topHead) :
    ∃ av' s', av.adjustTop env brk morecoreFailure size s = some (av', s') ∧ SameEnd s s' ∧
      av'.topPad = av.topPad ∧ (s.heap.isInitialized = true → s.heap.top = brk + size →
        (brk = av.top + chunksize av.topHead ∨ chunksize av.topHead = 0#64) →
        av'.top = brk - chunksize av.topHead ∧
          av'.topHead = (size + chunksize av.topHead) ||| prevInuse) := by
  unfold MallocState.adjustTop
  by_cases hextends : brk = av.top + chunksize av.topHead
  · rw [if_pos ⟨hextends, rfl⟩]
    refine ⟨_, _, rfl, ⟨rfl, rfl⟩, rfl, fun _ _ _ => ⟨?_, rfl⟩⟩
    rw [hextends]
    exact (BitVec.add_sub_cancel _ _).symm
  · rw [if_neg fun h => hextends h.1]
    obtain ⟨out, av₁, s₁, hfind, hsame, hpad, hout⟩ :=
      findEnd_same env s hbrk hsize (hold.resolve_left hextends)
    rw [hfind]
    by_cases hfail : out.1 = morecoreFailure
    · refine ⟨av₁, s₁, by simp [hfail], hsame, hpad, fun hinit htop _ => ?_⟩
      rw [hout hinit htop] at hfail
      exact absurd hfail (ne_morecoreFailure (add_page_mod hbrk hsize))
    · refine ⟨{ av₁ with
        top := out.2.1, topHead := (out.1 - out.2.1 + out.2.2) ||| prevInuse }, s₁, ?_, hsame, hpad,
        fun hinit htop hcases => ?_⟩
      · simp only [Option.bind_eq_bind, Option.bind_some, if_neg hfail]
      have hzero := hcases.resolve_left hextends
      have hend : brk + size - brk = size := by bv_omega
      rw [hout hinit htop, hzero]
      simp [hend]

/-- `sYSMALLOc` does not halt in `sbrk`: the break stays, or the top grows by new pages. -/
theorem sysmalloc_answer {root : Frame} (hcr3 : env.cr3 = root.val)
    (hpos : 0 < (av.growth nb).toInt)
    (hold : chunksize av.topHead = 0#64 ∨ s.heap.top = av.top + chunksize av.topHead) :
    ∃ av' s', av.sysmalloc env nb s = some (av', s') ∧
      s'.heap.isInitialized = s.heap.isInitialized ∧ av'.topPad = av.topPad ∧
      (∀ r h', s.heap.sbrk env (av.growth nb) = some (r, h') → s'.heap.top = h'.top) ∧
      (s'.heap.top = s.heap.top ∨
        s.heap.isInitialized = true ∧ s'.heap.top = s.heap.top + av.growth nb ∧
          s.heap.top ≠ 0 ∧ s.heap.top.toNat + (av.growth nb).toNat ≤ 2 ^ 64 ∧
          av'.top = s.heap.top - chunksize av.topHead ∧
          av'.topHead = (av.growth nb + chunksize av.topHead) ||| prevInuse) := by
  have hpages : (av.growth nb).toNat % 4096 = 0 := pageUp_mod _
  obtain ⟨r, s₁, hcall, hset, hfirst⟩ : ∃ r s₁, morecore env s (av.growth nb) = some (r, s₁) ∧
      (r = 0 ∨ s.heap.isInitialized = true) ∧
      ∀ r h', s.heap.sbrk env (av.growth nb) = some (r, h') → s₁.heap.top = h'.top := by
    obtain ⟨r, h', hsbrk, -, hanswer⟩ := HeapState.sbrk_answer (h := s.heap) hcr3 hpos
    refine ⟨r, ⟨h', ⟨s.heap.top, h'.top - s.heap.top⟩ :: s.mapped⟩, ?_, ?_, fun r₁ h₁ hres => ?_⟩
    · unfold morecore
      rw [hsbrk]
      exact Option.bind_some ..
    · rcases hanswer with ⟨hr, -⟩ | ⟨-, hset, -⟩
      · exact Or.inl hr
      · exact Or.inr hset
    · rw [hsbrk] at hres
      cases hres
      rfl
  obtain ⟨hinit, hcases⟩ := morecore_answer hcr3 hpos hpages hcall
  have hrpage : r.toNat % 4096 = 0 := by
    rcases hcases with ⟨rfl, -⟩ | ⟨rfl, -, hpage, -⟩
    · rfl
    · exact hpage
  have heq : av.sysmalloc env nb s = av.adjustTop env r morecoreFailure (av.growth nb) s₁ := by
    unfold MallocState.sysmalloc
    simp only [slt_zero_iff, if_pos hpos, hcall, Option.bind_eq_bind, Option.bind_some,
      if_neg (ne_morecoreFailure hrpage)]
  rw [heq]
  rcases hcases with ⟨rfl, htop, -⟩ | ⟨rfl, htop, -, hne, hfits, -⟩
  · -- refused: the null address lies in front of the old top
    have hlow : (0 : Word) = av.top + chunksize av.topHead ∨ chunksize av.topHead = 0#64 ∨
        (0 : Word) < av.top + chunksize av.topHead := by bv_omega
    obtain ⟨av', s', hadjust, hsame, hpad, -⟩ := adjustTop_same env s₁ hrpage hpages hlow
    exact ⟨av', s', hadjust, hsame.initialized.trans hinit, hpad,
      fun r h' hres => hsame.top.trans (hfirst r h' hres), Or.inl (hsame.top.trans htop)⟩
  · obtain ⟨av', s', hadjust, hsame, hpad, hnew⟩ := adjustTop_same env s₁ hrpage hpages
      (hold.elim (fun h => Or.inr (Or.inl h)) Or.inl)
    have hset' := hset.resolve_left hne
    obtain ⟨hnewtop, hnewhead⟩ := hnew (hinit.trans hset') htop hold.symm
    exact ⟨av', s', hadjust, hsame.initialized.trans hinit, hpad,
      fun r h' hres => hsame.top.trans (hfirst r h' hres),
      Or.inr ⟨hset', hsame.top.trans htop, hne, hfits, hnewtop, hnewhead⟩⟩

theorem backup_same {av' : MallocState} {s' : Supply} {out : Word × Word × Word}
    (hres : av.backup env nb size s = some (out, av', s')) : SameEnd s s' := by
  unfold MallocState.backup at hres
  simp only at hres
  generalize (if av.contiguous = true then pageUp (size + chunksize av.topHead) else size) = n
    at hres
  generalize (if n < mmapAsMorecoreSize then mmapAsMorecoreSize else n) = n at hres
  split_ifs at hres
  · obtain ⟨⟨r, s₁⟩, hcall, hres⟩ := Option.bind_eq_some_iff.1 hres
    have hsame := mmapCall_same hcall
    simp only at hres
    split_ifs at hres
    · cases hres
      exact hsame
    · cases hres
      exact hsame
  · cases hres
    exact ⟨rfl, rfl⟩

theorem sysmalloc_same {av' : MallocState} {s' : Supply} (hpos : ¬ 0 < (av.growth nb).toInt)
    (hres : av.sysmalloc env nb s = some (av', s')) : SameEnd s s' := by
  unfold MallocState.sysmalloc at hres
  simp only [slt_zero_iff, if_neg hpos, Option.bind_eq_bind, Option.bind_some, if_pos] at hres
  obtain ⟨⟨⟨brk, snd, n⟩, av₁, s₁⟩, hbackup, hset⟩ := Option.bind_eq_some_iff.1 hres
  have hsame := backup_same hbackup
  obtain ⟨-, -, hcases⟩ := backup_mapped (pageUp_mod _) hbackup
  simp only at hset
  rcases hcases with hfail | ⟨hne, -, hsnd, hcontiguous, -, -⟩
  · rw [if_pos hfail] at hset
    cases hset
    exact hsame
  · rw [if_neg hne] at hset
    have hgap : av₁.noteGap brk = av₁ := if_neg (by simp [hcontiguous])
    have hfind : av₁.findEnd env brk snd n s₁ = some ((snd, brk, 0), av₁, s₁) := by
      unfold MallocState.findEnd
      rw [hgap, if_neg (by simp [hcontiguous]), if_neg hsnd]
    unfold MallocState.adjustTop at hset
    rw [if_neg fun h => hsnd h.2, hfind] at hset
    simp only [Option.bind_eq_bind, Option.bind_some, if_neg hsnd] at hset
    cases hset
    exact hsame

end Sysmalloc

/-! ## What `malloc` keeps -/

/-- No memory has come from `sbrk` yet. -/
structure Fresh (a : Arena) : Prop where
  chunks : a.chunks = []
  anychunks : a.anychunks = false
  fastchunks : a.fastchunks = false
  fastbins : ∀ i, a.fastbins i = []
  empty : a.maxFast = 0 ∨
    a.maxFast = request2size defaultMxfast ∧ chunksize a.av.topHead = 0#64

/-- The chunks reach up to the break. -/
structure Grown (k : DlHeap) : Prop where
  sound : ∃ lo hi, Sound lo hi k.arena ∧ k.supply.heap.top = BitVec.ofNat 64 hi
  initialized : k.supply.heap.isInitialized = true

/-- What holds between the calls of `malloc` and `free`. -/
def Settled (k : DlHeap) : Prop := Fresh k.arena ∨ Grown k

theorem Grown.of_sameEnd {k : DlHeap} {s : Supply} (h : Grown k) (hsame : SameEnd k.supply s) :
    Grown { k with supply := s } := by
  obtain ⟨lo, hi, hsound, hend⟩ := h.sound
  exact ⟨⟨lo, hi, hsound, hsame.top.trans hend⟩, hsame.initialized.trans h.initialized⟩

theorem Laid.grow {lo hi : Nat} {a : Arena} (h : Laid lo hi a) {av : MallocState} {g : Word}
    (hg : g.toNat % 4096 = 0) (hfits : hi + g.toNat ≤ 2 ^ 64) (htop : av.top = a.av.top)
    (hhead : av.topHead = (g + chunksize a.av.topHead) ||| prevInuse) :
    Laid lo (hi + g.toNat) { a with av := av } := by
  have htiles := h.tiles
  have hsep := h.separated
  have hsizes := h.sizes
  have htopsize := h.sizes a.topChunk (by simp [Arena.all])
  have hlo := h.lo_pos
  rw [Arena.all, Tiles.append_iff] at htiles
  obtain ⟨mid, hchunks, hmid, hstop⟩ := htiles
  have hle := hchunks.le
  simp only [Tiles.nil_iff, Seg.stop, Arena.topChunk] at hstop htopsize hmid
  have hsum : (g + chunksize a.av.topHead).toNat = g.toNat + (chunksize a.av.topHead).toNat := by
    rw [BitVec.toNat_add]
    omega
  have hsize : (chunksize av.topHead).toNat = g.toNat + (chunksize a.av.topHead).toNat := by
    rw [hhead, chunksize_set_head (by omega), hsum]
  have hall : ({ a with av := av } : Arena).all =
      a.chunks ++ [⟨a.av.top.toNat, g.toNat + (chunksize a.av.topHead).toNat, .binned⟩] := by
    simp [Arena.all, Arena.topChunk, htop, hsize]
  refine ⟨h.lo_pos, hfits, ?_, ?_, ?_⟩ <;> rw [hall]
  · refine hchunks.append ⟨hmid, ?_⟩
    simp only [Tiles.nil_iff, Seg.stop]
    omega
  · rw [Arena.all, Separated, List.isChain_append] at hsep
    refine List.isChain_append.2 ⟨hsep.1, List.isChain_singleton _, fun u hu v hv => ?_⟩
    have htag : v.tag = a.topChunk.tag := by
      obtain rfl : _ = v := by simpa using hv
      rfl
    rw [htag]
    exact hsep.2.2 u hu a.topChunk (by simp)
  · intro u hu
    rcases List.mem_append.1 hu with hu | hu
    · exact hsizes u (by simp [Arena.all, hu])
    · obtain rfl := List.mem_singleton.1 hu
      simp only
      omega

theorem Grown.splitTop {k : DlHeap} {a : Arena} {nb mem : Word} (h : Grown k)
    (hnb : ChunkSize nb) (hres : k.arena.splitTop nb = some (mem, a)) :
    Grown { k with arena := a } := by
  obtain ⟨lo, hi, hsound, hend⟩ := h.sound
  exact ⟨⟨lo, hi, hsound.splitTop hnb hres, hend⟩, h.initialized⟩

theorem Fresh.top_empty {a : Arena} (h : Fresh a)
    (hmax : a.maxFast = request2size defaultMxfast) : chunksize a.av.topHead = 0#64 := by
  refine h.empty.elim (fun hzero => ?_) And.right
  rw [hzero] at hmax
  exact absurd hmax (by decide)

theorem Fresh.splitTop {a : Arena} {nb : Word} (htop : chunksize a.av.topHead = 0#64)
    (hnb : ChunkSize nb) : a.splitTop nb = none := by
  have hminsize : minsize.toNat = 32 := rfl
  have hmin := hnb.min
  have hfits := hnb.fits
  unfold Arena.splitTop
  rw [htop, if_neg]
  rw [BitVec.le_def, BitVec.toNat_add]
  show ¬ _ ≤ 0
  omega

theorem Fresh.grow {a : Arena} (h : Fresh a) (hmax : a.maxFast = request2size defaultMxfast)
    {av : MallocState} {brk g : Word} (hne : brk ≠ 0) (hg : g.toNat % 4096 = 0) (hpos : 0 < g.toNat)
    (hfits : brk.toNat + g.toNat ≤ 2 ^ 64) (htop : av.top = brk)
    (hhead : chunksize av.topHead = g) :
    Sound brk.toNat (brk.toNat + g.toNat) { a with av := av } := by
  have hall : ({ a with av := av } : Arena).all = [⟨brk.toNat, g.toNat, .binned⟩] := by
    simp [Arena.all, Arena.topChunk, h.chunks, htop, hhead]
  have hpending : ({ a with av := av } : Arena).pending = [] := by
    simp [Arena.pending, h.fastbins]
  have hbrk : 0 < brk.toNat := by bv_omega
  refine ⟨⟨hbrk, hfits, ?_, ?_, ?_⟩, hmax, ?_, fun _ => hpending⟩
  · rw [hall]
    exact ⟨rfl, rfl⟩
  · rw [hall]
    exact List.isChain_singleton _
  · rw [hall]
    intro u hu
    obtain rfl := List.mem_singleton.1 hu
    simp only
    omega
  · rw [hpending]
    exact ⟨List.nodup_nil, by simp [h.chunks]⟩

/-- `sbrk` has halted the kernel. -/
def Halts (e : Trap) : Prop := e = .sbrkHalted

theorem tryMmap_ends {bad : Trap → Prop} (hhalted : ¬ bad .mmapHalted) (hunserved : ¬ bad .unserved)
    (env : Env) (nb : Word) (s : Supply) : Ends bad (SameEnd s) (tryMmap env nb s) := by
  unfold tryMmap
  simp only
  split_ifs
  · rcases hcall : mmapCall env s (pageUp (nb + 8 + mallocAlignMask)) with - | ⟨mm, s'⟩
    · exact .error hhalted
    · simp only
      split_ifs
      · exact .error hunserved
      · exact .ok (mmapCall_same hcall)
  · exact .ok ⟨rfl, rfl⟩

section Malloc

variable {env : Env} {root : Frame} {k : DlHeap} {nb : Word}

/-- The old top is empty or ends at the break. -/
theorem Settled.old_top (h : Settled k) (hmax : k.arena.maxFast = request2size defaultMxfast) :
    chunksize k.arena.av.topHead = 0#64 ∨
      k.supply.heap.top = k.arena.av.top + chunksize k.arena.av.topHead := by
  rcases h with h | h
  · exact Or.inl (h.top_empty hmax)
  · obtain ⟨lo, hi, hsound, hend⟩ := h.sound
    exact Or.inr (hend.trans hsound.laid.topEnd.symm)

theorem sysmalloc_not_none (hcr3 : env.cr3 = root.val) (h : Settled k)
    (hmax : k.arena.maxFast = request2size defaultMxfast)
    (hpos : (0 : Word).slt (k.arena.av.growth nb) = true) :
    k.arena.av.sysmalloc env nb k.supply ≠ none := by
  obtain ⟨av, s', hres, -⟩ := sysmalloc_answer hcr3 ((slt_zero_iff _).1 hpos) (h.old_top hmax)
  rw [hres]
  simp

/-- The break has moved by whole new pages, which extend the old top or are the first one. -/
structure NewTop (k : DlHeap) (g : Word) (av : MallocState) (s' : Supply) : Prop where
  initialized : s'.heap.isInitialized = true
  pages : g.toNat % 4096 = 0
  pos : 0 < g.toNat
  aligned : k.supply.heap.top.toNat % 4096 = 0
  ne : k.supply.heap.top ≠ 0
  fits : k.supply.heap.top.toNat + g.toNat ≤ 2 ^ 64
  moved : s'.heap.top = k.supply.heap.top + g
  window : ¬ k.supply.heap.heapBase + k.supply.heap.heapSize < k.supply.heap.top + g
  topPad : av.topPad = k.arena.av.topPad
  top : av.top = k.supply.heap.top - chunksize k.arena.av.topHead
  head : av.topHead = (g + chunksize k.arena.av.topHead) ||| prevInuse

/-- The new top, if it is not taken for one that `sbrk` has not provided. -/
theorem sysmalloc_cases (hcr3 : env.cr3 = root.val) (h : Settled k)
    (hmax : k.arena.maxFast = request2size defaultMxfast) {av : MallocState} {s' : Supply}
    (hres : k.arena.av.sysmalloc env nb k.supply = some (av, s'))
    (hserved : av = k.arena.av ∨ s'.heap.top ≠ k.supply.heap.top) :
    (av = k.arena.av ∧ SameEnd k.supply s') ∨ NewTop k (k.arena.av.growth nb) av s' := by
  have hstays : SameEnd k.supply s' → av = k.arena.av ∧ SameEnd k.supply s' := fun hsame =>
    ⟨hserved.resolve_right fun h => h hsame.top, hsame⟩
  by_cases hpos : 0 < (k.arena.av.growth nb).toInt
  swap
  · exact Or.inl (hstays (sysmalloc_same hpos hres))
  obtain ⟨av₁, s₁, hcall, hinit, hpad, hfirst, hcases⟩ :=
    sysmalloc_answer hcr3 hpos (h.old_top hmax)
  obtain ⟨rfl, rfl⟩ := Prod.mk.inj (Option.some.inj (hres.symm.trans hcall))
  rcases hcases with htop | ⟨hset, htop, hne, hfits, hnewtop, hnewhead⟩
  · exact Or.inl (hstays ⟨hinit, htop⟩)
  obtain ⟨r, h', hsbrk, -, hanswer⟩ := HeapState.sbrk_answer (h := k.supply.heap) hcr3 hpos
  have hg := (toNat_lt_of_toInt_pos hpos).2.2.1
  -- a refused call would have left the break
  have hmoved : h'.top ≠ k.supply.heap.top := by
    intro hrefused
    have hsame := (hfirst r h' hsbrk).trans hrefused
    rw [htop] at hsame
    bv_omega
  have haligned : k.supply.heap.top.toNat % 4096 = 0 :=
    (hanswer.resolve_left fun hrefused => hmoved hrefused.2).2.2.2.1
  have hwindow := ((sbrk_cases hsbrk).2.resolve_left hmoved).2.2.2.1
  have hpages : (k.arena.av.growth nb).toNat % 4096 = 0 := pageUp_mod _
  rw [alignUp_of_mod hpages] at hwindow
  exact Or.inr ⟨hinit.trans hset, hpages, hg, haligned, hne, hfits, htop, hwindow, hpad, hnewtop,
    hnewhead⟩

section NewTop

variable {g : Word} {av : MallocState} {s' : Supply}

theorem NewTop.first (hnew : NewTop k g av s') (h : Fresh k.arena)
    (hmax : k.arena.maxFast = request2size defaultMxfast) : ∃ hi,
      Sound k.supply.heap.top.toNat hi { k.arena with av := av } ∧
        s'.heap.top = BitVec.ofNat 64 hi := by
  have htop := hnew.top
  have hhead := hnew.head
  have hpages := hnew.pages
  rw [h.top_empty hmax] at htop hhead
  have hsize : chunksize av.topHead = g := by
    rw [hhead, BitVec.add_zero, chunksize_set_head (by omega)]
  refine ⟨_, h.grow hmax hnew.ne hpages hnew.pos hnew.fits (htop.trans (BitVec.sub_zero _)) hsize,
    ?_⟩
  rw [hnew.moved, BitVec.ofNat_add, BitVec.ofNat_toNat, BitVec.ofNat_toNat]
  simp

theorem NewTop.more {lo hi : Nat} (hnew : NewTop k g av s') (h : Sound lo hi k.arena)
    (hend : k.supply.heap.top = BitVec.ofNat 64 hi) : ∃ hi,
      Sound lo hi { k.arena with av := av } ∧ s'.heap.top = BitVec.ofNat 64 hi := by
  have hle := h.laid.hi_le
  have hne := hnew.ne
  have hfits := hnew.fits
  have hhi : k.supply.heap.top.toNat = hi := by
    rw [hend, BitVec.toNat_ofNat]
    rw [hend] at hne
    bv_omega
  have hsame : av.top = k.arena.av.top := by
    rw [hnew.top, hend, ← h.laid.topEnd, BitVec.add_sub_cancel]
  rw [hhi] at hfits
  refine ⟨_, h.of_laid (h.laid.grow hnew.pages hfits hsame hnew.head) h.fast, ?_⟩
  rw [hnew.moved, hend, BitVec.ofNat_add, BitVec.ofNat_toNat]
  simp

end NewTop

theorem settled_new_top (hcr3 : env.cr3 = root.val) (h : Settled k)
    (hmax : k.arena.maxFast = request2size defaultMxfast) {av : MallocState} {s' : Supply}
    (hres : k.arena.av.sysmalloc env nb k.supply = some (av, s'))
    (hserved : av = k.arena.av ∨ s'.heap.top ≠ k.supply.heap.top) :
    Settled ⟨{ k.arena with av := av }, s'⟩ := by
  rcases sysmalloc_cases hcr3 h hmax hres hserved with ⟨rfl, hsame⟩ | hnew
  · exact h.imp id fun h => h.of_sameEnd hsame
  refine Or.inr ⟨?_, hnew.initialized⟩
  rcases h with h | h
  · exact ⟨_, hnew.first h hmax⟩
  · obtain ⟨lo, hi, hsound, hend⟩ := h.sound
    exact ⟨lo, hnew.more hsound hend⟩

theorem sysmalloc_ends (hcr3 : env.cr3 = root.val) (h : Settled k)
    (hmax : k.arena.maxFast = request2size defaultMxfast) (hnb : ChunkSize nb) :
    Ends Halts (fun x => Settled x.2) (k.sysmalloc env nb) := by
  refine (tryMmap_ends (by simp [Halts]) (by simp [Halts]) env nb k.supply).bind fun s hs => ?_
  have hk : Settled { k with supply := s } := h.imp id fun h => h.of_sameEnd hs
  rcases hres : k.arena.av.sysmalloc env nb s with - | ⟨av, s'⟩
  · simp only
    split_ifs with hpos
    · exact absurd hres (sysmalloc_not_none hcr3 hk hmax hpos)
    · exact .error (by simp [Halts])
  simp only
  split_ifs with hunserved
  · exact .error (by simp [Halts])
  have hserved : av = k.arena.av ∨ s'.heap.top ≠ s.heap.top := by
    by_contra hnone
    rw [not_or, not_not] at hnone
    exact hunserved hnone
  have hnew := settled_new_top (k := { k with supply := s }) hcr3 hk hmax hres hserved
  rcases hsplit : ({ k.arena with av := av } : Arena).splitTop nb with - | ⟨mem, a⟩
  · exact .ok hnew
  · refine .ok (Or.inr ?_)
    rcases hnew with hnew | hnew
    · have hempty := hnew.top_empty hmax
      rw [Fresh.splitTop hempty hnb] at hsplit
      simp at hsplit
    · exact hnew.splitTop hnb hsplit

theorem Fresh.serve {a : Arena} (h : Fresh a) (hnb : ChunkSize nb) (bins : BinSearch) :
    ∃ a', a.serve bins nb = (none, a') ∧ Fresh a' ∧
      a'.maxFast = request2size defaultMxfast := by
  obtain ⟨a', ha', h', hmax⟩ : ∃ a', (if a.maxFast = 0 then a.mallocConsolidate else a) = a' ∧
      Fresh a' ∧ a'.maxFast = request2size defaultMxfast := by
    by_cases hzero : a.maxFast = 0
    · have hempty : chunksize 0 = 0#64 := by decide
      rw [if_pos hzero, Arena.mallocConsolidate, if_neg (not_not.2 hzero)]
      exact ⟨_, rfl, ⟨h.chunks, h.anychunks, h.fastchunks, h.fastbins,
        Or.inr ⟨rfl, hempty⟩⟩, rfl⟩
    · rw [if_neg hzero]
      exact ⟨_, rfl, h, (h.empty.resolve_left hzero).1⟩
  refine ⟨a', ?_, h', hmax⟩
  rw [Arena.serve, if_pos (by simp [h.anychunks]), ha', Arena.useTop,
    Fresh.splitTop (h'.top_empty hmax) hnb]

/-- A call of `malloc` with any of its two ways to get to the system. -/
theorem mallocWith_ends {system : Word → DlHeap → Except Trap (Word × DlHeap)}
    (hsystem : ∀ nb k, ChunkSize nb → Settled k → k.arena.maxFast = request2size defaultMxfast →
      Ends Halts (fun x => Settled x.2) (system nb k))
    (h : Settled k) (bins : BinSearch) (bytes : Word) :
    Ends Halts (fun x => Settled x.2) (DlHeap.mallocWith system bins bytes k) := by
  unfold DlHeap.mallocWith
  cases hrange : requestOutOfRange bytes
  swap
  · rw [if_pos rfl]
    exact .ok h
  rw [if_neg (by simp)]
  have hnb := chunkSize_request2size hrange
  rcases h with h | h
  · obtain ⟨a', hserve, h', hmax⟩ := h.serve hnb bins
    rw [hserve]
    exact hsystem _ _ hnb (Or.inl h') hmax
  · obtain ⟨lo, hi, hsound, hend⟩ := h.sound
    have hserve := hsound.serve hnb bins
    rcases hres : k.arena.serve bins (request2size bytes) with ⟨mem, a'⟩
    rw [hres] at hserve
    have hgrown : Grown { k with arena := a' } := ⟨⟨lo, hi, hserve, hend⟩, h.initialized⟩
    cases mem with
    | some mem => exact .ok (Or.inr hgrown)
    | none => exact hsystem _ _ hnb (Or.inr hgrown) hserve.maxFast

theorem malloc_ends (hcr3 : env.cr3 = root.val) (h : Settled k) (bins : BinSearch) (bytes : Word) :
    Ends Halts (fun x => Settled x.2) (k.malloc env bins bytes) := by
  unfold DlHeap.malloc
  refine mallocWith_ends (fun nb k hnb hk hmax => ?_) h bins bytes
  split_ifs with hflag
  · refine mallocWith_ends (fun nb k hnb hk hmax => sysmalloc_ends hcr3 hk hmax hnb) ?_ bins _
    rcases hk with hk | hk
    · exact absurd hk.fastchunks (by simp [hflag])
    · obtain ⟨lo, hi, hsound, hend⟩ := hk.sound
      exact Or.inr ⟨⟨lo, hi, hsound.mallocConsolidate.sound, hend⟩, hk.initialized⟩
  · exact sysmalloc_ends hcr3 hk hmax hnb

/-- After the first call of `malloc`, from `g` bytes of new pages at `brk`. -/
structure FirstBlock (brk g nb : Word) (a : Arena) : Prop where
  chunks : a.chunks = [⟨brk.toNat, nb.toNat, .inUse⟩]
  top : a.av.top = brk + nb
  topHead : a.av.topHead = (g - nb) ||| prevInuse
  topPad : a.av.topPad = 0
  maxFast : a.maxFast = request2size defaultMxfast
  anychunks : a.anychunks = false

theorem malloc_first (hcr3 : env.cr3 = root.val) {h h' : HeapState} {initialTop bytes r : Word}
    (bins : BinSearch) (hrange : requestOutOfRange bytes = false) (hnb : request2size bytes = nb)
    (hsmall : ¬ mmapThreshold ≤ nb)
    (hpos : 0 < ((Arena.mallocInitState (DlHeap.start initialTop h).arena).av.growth nb).toInt)
    (hsbrk : h.sbrk env
      ((Arena.mallocInitState (DlHeap.start initialTop h).arena).av.growth nb) = some (r, h'))
    (hmoved : h'.top ≠ h.top)
    (hlarge : nb + minsize ≤
      (Arena.mallocInitState (DlHeap.start initialTop h).arena).av.growth nb) :
    ∃ k, (DlHeap.start initialTop h).malloc env bins bytes = .ok (chunk2mem h.top, k) ∧
      FirstBlock h.top
        ((Arena.mallocInitState (DlHeap.start initialTop h).arena).av.growth nb) nb k.arena := by
  have hchunk : ChunkSize nb := hnb ▸ chunkSize_request2size hrange
  obtain ⟨a, ha⟩ : ∃ a, Arena.mallocInitState (DlHeap.start initialTop h).arena = a := ⟨_, rfl⟩
  have hempty : chunksize a.av.topHead = 0#64 := by
    rw [← ha]
    show chunksize 0 = 0#64
    decide
  have hserve : (DlHeap.start initialTop h).arena.serve bins nb = (none, a) := by
    have hzero : (DlHeap.start initialTop h).arena.maxFast = 0 := rfl
    rw [Arena.serve, if_pos (by simp [DlHeap.start]), if_pos hzero, Arena.mallocConsolidate,
      if_neg (not_not.2 hzero), ha, Arena.useTop, Fresh.splitTop hempty hchunk]
  have hfields : a.chunks = [] ∧ a.anychunks = false ∧ a.fastchunks = false ∧
      a.av.topPad = 0 ∧ a.maxFast = request2size defaultMxfast := by
    rw [← ha]
    exact ⟨rfl, rfl, rfl, rfl, rfl⟩
  obtain ⟨hchunks, hany, hflag, hpad₀, hmax⟩ := hfields
  rw [ha] at hpos hsbrk hlarge ⊢
  obtain ⟨g, hg⟩ : ∃ g, a.av.growth nb = g := ⟨_, rfl⟩
  have hgpage : g.toNat % 4096 = 0 := hg ▸ pageUp_mod _
  obtain ⟨av, s', hcall, -, hpad, hfirst, hcases⟩ :=
    sysmalloc_answer (s := ⟨h, []⟩) hcr3 hpos (Or.inl hempty)
  have hbreak : s'.heap.top ≠ h.top := fun he => hmoved ((hfirst _ _ hsbrk).symm.trans he)
  obtain ⟨-, -, -, -, htop, hhead⟩ := hcases.resolve_left hbreak
  rw [hempty, hg] at hhead
  rw [hempty, BitVec.sub_zero] at htop
  rw [hg] at hlarge
  have hsize : chunksize av.topHead = g := by
    rw [hhead, BitVec.add_zero, chunksize_set_head (by omega)]
  have hsystem : DlHeap.sysmalloc env nb ⟨a, ⟨h, []⟩⟩ =
      .ok (chunk2mem h.top, ⟨{ a with
        chunks := a.chunks ++ [⟨av.top.toNat, nb.toNat, .inUse⟩]
        av := { av with top := av.top + nb, topHead := (g - nb) ||| prevInuse } }, s'⟩) := by
    have hmmap : tryMmap env nb ⟨h, []⟩ = .ok ⟨h, []⟩ := if_neg fun hm => hsmall hm.1
    have hsplit : ({ a with av := av } : Arena).splitTop nb = some (chunk2mem av.top, { a with
        chunks := a.chunks ++ [⟨av.top.toNat, nb.toNat, .inUse⟩]
        av := { av with top := av.top + nb, topHead := (g - nb) ||| prevInuse } }) := by
      rw [Arena.splitTop, hsize, if_pos hlarge]
    unfold DlHeap.sysmalloc
    simp only [hmmap, bind, Except.bind, hcall]
    rw [if_neg fun hm => hbreak hm.2, hsplit, htop]
  refine ⟨⟨{ a with
      chunks := a.chunks ++ [⟨av.top.toNat, nb.toNat, .inUse⟩]
      av := { av with top := av.top + nb, topHead := (g - nb) ||| prevInuse } }, s'⟩,
    ?_, ?_, ?_, ?_, hpad.trans hpad₀, hmax, hany⟩
  · unfold DlHeap.malloc DlHeap.mallocWith
    rw [hrange, if_neg (by simp), hnb, hserve]
    show (if a.fastchunks = true then _ else _) = _
    rw [if_neg (by simp [hflag])]
    exact hsystem
  · simp [hchunks, htop]
  · exact congrArg (· + nb) htop
  · exact congrArg (fun x => (x - nb) ||| prevInuse) hg.symm

/-- As long as no chunk has been freed, `malloc` takes the start of the top. -/
theorem malloc_top {k : DlHeap} (bins : BinSearch) (hrange : requestOutOfRange bytes = false)
    (hnb : request2size bytes = nb) (hany : k.arena.anychunks = false)
    (hmax : k.arena.maxFast ≠ 0) (hroom : nb + minsize ≤ chunksize k.arena.av.topHead) :
    k.malloc env bins bytes = .ok (chunk2mem k.arena.av.top, { k with
      arena := { k.arena with
        chunks := k.arena.chunks ++ [⟨k.arena.av.top.toNat, nb.toNat, .inUse⟩]
        av := { k.arena.av with
          top := k.arena.av.top + nb
          topHead := (chunksize k.arena.av.topHead - nb) ||| prevInuse } } }) := by
  have hserve : k.arena.serve bins nb = k.arena.useTop nb := by
    rw [Arena.serve, if_pos (by simp [hany]), if_neg hmax]
  unfold DlHeap.malloc DlHeap.mallocWith
  rw [hrange, if_neg (by simp), hnb, hserve, Arena.useTop, Arena.splitTop, if_pos hroom]

end Malloc

end UnnamedKernel.Mm.Heap
