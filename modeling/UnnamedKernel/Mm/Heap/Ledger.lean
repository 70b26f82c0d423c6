import UnnamedKernel.Mm.Heap.Blocks

/-!
# Runs of `malloc` and `free` with their blocks

In every run the blocks that are handed out lie apart in the memory from `sbrk`, and `free` accepts
just them. When all have been freed, the memory is one free chunk again.
-/

namespace UnnamedKernel.Mm.Heap

open UnnamedKernel.Lib UnnamedKernel.Kernel Vma Vmm

namespace DlHeap

/-- A call, and the blocks after it. -/
def stepBlocks (env : Env) (s : DlHeap × List Block) : DlCall → Except Trap (DlHeap × List Block)
  | .malloc bytes bins => do
      let (mem, k) ← s.1.malloc env bins bytes
      .ok (k, grant mem bytes s.2)
  | .free mem => do
      let k ← s.1.free env mem
      .ok (k, revoke mem s.2)
  | .other allocator machine => do
      let k ← s.1.step env (.other allocator machine)
      .ok (k, s.2)

def runBlocks (env : Env) (s : DlHeap × List Block) (calls : List DlCall) :
    Except Trap (DlHeap × List Block) :=
  calls.foldlM (stepBlocks env) s

section Calls

variable {env : Env} {k k' : DlHeap} {blocks : List Block} {calls : List DlCall}

theorem runBlocks_malloc {bytes mem : Word} {bins : BinSearch}
    (h : k.malloc env bins bytes = .ok (mem, k')) :
    runBlocks env (k, blocks) (.malloc bytes bins :: calls) =
      runBlocks env (k', grant mem bytes blocks) calls := by
  rw [runBlocks, List.foldlM_cons, stepBlocks, h]
  rfl

theorem runBlocks_free {mem : Word} (h : k.free env mem = .ok k') :
    runBlocks env (k, blocks) (.free mem :: calls) =
      runBlocks env (k', revoke mem blocks) calls := by
  rw [runBlocks, List.foldlM_cons, stepBlocks, h]
  rfl

end Calls

end DlHeap

/-- The heap and the blocks, from the break `brk` before the first growth on. -/
inductive Booked (brk : Word) : DlHeap → List Block → Prop
  | fresh {k} (fresh : Fresh k.arena) (brk_eq : k.supply.heap.top = brk) : Booked brk k []
  | grown {k blocks hi} (sound : Sound brk.toNat hi k.arena)
      (hend : k.supply.heap.top = BitVec.ofNat 64 hi)
      (initialized : k.supply.heap.isInitialized = true) (aligned : brk.toNat % 4096 = 0)
      (ledger : Ledger k.arena blocks) : Booked brk k blocks

/-- `free` has been called for no chunk in use. -/
def Misuses (e : Trap) : Prop := e = .badFree

section Booked

variable {env : Env} {root : Frame} {brk nb bytes mem : Word} {k : DlHeap} {blocks : List Block}

theorem Booked.settled (h : Booked brk k blocks) : Settled k := by
  cases h with
  | fresh hfresh _ => exact Or.inl hfresh
  | grown sound hend hinit _ _ => exact Or.inr ⟨⟨_, _, sound, hend⟩, hinit⟩

theorem Booked.of_sameEnd (h : Booked brk k blocks) {s : Supply} (hsame : SameEnd k.supply s) :
    Booked brk { k with supply := s } blocks := by
  cases h with
  | fresh hfresh hbrk => exact .fresh hfresh (hsame.top.trans hbrk)
  | grown sound hend hinit haligned ledger =>
      exact .grown sound (hsame.top.trans hend) (hsame.initialized.trans hinit) haligned ledger

theorem Booked.new_top (h : Booked brk k blocks)
    (hmax : k.arena.maxFast = request2size defaultMxfast) {av : MallocState} {s' : Supply}
    {g : Word} (hcases : (av = k.arena.av ∧ SameEnd k.supply s') ∨ NewTop k g av s') :
    Booked brk ⟨{ k.arena with av := av }, s'⟩ blocks := by
  rcases hcases with ⟨rfl, hsame⟩ | hnew
  · exact h.of_sameEnd hsame
  cases h with
  | fresh hfresh hbrk =>
      obtain ⟨hi, hsound, hend⟩ := hnew.first hfresh hmax
      have haligned := hnew.aligned
      rw [hbrk] at hsound haligned
      refine .grown hsound hend hnew.initialized haligned ⟨?_, by simp, ?_⟩
      · simp [hfresh.chunks]
      · intro i _ p hp
        rw [hfresh.fastbins] at hp
        exact absurd hp List.not_mem_nil
  | grown sound hend hinit haligned ledger =>
      obtain ⟨hi', hsound, hend'⟩ := hnew.more sound hend
      exact .grown hsound hend' hnew.initialized haligned (ledger.congr rfl ledger.fast)

theorem sysmalloc_booked (hcr3 : env.cr3 = root.val) (h : Booked brk k blocks)
    (hmax : k.arena.maxFast = request2size defaultMxfast) (hnb : ChunkSize nb)
    (hroom : bytes.toNat + 8 ≤ nb.toNat) :
    Ends Misuses (fun x => Booked brk x.2 (grant x.1 bytes blocks)) (k.sysmalloc env nb) := by
  refine (tryMmap_ends (by simp [Misuses]) (by simp [Misuses]) env nb k.supply).bind
    fun s hs => ?_
  have hk := h.of_sameEnd hs
  rcases hres : k.arena.av.sysmalloc env nb s with - | ⟨av, s'⟩
  · refine .error ?_
    split_ifs <;> simp [Misuses]
  simp only
  split_ifs with hunserved
  · exact .error (by simp [Misuses])
  have hserved : av = k.arena.av ∨ s'.heap.top ≠ s.heap.top := by
    by_contra hnone
    rw [not_or, not_not] at hnone
    exact hunserved hnone
  have hnew := hk.new_top hmax
    (sysmalloc_cases (k := { k with supply := s }) hcr3 hk.settled hmax hres hserved)
  rcases hsplit : ({ k.arena with av := av } : Arena).splitTop nb with - | ⟨mem, a⟩
  · refine .ok ?_
    rw [grant, if_pos rfl]
    exact hnew
  · refine .ok ?_
    cases hnew with
    | fresh hfresh _ =>
        rw [Fresh.splitTop (hfresh.top_empty hmax) hnb] at hsplit
        exact absurd hsplit (by simp)
    | grown sound hend hinit haligned ledger =>
        have hsound := sound.splitTop hnb hsplit
        exact .grown hsound hend hinit haligned
          (ledger.hands (splitTop_hands ledger.fast hsplit) hsound.laid hroom)

/-- A call of `malloc` with any of its two ways to get to the system. -/
theorem mallocWith_booked {system : Word → DlHeap → Except Trap (Word × DlHeap)} {asked : Word}
    (hsystem : ∀ k, requestOutOfRange bytes = false → Booked brk k blocks →
      k.arena.maxFast = request2size defaultMxfast →
      Ends Misuses (fun x => Booked brk x.2 (grant x.1 asked blocks))
        (system (request2size bytes) k))
    (hroom : requestOutOfRange bytes = false → asked.toNat + 8 ≤ (request2size bytes).toNat)
    (h : Booked brk k blocks) (bins : BinSearch) :
    Ends Misuses (fun x => Booked brk x.2 (grant x.1 asked blocks))
      (DlHeap.mallocWith system bins bytes k) := by
  unfold DlHeap.mallocWith
  cases hrange : requestOutOfRange bytes
  swap
  · rw [if_pos rfl]
    refine .ok ?_
    rw [grant, if_pos rfl]
    exact h
  rw [if_neg (by simp)]
  have hnb := chunkSize_request2size hrange
  cases h with
  | fresh hfresh hbrk =>
      obtain ⟨a', hserve, hfresh', hmax⟩ := hfresh.serve hnb bins
      rw [hserve]
      exact hsystem _ hrange (.fresh hfresh' hbrk) hmax
  | grown sound hend hinit haligned ledger =>
      have hserve := sound.serve hnb bins
      have hledger := ledger.hands (serve_hands sound ledger.fast hnb bins) hserve.laid
        (hroom hrange)
      rcases hres : k.arena.serve bins (request2size bytes) with ⟨mem, a'⟩
      rw [hres] at hserve hledger
      cases mem with
      | some mem => exact .ok (.grown hserve hend hinit haligned hledger)
      | none => exact hsystem _ hrange (.grown hserve hend hinit haligned hledger) hserve.maxFast

/-- `sYSMALLOc` calls `malloc` again for a chunk of the same size. -/
theorem request2size_retry (hnb : ChunkSize nb)
    (h : requestOutOfRange (nb - mallocAlignMask) = false) :
    request2size (nb - mallocAlignMask) = nb := by
  have hmin := hnb.min
  have hmod := hnb.mod
  have hmask : mallocAlignMask.toNat = 15 := by decide
  have hsub : (nb - mallocAlignMask).toNat = nb.toNat - 15 := by
    rw [BitVec.toNat_sub, hmask]
    omega
  apply BitVec.eq_of_toNat_eq
  rw [(toNat_request2size h).2, hsub]
  omega

theorem malloc_booked (hcr3 : env.cr3 = root.val) (h : Booked brk k blocks) (bins : BinSearch)
    (bytes : Word) :
    Ends Misuses (fun x => Booked brk x.2 (grant x.1 bytes blocks)) (k.malloc env bins bytes) := by
  unfold DlHeap.malloc
  have hroom : requestOutOfRange bytes = false → bytes.toNat + 8 ≤ (request2size bytes).toNat := by
    intro hrange
    have := (toNat_request2size hrange).2
    omega
  refine mallocWith_booked (fun k hrange hk hmax => ?_) hroom h bins
  have hnb := chunkSize_request2size hrange
  split_ifs with hflag
  swap
  · exact sysmalloc_booked hcr3 hk hmax hnb (hroom hrange)
  -- the second call, after `malloc_consolidate`
  have hroom' : requestOutOfRange (request2size bytes - mallocAlignMask) = false →
      bytes.toNat + 8 ≤ (request2size (request2size bytes - mallocAlignMask)).toNat := by
    intro hrange'
    rw [request2size_retry hnb hrange']
    exact hroom hrange
  refine mallocWith_booked (fun k hrange' hk hmax => ?_) hroom' ?_ bins
  · exact sysmalloc_booked hcr3 hk hmax (chunkSize_request2size hrange') (hroom' hrange')
  · cases hk with
    | fresh hfresh _ => exact absurd hfresh.fastchunks (by simp [hflag])
    | grown sound hend hinit haligned ledger =>
        have hswept := sound.mallocConsolidate
        exact .grown hswept.sound hend hinit haligned
          (ledger.congr sound.mallocConsolidate_inUse hswept.fastSized)

/-! ## `free` -/

theorem Ledger.mem_iff {lo hi : Nat} {a : Arena} (h : Ledger a blocks) (hlaid : Laid lo hi a) :
    (∃ b ∈ blocks, b.mem = mem) ↔ ∃ before c after,
      locate (mem2chunk mem).toNat a.chunks = some (before, c, after) ∧ c.tag = .inUse := by
  constructor
  · rintro ⟨b, hb, rfl⟩
    obtain ⟨c, hc, htag, hmem, -⟩ := h.exists_chunk hb
    obtain ⟨before, after, heq⟩ := List.append_of_mem hc
    refine ⟨before, c, after, ?_, htag⟩
    rw [← (hlaid.mem_eq_iff hc).1 hmem]
    exact hlaid.locate heq
  · rintro ⟨before, c, after, hfound, htag⟩
    obtain ⟨heq, hstart⟩ := locate_eq_some hfound
    have hc : c ∈ a.chunks := by simp [heq]
    obtain ⟨b, hb, hmem⟩ := List.mem_map.1
      (h.mems.mem_iff.2 (List.mem_map_of_mem (mem_ofUse.2 ⟨hc, htag⟩)))
    exact ⟨b, hb, hmem.trans ((hlaid.mem_eq_iff hc).2 hstart)⟩

theorem Ledger.freeFast {lo hi : Nat} {a : Arena} {before after : List Chunk} {c : Chunk}
    (h : Ledger a blocks) (hsound : Sound lo hi a) (hc : a.chunks = before ++ c :: after)
    (htag : c.tag = .inUse) (hsmall : BitVec.ofNat 64 c.len ≤ a.maxFast) :
    Ledger { a with
      anychunks := true
      fastchunks := true
      fastbins := Function.update a.fastbins (fastbinIndex (BitVec.ofNat 64 c.len))
        (c.start :: a.fastbins (fastbinIndex (BitVec.ofNat 64 c.len)))
      chunks := before ++ { c with tag := .fast } :: after } (revoke c.mem blocks) := by
  refine h.remove hsound.laid hc htag (ofUse_skip (c := { c with tag := .fast }) (by simp) ..) ?_
  have hlen := hsound.laid.toNat_len hc
  have hsize := hsound.laid.sizes c (by simp [Arena.all, hc])
  rw [BitVec.le_def, hsound.toNat_maxFast, hlen] at hsmall
  have hindex := @fastbinIndex_eq (BitVec.ofNat 64 c.len) (by omega) (by omega)
  rw [hlen] at hindex
  intro i hi p hp u hu hstart
  simp only at hi hp hu
  rcases List.mem_cons.1 ((ofUse_perm (by rfl) before after).mem_iff.1 hu) with rfl | hu
  · -- the chunk that has been freed was in no bin
    by_cases hbin : i = fastbinIndex (BitVec.ofNat 64 c.len)
    · rw [hbin, hindex]
      simp only
      omega
    · rw [Function.update_of_ne hbin] at hp
      obtain ⟨d, hd, hdstart, hdtag⟩ :=
        (hsound.fast.mem_iff p).1 (List.mem_flatMap.2 ⟨i, hi, hp⟩)
      have hne : d ≠ c := by
        rintro rfl
        rw [htag] at hdtag
        exact ChunkUse.noConfusion hdtag
      rw [hc] at hd
      exact absurd (hdstart.trans hstart.symm)
        (hsound.laid.start_ne hc d (by simpa [hne] using hd))
  · have hold : u ∈ ofUse .fast a.chunks := by
      rw [hc, ofUse_skip (by simp [htag])]
      exact hu
    refine h.fast i hi p ?_ u hold hstart
    by_cases hbin : i = fastbinIndex (BitVec.ofNat 64 c.len)
    · rw [hbin, Function.update_self] at hp
      rcases List.mem_cons.1 hp with rfl | hp
      · exact absurd hstart (hsound.laid.start_ne hc u (mem_ofUse.1 hu).1)
      · rw [hbin]
        exact hp
    · rwa [Function.update_of_ne hbin] at hp

variable (env) in
theorem freeLarge_booked {hi : Nat} (hsound : Sound brk.toNat hi k.arena)
    (hend : k.supply.heap.top = BitVec.ofNat 64 hi) (hinit : k.supply.heap.isInitialized = true)
    (haligned : brk.toNat % 4096 = 0) (hledger : Ledger k.arena blocks) {before after : List Chunk}
    {c : Chunk} (hc : k.arena.chunks = before ++ c :: after) (htag : c.tag = .inUse) :
    Ends Misuses (fun k' => Booked brk k' (revoke c.mem blocks))
      (k.freeLarge env before c after) := by
  obtain ⟨hfreed, -, -⟩ := hsound.free hc htag
  have hsettings := consolidate_settings { k.arena with anychunks := true } before c after
  have huse : ∀ use, use ≠ .binned →
      ofUse use ({ k.arena with anychunks := true }.consolidate before c after).2.chunks =
        ofUse use (before ++ after) := fun use huse => by
    rw [ofUse_consolidate huse, ofUse_append]
  have hfast : FastSized ({ k.arena with anychunks := true }.consolidate before c after).2 := by
    refine hledger.fast.congr hsettings.maxFast hsettings.fastbins ?_
    rw [huse _ (by simp), hc, ofUse_skip (by simp [htag])]
  have hledger' := hledger.remove hsound.laid hc htag (huse _ (by simp)) hfast
  unfold DlHeap.freeLarge
  rcases hres : { k.arena with anychunks := true }.consolidate before c after with ⟨size, a⟩
  simp only [hres] at hfreed hledger' ⊢
  -- what is in the fastbins
  have hswept : Sound brk.toNat hi (if a.fastchunks = true then a.mallocConsolidate else a) ∧
      Ledger (if a.fastchunks = true then a.mallocConsolidate else a) (revoke c.mem blocks) := by
    split_ifs
    · have hsweep := hfreed.mallocConsolidate
      exact ⟨hsweep.sound, hledger'.congr hfreed.mallocConsolidate_inUse hsweep.fastSized⟩
    · exact ⟨hfreed, hledger'⟩
  generalize (if a.fastchunks = true then a.mallocConsolidate else a) = a' at hswept
  obtain ⟨hsound', hledger''⟩ := hswept
  have htrimmed : Booked brk { k with arena := a' } (revoke c.mem blocks) :=
    .grown hsound' hend hinit haligned hledger''
  have hgrown : Grown { k with arena := a' } := ⟨⟨_, _, hsound', hend⟩, hinit⟩
  split_ifs
  · rw [systrim_eq hgrown]
    split_ifs
    · exact .error (by simp [Misuses])
    · exact .ok htrimmed
  · exact .ok htrimmed
  · exact .ok (.grown hfreed hend hinit haligned hledger')

variable (env) in
theorem free_booked (h : Booked brk k blocks) (mem : Word) :
    (k.free env mem = .error .badFree ↔ mem ≠ 0 ∧ ∀ b ∈ blocks, b.mem ≠ mem) ∧
      Ends (fun _ => False) (fun k' => Booked brk k' (revoke mem blocks)) (k.free env mem) := by
  unfold DlHeap.free
  cases h with
  | fresh hfresh hbrk =>
      by_cases hzero : mem = 0
      · rw [if_pos hzero]
        exact ⟨iff_of_false (by simp) fun hm => hm.1 hzero, .ok (.fresh hfresh hbrk)⟩
      · rw [if_neg hzero, hfresh.chunks]
        exact ⟨iff_of_true rfl ⟨hzero, by simp⟩, .error id⟩
  | grown sound hend hinit haligned ledger =>
      have hbooked := Booked.grown sound hend hinit haligned ledger
      by_cases hzero : mem = 0
      · rw [if_pos hzero]
        refine ⟨iff_of_false (by simp) fun hm => hm.1 hzero, .ok ?_⟩
        rw [hzero, revoke, List.filter_eq_self.2 fun b hb =>
          decide_eq_true (ledger.mem_ne_zero sound.laid b hb)]
        exact hbooked
      rw [if_neg hzero]
      have hblock : (∃ b ∈ blocks, b.mem = mem) ↔ _ := ledger.mem_iff sound.laid
      rcases hfound : locate (mem2chunk mem).toNat k.arena.chunks with - | ⟨before, c, after⟩
      · refine ⟨iff_of_true rfl ⟨hzero, fun b hb he => ?_⟩, .error id⟩
        obtain ⟨before, c, after, hsome, -⟩ := hblock.1 ⟨b, hb, he⟩
        rw [hfound] at hsome
        exact absurd hsome (by simp)
      simp only
      by_cases htag : c.tag = .inUse
      swap
      · rw [if_pos htag]
        refine ⟨iff_of_true rfl ⟨hzero, fun b hb he => ?_⟩, .error id⟩
        obtain ⟨before', c', after', hsome, htag'⟩ := hblock.1 ⟨b, hb, he⟩
        obtain ⟨rfl, rfl, rfl⟩ : before = before' ∧ c = c' ∧ after = after' := by
          simpa using hfound.symm.trans hsome
        exact htag htag'
      obtain ⟨hc, hstart⟩ := locate_eq_some hfound
      have hmem : Chunk.mem c = mem := (sound.laid.mem_eq_iff (by simp [hc])).2 hstart
      obtain ⟨b, hb, hbmem⟩ := hblock.2 ⟨before, c, after, hfound, htag⟩
      rw [if_neg (not_not.2 htag)]
      have hno : ¬ (mem ≠ 0 ∧ ∀ b ∈ blocks, b.mem ≠ mem) := fun hm => hm.2 b hb hbmem
      subst hmem
      split_ifs with hsmall
      · refine ⟨iff_of_false (by simp) hno, .ok ?_⟩
        exact .grown (sound.freeFast hc htag hsmall rfl) hend hinit haligned
          (ledger.freeFast sound hc htag hsmall)
      · have hlarge := freeLarge_booked env sound hend hinit haligned ledger hc htag
        exact ⟨iff_of_false (hlarge.ne_error rfl) hno, hlarge.weaken fun _ => False.elim⟩

end Booked

/-! ## Runs -/

section Runs

variable {env : Env} {root : Frame} {brk : Word} {k : DlHeap} {blocks : List Block}

theorem stepBlocks_booked (hcr3 : env.cr3 = root.val) (h : Booked brk k blocks) (c : DlCall) :
    (DlHeap.stepBlocks env (k, blocks) c = .error .badFree ↔
      ∃ mem, c = .free mem ∧ mem ≠ 0 ∧ ∀ b ∈ blocks, b.mem ≠ mem) ∧
      Ends (fun _ => False) (fun s => Booked brk s.1 s.2)
        (DlHeap.stepBlocks env (k, blocks) c) := by
  cases c with
  | malloc bytes bins =>
      have hmalloc : Ends Misuses (fun s => Booked brk s.1 s.2)
          (DlHeap.stepBlocks env (k, blocks) (.malloc bytes bins)) :=
        (malloc_booked hcr3 h bins bytes).bind fun _ hk => .ok hk
      exact ⟨iff_of_false (hmalloc.ne_error rfl) (by simp), hmalloc.weaken fun _ => False.elim⟩
  | free mem =>
      obtain ⟨hbad, hfree⟩ := free_booked env h mem
      refine ⟨?_, hfree.bind fun _ hk => .ok hk⟩
      unfold DlHeap.stepBlocks
      rcases hres : k.free env mem with e | k'
      · rw [hres] at hbad
        simpa [bind, Except.bind, hres] using hbad
      · rw [hres] at hbad
        simpa [bind, Except.bind, hres] using hbad
  | other allocator machine =>
      exact ⟨iff_of_false (by simp [DlHeap.stepBlocks, DlHeap.step, bind, Except.bind]) (by simp),
        .ok (h.of_sameEnd ⟨rfl, rfl⟩)⟩

theorem booked_start (initialTop : Word) (h : HeapState) :
    Booked h.top (DlHeap.start initialTop h) [] :=
  .fresh ⟨rfl, rfl, rfl, fun _ => rfl, Or.inl rfl⟩ rfl

theorem runBlocks_booked (hcr3 : env.cr3 = root.val) (h : Booked brk k blocks)
    (calls : List DlCall) :
    Ends (fun _ => False) (fun s => Booked brk s.1 s.2)
      (DlHeap.runBlocks env (k, blocks) calls) :=
  Ends.foldlM (fun _ c hs => (stepBlocks_booked hcr3 hs c).2) calls (s := (k, blocks)) h

theorem booked_of_run (hcr3 : env.cr3 = root.val) {initialTop : Word} {h : HeapState}
    {calls : List DlCall}
    (hrun : DlHeap.runBlocks env (DlHeap.start initialTop h, []) calls = .ok (k, blocks)) :
    Booked h.top k blocks := by
  have hends := runBlocks_booked hcr3 (booked_start initialTop h) calls
  rw [hrun] at hends
  cases hends with
  | ok hk => exact hk

theorem Ledger.pairwise {lo hi : Nat} {a : Arena} (h : Ledger a blocks) (hlaid : Laid lo hi a) :
    blocks.Pairwise fun b b' => b.mem.toNat + b.bytes.toNat + 8 ≤ b'.mem.toNat ∨
      b'.mem.toNat + b'.bytes.toNat + 8 ≤ b.mem.toNat := by
  have hnodup := (h.mems.nodup_iff).2 (hlaid.nodup_mem .inUse)
  rw [List.Nodup, List.pairwise_map] at hnodup
  refine hnodup.imp_of_mem fun {b b'} hb hb' hne => ?_
  obtain ⟨c, hc, -, hmem, hfits⟩ := h.exists_chunk hb
  obtain ⟨c', hc', -, hmem', hfits'⟩ := h.exists_chunk hb'
  obtain ⟨haddr, -, -, hlen⟩ := hlaid.toNat_mem hc
  obtain ⟨haddr', -, -, hlen'⟩ := hlaid.toNat_mem hc'
  rw [hmem] at haddr
  rw [hmem'] at haddr'
  have hchunks : c ≠ c' := by
    rintro rfl
    exact hne (hmem.symm.trans hmem')
  -- neither of the chunks covers the start of the other
  have hcover := fun i => hlaid.tiles.covers_unique (i := i) (s := c) (t := c')
    (by simp [Arena.all, hc]) (by simp [Arena.all, hc'])
  unfold Seg.Covers at hcover
  by_contra hover
  rcases Nat.le_total c.start c'.start with hle | hle
  · exact hchunks (hcover c'.start (by omega) (by omega))
  · exact hchunks (hcover c.start (by omega) (by omega))

theorem Ledger.within {lo hi : Nat} {a : Arena} (h : Ledger a blocks) (hlaid : Laid lo hi a)
    (hlo : lo % 16 = 0) {b : Block} (hb : b ∈ blocks) :
    b.mem.toNat % 16 = 0 ∧ lo + 16 ≤ b.mem.toNat ∧ b.mem.toNat + b.bytes.toNat + 8 ≤ hi := by
  obtain ⟨c, hc, -, hmem, hfits⟩ := h.exists_chunk hb
  obtain ⟨haddr, hlow, hhigh, -⟩ := hlaid.toNat_mem hc
  have hmod := hlaid.tiles.start_mod (k := 16) (fun s hs => (hlaid.sizes s hs).2) (s := c)
    (by simp [Arena.all, hc])
  rw [hmem] at haddr
  omega

/-- Blocks that `malloc` has handed out never overlap: they are aligned, lie apart from each other
with the size of a chunk in between, and within the memory from `sbrk`. -/
theorem blocks_apart (hcr3 : env.cr3 = root.val) (initialTop : Word) (h : HeapState)
    (calls : List DlCall)
    (hrun : DlHeap.runBlocks env (DlHeap.start initialTop h, []) calls = .ok (k, blocks)) :
    blocks.Pairwise (fun b b' => b.mem.toNat + b.bytes.toNat + 8 ≤ b'.mem.toNat ∨
      b'.mem.toNat + b'.bytes.toNat + 8 ≤ b.mem.toNat) ∧
    ∃ hi ≤ 2 ^ 64, k.supply.heap.top = BitVec.ofNat 64 hi ∧ ∀ b ∈ blocks,
      b.mem.toNat % 16 = 0 ∧ h.top.toNat + 16 ≤ b.mem.toNat ∧
        b.mem.toNat + b.bytes.toNat + 8 ≤ hi := by
  cases booked_of_run hcr3 hrun with
  | fresh _ hbrk =>
      refine ⟨List.Pairwise.nil, h.top.toNat, h.top.isLt.le, ?_, by simp⟩
      rw [hbrk, BitVec.ofNat_toNat, BitVec.setWidth_eq]
  | grown sound hend _ haligned ledger =>
      exact ⟨ledger.pairwise sound.laid, _, sound.laid.hi_le, hend,
        fun b hb => ledger.within sound.laid (by omega) hb⟩

/-- A run frees badly just if one of its calls of `free` names no block that is handed out then. -/
theorem never_badFree_iff (hcr3 : env.cr3 = root.val) (initialTop : Word) (h : HeapState)
    (calls : List DlCall) :
    DlHeap.runBlocks env (DlHeap.start initialTop h, []) calls ≠ .error .badFree ↔
      ∀ front mem rest k blocks, calls = front ++ .free mem :: rest →
        DlHeap.runBlocks env (DlHeap.start initialTop h, []) front = .ok (k, blocks) →
        mem = 0 ∨ ∃ b ∈ blocks, b.mem = mem := by
  rw [ne_eq, DlHeap.runBlocks, foldlM_eq_error_iff]
  constructor
  · intro hnone front mem rest k blocks hcalls hrun
    by_contra hother
    rw [not_or, not_exists] at hother
    exact hnone ⟨front, .free mem, rest, (k, blocks), hcalls, hrun,
      (stepBlocks_booked hcr3 (booked_of_run hcr3 hrun) _).1.2
        ⟨mem, rfl, hother.1, fun b hb he => hother.2 b ⟨hb, he⟩⟩⟩
  · rintro hall ⟨front, c, rest, ⟨k, blocks⟩, hcalls, hrun, hbad⟩
    obtain ⟨mem, rfl, hne, hnone⟩ :=
      (stepBlocks_booked hcr3 (booked_of_run hcr3 hrun) c).1.1 hbad
    rcases hall front mem rest k blocks hcalls hrun with hzero | ⟨b, hb, he⟩
    · exact hne hzero
    · exact hnone b hb he

/-- Without a chunk in use nothing but the top is left by `malloc_consolidate`. -/
theorem Swept.chunks_eq_nil {lo hi : Nat} {a a' : Arena} (h : Swept lo hi a a')
    (hnone : ofUse .inUse a'.chunks = []) : a'.chunks = [] := by
  have hfast := h.sound.fast
  rw [h.sound.flag h.fastchunks] at hfast
  have hbinned : ∀ c ∈ a'.chunks, c.tag = .binned := by
    intro c hc
    cases htag : c.tag
    · have hmem := mem_ofUse.2 ⟨hc, htag⟩
      rw [hnone] at hmem
      exact absurd hmem List.not_mem_nil
    · exact absurd ((hfast.mem_iff c.start).2 ⟨c, hc, rfl, htag⟩) List.not_mem_nil
    · rfl
  -- the last chunk would be a free neighbour of the top
  rcases a'.chunks.eq_nil_or_concat with hnil | ⟨front, last, heq⟩
  · exact hnil
  have hsep := h.sound.laid.separated
  rw [List.concat_eq_append] at heq
  rw [Arena.all, heq, Separated, List.isChain_append] at hsep
  have hedge := hsep.2.2 last (by simp) a'.topChunk (by simp)
  have hlast := hbinned last (by simp [heq])
  simp [hlast, ChunkUse.isBinned] at hedge

/-- When all blocks have been freed, `malloc_consolidate` makes one free chunk, the top, of all the
memory from `sbrk`. -/
theorem all_reclaimed (hcr3 : env.cr3 = root.val) (initialTop : Word) (h : HeapState)
    (calls : List DlCall)
    (hrun : DlHeap.runBlocks env (DlHeap.start initialTop h, []) calls = .ok (k, []))
    (hmoved : k.supply.heap.top ≠ h.top) :
    k.arena.mallocConsolidate.chunks = [] ∧ k.arena.mallocConsolidate.av.top = h.top ∧
      h.top + chunksize k.arena.mallocConsolidate.av.topHead = k.supply.heap.top := by
  cases booked_of_run hcr3 hrun with
  | fresh _ hbrk => exact absurd hbrk hmoved
  | grown sound hend _ _ ledger =>
      have hswept := sound.mallocConsolidate
      have hnone : ofUse .inUse k.arena.mallocConsolidate.chunks = [] := by
        rw [sound.mallocConsolidate_inUse]
        exact List.map_eq_nil_iff.1 ledger.mems.symm.eq_nil
      have hnil := hswept.chunks_eq_nil hnone
      have htiles := hswept.sound.laid.tiles
      rw [Arena.all, hnil, List.nil_append, Tiles.cons_iff] at htiles
      have htop : k.arena.mallocConsolidate.av.top = h.top := BitVec.eq_of_toNat_eq htiles.1
      refine ⟨hnil, htop, ?_⟩
      rw [← htop, hswept.sound.laid.topEnd, hend]

end Runs

/-! ## Two blocks -/

def ledgerEnv : Env :=
  ⟨frameRow 4, fun _ => false, 0xffff800000000000, (frameOf 0x1000).val⟩

/-- The heap as `init_heap` leaves it. -/
def ledgerHeap : HeapState :=
  { allocator := {}, machine := { mem := fun _ => 0 }, isInitialized := true,
    heapBase := 0xffff800040000000, heapSize := 0x2000000 }

private def nowhere (_ : Arena) (_ : Word) : Option Nat := none

private def noSearch : BinSearch :=
  ⟨nowhere, nowhere, fun _ _ p h => absurd h (Option.some_ne_none p).symm,
    fun _ _ p h => absurd h (Option.some_ne_none p).symm⟩

def bothBlocks : List Block := [⟨0xffff8000400000e0, 40⟩, ⟨0xffff800040000010, 200⟩]

/-- The first block comes from new memory, the second from the rest of the page. -/
theorem ledgerHeap_mallocs (bins bins' : BinSearch) : ∃ k,
    (∀ calls, DlHeap.runBlocks ledgerEnv (DlHeap.start 0xffffffff80200000 ledgerHeap, [])
      (.malloc 200 bins :: .malloc 40 bins' :: calls) =
        DlHeap.runBlocks ledgerEnv (k, bothBlocks) calls) ∧
    k.arena.chunks =
      [⟨0xffff800040000000, 208, .inUse⟩, ⟨0xffff8000400000d0, 48, .inUse⟩] ∧
    k.arena.maxFast = request2size defaultMxfast := by
  have hgrowth : (Arena.mallocInitState
      (DlHeap.start 0xffffffff80200000 ledgerHeap).arena).av.growth 208 = 0x1000 := by decide
  obtain ⟨h', hsbrk, hmoved⟩ := @sbrk_of_zeroed ledgerHeap 0x1000 4 (by decide) (fun _ => false)
    (fun _ => rfl) rfl rfl (by decide) (by decide) (by decide) (by decide) (by decide) (by decide)
  obtain ⟨k, hmalloc, hfirst⟩ :=
    @malloc_first ledgerEnv (frameOf 0x1000) 208 rfl ledgerHeap h' 0xffffffff80200000 200 _ bins
      (by decide) (by decide) (by decide) (by rw [hgrowth]; decide) (by rw [hgrowth]; exact hsbrk)
      (by rw [hmoved]; decide) (by rw [hgrowth]; decide)
  have hstart : ledgerHeap.top = 0xffff800040000000 := by decide
  have hmem : chunk2mem 0xffff800040000000 = 0xffff800040000010 := by decide
  rw [hgrowth, hstart] at hfirst
  rw [hstart, hmem] at hmalloc
  have htop : k.arena.av.top = 0xffff8000400000d0 := hfirst.top.trans (by decide)
  have hmem' : chunk2mem 0xffff8000400000d0 = 0xffff8000400000e0 := by decide
  have hmalloc' := @malloc_top ledgerEnv 48 40 k bins' (by decide) (by decide) hfirst.anychunks
    (by rw [hfirst.maxFast]; decide) (by rw [hfirst.topHead]; decide)
  rw [htop, hmem'] at hmalloc'
  obtain ⟨k', hsecond, hchunks, hmax⟩ : ∃ k' : DlHeap,
      k.malloc ledgerEnv bins' 40 = .ok (0xffff8000400000e0, k') ∧
      k'.arena.chunks = k.arena.chunks ++ [⟨0xffff8000400000d0, 48, .inUse⟩] ∧
      k'.arena.maxFast = k.arena.maxFast := ⟨_, hmalloc', rfl, rfl⟩
  refine ⟨k', fun calls => ?_, ?_, hmax.trans hfirst.maxFast⟩
  · rw [DlHeap.runBlocks_malloc hmalloc, DlHeap.runBlocks_malloc hsecond]
    rfl
  · rw [hchunks, hfirst.chunks]
    rfl

/-- The first block is too large for a fastbin, and is free next to the second one. -/
theorem ledgerHeap_free {k : DlHeap} {tag : ChunkUse} (htag : tag ≠ .binned)
    (hchunks : k.arena.chunks =
      [⟨0xffff800040000000, 208, .inUse⟩, ⟨0xffff8000400000d0, 48, tag⟩])
    (hmax : k.arena.maxFast = request2size defaultMxfast) :
    ∃ k', k.free ledgerEnv 0xffff800040000010 = .ok k' ∧
      k'.arena.chunks =
        [⟨0xffff800040000000, 208, .binned⟩, ⟨0xffff8000400000d0, 48, tag⟩] ∧
      k'.supply = k.supply := by
  have hfound : locate (mem2chunk 0xffff800040000010).toNat k.arena.chunks =
      some ([], ⟨0xffff800040000000, 208, .inUse⟩, [⟨0xffff8000400000d0, 48, tag⟩]) := by
    rw [hchunks]
    rfl
  have hlarge : ¬ BitVec.ofNat 64 208 ≤ k.arena.maxFast := by
    rw [hmax]
    decide
  unfold DlHeap.free
  rw [if_neg (by decide), hfound]
  simp only [ne_eq, not_true_eq_false, if_false, if_neg hlarge]
  unfold DlHeap.freeLarge
  cases tag with
  | inUse => exact ⟨_, if_neg (by decide), rfl, rfl⟩
  | fast => exact ⟨_, if_neg (by decide), rfl, rfl⟩
  | binned => exact absurd rfl htag

/-- The second block goes to a fastbin, and then the first one is freed. -/
private theorem ledgerHeap_frees {k : DlHeap}
    (hchunks : k.arena.chunks =
      [⟨0xffff800040000000, 208, .inUse⟩, ⟨0xffff8000400000d0, 48, .inUse⟩])
    (hmax : k.arena.maxFast = request2size defaultMxfast) :
    ∃ k', DlHeap.runBlocks ledgerEnv (k, bothBlocks)
        [.free 0xffff8000400000e0, .free 0xffff800040000010] = .ok (k', []) ∧
      k'.supply = k.supply := by
  have hfound : locate (mem2chunk 0xffff8000400000e0).toNat k.arena.chunks =
      some ([⟨0xffff800040000000, 208, .inUse⟩], ⟨0xffff8000400000d0, 48, .inUse⟩, []) := by
    rw [hchunks]
    rfl
  have hsmall : BitVec.ofNat 64 48 ≤ k.arena.maxFast := by
    rw [hmax]
    decide
  obtain ⟨k₁, hfast, hchunks₁, hmax₁, hsupply₁⟩ : ∃ k₁,
      k.free ledgerEnv 0xffff8000400000e0 = .ok k₁ ∧
      k₁.arena.chunks =
        [⟨0xffff800040000000, 208, .inUse⟩, ⟨0xffff8000400000d0, 48, .fast⟩] ∧
      k₁.arena.maxFast = request2size defaultMxfast ∧ k₁.supply = k.supply := by
    unfold DlHeap.free
    rw [if_neg (by decide), hfound]
    simp only [ne_eq, not_true_eq_false, if_false, if_pos hsmall]
    exact ⟨_, rfl, rfl, hmax, rfl⟩
  obtain ⟨k₂, hfree, -, hsupply₂⟩ := ledgerHeap_free (by decide) hchunks₁ hmax₁
  exact ⟨k₂, (DlHeap.runBlocks_free hfast).trans (DlHeap.runBlocks_free hfree),
    hsupply₂.trans hsupply₁⟩

private theorem Booked.moved {brk : Word} {k : DlHeap} {b : Block} {blocks : List Block}
    (h : Booked brk k (b :: blocks)) : k.supply.heap.top ≠ brk := by
  cases h with
  | grown sound hend _ _ ledger =>
      obtain ⟨c, hc, -⟩ := ledger.exists_chunk List.mem_cons_self
      have hchunk := sound.laid.toNat_mem hc
      have hle := sound.laid.hi_le
      have hlo := sound.laid.lo_pos
      rw [hend]
      intro he
      have hsame := congrArg BitVec.toNat he
      rw [BitVec.toNat_ofNat] at hsame
      omega

theorem blocks_apart_two_blocks : ∃ k,
    DlHeap.runBlocks ledgerEnv (DlHeap.start 0xffffffff80200000 ledgerHeap, [])
      [.malloc 200 noSearch, .malloc 40 noSearch] = .ok (k, bothBlocks) ∧
    bothBlocks.Pairwise (fun b b' => b.mem.toNat + b.bytes.toNat + 8 ≤ b'.mem.toNat ∨
      b'.mem.toNat + b'.bytes.toNat + 8 ≤ b.mem.toNat) ∧
    ∃ hi ≤ 2 ^ 64, k.supply.heap.top = BitVec.ofNat 64 hi ∧ ∀ b ∈ bothBlocks,
      b.mem.toNat % 16 = 0 ∧ ledgerHeap.top.toNat + 16 ≤ b.mem.toNat ∧
        b.mem.toNat + b.bytes.toNat + 8 ≤ hi := by
  obtain ⟨k, hmallocs, -⟩ := ledgerHeap_mallocs noSearch noSearch
  have hrun := hmallocs []
  exact ⟨k, hrun, @blocks_apart ledgerEnv (frameOf 0x1000) k _ rfl _ ledgerHeap _ hrun⟩

theorem never_badFree_iff_two_blocks :
    DlHeap.runBlocks ledgerEnv (DlHeap.start 0xffffffff80200000 ledgerHeap, [])
        [.malloc 200 noSearch, .malloc 40 noSearch, .free 0xffff8000400000e0,
          .free 0xffff8000400000e0] ≠ .error .badFree ↔
      ∀ front mem rest k blocks,
        [.malloc 200 noSearch, .malloc 40 noSearch, .free 0xffff8000400000e0,
          .free 0xffff8000400000e0] = front ++ .free mem :: rest →
        DlHeap.runBlocks ledgerEnv (DlHeap.start 0xffffffff80200000 ledgerHeap, []) front =
          .ok (k, blocks) →
        mem = 0 ∨ ∃ b ∈ blocks, b.mem = mem :=
  @never_badFree_iff ledgerEnv (frameOf 0x1000) rfl 0xffffffff80200000 ledgerHeap
    [.malloc 200 noSearch, .malloc 40 noSearch, .free 0xffff8000400000e0,
      .free 0xffff8000400000e0]

theorem all_reclaimed_two_blocks : ∃ k,
    DlHeap.runBlocks ledgerEnv (DlHeap.start 0xffffffff80200000 ledgerHeap, [])
      [.malloc 200 noSearch, .malloc 40 noSearch, .free 0xffff8000400000e0,
        .free 0xffff800040000010] = .ok (k, []) ∧
    k.arena.mallocConsolidate.chunks = [] ∧
      k.arena.mallocConsolidate.av.top = ledgerHeap.top ∧
      ledgerHeap.top + chunksize k.arena.mallocConsolidate.av.topHead = k.supply.heap.top := by
  obtain ⟨k, hmallocs, hchunks, hmax⟩ := ledgerHeap_mallocs noSearch noSearch
  obtain ⟨k', hfrees, hsupply⟩ := ledgerHeap_frees hchunks hmax
  have hbooked : Booked ledgerHeap.top k bothBlocks :=
    @booked_of_run ledgerEnv (frameOf 0x1000) k _ rfl _ ledgerHeap _ (hmallocs [])
  have hrun := (hmallocs _).trans hfrees
  exact ⟨k', hrun, @all_reclaimed ledgerEnv (frameOf 0x1000) k' rfl _ ledgerHeap _ hrun
    (by rw [hsupply]; exact hbooked.moved)⟩

end UnnamedKernel.Mm.Heap
