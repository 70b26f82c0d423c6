import UnnamedKernel.Mm.Heap.Trim

/-!
# The blocks that `malloc` has handed out

Beside the heap a run keeps a ledger of the blocks that are handed out and have not been freed.
They are the chunks in use, so that no two of them overlap, and `free` finds each of them.
-/

namespace UnnamedKernel.Mm.Heap

open UnnamedKernel.Lib UnnamedKernel.Kernel Vma Vmm

/-! ## Chunks of one use -/

/-- The chunks of one use, in their order. -/
def ofUse (use : ChunkUse) (l : List Chunk) : List Chunk := l.filter fun c => decide (c.tag = use)

/-- The address that `malloc` returns for a chunk. -/
def Chunk.mem (c : Chunk) : Word := chunk2mem (BitVec.ofNat 64 c.start)

section OfUse

variable {use : ChunkUse} {l r : List Chunk} {c : Chunk}

theorem mem_ofUse : c ∈ ofUse use l ↔ c ∈ l ∧ c.tag = use := by
  simp [ofUse]

@[simp] theorem ofUse_append (use : ChunkUse) (l r : List Chunk) :
    ofUse use (l ++ r) = ofUse use l ++ ofUse use r :=
  List.filter_append ..

@[simp] theorem ofUse_cons_of_eq (h : c.tag = use) : ofUse use (c :: l) = c :: ofUse use l :=
  List.filter_cons_of_pos (decide_eq_true h)

@[simp] theorem ofUse_cons_of_ne (h : c.tag ≠ use) : ofUse use (c :: l) = ofUse use l :=
  List.filter_cons_of_neg (by simpa using h)

@[simp] theorem ofUse_nil (use : ChunkUse) : ofUse use [] = [] := rfl

theorem ofUse_skip (h : c.tag ≠ use) (l r : List Chunk) :
    ofUse use (l ++ c :: r) = ofUse use (l ++ r) := by
  rw [ofUse_append, ofUse_append, ofUse_cons_of_ne h]

theorem ofUse_perm (h : c.tag = use) (l r : List Chunk) :
    (ofUse use (l ++ c :: r)).Perm (c :: ofUse use (l ++ r)) := by
  rw [ofUse_append, ofUse_append, ofUse_cons_of_eq h]
  exact List.perm_middle

theorem ofUse_joinBefore (huse : use ≠ .binned) (l : List Chunk) (c : Chunk) :
    ofUse use (joinBefore ChunkUse.isBinned l c).1 = ofUse use l := by
  rcases joinBefore_cases ChunkUse.isBinned l c with ⟨heq, -⟩ | ⟨front, p, rfl, hp, heq⟩
  · rw [heq]
  · have hne : p.tag ≠ use := by
      rw [of_decide_eq_true hp]
      exact huse.symm
    rw [heq, ofUse_append, ofUse_cons_of_ne hne, ofUse_nil, List.append_nil]

theorem ofUse_joinAfter (huse : use ≠ .binned) (c : Chunk) (l : List Chunk) :
    ofUse use (joinAfter ChunkUse.isBinned c l).2 = ofUse use l := by
  rcases joinAfter_cases ChunkUse.isBinned c l with ⟨heq, -⟩ | ⟨n, rest, rfl, hn, heq⟩
  · rw [heq]
  · have hne : n.tag ≠ use := by
      rw [of_decide_eq_true hn]
      exact huse.symm
    rw [heq, ofUse_cons_of_ne hne]

theorem ofUse_consolidate (huse : use ≠ .binned) (a : Arena) (before : List Chunk) (c : Chunk)
    (after : List Chunk) :
    ofUse use (a.consolidate before c after).2.chunks = ofUse use before ++ ofUse use after := by
  have hbefore := ofUse_joinBefore huse before c
  unfold Arena.consolidate
  simp only
  cases after with
  | nil => rw [hbefore, ofUse_nil, List.append_nil]
  | cons next after =>
      have hafter := ofUse_joinAfter huse (joinBefore ChunkUse.isBinned before c).2 (next :: after)
      rw [ofUse_append, ofUse_cons_of_ne huse.symm, hbefore, hafter]

end OfUse

/-! ## What `malloc_consolidate` leaves alone -/

section Consolidate

variable {lo hi : Nat} {a : Arena} {L : List Nat}

theorem foldl_consolidateFast_inUse (h : Laid lo hi a) (hfast : FastIn L a.chunks) :
    ofUse .inUse (L.foldl Arena.consolidateFast a).chunks = ofUse .inUse a.chunks := by
  induction L generalizing a with
  | nil => rfl
  | cons p L ih =>
      have hfirst := consolidateFast_spec h hfast
      rw [List.foldl_cons, ih hfirst.laid hfirst.fast]
      obtain ⟨c, hmem, rfl, htag⟩ := (hfast.mem_iff p).1 (by simp)
      obtain ⟨before, after, hc⟩ := List.append_of_mem hmem
      unfold Arena.consolidateFast
      rw [h.locate hc]
      simp only
      rw [ofUse_consolidate (by simp), hc, ofUse_skip (by simp [htag]), ofUse_append]

theorem Sound.mallocConsolidate_inUse (h : Sound lo hi a) :
    ofUse .inUse a.mallocConsolidate.chunks = ofUse .inUse a.chunks := by
  have hinit : a.maxFast ≠ 0 := by
    rw [h.maxFast]
    decide
  rw [Arena.mallocConsolidate, if_pos hinit]
  exact foldl_consolidateFast_inUse (h.laid.congr rfl) h.fast

end Consolidate

/-- The chunks in a fastbin all have the size that it is for. -/
def FastSized (a : Arena) : Prop :=
  ∀ i ∈ List.range (fastbinIndex a.maxFast + 1), ∀ p ∈ a.fastbins i,
    ∀ c ∈ ofUse .fast a.chunks, c.start = p → c.len = 8 * i + 16

theorem FastSized.congr {a a' : Arena} (h : FastSized a) (hmax : a'.maxFast = a.maxFast)
    (hbins : a'.fastbins = a.fastbins) (hfast : ofUse .fast a'.chunks = ofUse .fast a.chunks) :
    FastSized a' := by
  unfold FastSized
  rw [hmax, hbins, hfast]
  exact h

/-- There are no such chunks when `malloc_consolidate` is done. -/
theorem Swept.fastSized {lo hi : Nat} {a a' : Arena} (h : Swept lo hi a a') : FastSized a' := by
  intro i _ p _ c hc _
  obtain ⟨hmem, htag⟩ := mem_ofUse.1 hc
  have hfast := h.sound.fast
  rw [h.sound.flag h.fastchunks] at hfast
  exact absurd ((hfast.mem_iff c.start).2 ⟨c, hmem, rfl, htag⟩) List.not_mem_nil

theorem fastbinIndex_eq {sz : Word} (hmin : 16 ≤ sz.toNat) (hmax : sz.toNat ≤ 80) :
    fastbinIndex sz = sz.toNat / 8 - 2 := by
  unfold fastbinIndex
  rw [BitVec.toNat_sub, BitVec.toNat_ushiftRight, BitVec.toNat_setWidth]
  have htwo : (2 : BitVec 32).toNat = 2 := rfl
  rw [Nat.shiftRight_eq_div_pow]
  omega

theorem Sound.toNat_maxFast {lo hi : Nat} {a : Arena} (h : Sound lo hi a) :
    a.maxFast.toNat = 80 := by
  rw [h.maxFast]
  decide

/-! ## What a call of `malloc` takes -/

/-- One more chunk is in use, of at least `nb` bytes, or none. -/
inductive Hands (nb : Word) (a : Arena) : Option Word × Arena → Prop
  | none {a'} (held : ofUse .inUse a'.chunks = ofUse .inUse a.chunks) (fast : FastSized a') :
      Hands nb a (none, a')
  | some {c a'} (held : (ofUse .inUse a'.chunks).Perm (c :: ofUse .inUse a.chunks))
      (fits : nb.toNat ≤ c.len) (fast : FastSized a') : Hands nb a (some c.mem, a')

theorem Hands.of_eq {nb : Word} {a a' : Arena} {x : Option Word × Arena} (h : Hands nb a' x)
    (heq : ofUse .inUse a'.chunks = ofUse .inUse a.chunks) : Hands nb a x := by
  cases h with
  | none held fast => exact .none (held.trans heq) fast
  | some held fits fast => exact .some (heq ▸ held) fits fast

section Paths

variable {lo hi : Nat} {a a' : Arena} {nb mem : Word}

theorem Sound.popFastbin_cases (h : Sound lo hi a) (hnb : ChunkSize nb)
    (hres : a.popFastbin nb = some (mem, a')) : ∃ before c after rest,
      a.chunks = before ++ c :: after ∧ c.tag = .fast ∧ mem = c.mem ∧
      fastbinIndex nb ∈ List.range (fastbinIndex a.maxFast + 1) ∧ nb.toNat ≤ 80 ∧
      a.fastbins (fastbinIndex nb) = c.start :: rest ∧
      a' = { a with
        fastbins := Function.update a.fastbins (fastbinIndex nb) rest
        chunks := before ++ { c with tag := .inUse } :: after } := by
  unfold Arena.popFastbin at hres
  split_ifs at hres with hle
  rcases hbin : a.fastbins (fastbinIndex nb) with - | ⟨p, rest⟩
  · simp [hbin] at hres
  simp only [hbin] at hres
  obtain ⟨⟨before, c, after⟩, hfound, heq⟩ := Option.map_eq_some_iff.1 hres
  obtain ⟨rfl, ha'⟩ := Prod.mk.inj heq
  obtain ⟨hc, rfl⟩ := locate_eq_some hfound
  have hmin := hnb.min
  have hrange := fastbinIndex_le h.maxFast (by omega) hle
  have hmem : c.start ∈ a.pending := by
    refine List.mem_flatMap.2 ⟨_, hrange, ?_⟩
    rw [hbin]
    exact List.mem_cons_self ..
  obtain ⟨c', hmem', hstart, htag⟩ := (h.fast.mem_iff c.start).1 hmem
  rw [hc] at hmem'
  obtain rfl : c' = c := by
    by_contra hne
    exact h.laid.start_ne hc c' (by simpa [hne] using hmem') hstart
  rw [BitVec.le_def, h.toNat_maxFast] at hle
  exact ⟨before, c', after, rest, hc, htag, rfl, hrange, hle, rfl, ha'.symm⟩

theorem popFastbin_hands (h : Sound lo hi a) (hsized : FastSized a) (hnb : ChunkSize nb)
    (hres : a.popFastbin nb = some (mem, a')) : Hands nb a (some mem, a') := by
  obtain ⟨before, c, after, rest, hc, htag, rfl, hrange, hle, hbin, rfl⟩ :=
    h.popFastbin_cases hnb hres
  have hmin := hnb.min
  have hmod := hnb.mod
  have hindex := fastbinIndex_eq (by omega) hle
  have hhead : c.start ∈ a.fastbins (fastbinIndex nb) := by
    rw [hbin]
    exact List.mem_cons_self ..
  have hlen := hsized _ hrange _ hhead c (mem_ofUse.2 ⟨by simp [hc], htag⟩) rfl
  refine .some (c := { c with tag := .inUse }) ?_ (by simp only; omega) ?_
  · rw [hc, ofUse_skip (c := c) (by simp [htag])]
    exact ofUse_perm (by rfl) ..
  · -- the other fast chunks are in the bins that they were in
    intro i hi p hp u hu hstart
    simp only at hi hp hu
    have hold : p ∈ a.fastbins i := by
      by_cases hbin' : i = fastbinIndex nb
      · rw [hbin', Function.update_self] at hp
        rw [hbin', hbin]
        exact List.mem_cons_of_mem _ hp
      · rwa [Function.update_of_ne hbin'] at hp
    refine hsized i hi p hold u ?_ hstart
    rw [ofUse_skip (by simp)] at hu
    rw [hc]
    exact (ofUse_perm htag before after).mem_iff.2 (List.mem_cons_of_mem _ hu)

theorem takeBinned_hands (hsized : FastSized a) {p : Nat} {before after : List Chunk} {c : Chunk}
    (hfound : locate p a.chunks = some (before, c, after)) (htag : c.tag = .binned)
    (hfits : nb.toNat ≤ c.len) (hres : a.takeBinned nb p = some (mem, a')) :
    Hands nb a (some mem, a') := by
  obtain ⟨hc, rfl⟩ := locate_eq_some hfound
  rw [Arena.takeBinned, hfound] at hres
  simp only [Option.map_some, Option.some.injEq, Prod.mk.injEq] at hres
  obtain ⟨rfl, rfl⟩ := hres
  have hother : ∀ use, use ≠ .binned → ofUse use a.chunks = ofUse use (before ++ after) := by
    intro use huse
    rw [hc, ofUse_skip (by simpa [htag] using huse.symm)]
  split_ifs with hsmall
  · refine .some (c := { c with tag := .inUse }) ?_ hfits (hsized.congr rfl rfl ?_)
    · rw [hother _ (by simp)]
      exact ofUse_perm (by rfl) ..
    · rw [hother _ (by simp)]
      exact ofUse_skip (by simp) ..
  · refine .some (c := ⟨c.start, nb.toNat, .inUse⟩) ?_ (Nat.le_refl _) (hsized.congr rfl rfl ?_)
    · rw [hother _ (by simp)]
      refine (ofUse_perm (by rfl) ..).trans (List.Perm.of_eq ?_)
      rw [ofUse_skip (by simp)]
    · rw [hother _ (by simp), ofUse_skip (by simp), ofUse_skip (by simp)]

theorem splitTop_hands (hsized : FastSized a) (hres : a.splitTop nb = some (mem, a')) :
    Hands nb a (some mem, a') := by
  unfold Arena.splitTop at hres
  split_ifs at hres
  simp only [Option.some.injEq, Prod.mk.injEq] at hres
  obtain ⟨rfl, rfl⟩ := hres
  have hmem : Chunk.mem ⟨a.av.top.toNat, nb.toNat, .inUse⟩ = chunk2mem a.av.top := by
    rw [Chunk.mem, BitVec.ofNat_toNat, BitVec.setWidth_eq]
  rw [← hmem]
  refine .some ?_ (Nat.le_refl _) (hsized.congr rfl rfl ?_)
  · rw [ofUse_append, ofUse_cons_of_eq (by rfl)]
    exact List.perm_append_singleton ..
  · rw [ofUse_append, ofUse_cons_of_ne (by simp), ofUse_nil, List.append_nil]

theorem useTop_hands (hsized : FastSized a) : Hands nb a (a.useTop nb) := by
  unfold Arena.useTop
  rcases hres : a.splitTop nb with - | ⟨mem, a'⟩
  · exact .none rfl hsized
  · exact splitTop_hands hsized hres

theorem serve_hands (h : Sound lo hi a) (hsized : FastSized a) (hnb : ChunkSize nb)
    (bins : BinSearch) : Hands nb a (a.serve bins nb) := by
  have hinit : a.maxFast ≠ 0 := by
    rw [h.maxFast]
    decide
  unfold Arena.serve
  by_cases hany : a.anychunks = true
  swap
  · rw [if_pos hany, if_neg hinit]
    exact useTop_hands hsized
  rw [if_neg (not_not.2 hany)]
  rcases hpop : a.popFastbin nb with - | ⟨mem, a₁⟩
  swap
  · exact popFastbin_hands h hsized hnb hpop
  simp only
  rcases hsmall : (if nb < minLargeSize then (bins.small a nb).bind (a.takeBinned nb) else none)
    with - | ⟨mem, a₁⟩
  swap
  · split_ifs at hsmall
    obtain ⟨p, hp, htake⟩ := Option.bind_eq_some_iff.1 hsmall
    obtain ⟨before, c, after, hfound, htag, hlen⟩ := bins.small_fits a nb p hp
    exact takeBinned_hands hsized hfound htag hlen.ge htake
  simp only
  obtain ⟨a₁, ha₁, hsame, hsized₁⟩ : ∃ a₁, (if ¬ nb < minLargeSize ∧ a.fastchunks = true then
      a.mallocConsolidate else a) = a₁ ∧
        ofUse .inUse a₁.chunks = ofUse .inUse a.chunks ∧ FastSized a₁ := by
    refine ⟨_, rfl, ?_⟩
    split_ifs
    · exact ⟨h.mallocConsolidate_inUse, h.mallocConsolidate.fastSized⟩
    · exact ⟨rfl, hsized⟩
  rw [ha₁]
  refine Hands.of_eq ?_ hsame
  rcases hbest : (bins.best a₁ nb).bind (a₁.takeBinned nb) with - | ⟨mem, a₂⟩
  · exact useTop_hands hsized₁
  · obtain ⟨p, hp, htake⟩ := Option.bind_eq_some_iff.1 hbest
    obtain ⟨before, c, after, hfound, htag, hlen⟩ := bins.best_fits a₁ nb p hp
    exact takeBinned_hands hsized₁ hfound htag hlen htake

theorem serve_topPad (h : Sound lo hi a) (hnb : ChunkSize nb) (bins : BinSearch) :
    (a.serve bins nb).2.av.topPad = a.av.topPad := by
  have hinit : a.maxFast ≠ 0 := by
    rw [h.maxFast]
    decide
  have htop : ∀ a : Arena, (a.useTop nb).2.av.topPad = a.av.topPad := by
    intro a
    unfold Arena.useTop Arena.splitTop
    split_ifs <;> rfl
  have htake : ∀ {a a' : Arena} {p : Nat} {mem : Word},
      a.takeBinned nb p = some (mem, a') → a'.av.topPad = a.av.topPad := by
    intro a a' p mem hres
    obtain ⟨x, -, hx⟩ := Option.map_eq_some_iff.1 hres
    obtain ⟨-, rfl⟩ := Prod.mk.inj hx
    split_ifs <;> rfl
  unfold Arena.serve
  by_cases hany : a.anychunks = true
  swap
  · rw [if_pos hany, if_neg hinit]
    exact htop a
  rw [if_neg (not_not.2 hany)]
  rcases hpop : a.popFastbin nb with - | ⟨mem, a₁⟩
  swap
  · obtain ⟨_, _, _, _, -, -, -, -, -, -, rfl⟩ := h.popFastbin_cases hnb hpop
    rfl
  simp only
  rcases hsmall : (if nb < minLargeSize then (bins.small a nb).bind (a.takeBinned nb) else none)
    with - | ⟨mem, a₁⟩
  swap
  · split_ifs at hsmall
    obtain ⟨p, -, hres⟩ := Option.bind_eq_some_iff.1 hsmall
    exact htake hres
  simp only
  obtain ⟨a₁, ha₁, hpad⟩ : ∃ a₁, (if ¬ nb < minLargeSize ∧ a.fastchunks = true then
      a.mallocConsolidate else a) = a₁ ∧ a₁.av.topPad = a.av.topPad := by
    refine ⟨_, rfl, ?_⟩
    split_ifs
    · exact h.mallocConsolidate.topPad
    · rfl
  rw [ha₁]
  rcases hbest : (bins.best a₁ nb).bind (a₁.takeBinned nb) with - | ⟨mem, a₂⟩
  · exact (htop a₁).trans hpad
  · obtain ⟨p, -, hres⟩ := Option.bind_eq_some_iff.1 hbest
    exact (htake hres).trans hpad

end Paths

/-! ## The ledger -/

/-- What `malloc` has returned, and how many bytes it was asked for. -/
structure Block where
  mem : Word
  bytes : Word
  deriving DecidableEq, Repr

/-- The blocks after `malloc` has returned `mem`. -/
def grant (mem bytes : Word) (blocks : List Block) : List Block :=
  if mem = 0 then blocks else ⟨mem, bytes⟩ :: blocks

/-- The blocks after `mem` has been freed. -/
def revoke (mem : Word) (blocks : List Block) : List Block :=
  blocks.filter fun b => decide (b.mem ≠ mem)

/-- The blocks are the chunks in use. The last 8 bytes of one are the first of the next chunk. -/
structure Ledger (a : Arena) (blocks : List Block) : Prop where
  mems : (blocks.map Block.mem).Perm ((ofUse .inUse a.chunks).map Chunk.mem)
  fits : ∀ b ∈ blocks, ∀ c ∈ ofUse .inUse a.chunks, c.mem = b.mem → b.bytes.toNat + 8 ≤ c.len
  fast : FastSized a

section Ledger

variable {lo hi : Nat} {a a' : Arena} {nb mem bytes : Word} {blocks : List Block}
  {before after : List Chunk} {c : Chunk}

theorem Ledger.congr (h : Ledger a blocks)
    (heq : ofUse .inUse a'.chunks = ofUse .inUse a.chunks) (hfast : FastSized a') :
    Ledger a' blocks :=
  ⟨heq ▸ h.mems, heq ▸ h.fits, hfast⟩

theorem Laid.toNat_mem (h : Laid lo hi a) (hc : c ∈ a.chunks) :
    c.mem.toNat = c.start + 16 ∧ lo ≤ c.start ∧ c.start + c.len + 16 ≤ hi ∧ 16 ≤ c.len := by
  have htiles := h.tiles
  have hsize := h.sizes c (by simp [Arena.all, hc])
  have htopsize := h.sizes a.topChunk (by simp [Arena.all])
  have hle := h.hi_le
  rw [Arena.all, Tiles.append_iff] at htiles
  obtain ⟨mid, hchunks, hmid, hstop⟩ := htiles
  have hbound := hchunks.mem_bounds hc
  simp only [Tiles.nil_iff, Seg.stop] at hstop hbound
  have haddr : (BitVec.ofNat 64 c.start : Word).toNat = c.start := by
    rw [BitVec.toNat_ofNat]
    omega
  refine ⟨?_, hbound.1, by omega, by omega⟩
  rw [Chunk.mem, chunk2mem, BitVec.toNat_add, haddr]
  show (_ + 16) % _ = _
  omega

theorem Laid.mem_eq_iff (h : Laid lo hi a) (hc : c ∈ a.chunks) :
    c.mem = mem ↔ c.start = (mem2chunk mem).toNat := by
  obtain ⟨hmem, -, hend, -⟩ := h.toNat_mem hc
  have hle := h.hi_le
  unfold mem2chunk
  constructor
  · rintro rfl
    bv_omega
  · intro hstart
    bv_omega

theorem Laid.pairwise (h : Laid lo hi a) (use : ChunkUse) :
    (ofUse use a.chunks).Pairwise fun c d => c.stop ≤ d.start := by
  have htiles := h.tiles
  rw [Arena.all, Tiles.append_iff] at htiles
  obtain ⟨mid, hchunks, -⟩ := htiles
  exact hchunks.pairwise.sublist List.filter_sublist

theorem Laid.nodup_mem (h : Laid lo hi a) (use : ChunkUse) :
    ((ofUse use a.chunks).map Chunk.mem).Nodup := by
  rw [List.Nodup, List.pairwise_map]
  refine (h.pairwise use).imp_of_mem fun {c d} hc hd hapart he => ?_
  obtain ⟨hcmem, -, -, hlen⟩ := h.toNat_mem (mem_ofUse.1 hc).1
  obtain ⟨hdmem, -⟩ := h.toNat_mem (mem_ofUse.1 hd).1
  rw [he, hdmem] at hcmem
  unfold Seg.stop at hapart
  omega

theorem Ledger.exists_chunk (h : Ledger a blocks) {b : Block} (hb : b ∈ blocks) :
    ∃ c ∈ a.chunks, c.tag = .inUse ∧ c.mem = b.mem ∧ b.bytes.toNat + 8 ≤ c.len := by
  obtain ⟨c, hc, hmem⟩ := List.mem_map.1 (h.mems.mem_iff.1 (List.mem_map_of_mem hb))
  obtain ⟨hin, htag⟩ := mem_ofUse.1 hc
  exact ⟨c, hin, htag, hmem, h.fits b hb c hc hmem⟩

theorem Ledger.mem_ne_zero (h : Ledger a blocks) (hlaid : Laid lo hi a) :
    ∀ b ∈ blocks, b.mem ≠ 0 := by
  intro b hb hzero
  obtain ⟨c, hc, -, hmem, -⟩ := h.exists_chunk hb
  have haddr := (hlaid.toNat_mem hc).1
  rw [hmem, hzero] at haddr
  exact absurd haddr (by simp)

/-- What `malloc` hands out is a new block. -/
theorem Ledger.hands (h : Ledger a blocks) {x : Option Word × Arena} (hres : Hands nb a x)
    (hlaid : Laid lo hi x.2) (hroom : bytes.toNat + 8 ≤ nb.toNat) :
    Ledger x.2 (grant (x.1.getD 0) bytes blocks) := by
  cases hres with
  | none held fast =>
      rw [Option.getD_none, grant, if_pos rfl]
      exact h.congr held fast
  | @some c a' held fits fast =>
      have hc : c ∈ ofUse .inUse a'.chunks := held.mem_iff.2 (List.mem_cons_self ..)
      obtain ⟨hmem, -, hend, -⟩ := hlaid.toNat_mem (mem_ofUse.1 hc).1
      have hne : c.mem ≠ 0 := by
        intro hzero
        rw [hzero] at hmem
        exact absurd hmem (by simp)
      have hnodup := hlaid.nodup_mem .inUse
      rw [(held.map Chunk.mem).nodup_iff, List.map_cons, List.nodup_cons] at hnodup
      rw [Option.getD_some, grant, if_neg hne]
      refine ⟨?_, fun b hb d hd hdb => ?_, fast⟩
      · exact (h.mems.cons c.mem).trans (held.map Chunk.mem).symm
      · rcases List.mem_cons.1 (held.mem_iff.1 hd) with rfl | hd <;>
          rcases List.mem_cons.1 hb with rfl | hb
        · exact Nat.le_trans hroom fits
        · refine absurd (h.mems.mem_iff.1 (List.mem_map_of_mem hb)) ?_
          rw [← hdb]
          exact hnodup.1
        · have hold : d.mem ∈ (ofUse .inUse a.chunks).map Chunk.mem := List.mem_map_of_mem hd
          rw [hdb] at hold
          exact absurd hold hnodup.1
        · exact h.fits b hb d hd hdb

theorem Ledger.remove (h : Ledger a blocks) (hlaid : Laid lo hi a)
    (hc : a.chunks = before ++ c :: after) (htag : c.tag = .inUse)
    (heq : ofUse .inUse a'.chunks = ofUse .inUse (before ++ after)) (hfast : FastSized a') :
    Ledger a' (revoke c.mem blocks) := by
  have hheld : (ofUse .inUse a.chunks).Perm (c :: ofUse .inUse a'.chunks) := by
    rw [heq, hc]
    exact ofUse_perm htag ..
  have hnodup := hlaid.nodup_mem .inUse
  rw [(hheld.map Chunk.mem).nodup_iff, List.map_cons, List.nodup_cons] at hnodup
  refine ⟨?_, fun b hb d hd hdb => ?_, hfast⟩
  · have hmems := (h.mems.trans (hheld.map Chunk.mem)).filter fun m => decide (m ≠ c.mem)
    have hothers : ((ofUse .inUse a'.chunks).map Chunk.mem).filter
        (fun m => decide (m ≠ c.mem)) = (ofUse .inUse a'.chunks).map Chunk.mem := by
      refine List.filter_eq_self.2 fun m hm => decide_eq_true ?_
      rintro rfl
      exact hnodup.1 hm
    rw [List.map_cons, List.filter_cons_of_neg (by simp), hothers, List.filter_map] at hmems
    exact hmems
  · exact h.fits b (List.mem_of_mem_filter hb) d
      (hheld.mem_iff.2 (List.mem_cons_of_mem _ hd)) hdb

end Ledger

end UnnamedKernel.Mm.Heap
