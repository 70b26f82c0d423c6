import UnnamedKernel.Lib.SizeClasses
import UnnamedKernel.Mm.Heap.Dlmalloc

/-!
# The chunks of dlmalloc

With the top as their last one, the chunks tile the memory that `sbrk` has given, no two
neighbours are free, and the fastbins hold just the chunks that are marked so. Every path of
`malloc` and `free` keeps this.
-/

namespace UnnamedKernel.Mm.Heap

open UnnamedKernel.Lib UnnamedKernel.Kernel Vma Vmm

namespace Arena

/-- The top, which is free. -/
def topChunk (a : Arena) : Chunk :=
  ⟨a.av.top.toNat, (chunksize a.av.topHead).toNat, .binned⟩

/-- The chunks and the top. -/
def all (a : Arena) : List Chunk := a.chunks ++ [a.topChunk]

@[simp] theorem topChunk_tag (a : Arena) : a.topChunk.tag = .binned := rfl

end Arena

/-- The chunks and the top tile `[lo, hi)`. -/
structure Laid (lo hi : Nat) (a : Arena) : Prop where
  lo_pos : 0 < lo
  hi_le : hi ≤ 2 ^ 64
  tiles : Tiles lo hi a.all
  separated : Separated ChunkUse.isBinned a.all
  sizes : ∀ c ∈ a.all, 0 < c.len ∧ c.len % 16 = 0

/-- The addresses `L` are those of the chunks that are marked fast. -/
structure FastIn (L : List Nat) (chunks : List Chunk) : Prop where
  nodup : L.Nodup
  mem_iff : ∀ p, p ∈ L ↔ ∃ c ∈ chunks, c.start = p ∧ c.tag = .fast

/-! ## Sizes -/

theorem sizes_add (i j : Nat) (hi : 0 < i ∧ i % 16 = 0) (hj : 0 < j ∧ j % 16 = 0) :
    0 < i + j ∧ (i + j) % 16 = 0 := by
  omega

theorem chunksize_of_mod {x : Word} (h : x.toNat % 16 = 0) : chunksize x = x := by
  have hlow : x &&& sizeBits = 0 := by
    apply BitVec.eq_of_toNat_eq
    rw [BitVec.toNat_and, show sizeBits.toNat = 2 ^ 2 - 1 by decide, Nat.and_two_pow_sub_one_eq_mod]
    show _ = 0
    omega
  have hall : ~~~sizeBits ||| sizeBits = BitVec.allOnes 64 := by decide
  calc chunksize x = (x &&& ~~~sizeBits) ||| (x &&& sizeBits) := by rw [hlow, chunksize]; simp
    _ = x := by rw [← BitVec.and_or_distrib_left, hall, BitVec.and_allOnes]

theorem chunksize_set_head {x : Word} (h : x.toNat % 16 = 0) : chunksize (x ||| prevInuse) = x := by
  rw [chunksize_prevInuse, chunksize_of_mod h]

/-- What `request2size` makes of a request that is in range. -/
structure ChunkSize (nb : Word) : Prop where
  min : 32 ≤ nb.toNat
  mod : nb.toNat % 16 = 0
  fits : nb.toNat + 32 < 2 ^ 64

theorem toNat_request2size {bytes : Word} (h : requestOutOfRange bytes = false) :
    bytes.toNat < 2 ^ 64 - 64 ∧
      (request2size bytes).toNat = max 32 ((bytes.toNat + 23) / 16 * 16) := by
  have hrange : bytes.toNat < 2 ^ 64 - 64 := by
    have hlimit : (-2 * minsize).toNat = 2 ^ 64 - 64 := by decide
    unfold requestOutOfRange at h
    rw [decide_eq_false_iff_not, BitVec.le_def, hlimit] at h
    omega
  have hpadded : (bytes + 8 + mallocAlignMask).toNat = bytes.toNat + 23 := by
    have hmask : mallocAlignMask.toNat = 15 := by decide
    have height : (8 : Word).toNat = 8 := rfl
    rw [BitVec.toNat_add, BitVec.toNat_add, hmask, height]
    omega
  have hminsize : minsize.toNat = 32 := rfl
  refine ⟨hrange, ?_⟩
  unfold request2size
  split_ifs with hsmall <;> rw [BitVec.lt_def, hpadded, hminsize] at hsmall
  · rw [hminsize]
    omega
  · have hdown := toNat_roundDown (bytes + 8 + mallocAlignMask) (a := mallocAlignment) ⟨4, rfl⟩
    have hround : ((bytes + 8 + mallocAlignMask) &&& ~~~mallocAlignMask).toNat =
        (bytes.toNat + 23) / 16 * 16 := by
      rwa [hpadded] at hdown
    rw [hround]
    omega

theorem chunkSize_request2size {bytes : Word} (h : requestOutOfRange bytes = false) :
    ChunkSize (request2size bytes) := by
  obtain ⟨hrange, hsize⟩ := toNat_request2size h
  constructor <;> rw [hsize] <;> omega

/-! ## Fast chunks -/

namespace FastIn

variable {L : List Nat} {before after : List Chunk} {c : Chunk}

theorem perm {L' : List Nat} {chunks : List Chunk} (h : FastIn L chunks) (hperm : L.Perm L') :
    FastIn L' chunks :=
  ⟨hperm.nodup_iff.1 h.nodup, fun p => hperm.mem_iff.symm.trans (h.mem_iff p)⟩

theorem other_iff (hc : c.tag ≠ .fast) :
    FastIn L (before ++ c :: after) ↔ FastIn L (before ++ after) := by
  have hmem : ∀ p, (∃ u ∈ before ++ c :: after, u.start = p ∧ u.tag = .fast) ↔
      ∃ u ∈ before ++ after, u.start = p ∧ u.tag = .fast := by
    intro p
    constructor
    · rintro ⟨u, hu, hstart, hfast⟩
      have hne : u ≠ c := fun he => hc (he ▸ hfast)
      exact ⟨u, by simpa [hne] using hu, hstart, hfast⟩
    · rintro ⟨u, hu, hstart, hfast⟩
      refine ⟨u, ?_, hstart, hfast⟩
      rcases List.mem_append.1 hu with hu | hu <;> simp [hu]
  exact ⟨fun h => ⟨h.nodup, fun p => (h.mem_iff p).trans (hmem p)⟩,
    fun h => ⟨h.nodup, fun p => (h.mem_iff p).trans (hmem p).symm⟩⟩

theorem cons_iff (hc : c.tag = .fast) (hne : ∀ u ∈ before ++ after, u.start ≠ c.start) :
    FastIn (c.start :: L) (before ++ c :: after) ↔ FastIn L (before ++ after) := by
  have hmem : ∀ p, (∃ u ∈ before ++ c :: after, u.start = p ∧ u.tag = .fast) ↔
      p = c.start ∨ ∃ u ∈ before ++ after, u.start = p ∧ u.tag = .fast := by
    intro p
    constructor
    · rintro ⟨u, hu, rfl, hfast⟩
      by_cases he : u = c
      · exact Or.inl (by rw [he])
      · exact Or.inr ⟨u, by simpa [he] using hu, rfl, hfast⟩
    · rintro (rfl | ⟨u, hu, hstart, hfast⟩)
      · exact ⟨c, by simp, rfl, hc⟩
      · refine ⟨u, ?_, hstart, hfast⟩
        rcases List.mem_append.1 hu with hu | hu <;> simp [hu]
  have hnot : ¬ ∃ u ∈ before ++ after, u.start = c.start ∧ u.tag = .fast := by
    rintro ⟨u, hu, hstart, -⟩
    exact hne u hu hstart
  constructor
  · rintro ⟨hnodup, hiff⟩
    rw [List.nodup_cons] at hnodup
    refine ⟨hnodup.2, fun p => ?_⟩
    have hp := hiff p
    rw [hmem, List.mem_cons] at hp
    by_cases he : p = c.start
    · subst he
      exact iff_of_false hnodup.1 hnot
    · simpa [he] using hp
  · rintro ⟨hnodup, hiff⟩
    refine ⟨List.nodup_cons.2 ⟨fun hin => hnot ((hiff _).1 hin), hnodup⟩, fun p => ?_⟩
    rw [hmem, List.mem_cons, hiff]

end FastIn

/-! ## Chunks of a laid arena -/

namespace Laid

variable {lo hi : Nat} {a : Arena} {before after : List Chunk} {c : Chunk}

theorem all_eq (hc : a.chunks = before ++ c :: after) :
    a.all = before ++ c :: (after ++ [a.topChunk]) := by
  simp [Arena.all, hc]

theorem start_ne (h : Laid lo hi a) (hc : a.chunks = before ++ c :: after) :
    ∀ u ∈ before ++ after, u.start ≠ c.start := by
  intro u hu he
  have htiles := h.tiles
  have hsizes := h.sizes
  rw [all_eq hc] at htiles hsizes
  have hupos := (hsizes u (by rcases List.mem_append.1 hu with hu | hu <;> simp [hu])).1
  have hcpos := (hsizes c (by simp)).1
  obtain ⟨mid, hbefore, hstart, hafter⟩ := (Tiles.append_iff _ _ _ _).1 htiles
  rcases List.mem_append.1 hu with hu | hu
  · have hbound := (hbefore.mem_bounds hu).2
    unfold Seg.stop at hbound
    omega
  · have hbound := (hafter.mem_bounds (s := u) (by simp [hu])).1
    unfold Seg.stop at hbound
    omega

theorem locate (h : Laid lo hi a) (hc : a.chunks = before ++ c :: after) :
    locate c.start a.chunks = some (before, c, after) := by
  have htiles := h.tiles
  have hsizes := h.sizes
  rw [Arena.all, Tiles.append_iff] at htiles
  obtain ⟨mid, hchunks, -⟩ := htiles
  rw [hc] at hchunks ⊢
  rw [all_eq hc] at hsizes
  exact hchunks.locate fun u hu => (hsizes u (by simp [hu])).1

theorem toNat_len (h : Laid lo hi a) (hc : a.chunks = before ++ c :: after) :
    (BitVec.ofNat 64 c.len).toNat = c.len := by
  have htiles := h.tiles
  have hle := h.hi_le
  have hlo := h.lo_pos
  rw [all_eq hc] at htiles
  have hbound := htiles.mem_bounds (s := c) (by simp)
  unfold Seg.stop at hbound
  rw [BitVec.toNat_ofNat]
  omega

theorem topEnd (h : Laid lo hi a) : a.av.top + chunksize a.av.topHead = BitVec.ofNat 64 hi := by
  have htiles := h.tiles
  rw [Arena.all, Tiles.append_iff] at htiles
  obtain ⟨mid, -, -, hstop⟩ := htiles
  apply BitVec.eq_of_toNat_eq
  rw [BitVec.toNat_add, BitVec.toNat_ofNat]
  exact congrArg (· % 2 ^ 64) hstop

theorem congr (h : Laid lo hi a) {a' : Arena} (hall : a'.all = a.all) : Laid lo hi a' :=
  ⟨h.lo_pos, h.hi_le, hall ▸ h.tiles, hall ▸ h.separated, hall ▸ h.sizes⟩

/-- What `consolidate` does to the chunks and the top, and the size that it finds. -/
theorem consolidate (h : Laid lo hi a) (hc : a.chunks = before ++ c :: after) :
    (a.consolidate before c after).2.all =
        coalesce ChunkUse.isBinned .binned before c (after ++ [a.topChunk]) ∧
      (a.consolidate before c after).1.toNat = freeLen ChunkUse.isBinned before.getLast? + c.len +
        freeLen ChunkUse.isBinned (after ++ [a.topChunk]).head? := by
  have htiles := h.tiles
  have hsizes := h.sizes
  have hle := h.hi_le
  have hlo := h.lo_pos
  rw [all_eq hc] at htiles hsizes
  have hjoined : Tiles lo hi ((joinBefore ChunkUse.isBinned before c).1 ++
      (joinBefore ChunkUse.isBinned before c).2 :: (after ++ [a.topChunk])) :=
    joinBefore_tiles htiles
  have hlen := joinBefore_len ChunkUse.isBinned before c
  have hmod : (joinBefore ChunkUse.isBinned before c).2.len % 16 = 0 := by
    have hcmod := (hsizes c (by simp)).2
    have hlast : freeLen ChunkUse.isBinned before.getLast? % 16 = 0 := by
      cases hp : before.getLast? with
      | none => rfl
      | some p =>
          have hpmod := (hsizes p (by simp [List.mem_of_getLast? hp])).2
          simp only [freeLen, Option.elim_some]
          split_ifs
          · exact hpmod
          · rfl
    omega
  unfold Arena.consolidate
  rcases hjoin : joinBefore ChunkUse.isBinned before c with ⟨front, c'⟩
  rw [hjoin] at hjoined hlen hmod
  simp only at hjoined hlen hmod ⊢
  obtain ⟨mid, hfront, hstart, hrest⟩ := (Tiles.append_iff _ _ _ _).1 hjoined
  have hmid := hfront.le
  cases after with
  | nil =>
      obtain ⟨htop, hstop⟩ : a.topChunk.start = c'.stop ∧ a.topChunk.stop = hi := hrest
      simp only [Seg.stop, Arena.topChunk] at htop hstop
      have hpos := (hsizes a.topChunk (by simp)).1
      have htopmod := (hsizes a.topChunk (by simp)).2
      simp only [Arena.topChunk] at hpos htopmod
      have hsize : (BitVec.ofNat 64 c'.len + chunksize a.av.topHead).toNat =
          c'.len + (chunksize a.av.topHead).toNat := by
        rw [BitVec.toNat_add, BitVec.toNat_ofNat]
        omega
      have hnewstart : (BitVec.ofNat 64 c'.start).toNat = c'.start := by
        rw [BitVec.toNat_ofNat]
        omega
      have hnewsize := chunksize_set_head (x := BitVec.ofNat 64 c'.len + chunksize a.av.topHead)
        (by omega)
      refine ⟨?_, ?_⟩
      · simp [Arena.all, Arena.topChunk, coalesce, hjoin, joinAfter, ChunkUse.isBinned, hnewsize,
          hsize, hnewstart, Seg.join]
      · rw [hsize, hlen]
        simp [freeLen, ChunkUse.isBinned, Arena.topChunk]
  | cons next after =>
      obtain ⟨hnext, hlater⟩ : next.start = c'.stop ∧ Tiles next.stop hi (after ++ [a.topChunk]) :=
        hrest
      have hbound := hlater.le
      simp only [Seg.stop] at hnext hbound
      cases hfree : ChunkUse.isBinned next.tag
      · refine ⟨by simp [Arena.all, Arena.topChunk, coalesce, hjoin, joinAfter, hfree], ?_⟩
        simp only [joinAfter, hfree, List.cons_append, List.head?_cons, freeLen, Option.elim_some,
          Bool.false_eq_true, if_false, BitVec.toNat_ofNat]
        rw [← freeLen, ← hlen]
        omega
      · refine ⟨?_, ?_⟩
        · simp [Arena.all, Arena.topChunk, coalesce, hjoin, joinAfter, hfree, Seg.join]
        simp only [joinAfter, hfree, List.cons_append, List.head?_cons, freeLen, Option.elim_some,
          if_true, BitVec.toNat_ofNat, Seg.join]
        rw [← freeLen, ← hlen]
        omega

theorem consolidate_parts (h : Laid lo hi a) (hc : a.chunks = before ++ c :: after) :
    ∃ front p m n rest, Parts ChunkUse.isBinned .binned before c (after ++ [a.topChunk])
      front p m n rest := by
  have hsep := h.separated
  rw [all_eq hc] at hsep
  exact coalesce_parts .binned hsep

theorem consolidate_laid (h : Laid lo hi a) (hc : a.chunks = before ++ c :: after) :
    Laid lo hi (a.consolidate before c after).2 := by
  obtain ⟨front, p, m, n, rest, hparts⟩ := h.consolidate_parts hc
  have hall := (h.consolidate hc).1
  have htiles := h.tiles
  have hsep := h.separated
  have hsizes := h.sizes
  rw [all_eq hc] at htiles hsep hsizes
  exact ⟨h.lo_pos, h.hi_le, hall ▸ coalesce_tiles .binned htiles, hall ▸ hparts.separated hsep,
    hall ▸ hparts.forall_len sizes_add hsizes⟩

theorem consolidate_fast (h : Laid lo hi a) (hc : a.chunks = before ++ c :: after) {L : List Nat}
    (hfast : FastIn L (before ++ after)) : FastIn L (a.consolidate before c after).2.chunks := by
  obtain ⟨front, p, m, n, rest, hparts⟩ := h.consolidate_parts hc
  have hall := (h.consolidate hc).1
  have hmem : ∀ u : Chunk, u.tag = .fast →
      (u ∈ (a.consolidate before c after).2.chunks ↔ u ∈ before ++ after) := by
    intro u hu
    have hkeeps := hparts.mem_iff rfl (u := u) (by simp [ChunkUse.isBinned, hu])
    have hnew : u ≠ (a.consolidate before c after).2.topChunk := by
      rintro rfl
      simp at hu
    have hold : u ≠ a.topChunk := by
      rintro rfl
      simp at hu
    rw [← hall, Arena.all] at hkeeps
    simpa [hnew, hold] using hkeeps
  refine ⟨hfast.nodup, fun p => (hfast.mem_iff p).trans ?_⟩
  constructor
  · rintro ⟨u, hu, hstart, htag⟩
    exact ⟨u, (hmem u htag).2 hu, hstart, htag⟩
  · rintro ⟨u, hu, hstart, htag⟩
    exact ⟨u, (hmem u htag).1 hu, hstart, htag⟩

/-- Consolidation does not change how much is free at the end, with `c` free. -/
theorem consolidate_trailing (h : Laid lo hi a) (hc : a.chunks = before ++ c :: after) :
    trailing ChunkUse.isInUse (a.consolidate before c after).2.all =
      trailing ChunkUse.isInUse
        (before ++ { c with tag := .binned } :: (after ++ [a.topChunk])) := by
  obtain ⟨front, p, m, n, rest, hparts⟩ := h.consolidate_parts hc
  rw [(h.consolidate hc).1]
  refine hparts.trailing_eq (fun use huse => ?_) rfl
  cases use <;> simp_all [ChunkUse.isBinned, ChunkUse.isInUse]

end Laid

/-! ## `malloc_consolidate` -/

/-- The fields that consolidation leaves alone. -/
structure SameSettings (a a' : Arena) : Prop where
  maxFast : a'.maxFast = a.maxFast
  anychunks : a'.anychunks = a.anychunks
  fastchunks : a'.fastchunks = a.fastchunks
  fastbins : a'.fastbins = a.fastbins
  topPad : a'.av.topPad = a.av.topPad

theorem SameSettings.trans {a b c : Arena} (h : SameSettings a b) (h' : SameSettings b c) :
    SameSettings a c :=
  ⟨h'.maxFast.trans h.maxFast, h'.anychunks.trans h.anychunks, h'.fastchunks.trans h.fastchunks,
    h'.fastbins.trans h.fastbins, h'.topPad.trans h.topPad⟩

theorem consolidate_settings (a : Arena) (before : List Chunk) (c : Chunk) (after : List Chunk) :
    SameSettings a (a.consolidate before c after).2 := by
  cases after <;> exact ⟨rfl, rfl, rfl, rfl, rfl⟩

/-- `a'` is `a` with its fast chunks consolidated but for those at `L`. -/
structure Consolidates (lo hi : Nat) (L : List Nat) (a a' : Arena) : Prop where
  laid : Laid lo hi a'
  fast : FastIn L a'.chunks
  trailing : trailing ChunkUse.isInUse a'.all = trailing ChunkUse.isInUse a.all
  settings : SameSettings a a'

section Consolidate

variable {lo hi : Nat} {a : Arena} {p : Nat} {L : List Nat}

theorem consolidateFast_spec (h : Laid lo hi a) (hfast : FastIn (p :: L) a.chunks) :
    Consolidates lo hi L a (a.consolidateFast p) := by
  obtain ⟨c, hmem, rfl, htag⟩ := (hfast.mem_iff p).1 (by simp)
  obtain ⟨before, after, hc⟩ := List.append_of_mem hmem
  have hlocate := h.locate hc
  have hrest : FastIn L (before ++ after) := by
    rw [hc] at hfast
    exact (FastIn.cons_iff htag (h.start_ne hc)).1 hfast
  unfold Arena.consolidateFast
  rw [hlocate]
  refine ⟨h.consolidate_laid hc, h.consolidate_fast hc hrest, ?_, consolidate_settings ..⟩
  rw [h.consolidate_trailing hc, Laid.all_eq hc]
  exact trailing_retag (by rw [htag]; rfl)

theorem foldl_consolidateFast (h : Laid lo hi a) (hfast : FastIn L a.chunks) :
    Consolidates lo hi [] a (L.foldl Arena.consolidateFast a) := by
  induction L generalizing a with
  | nil => exact ⟨h, hfast, rfl, rfl, rfl, rfl, rfl, rfl⟩
  | cons p L ih =>
      have hfirst := consolidateFast_spec h hfast
      have hrest := ih hfirst.laid hfirst.fast
      exact ⟨hrest.laid, hrest.fast, hrest.trailing.trans hfirst.trailing,
        hfirst.settings.trans hrest.settings⟩

/-- Without fast chunks no more than the top is free at the end. -/
theorem Laid.trailing_eq_top (h : Laid lo hi a) (hfast : FastIn [] a.chunks) :
    trailing ChunkUse.isInUse a.all = (chunksize a.av.topHead).toNat := by
  refine trailing_separated h.separated (fun u hu => ?_) rfl rfl
  cases htag : u.tag
  · exact Or.inl rfl
  · exact absurd ((hfast.mem_iff u.start).2 ⟨u, hu, rfl, htag⟩) (by simp)
  · exact Or.inr rfl

end Consolidate

/-- An arena that has been initialized and has a top. -/
structure Sound (lo hi : Nat) (a : Arena) : Prop where
  laid : Laid lo hi a
  maxFast : a.maxFast = request2size defaultMxfast
  fast : FastIn a.pending a.chunks
  flag : a.fastchunks = false → a.pending = []

/-- `malloc_consolidate` leaves no fast chunks, and all that is free at the end is the top. -/
structure Swept (lo hi : Nat) (a a' : Arena) : Prop where
  sound : Sound lo hi a'
  fastchunks : a'.fastchunks = false
  top : (chunksize a'.av.topHead).toNat = trailing ChunkUse.isInUse a.all
  topPad : a'.av.topPad = a.av.topPad

namespace Sound

variable {lo hi : Nat} {a : Arena}

theorem mallocConsolidate (h : Sound lo hi a) : Swept lo hi a a.mallocConsolidate := by
  have hinit : a.maxFast ≠ 0 := by
    rw [h.maxFast]
    decide
  let cleared : Arena := { a with
    fastchunks := false
    fastbins := fun i => if i ≤ fastbinIndex a.maxFast then [] else a.fastbins i }
  have hspec : Consolidates lo hi [] cleared (a.pending.foldl Arena.consolidateFast cleared) :=
    foldl_consolidateFast (h.laid.congr rfl) h.fast
  have heq : a.mallocConsolidate = a.pending.foldl Arena.consolidateFast cleared := if_pos hinit
  rw [← heq] at hspec
  have hpending : a.mallocConsolidate.pending = [] := by
    rw [Arena.pending, hspec.settings.maxFast, hspec.settings.fastbins]
    simp only [cleared, List.flatMap_eq_nil_iff, List.mem_range]
    exact fun i hi => if_pos (by omega)
  refine ⟨⟨hspec.laid, hspec.settings.maxFast.trans h.maxFast, ?_, fun _ => hpending⟩,
    hspec.settings.fastchunks, ?_, hspec.settings.topPad⟩
  · rw [hpending]
    exact hspec.fast
  · rw [← hspec.laid.trailing_eq_top hspec.fast, hspec.trailing]
    rfl

/-- An arena whose chunks are changed, but not the fast ones, the fastbins and the flags. -/
theorem of_laid (h : Sound lo hi a) {lo' hi' : Nat} {chunks : List Chunk} {av : MallocState}
    (hlaid : Laid lo' hi' { a with chunks := chunks, av := av })
    (hfast : FastIn a.pending chunks) : Sound lo' hi' { a with chunks := chunks, av := av } :=
  ⟨hlaid, h.maxFast, hfast, h.flag⟩

end Sound

/-! ## The chunks that `malloc` hands out -/

/-- The fastbins for sizes up to `max_fast` are those that `malloc_consolidate` looks at. -/
theorem fastbinIndex_le {sz maxFast : Word} (hmax : maxFast = request2size defaultMxfast)
    (hmin : 16 ≤ sz.toNat) (hle : sz ≤ maxFast) :
    fastbinIndex sz ∈ List.range (fastbinIndex maxFast + 1) := by
  subst hmax
  have hmaxval : (request2size defaultMxfast).toNat = 80 := by decide
  have hindex : fastbinIndex (request2size defaultMxfast) = 8 := by decide
  rw [BitVec.le_def, hmaxval] at hle
  rw [List.mem_range, hindex]
  unfold fastbinIndex
  rw [BitVec.toNat_sub, BitVec.toNat_ushiftRight, BitVec.toNat_setWidth]
  have htwo : (2 : BitVec 32).toNat = 2 := rfl
  rw [Nat.shiftRight_eq_div_pow]
  omega

namespace Laid

variable {lo hi m : Nat} {a a' : Arena} {before after : List Chunk} {c : Chunk} {t : ChunkUse}

/-- A chunk that is taken as a whole, or is freed into a fastbin. -/
theorem retag (h : Laid lo hi a) (hc : a.all = before ++ c :: after)
    (ht : t.isBinned = false) (hall : a'.all = before ++ { c with tag := t } :: after) :
    Laid lo hi a' := by
  have htiles := h.tiles
  have hsep := h.separated
  have hsizes := h.sizes
  rw [hc] at htiles hsep hsizes
  refine ⟨h.lo_pos, h.hi_le, hall ▸ tiles_retag t htiles, hall ▸ separated_retag ht hsep, ?_⟩
  rw [hall]
  intro u hu
  simp only [List.mem_append, List.mem_cons] at hu
  rcases hu with hu | rfl | hu
  · exact hsizes u (by simp [hu])
  · exact hsizes c (by simp)
  · exact hsizes u (by simp [hu])

theorem cut (h : Laid lo hi a) (hc : a.all = before ++ c :: after) (htag : c.tag = .binned)
    (hm : 0 < m ∧ m % 16 = 0) (hlt : m < c.len)
    (hall : a'.all = before ++ ⟨c.start, m, .inUse⟩ :: ⟨c.start + m, c.len - m, .binned⟩ :: after) :
    Laid lo hi a' := by
  have htiles := h.tiles
  have hsep := h.separated
  have hsizes := h.sizes
  rw [hc] at htiles hsep hsizes
  refine ⟨h.lo_pos, h.hi_le, hall ▸ tiles_cut hlt.le htiles,
    hall ▸ htag ▸ separated_cut rfl hsep, ?_⟩
  rw [hall]
  intro u hu
  have hcsize := hsizes c (by simp)
  simp only [List.mem_append, List.mem_cons] at hu
  rcases hu with hu | rfl | rfl | hu
  · exact hsizes u (by simp [hu])
  · exact hm
  · simp only
    omega
  · exact hsizes u (by simp [hu])

end Laid

namespace Sound

variable {lo hi : Nat} {a a' : Arena} {nb mem : Word}

theorem popFastbin (h : Sound lo hi a) (hmin : 16 ≤ nb.toNat)
    (hres : a.popFastbin nb = some (mem, a')) : Sound lo hi a' := by
  unfold Arena.popFastbin at hres
  split_ifs at hres with hle
  rcases hbin : a.fastbins (fastbinIndex nb) with - | ⟨p, rest⟩
  · simp [hbin] at hres
  simp only [hbin] at hres
  obtain ⟨⟨before, c, after⟩, hfound, heq⟩ := Option.map_eq_some_iff.1 hres
  obtain ⟨-, rfl⟩ := Prod.mk.inj heq
  obtain ⟨hc, rfl⟩ := locate_eq_some hfound
  -- `c` is the chunk of the fastbin
  have hperm := flatMap_update_perm a.fastbins List.nodup_range
    (fastbinIndex_le h.maxFast hmin hle) c.start rest
  rw [← hbin, Function.update_eq_self] at hperm
  have hfast := h.fast.perm hperm
  obtain ⟨c', hmem', hstart, htag⟩ := (hfast.mem_iff c.start).1 (by simp)
  rw [hc] at hmem' hfast
  have hcc : c' = c := by
    by_contra hne
    exact h.laid.start_ne hc c' (by simpa [hne] using hmem') hstart
  rw [hcc] at htag
  rw [FastIn.cons_iff htag (h.laid.start_ne hc)] at hfast
  refine ⟨h.laid.retag (t := .inUse) (Laid.all_eq hc) rfl (by simp [Arena.all, Arena.topChunk]),
    h.maxFast,
    (FastIn.other_iff (by simp)).2 hfast, fun hflag => ?_⟩
  have hnone := h.flag hflag
  rw [Arena.pending] at hnone
  rw [hnone] at hperm
  exact absurd hperm.nil_eq (by simp)

theorem takeBinned (h : Sound lo hi a) (hnb : 0 < nb.toNat ∧ nb.toNat % 16 = 0) {p : Nat}
    {before after : List Chunk} {c : Chunk} (hfound : locate p a.chunks = some (before, c, after))
    (htag : c.tag = .binned) (hres : a.takeBinned nb p = some (mem, a')) : Sound lo hi a' := by
  obtain ⟨hc, -⟩ := locate_eq_some hfound
  have hfast := h.fast
  rw [hc, FastIn.other_iff (by simp [htag])] at hfast
  have hminsize : minsize.toNat = 32 := rfl
  rw [Arena.takeBinned, hfound] at hres
  simp only [Option.map_some, Option.some.injEq, Prod.mk.injEq] at hres
  obtain ⟨-, rfl⟩ := hres
  split_ifs with hsmall
  · refine h.of_laid (h.laid.retag (t := .inUse) (Laid.all_eq hc) rfl ?_) ?_
    · simp [Arena.all, Arena.topChunk]
    · exact (FastIn.other_iff (by simp)).2 hfast
  · refine h.of_laid (h.laid.cut (m := nb.toNat) (Laid.all_eq hc) htag hnb (by omega) ?_) ?_
    · simp [Arena.all, Arena.topChunk]
    · rw [FastIn.other_iff (by simp), FastIn.other_iff (by simp)]
      exact hfast

theorem splitTop (h : Sound lo hi a) (hnb : ChunkSize nb)
    (hres : a.splitTop nb = some (mem, a')) : Sound lo hi a' := by
  have htiles := h.laid.tiles
  have hle := h.laid.hi_le
  have htopsize := h.laid.sizes a.topChunk (by simp [Arena.all])
  rw [Arena.all, Tiles.append_iff] at htiles
  obtain ⟨mid, -, -, hstop⟩ := htiles
  simp only [Tiles.nil_iff, Seg.stop, Arena.topChunk] at hstop htopsize
  unfold Arena.splitTop at hres
  split_ifs at hres with hlarge
  simp only [Option.some.injEq, Prod.mk.injEq] at hres
  obtain ⟨-, rfl⟩ := hres
  have hsum : nb.toNat + 32 ≤ (chunksize a.av.topHead).toNat := by
    rw [BitVec.le_def, BitVec.toNat_add] at hlarge
    have hminsize : minsize.toNat = 32 := rfl
    have hwrap := hnb.fits
    omega
  have hmod := hnb.mod
  have hmin := hnb.min
  have htop : (a.av.top + nb).toNat = a.av.top.toNat + nb.toNat := by
    rw [BitVec.toNat_add]
    omega
  have hrest : (chunksize a.av.topHead - nb).toNat = (chunksize a.av.topHead).toNat - nb.toNat := by
    rw [BitVec.toNat_sub]
    omega
  have hhead : chunksize ((chunksize a.av.topHead - nb) ||| prevInuse) =
      chunksize a.av.topHead - nb := chunksize_set_head (by omega)
  have hall : a.all = a.chunks ++ a.topChunk :: [] := rfl
  have hlt : nb.toNat < a.topChunk.len := by
    simp only [Arena.topChunk]
    omega
  refine h.of_laid (h.laid.cut hall rfl (by omega) hlt ?_) ?_
  · simp [Arena.all, Arena.topChunk, hhead, htop, hrest]
  · rw [FastIn.other_iff (by simp)]
    simpa using h.fast

theorem useTop (h : Sound lo hi a) (hnb : ChunkSize nb) : Sound lo hi (a.useTop nb).2 := by
  unfold Arena.useTop
  rcases hres : a.splitTop nb with - | ⟨mem, a'⟩
  · exact h
  · exact h.splitTop hnb hres

theorem serve (h : Sound lo hi a) (hnb : ChunkSize nb) (bins : BinSearch) :
    Sound lo hi (a.serve bins nb).2 := by
  have hsize : 0 < nb.toNat ∧ nb.toNat % 16 = 0 := ⟨by have := hnb.min; omega, hnb.mod⟩
  have hinit : a.maxFast ≠ 0 := by
    rw [h.maxFast]
    decide
  unfold Arena.serve
  by_cases hany : a.anychunks = true
  swap
  · rw [if_pos hany, if_neg hinit]
    exact h.useTop hnb
  rw [if_neg (not_not.2 hany)]
  rcases hpop : a.popFastbin nb with - | ⟨mem, a₁⟩
  swap
  · exact h.popFastbin (by have := hnb.min; omega) hpop
  simp only
  rcases hsmall : (if nb < minLargeSize then (bins.small a nb).bind (a.takeBinned nb) else none)
    with - | ⟨mem, a₁⟩
  swap
  · split_ifs at hsmall
    obtain ⟨p, hp, htake⟩ := Option.bind_eq_some_iff.1 hsmall
    obtain ⟨before, c, after, hfound, htag, -⟩ := bins.small_fits a nb p hp
    exact h.takeBinned hsize hfound htag htake
  simp only
  obtain ⟨a₁, ha₁, h₁⟩ : ∃ a₁, (if ¬ nb < minLargeSize ∧ a.fastchunks = true then
      a.mallocConsolidate else a) = a₁ ∧ Sound lo hi a₁ := by
    refine ⟨_, rfl, ?_⟩
    split_ifs
    · exact h.mallocConsolidate.sound
    · exact h
  rw [ha₁]
  rcases hbest : (bins.best a₁ nb).bind (a₁.takeBinned nb) with - | ⟨mem, a₂⟩
  · exact h₁.useTop hnb
  · obtain ⟨p, hp, htake⟩ := Option.bind_eq_some_iff.1 hbest
    obtain ⟨before, c, after, hfound, htag, -⟩ := bins.best_fits a₁ nb p hp
    exact h₁.takeBinned hsize hfound htag htake

end Sound

end UnnamedKernel.Mm.Heap
