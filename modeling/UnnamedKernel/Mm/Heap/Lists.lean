import UnnamedKernel.Mm.Heap.Binned
import UnnamedKernel.Mm.Heap.Blocks
import UnnamedKernel.Mm.Heap.Search

/-!
# The lists hold the free chunks

Every path of `malloc` and `free` keeps the lists and the chunks together: what is unsorted or in a
bin is just what is free and in no fastbin. So the search with the bins is one that the chunks allow
for.
-/

namespace UnnamedKernel.Mm.Heap

open UnnamedKernel.Lib UnnamedKernel.Kernel Vma Vmm

/-- The lists hold just the chunks of `L`. -/
structure Holds (b : Bins) (L : List Chunk) : Prop where
  ordered : Bins.Ordered b
  sized : ∀ c ∈ b.unsorted, Sized c
  perm : b.all.Perm L

section Holds

variable {b : Bins} {L L' : List Chunk} {c : Chunk}

theorem Holds.of_perm (h : Holds b L) (hperm : L.Perm L') : Holds b L' :=
  ⟨h.ordered, h.sized, h.perm.trans hperm⟩

theorem Holds.listed (h : Holds b L) (hnodup : (L.map Seg.start).Nodup) : Bins.Listed b :=
  ⟨h.ordered, h.sized, (h.perm.map _).nodup_iff.2 hnodup⟩

theorem Holds.unlink (h : Holds b (c :: L)) (hnodup : ((c :: L).map Seg.start).Nodup) :
    Holds (b.unlink c.start) L := by
  have hlisted := h.listed hnodup
  obtain ⟨hordered, hperm⟩ := h.ordered.unlink hlisted.nodup
    (h.perm.mem_iff.2 (List.mem_cons_self ..))
  exact ⟨hordered, fun d hd => h.sized d (List.mem_of_mem_filter hd),
    (List.perm_cons c).1 (hperm.symm.trans h.perm)⟩

theorem Holds.putUnsorted (h : Holds b L) (hc : Sized c) : Holds (b.putUnsorted c) (c :: L) := by
  refine ⟨⟨h.ordered.filed, h.ordered.sized, h.ordered.mapped, h.ordered.trailing⟩,
    fun d hd => ?_, ?_⟩
  · rcases List.mem_append.1 hd with hd | hd
    · exact h.sized d hd
    · rw [List.mem_singleton.1 hd]
      exact hc
  · show ((b.unsorted ++ [c]) ++ b.sorted).Perm (c :: L)
    rw [List.append_assoc]
    exact List.perm_middle.trans (h.perm.cons c)

/-- What is left of a chunk may stand for all unsorted ones, when there are none. -/
theorem Holds.putRemainder (h : Holds b L) (hnone : b.unsorted = []) (hc : Sized c) (nb : Word) :
    Holds (b.putRemainder nb c) (c :: L) := by
  refine ⟨⟨h.ordered.filed, h.ordered.sized, h.ordered.mapped, h.ordered.trailing⟩,
    fun d hd => ?_, ?_⟩
  · rw [List.mem_singleton.1 hd]
    exact hc
  · have hperm := h.perm
    rw [Bins.all, hnone] at hperm
    exact hperm.cons c

end Holds

/-! ## Consolidation -/

section Consolidate

variable {lo hi : Nat} {a : Arena} {b : Bins} {L : List Chunk} {before after : List Chunk}
  {c : Chunk}

theorem Laid.nodup_start (h : Laid lo hi a) (use : ChunkUse) :
    ((ofUse use a.chunks).map Seg.start).Nodup := by
  have hnodup := h.nodup_mem use
  have heq : (ofUse use a.chunks).map Chunk.mem =
      ((ofUse use a.chunks).map Seg.start).map fun p => chunk2mem (BitVec.ofNat 64 p) := by
    rw [List.map_map]
    rfl
  rw [heq] at hnodup
  exact hnodup.of_map

theorem Laid.sized (h : Laid lo hi a) (hwindow : hi < lo + 2 ^ 32) (hc : c ∈ a.chunks) :
    Sized c := by
  have hsize := h.sizes c (by simp [Arena.all, hc])
  obtain ⟨-, hlow, hhigh, hmin⟩ := h.toNat_mem hc
  exact ⟨hmin, hsize.2, by omega⟩

theorem unlinkFree_eq (h : ∀ p ∈ before.getLast?, ChunkUse.isBinned p.tag = false) :
    BinnedArena.unlinkFree before.getLast? b = b := by
  unfold BinnedArena.unlinkFree
  cases hlast : before.getLast? with
  | none => rfl
  | some p =>
      simp only [h p hlast]
      rfl

theorem Holds.unlinkBefore (h : Holds b (ofUse .binned before ++ L))
    (hnodup : ((ofUse .binned before ++ L).map Seg.start).Nodup) (c : Chunk) :
    Holds (BinnedArena.unlinkFree before.getLast? b)
      (ofUse .binned (joinBefore ChunkUse.isBinned before c).1 ++ L) := by
  rcases joinBefore_cases ChunkUse.isBinned before c with ⟨heq, hedge⟩ | ⟨front, p, rfl, hp, heq⟩
  · rw [heq, unlinkFree_eq hedge]
    exact h
  · have htag : p.tag = .binned := of_decide_eq_true hp
    have hlist : ofUse .binned (front ++ [p]) ++ L = ofUse .binned front ++ p :: L := by
      rw [ofUse_append, ofUse_cons_of_eq htag, ofUse_nil, List.append_assoc]
      rfl
    rw [hlist] at h hnodup
    rw [heq, List.getLast?_concat, BinnedArena.unlinkFree, if_pos hp]
    exact (h.of_perm List.perm_middle).unlink ((List.perm_middle.map _).nodup_iff.1 hnodup)

theorem Holds.unlinkAfter {next : Chunk} (h : Holds b (L ++ ofUse .binned (next :: after)))
    (hnodup : ((L ++ ofUse .binned (next :: after)).map Seg.start).Nodup) (c : Chunk) :
    Holds (BinnedArena.unlinkFree (some next) b)
      (L ++ ofUse .binned (joinAfter ChunkUse.isBinned c (next :: after)).2) := by
  rw [joinAfter]
  unfold BinnedArena.unlinkFree
  by_cases hn : ChunkUse.isBinned next.tag = true
  · have htag : next.tag = .binned := of_decide_eq_true hn
    rw [ofUse_cons_of_eq htag] at h hnodup
    simp only [hn, if_true]
    exact (h.of_perm List.perm_middle).unlink ((List.perm_middle.map _).nodup_iff.1 hnodup)
  · simp only [hn]
    exact h

/-- The chunk that is freed leaves its neighbours' lists in order and is in one itself. -/
theorem Laid.consolidate_holds (h : Laid lo hi a) (hwindow : hi < lo + 2 ^ 32)
    (hc : a.chunks = before ++ c :: after) (htag : c.tag ≠ .binned)
    (hb : Holds b (ofUse .binned a.chunks)) :
    Holds ((⟨a, b⟩ : BinnedArena).consolidate before c after).2.bins
      (ofUse .binned (a.consolidate before c after).2.chunks) := by
  have hnodup := h.nodup_start .binned
  have hlaid := h.consolidate_laid hc
  rw [hc, ofUse_skip htag, ofUse_append] at hb hnodup
  have hfront := hb.unlinkBefore hnodup c
  have hsub : ((ofUse .binned (joinBefore ChunkUse.isBinned before c).1 ++
      ofUse .binned after).map Seg.start).Nodup := by
    refine hnodup.sublist (List.Sublist.map _ (List.Sublist.append_right ?_ _))
    refine List.Sublist.filter _ ?_
    rcases joinBefore_cases ChunkUse.isBinned before c with ⟨heq, -⟩ | ⟨front, p, rfl, -, heq⟩
    · rw [heq]
    · rw [heq]
      exact List.sublist_append_left ..
  unfold BinnedArena.consolidate Arena.consolidate at *
  cases after with
  | nil =>
      simp only at *
      rw [ofUse_nil, List.append_nil] at hfront
      exact hfront
  | cons next after =>
      simp only at *
      have hrest := hfront.unlinkAfter hsub (joinBefore ChunkUse.isBinned before c).2
      refine (hrest.putUnsorted (hlaid.sized hwindow (by simp))).of_perm ?_
      rw [← ofUse_append]
      exact (ofUse_perm (by rfl) _ _).symm

theorem foldl_consolidateFast_holds {a : BinnedArena} {L : List Nat} (h : Laid lo hi a.arena)
    (hwindow : hi < lo + 2 ^ 32) (hfast : FastIn L a.arena.chunks)
    (hb : Holds a.bins (ofUse .binned a.arena.chunks)) :
    (L.foldl BinnedArena.consolidateFast a).arena = L.foldl Arena.consolidateFast a.arena ∧
      Holds (L.foldl BinnedArena.consolidateFast a).bins
        (ofUse .binned (L.foldl Arena.consolidateFast a.arena).chunks) := by
  induction L generalizing a with
  | nil => exact ⟨rfl, hb⟩
  | cons p L ih =>
      have hfirst := consolidateFast_spec h hfast
      obtain ⟨c, hmem, rfl, htag⟩ := (hfast.mem_iff p).1 (by simp)
      obtain ⟨before, after, hc⟩ := List.append_of_mem hmem
      have hstep : a.consolidateFast c.start = (a.consolidate before c after).2 := by
        unfold BinnedArena.consolidateFast
        rw [h.locate hc]
      have harena : (a.consolidateFast c.start).arena = a.arena.consolidateFast c.start := by
        rw [hstep]
        unfold Arena.consolidateFast BinnedArena.consolidate
        rw [h.locate hc]
        cases after <;> rfl
      have hbins : Holds (a.consolidateFast c.start).bins
          (ofUse .binned (a.consolidateFast c.start).arena.chunks) := by
        have hholds := h.consolidate_holds hwindow hc (by simp [htag]) hb
        rw [harena, hstep]
        unfold Arena.consolidateFast
        rw [h.locate hc]
        exact hholds
      rw [List.foldl_cons, List.foldl_cons, ← harena]
      rw [← harena] at hfirst
      exact ih hfirst.laid hfirst.fast hbins

end Consolidate

/-- An arena of less than 4 GiB, and the lists with its free chunks. -/
structure Stocked (lo hi : Nat) (a : BinnedArena) : Prop where
  sound : Sound lo hi a.arena
  window : hi < lo + 2 ^ 32
  holds : Holds a.bins (ofUse .binned a.arena.chunks)

namespace Stocked

variable {lo hi : Nat} {a : BinnedArena} {nb : Word}

theorem listed (h : Stocked lo hi a) : Bins.Listed a.bins :=
  h.holds.listed (h.sound.laid.nodup_start _)

theorem mallocConsolidate (h : Stocked lo hi a) :
    a.mallocConsolidate.arena = a.arena.mallocConsolidate ∧
      Stocked lo hi a.mallocConsolidate := by
  have hinit : a.arena.maxFast ≠ 0 := by
    rw [h.sound.maxFast]
    decide
  obtain ⟨harena, hholds⟩ := foldl_consolidateFast_holds
    (a := { a with
      arena := { a.arena with
        fastchunks := false
        fastbins := fun i =>
          if i ≤ fastbinIndex a.arena.maxFast then [] else a.arena.fastbins i } })
    (h.sound.laid.congr rfl) h.window h.sound.fast h.holds
  have heq : a.mallocConsolidate.arena = a.arena.mallocConsolidate := by
    unfold BinnedArena.mallocConsolidate Arena.mallocConsolidate
    rw [if_pos hinit, if_pos hinit]
    exact harena
  refine ⟨heq, heq ▸ h.sound.mallocConsolidate.sound, h.window, ?_⟩
  rw [heq]
  unfold BinnedArena.mallocConsolidate Arena.mallocConsolidate
  rw [if_pos hinit, if_pos hinit]
  exact hholds

/-! ## Taking a chunk -/

theorem locate (h : Stocked lo hi a) {c : Chunk} (hc : c ∈ a.bins.all) :
    ∃ before after, a.arena.chunks = before ++ c :: after ∧ c.tag = .binned ∧
      Lib.locate c.start a.arena.chunks = some (before, c, after) := by
  obtain ⟨hmem, htag⟩ := mem_ofUse.1 (h.holds.perm.mem_iff.1 hc)
  obtain ⟨before, after, heq⟩ := List.append_of_mem hmem
  exact ⟨before, after, heq, htag, h.sound.laid.locate heq⟩

/-- The chunk that has been taken off the lists is cut; what is left of it is unsorted. -/
theorem cut (h : Stocked lo hi a) (hnb : ChunkSize nb) {victim : Chunk} {b : Bins}
    (hordered : Bins.Ordered b) (hperm : a.bins.all.Perm (victim :: b.all))
    (hfront : ∀ c ∈ b.unsorted, c ∈ a.bins.unsorted)
    (hwhole : victim.len = nb.toNat ∨ b.unsorted = []) (hfits : nb.toNat ≤ victim.len) :
    ∃ mem a', ({ a with bins := b } : BinnedArena).cut nb victim = some (mem, a') ∧
      a.arena.takeBinned nb victim.start = some (mem, a'.arena) ∧ Stocked lo hi a' := by
  have hsize : 0 < nb.toNat ∧ nb.toNat % 16 = 0 := ⟨by have := hnb.min; omega, hnb.mod⟩
  have hmin : minsize.toNat = 32 := rfl
  obtain ⟨before, after, hc, htag, hfound⟩ := h.locate (hperm.mem_iff.2 (List.mem_cons_self ..))
  have hvictim := h.sound.laid.sized h.window (c := victim) (by simp [hc])
  obtain ⟨⟨mem, arena⟩, htake⟩ : ∃ x, a.arena.takeBinned nb victim.start = some x :=
    ⟨_, by rw [Arena.takeBinned, hfound]; rfl⟩
  have hsound := h.sound.takeBinned hsize hfound htag htake
  have hholds : Holds b (ofUse .binned (before ++ after)) := by
    refine ⟨hordered, fun c hc => h.holds.sized c (hfront c hc), ?_⟩
    have hold := hperm.symm.trans h.holds.perm
    rw [hc] at hold
    exact (List.perm_cons victim).1 (hold.trans (ofUse_perm htag ..))
  refine ⟨mem, ⟨arena, if victim.len - nb.toNat < minsize.toNat then b
    else b.putRemainder nb ⟨victim.start + nb.toNat, victim.len - nb.toNat, .binned⟩⟩, ?_, htake,
    hsound, h.window, ?_⟩
  · unfold BinnedArena.cut
    rw [htake]
    rfl
  rw [Arena.takeBinned, hfound] at htake
  simp only [Option.map_some, Option.some.injEq, Prod.mk.injEq] at htake
  obtain ⟨-, rfl⟩ := htake
  split_ifs with hsmall
  · simp only
    rw [ofUse_skip (by simp)]
    exact hholds
  · -- something is left, and so no other chunk is unsorted
    have hnone := hwhole.resolve_left fun hexact => by omega
    have hsized : Sized ⟨victim.start + nb.toNat, victim.len - nb.toNat, .binned⟩ := by
      have hlt := hvictim.lt
      have hmod := hvictim.mod
      exact ⟨by simp only; omega, by simp only; omega, by simp only; omega⟩
    simp only
    rw [ofUse_skip (by simp)]
    exact (hholds.putRemainder hnone hsized nb).of_perm (ofUse_perm (by rfl) ..).symm

theorem useTop (h : Stocked lo hi a) (hnb : ChunkSize nb) : Stocked lo hi (a.useTop nb).2 := by
  refine ⟨h.sound.useTop hnb, h.window, ?_⟩
  unfold BinnedArena.useTop Arena.useTop
  rcases hres : a.arena.splitTop nb with - | ⟨mem, a'⟩
  · exact h.holds
  · unfold Arena.splitTop at hres
    split_ifs at hres
    simp only [Option.some.injEq, Prod.mk.injEq] at hres
    obtain ⟨-, rfl⟩ := hres
    simp only
    rw [ofUse_skip (by simp), List.append_nil]
    exact h.holds

end Stocked

end UnnamedKernel.Mm.Heap
