import UnnamedKernel.Mm.Heap.BestFit
import UnnamedKernel.Mm.Heap.Ledger
import UnnamedKernel.Mm.Heap.Lists

/-!
# The search with the bins refines the search that is left open

What `malloc` and `free` do with the bins is what they do with some search of the free chunks, as
long as the requests are small enough for the index of a bin. So all that holds of every such search
holds with the bins.
-/

namespace UnnamedKernel.Mm.Heap

open UnnamedKernel.Lib UnnamedKernel.Kernel Vma Vmm

/-- A search that comes to one chunk, if that fits. -/
def onlySearch (small best : Option Nat) : BinSearch where
  small a nb := small.filter fun p =>
    (locate p a.chunks).any fun x => decide (x.2.1.tag = .binned ∧ x.2.1.len = nb.toNat)
  best a nb := best.filter fun p =>
    (locate p a.chunks).any fun x => decide (x.2.1.tag = .binned ∧ nb.toNat ≤ x.2.1.len)
  small_fits a nb p h := by
    obtain ⟨-, hany⟩ := Option.filter_eq_some_iff.1 h
    obtain ⟨⟨before, c, after⟩, hfound, hfits⟩ := (Option.any_eq_true _ _).1 hany
    exact ⟨before, c, after, hfound, of_decide_eq_true hfits⟩
  best_fits a nb p h := by
    obtain ⟨-, hany⟩ := Option.filter_eq_some_iff.1 h
    obtain ⟨⟨before, c, after⟩, hfound, hfits⟩ := (Option.any_eq_true _ _).1 hany
    exact ⟨before, c, after, hfound, of_decide_eq_true hfits⟩

section OnlySearch

variable {a : Arena} {nb : Word} {p : Nat} {before after : List Chunk} {c : Chunk}

theorem onlySearch_small (hfound : locate p a.chunks = some (before, c, after))
    (htag : c.tag = .binned) (hlen : c.len = nb.toNat) (best : Option Nat) :
    (onlySearch (some p) best).small a nb = some p := by
  simp [onlySearch, Option.filter, hfound, htag, hlen]

theorem onlySearch_best (hfound : locate p a.chunks = some (before, c, after))
    (htag : c.tag = .binned) (hlen : nb.toNat ≤ c.len) (small : Option Nat) :
    (onlySearch small (some p)).best a nb = some p := by
  simp [onlySearch, Option.filter, hfound, htag, hlen]

end OnlySearch

/-! ## One call -/

/-- What comes of a call for `nb` bytes with the bins, and without them. -/
structure Serves (lo hi : Nat) (nb : Word) (a : BinnedArena) (x : Option Word × BinnedArena) :
    Prop where
  stocked : Stocked lo hi x.2
  some_search : ∃ search, a.arena.serve search nb = (x.1, x.2.arena)
  /-- where nothing fits, no search finds anything -/
  every_search : x.1 = none → ∀ search, a.arena.serve search nb = (none, x.2.arena)
  no_room : x.1 = none → x.2.arena.splitTop nb = none

namespace Stocked

variable {lo hi : Nat} {a : BinnedArena} {nb : Word}

theorem takeSmall (h : Stocked lo hi a) (hnb : ChunkSize nb) {victim : Chunk} {b : Bins}
    (hres : a.bins.takeSmall nb = some (victim, b)) :
    nb < minLargeSize ∧ victim.len = nb.toNat ∧ victim ∈ a.bins.all ∧ ∃ mem a',
      ({ a with bins := b } : BinnedArena).cut nb victim = some (mem, a') ∧
      a.arena.takeBinned nb victim.start = some (mem, a'.arena) ∧ Stocked lo hi a' := by
  unfold Bins.takeSmall at hres
  split_ifs at hres with hlow
  rcases hbin : a.bins.bin (smallbinIndex nb.toNat) with - | ⟨victim', bck⟩
  · simp [hbin] at hres
  simp only [hbin, Option.some.injEq, Prod.mk.injEq] at hres
  obtain ⟨rfl, rfl⟩ := hres
  have hmem : victim' ∈ a.bins.bin (smallbinIndex nb.toNat) := by
    rw [hbin]
    exact List.mem_cons_self ..
  have hsized := h.holds.ordered.sized _ _ hmem
  have hclass := h.holds.ordered.filed.classed _ _ hmem
  have hlen : victim'.len = nb.toNat := by
    refine eq_of_binIndex_eq hsized.lt hsized.mod hnb.mod hlow ?_
    rw [hclass, binIndex, if_pos (BitVec.lt_def.1 hlow)]
  obtain ⟨hordered, hperm⟩ := h.holds.ordered.pop hbin
  have hall := (hperm.append_left a.bins.unsorted).trans List.perm_middle
  exact ⟨hlow, hlen, hall.mem_iff.2 (List.mem_cons_self ..),
    h.cut hnb hordered hall (fun c hc => hc) (Or.inl hlen) hlen.ge⟩

/-- A search that is right about the chunks finds nothing, if the lists have nothing that fits. -/
theorem best_eq_none (h : Stocked lo hi a) (hnone : ∀ c ∈ a.bins.all, c.len < nb.toNat)
    (search : BinSearch) : search.best a.arena nb = none := by
  rcases hbest : search.best a.arena nb with - | p
  · rfl
  obtain ⟨before, c, after, hfound, htag, hlen⟩ := search.best_fits _ _ _ hbest
  obtain ⟨hc, -⟩ := locate_eq_some hfound
  have hmem : c ∈ a.bins.all := h.holds.perm.mem_iff.2 (mem_ofUse.2 ⟨by simp [hc], htag⟩)
  exact absurd (hnone c hmem) (Nat.not_lt.2 hlen)

theorem small_eq_none (h : Stocked lo hi a) (hnone : ∀ c ∈ a.bins.all, c.len ≠ nb.toNat)
    (search : BinSearch) : search.small a.arena nb = none := by
  rcases hsmall : search.small a.arena nb with - | p
  · rfl
  obtain ⟨before, c, after, hfound, htag, hlen⟩ := search.small_fits _ _ _ hsmall
  obtain ⟨hc, -⟩ := locate_eq_some hfound
  have hmem : c ∈ a.bins.all := h.holds.perm.mem_iff.2 (mem_ofUse.2 ⟨by simp [hc], htag⟩)
  exact absurd hlen (hnone c hmem)

theorem of_absent (h : Stocked lo hi a) {b : Bins} (hordered : Bins.Ordered b)
    (hunsorted : b.unsorted = []) (hperm : a.bins.all.Perm b.all) :
    Stocked lo hi { a with bins := b } := by
  refine ⟨h.sound, h.window, hordered, ?_, hperm.symm.trans h.holds.perm⟩
  rw [hunsorted]
  exact fun c hc => absurd hc List.not_mem_nil

theorem useTop_no_room (a : BinnedArena) (h : (a.useTop nb).1 = none) :
    (a.useTop nb).2.arena.splitTop nb = none := by
  unfold BinnedArena.useTop Arena.useTop at *
  rcases hres : a.arena.splitTop nb with - | ⟨mem, a'⟩
  · exact hres
  · rw [hres] at h
    exact absurd h (by simp)

theorem serve (h : Stocked lo hi a) (hnb : ChunkSize nb) (hlt : nb.toNat < 2 ^ 32) :
    ∃ x, a.serve nb = some x ∧ Serves lo hi nb a x := by
  have hinit : a.arena.maxFast ≠ 0 := by
    rw [h.sound.maxFast]
    decide
  unfold BinnedArena.serve
  by_cases hany : a.arena.anychunks = true
  swap
  · -- no chunk has been freed yet
    rw [if_pos hany, if_neg hinit]
    have hserve : ∀ search, a.arena.serve search nb = a.arena.useTop nb := fun search => by
      rw [Arena.serve, if_pos hany, if_neg hinit]
    refine ⟨_, rfl, h.useTop hnb, ⟨onlySearch none none, hserve _⟩, fun hnone search => ?_,
      useTop_no_room a⟩
    rw [hserve]
    exact Prod.ext hnone rfl
  rw [if_neg (not_not.2 hany)]
  rcases hpop : a.arena.popFastbin nb with - | ⟨mem, arena⟩
  swap
  · refine ⟨_, rfl, ⟨h.sound.popFastbin (by have := hnb.min; omega) hpop, h.window, ?_⟩,
      ⟨onlySearch none none, ?_⟩, by simp, by simp⟩
    · obtain ⟨before, c, after, rest, hc, htag, -, -, -, -, rfl⟩ :=
        h.sound.popFastbin_cases hnb hpop
      have hholds := h.holds
      rw [hc, ofUse_skip (by simp [htag])] at hholds
      simp only
      rw [ofUse_skip (by simp)]
      exact hholds
    · rw [Arena.serve, if_neg (not_not.2 hany), hpop]
  simp only
  rcases hsmall : a.bins.takeSmall nb with - | ⟨victim, b⟩
  swap
  · obtain ⟨hlow, hlen, hmem, mem, a', hcut, htake, hstocked⟩ := h.takeSmall hnb hsmall
    obtain ⟨before, after, -, htag, hfound⟩ := h.locate hmem
    refine ⟨(some mem, a'), by simp only [hcut, Option.map_some], hstocked,
      ⟨onlySearch (some victim.start) none, ?_⟩, by simp, by simp⟩
    rw [Arena.serve, if_neg (not_not.2 hany), hpop]
    simp only [if_pos hlow, onlySearch_small hfound htag hlen, Option.bind_some, htake]
  simp only
  -- large requests have the fastbins consolidated first
  obtain ⟨a₁, ha₁, harena, hstocked₁, hsame⟩ : ∃ a₁,
      (if ¬ nb < minLargeSize ∧ a.arena.fastchunks = true then a.mallocConsolidate else a) = a₁ ∧
      (if ¬ nb < minLargeSize ∧ a.arena.fastchunks = true then a.arena.mallocConsolidate
        else a.arena) = a₁.arena ∧ Stocked lo hi a₁ ∧ (nb < minLargeSize → a₁ = a) := by
    refine ⟨_, rfl, ?_⟩
    split_ifs with hlarge
    · obtain ⟨heq, hstocked⟩ := h.mallocConsolidate
      exact ⟨heq.symm, hstocked, fun hlow => absurd hlow hlarge.1⟩
    · exact ⟨rfl, h, fun _ => rfl⟩
  have hown : nb < minLargeSize → a₁.bins.bin (smallbinIndex nb.toNat) = [] := by
    intro hlow
    rw [hsame hlow]
    exact Bins.takeSmall_eq_none hsmall hlow
  have hspec := Bins.search_spec hstocked₁.listed hlt hnb.mod hown
  rw [ha₁]
  cases hres : a₁.bins.search nb with
  | mk o b =>
  rw [hres] at hspec
  cases hspec with
  | absent hordered hunsorted hperm hnone =>
      have hstocked' := hstocked₁.of_absent hordered hunsorted hperm
      have hserve : ∀ search, a.arena.serve search nb = a₁.arena.useTop nb := by
        intro search
        have hfirst : (if nb < minLargeSize then
            (search.small a.arena nb).bind (a.arena.takeBinned nb) else none) = none := by
          split_ifs with hlow
          · rw [hsame hlow] at hnone
            rw [h.small_eq_none (fun c hc => (hnone c hc).ne) search]
            rfl
          · rfl
        rw [Arena.serve, if_neg (not_not.2 hany), hpop]
        simp only [hfirst, harena, hstocked₁.best_eq_none hnone, Option.bind_none]
      refine ⟨_, rfl, hstocked'.useTop hnb, ⟨onlySearch none none, hserve _⟩,
        fun hnone search => ?_, useTop_no_room _⟩
      rw [hserve]
      exact Prod.ext hnone rfl
  | @found victim _ hordered hperm hfront hwhole hfits _ =>
      obtain ⟨mem, a', hcut, htake, hstocked'⟩ :=
        hstocked₁.cut hnb hordered hperm hfront hwhole hfits
      obtain ⟨before, after, -, htag, hfound⟩ :=
        hstocked₁.locate (hperm.mem_iff.2 (List.mem_cons_self ..))
      refine ⟨(some mem, a'), ?_, hstocked', ⟨onlySearch none (some victim.start), ?_⟩,
        by simp, by simp⟩
      · simp only [if_neg (Nat.not_lt.2 hfits), hcut, Option.map_some]
      · have hfirst : (if nb < minLargeSize then
            ((onlySearch none (some victim.start)).small a.arena nb).bind (a.arena.takeBinned nb)
            else none) = none := by
          simp [onlySearch]
        rw [Arena.serve, if_neg (not_not.2 hany), hpop]
        simp only [hfirst, harena, onlySearch_best hfound htag hfits, Option.bind_some, htake]

end Stocked

end UnnamedKernel.Mm.Heap
