import UnnamedKernel.Mm.Heap.Chunks
import UnnamedKernel.Mm.Heap.Search

/-!
# Which chunk the search takes

Below 4 GiB the search takes a best fit, or the last remainder if that is advertised. The index of
a larger request is that of its low half, and then the search may take a chunk that is too small.
-/

namespace UnnamedKernel.Mm.Heap

open UnnamedKernel.Lib UnnamedKernel.Kernel

namespace Bins

variable {b : Bins} {nb : Word}

theorem takeSmall_eq_none (h : b.takeSmall nb = none) (hlow : nb < minLargeSize) :
    b.bin (smallbinIndex nb.toNat) = [] := by
  rw [takeSmall, if_pos hlow] at h
  rcases hbin : b.bin (smallbinIndex nb.toNat) with - | ⟨victim, bck⟩
  · rfl
  · simp [hbin] at h

/-- The search finds a chunk just if one is large enough, and takes a best fit or, where none fits
exactly, the last remainder. The other chunks stay in the lists. -/
theorem search_best_fit (h : Listed b) (hnb : nb.toNat < 2 ^ 32) (hmod : nb.toNat % 16 = 0)
    (hsmall : b.takeSmall nb = none) :
    ((b.search nb).1 = none ↔ ∀ c ∈ b.all, c.len < nb.toNat) ∧
      ∀ victim b', b.search nb = (some victim, b') →
        b.all.Perm (victim :: b'.all) ∧ nb.toNat ≤ victim.len ∧
        ((∀ c ∈ b.all, nb.toNat ≤ c.len → victim.len ≤ c.len) ∨
          nb < minLargeSize ∧ victim.start = b.lastRemainder ∧ ∀ c ∈ b.all, c.len ≠ nb.toNat) := by
  have hspec := search_spec h hnb hmod (takeSmall_eq_none hsmall)
  cases hres : b.search nb with
  | mk o b₁ =>
  rw [hres] at hspec
  cases hspec with
  | absent _ _ _ hnone => exact ⟨iff_of_true rfl hnone, by simp⟩
  | @found victim _ _ hperm _ _ hfits hbest =>
      refine ⟨iff_of_false (by simp) fun hall => ?_, fun victim' b' heq => ?_⟩
      · have := hall victim (hperm.mem_iff.2 (List.mem_cons_self ..))
        omega
      · obtain ⟨hv, rfl⟩ := Prod.mk.inj heq
        obtain rfl := Option.some.inj hv
        exact ⟨hperm, hfits, hbest⟩

/-- Three unsorted chunks, before anything has gone to a bin. -/
private def threeUnsorted : Bins :=
  { unsorted := [⟨0x1000, 2048, .binned⟩, ⟨0x3000, 512, .binned⟩, ⟨0x5000, 400, .binned⟩] }

private theorem listed_threeUnsorted : Listed threeUnsorted := by
  refine ⟨⟨⟨by simp [threeUnsorted], fun _ => List.Pairwise.nil⟩, by simp [threeUnsorted],
    by simp [threeUnsorted], rfl⟩, fun c hc => ?_, by decide⟩
  simp only [threeUnsorted, List.mem_cons, List.not_mem_nil, or_false] at hc
  rcases hc with rfl | rfl | rfl <;> exact ⟨by decide, by decide, by decide⟩

theorem search_best_fit_three_chunks :
    ((threeUnsorted.search 320).1 = none ↔ ∀ c ∈ threeUnsorted.all, c.len < (320 : Word).toNat) ∧
      ∀ victim b', threeUnsorted.search 320 = (some victim, b') →
        threeUnsorted.all.Perm (victim :: b'.all) ∧ (320 : Word).toNat ≤ victim.len ∧
        ((∀ c ∈ threeUnsorted.all, (320 : Word).toNat ≤ c.len → victim.len ≤ c.len) ∨
          (320 : Word) < minLargeSize ∧ victim.start = threeUnsorted.lastRemainder ∧
            ∀ c ∈ threeUnsorted.all, c.len ≠ (320 : Word).toNat) :=
  search_best_fit listed_threeUnsorted (by decide) (by decide) rfl

theorem Listed.len_lt (h : Listed b) {c : Chunk} (hc : c ∈ b.all) : c.len < 2 ^ 32 := by
  rcases List.mem_append.1 hc with hc | hc
  · exact (h.sized c hc).lt
  · obtain ⟨i, hi⟩ := h.ordered.mem_sorted.1 hc
    exact (h.ordered.sized i c hi).lt

/-- From 4 GiB on, the search takes the first chunk of a higher bin than that of the low half. -/
theorem search_large (h : Listed b) (hnb : ChunkSize nb) (hlarge : 2 ^ 32 ≤ nb.toNat) :
    ((b.search nb).1 = none ∧ ∀ c ∈ b.all, binIndex c.len ≤ binIndex nb.toNat) ∨
      ∃ victim b', b.search nb = (some victim, b') ∧ victim ∈ b.all ∧
        binIndex nb.toNat < binIndex victim.len := by
  have hhigh : ¬ nb < minLargeSize := by
    rw [BitVec.lt_def, show minLargeSize.toNat = 256 from rfl]
    omega
  have hpad : nb.toNat + minsize.toNat < 2 ^ 64 := hnb.fits
  have hsort := sortUnsorted_spec hpad h.ordered h.sized
  unfold search
  cases hres : b.sortUnsorted nb b.unsorted with
  | mk o b₁ =>
  rw [hres] at hsort
  cases hsort with
  | @taken victim _ _ hperm _ hfits =>
      have hlen := h.len_lt (hperm.mem_iff.2 (List.mem_cons_self ..))
      rcases hfits with hexact | ⟨hlow, -⟩
      · omega
      · exact absurd hlow hhigh
  | sorted hordered hunsorted hperm hinexact =>
  have hmem : ∀ c, c ∈ b.all ↔ ∃ i, c ∈ b₁.bin i := fun c =>
    hperm.mem_iff.trans hordered.mem_sorted
  have hscan := scan_spec hordered nb
  cases hres' : b₁.scan nb with
  | mk o b₂ =>
  rw [hres'] at hscan
  show ((b₁.scan nb).1 = none ∧ _) ∨ ∃ victim b', b₁.scan nb = _ ∧ _
  rw [hres']
  cases hscan with
  | @own victim _ hfind =>
      have hlen := h.len_lt ((hmem victim).2 ⟨_, List.mem_of_find?_eq_some hfind⟩)
      have hfits := List.find?_some hfind
      simp only [decide_eq_true_eq] at hfits
      omega
  | @above j victim bck map _ _ hlt hbin _ =>
      have hin : victim ∈ b₁.bin j := by
        rw [hbin]
        exact List.mem_cons_self ..
      refine Or.inr ⟨victim, _, rfl, (hmem victim).2 ⟨j, hin⟩, ?_⟩
      rw [hordered.filed.classed j victim hin]
      exact hlt
  | absent _ _ hempty =>
      refine Or.inl ⟨rfl, fun c hc => ?_⟩
      obtain ⟨i, hi⟩ := (hmem c).1 hc
      rw [hordered.filed.classed i c hi]
      by_contra hgt
      rw [hempty i (Nat.lt_of_not_le hgt)] at hi
      exact List.not_mem_nil hi

/-- What the search takes is large enough for the request just if that is below 4 GiB or no chunk is
in a higher bin than its low half would be. -/
theorem search_fits_iff (h : Listed b) (hnb : ChunkSize nb) (hsmall : b.takeSmall nb = none) :
    (∀ victim b', b.search nb = (some victim, b') → nb.toNat ≤ victim.len) ↔
      nb.toNat < 2 ^ 32 ∨ ∀ c ∈ b.all, binIndex c.len ≤ binIndex nb.toNat := by
  by_cases hlt : nb.toNat < 2 ^ 32
  · have hspec := search_spec h hlt hnb.mod (takeSmall_eq_none hsmall)
    refine iff_of_true (fun victim b' hres => ?_) (Or.inl hlt)
    rw [hres] at hspec
    cases hspec with
    | found _ _ _ _ hfits _ => exact hfits
  · rcases search_large h hnb (Nat.le_of_not_lt hlt) with
      ⟨hnone, hall⟩ | ⟨victim, b', hres, hv, hbin⟩
    · refine iff_of_true (fun victim b' hres => ?_) (Or.inr hall)
      rw [hres] at hnone
      exact absurd hnone (by simp)
    · refine iff_of_false (fun hfits => ?_) (not_or.2 ⟨hlt, fun hall => ?_⟩)
      · have hlen := h.len_lt hv
        have := hfits victim b' hres
        omega
      · have := hall victim hv
        omega

/-- A request of 4 GiB and 320 bytes gets one of the chunks. -/
theorem search_fits_iff_three_chunks :
    ¬ ∀ victim b', threeUnsorted.search 0x100000140 = (some victim, b') →
      (0x100000140 : Word).toNat ≤ victim.len := by
  rw [search_fits_iff listed_threeUnsorted ⟨by decide, by decide, by decide⟩ rfl]
  decide

end Bins

end UnnamedKernel.Mm.Heap
