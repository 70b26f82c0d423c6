import UnnamedKernel.Mm.Heap.BinIndex

/-!
# The search of the bins

The scan with the bitmap finds the next bin that is not empty, and the search as a whole finds a
chunk just if there is one that is large enough; it is a best fit unless it is the last remainder.
-/

namespace UnnamedKernel.Mm.Heap

open UnnamedKernel.Lib UnnamedKernel.Kernel

/-! ## The bitmap -/

section Bitmap

variable {map : BitVec 32} {i j : Nat}

theorem toNat_idx2bit (i : Nat) : (idx2bit i).toNat = 2 ^ (i % 32) := by
  have hlt : 2 ^ (i % 32) < 2 ^ 32 := Nat.pow_lt_pow_right (by decide) (Nat.mod_lt i (by decide))
  rw [idx2bit, BitVec.toNat_shiftLeft, Nat.shiftLeft_eq]
  show 1 * _ % _ = _
  rw [Nat.one_mul, Nat.mod_eq_of_lt hlt]

theorem getLsbD_idx2bit (i j : Nat) : (idx2bit i).getLsbD j = decide (i % 32 = j) := by
  rw [BitVec.getLsbD, toNat_idx2bit, Nat.testBit_two_pow]

theorem idx2bit_ne_zero (i : Nat) : idx2bit i ≠ 0 := by
  intro h
  have hpos := Nat.two_pow_pos (i % 32)
  rw [← toNat_idx2bit, h] at hpos
  exact Nat.lt_irrefl _ hpos

theorem idx2bit_and_eq_zero_iff : idx2bit i &&& map = 0 ↔ map.getLsbD (i % 32) = false := by
  constructor
  · intro h
    have hbit := congrArg (fun w : BitVec 32 => w.getLsbD (i % 32)) h
    simpa [getLsbD_idx2bit] using hbit
  · intro h
    apply BitVec.eq_of_getLsbD_eq
    intro j _
    rw [BitVec.getLsbD_and, getLsbD_idx2bit]
    by_cases hj : i % 32 = j
    · simp [← hj, h]
    · simp [hj]

theorem idx2bit_shift (i : Nat) : idx2bit i <<< 1 = if i % 32 = 31 then 0 else idx2bit (i + 1) := by
  apply BitVec.eq_of_toNat_eq
  rw [BitVec.toNat_shiftLeft, toNat_idx2bit, Nat.shiftLeft_eq, ← Nat.pow_add]
  split_ifs with h
  · rw [h]
    rfl
  · have hlt : 2 ^ (i % 32 + 1) < 2 ^ 32 := Nat.pow_lt_pow_right (by decide) (by omega)
    rw [toNat_idx2bit, Nat.mod_eq_of_lt hlt, show (i + 1) % 32 = i % 32 + 1 by omega]

theorem no_bits_of_lt (h : map < idx2bit i) (hj : i % 32 ≤ j) : map.getLsbD j = false := by
  rw [BitVec.lt_def, toNat_idx2bit] at h
  exact Nat.testBit_lt_two_pow (Nat.lt_of_lt_of_le h (Nat.pow_le_pow_right (by decide) hj))

theorem exists_bit_of_not_lt (h : ¬ map < idx2bit i) :
    ∃ j, i % 32 ≤ j ∧ j < 32 ∧ map.getLsbD j = true := by
  rw [BitVec.lt_def, toNat_idx2bit, Nat.not_lt] at h
  obtain ⟨j, hj, hbit⟩ := Nat.exists_ge_and_testBit_of_ge_two_pow h
  refine ⟨j, hj, ?_, hbit⟩
  by_contra hhigh
  have hlt : map.toNat < 2 ^ j :=
    Nat.lt_of_lt_of_le map.isLt (Nat.pow_le_pow_right (by decide) (Nat.le_of_not_lt hhigh))
  rw [Nat.testBit_lt_two_pow hlt] at hbit
  exact Bool.false_ne_true hbit

theorem advance_spec (fuel : Nat) {bin : Nat} (hj : bin % 32 ≤ j) (hlt : j < 32)
    (hbit : map.getLsbD j = true) (hfuel : j - bin % 32 < fuel) :
    ∃ bin', Bins.advance map fuel bin (idx2bit bin) = (bin', idx2bit bin') ∧ bin ≤ bin' ∧
      bin' / 32 = bin / 32 ∧ map.getLsbD (bin' % 32) = true ∧
      ∀ i, bin ≤ i → i < bin' → map.getLsbD (i % 32) = false := by
  induction fuel generalizing bin with
  | zero => omega
  | succ fuel ih =>
      rw [Bins.advance]
      by_cases hset : map.getLsbD (bin % 32) = true
      · rw [if_neg]
        · exact ⟨bin, rfl, Nat.le_refl _, rfl, hset, by omega⟩
        · rw [idx2bit_and_eq_zero_iff, hset]
          exact Bool.noConfusion
      · rw [Bool.not_eq_true] at hset
        have hne : bin % 32 ≠ j := by
          rintro rfl
          rw [hset] at hbit
          exact Bool.false_ne_true hbit
        rw [if_pos (idx2bit_and_eq_zero_iff.2 hset), idx2bit_shift, if_neg (by omega)]
        obtain ⟨bin', hres, hle, hblock, hbit', hclear⟩ :=
          @ih (bin + 1) (by omega) (by omega)
        refine ⟨bin', hres, by omega, by omega, hbit', fun i hi hlt => ?_⟩
        rcases Nat.eq_or_lt_of_le hi with rfl | hi
        · exact hset
        · exact hclear i hi hlt

end Bitmap

/-! ## The lists -/

/-- A size that a chunk can have, if the heap is smaller than 4 GiB. -/
structure Sized (c : Chunk) : Prop where
  min : 16 ≤ c.len
  mod : c.len % 16 = 0
  lt : c.len < 2 ^ 32

namespace Bins

/-- The chunks in the bins but for the unsorted ones. -/
def sorted (b : Bins) : List Chunk := (List.range nbins).flatMap b.bin

/-- All chunks in the lists. -/
def all (b : Bins) : List Chunk := b.unsorted ++ b.sorted

/-- The chunks in the bins are where they belong, and the bitmap misses no bin. -/
structure Ordered (b : Bins) : Prop where
  filed : Filed Seg.len binIndex b.bin
  sized : ∀ i, ∀ c ∈ b.bin i, Sized c
  mapped : ∀ i, b.bin i ≠ [] → (b.binmap (i / 32)).getLsbD (i % 32) = true
  /-- the trailing zero map -/
  trailing : b.binmap binmapSize = 0

theorem Ordered.within {b : Bins} (h : Ordered b) {i : Nat} (hi : nbins ≤ i) : b.bin i = [] := by
  refine List.eq_nil_iff_forall_not_mem.2 fun c hc => ?_
  have hclass := h.filed.classed i c hc
  have := binIndex_lt c.len
  omega

theorem Ordered.mem_sorted {b : Bins} (h : Ordered b) {c : Chunk} :
    c ∈ b.sorted ↔ ∃ i, c ∈ b.bin i := by
  rw [sorted, List.mem_flatMap]
  constructor
  · rintro ⟨i, -, hc⟩
    exact ⟨i, hc⟩
  · rintro ⟨i, hc⟩
    refine ⟨i, ?_, hc⟩
    rw [List.mem_range]
    by_contra hi
    rw [h.within (Nat.le_of_not_lt hi)] at hc
    exact List.not_mem_nil hc

theorem Ordered.pop {b : Bins} (h : Ordered b) {i : Nat} {victim : Chunk} {bck : List Chunk}
    (hbin : b.bin i = victim :: bck) :
    Ordered { b with bin := Function.update b.bin i bck } ∧
      b.sorted.Perm (victim :: ({ b with bin := Function.update b.bin i bck } : Bins).sorted) := by
  have hsub : ∀ j, (Function.update b.bin i bck j).Sublist (b.bin j) := by
    intro j
    by_cases hj : j = i
    · rw [hj, Function.update_self, hbin]
      exact List.sublist_cons_self ..
    · rw [Function.update_of_ne hj]
  refine ⟨⟨⟨fun j c hc => h.filed.classed j c ((hsub j).subset hc),
    fun j => (h.filed.sorted j).sublist (hsub j)⟩,
    fun j c hc => h.sized j c ((hsub j).subset hc), fun j hj => h.mapped j ?_, h.trailing⟩, ?_⟩
  · intro hnil
    exact hj (List.sublist_nil.1 (hnil ▸ hsub j))
  · have hi : i ∈ List.range nbins := by
      by_contra hout
      rw [List.mem_range, Nat.not_lt] at hout
      rw [h.within hout] at hbin
      exact List.cons_ne_nil _ _ hbin.symm
    have hperm := flatMap_update_perm b.bin List.nodup_range hi victim bck
    rw [← hbin, Function.update_eq_self] at hperm
    exact hperm

theorem Ordered.unmark {b : Bins} (h : Ordered b) {bin : Nat} (hbin : bin < nbins)
    (hempty : b.bin bin = []) :
    Ordered { b with
      binmap :=
        Function.update b.binmap (bin / 32) (b.binmap (bin / 32) &&& ~~~idx2bit bin) } := by
  have hsize : nbins = 32 * binmapSize := rfl
  refine ⟨h.filed, h.sized, fun i hi => ?_, ?_⟩
  swap
  · show Function.update _ _ _ _ = _
    rw [Function.update_of_ne (by omega)]
    exact h.trailing
  have hbit := h.mapped i hi
  have hne : i ≠ bin := by
    rintro rfl
    exact hi hempty
  by_cases hblock : i / 32 = bin / 32
  · have hother : bin % 32 ≠ i % 32 := by omega
    simp only [hblock, Function.update_self]
    rw [BitVec.getLsbD_and, ← hblock, hbit, BitVec.getLsbD_not, getLsbD_idx2bit,
      decide_eq_false hother]
    simp [Nat.mod_lt i (by decide : 0 < 32)]
  · simp only [Function.update_of_ne hblock]
    exact hbit

/-! ## The scan -/

theorem skipBlocks_spec (b : Bins) (block : Nat) :
    (b.skipBlocks block = none ∧
        ∀ i, block < i → i < binmapSize → b.binmap i = 0) ∨
      ∃ block', b.skipBlocks block = some block' ∧ block < block' ∧ block' < binmapSize ∧
        b.binmap block' ≠ 0 ∧ ∀ i, block < i → i < block' → b.binmap i = 0 := by
  have hrange : (List.range binmapSize).drop (block + 1) =
      List.range' (block + 1) (binmapSize - (block + 1)) := by
    rw [List.range_eq_range', List.drop_range', Nat.mul_one, Nat.zero_add]
  unfold skipBlocks
  rw [hrange]
  rcases hfind : (List.range' (block + 1) (binmapSize - (block + 1))).find?
    (fun i => decide (b.binmap i ≠ 0)) with - | block'
  · refine Or.inl ⟨rfl, fun i hlow hhigh => ?_⟩
    have := List.find?_eq_none.1 hfind i (List.mem_range'_1.2 ⟨hlow, by omega⟩)
    simpa using this
  · obtain ⟨hset, hmem, hclear⟩ := List.find?_range'_eq_some.1 hfind
    rw [List.mem_range'_1] at hmem
    refine Or.inr ⟨block', rfl, by omega, by omega, by simpa using hset, fun i hlow hhigh => ?_⟩
    have := hclear i hlow hhigh
    simpa using this

/-- Where the scan stands: at a bin, or behind the last one of a block. -/
structure Cursor (block bin : Nat) (bit : BitVec 32) : Prop where
  le : bin ≤ nbins
  at_bin : (bit = 0 ∧ bin = 32 * (block + 1)) ∨ (bin / 32 = block ∧ bit = idx2bit bin)

theorem bin_eq_nil_of_bit {b : Bins} (h : Ordered b) {i : Nat}
    (hbit : (b.binmap (i / 32)).getLsbD (i % 32) = false) : b.bin i = [] := by
  by_contra hne
  rw [h.mapped i hne] at hbit
  exact Bool.noConfusion hbit

theorem bin_eq_nil_of_block {b : Bins} (h : Ordered b) {i : Nat} (hblock : b.binmap (i / 32) = 0) :
    b.bin i = [] :=
  bin_eq_nil_of_bit h (by rw [hblock]; simp)

/-- The bin that the scan looks at next. -/
structure Next (b : Bins) (bin block' bin' : Nat) : Prop where
  le : bin ≤ bin'
  lt : bin' < nbins
  block : bin' / 32 = block'
  skipped : ∀ i, bin ≤ i → i < bin' → b.bin i = []

theorem next_here {b : Bins} (h : Ordered b) {bin : Nat} (hbin : bin < nbins)
    (hmore : ¬ b.binmap (bin / 32) < idx2bit bin) :
    ∃ bin', advance (b.binmap (bin / 32)) 32 bin (idx2bit bin) = (bin', idx2bit bin') ∧
      Next b bin (bin / 32) bin' := by
  obtain ⟨j, hj, hlt, hbit⟩ := exists_bit_of_not_lt hmore
  obtain ⟨bin', hres, hle, hblock, -, hclear⟩ := advance_spec 32 hj hlt hbit (by omega)
  refine ⟨bin', hres, hle, ?_, hblock, fun i hi hlt => bin_eq_nil_of_bit h ?_⟩
  · have hsize : nbins = 32 * 3 := rfl
    omega
  · rw [show i / 32 = bin / 32 by omega]
    exact hclear i hi hlt

theorem next_block {b : Bins} (h : Ordered b) (bin : Nat) {block' : Nat}
    (hsize : block' < binmapSize) (hset : b.binmap block' ≠ 0) (hle : bin ≤ 32 * block')
    (hskipped : ∀ i, bin ≤ i → i < 32 * block' → b.bin i = []) :
    ∃ bin', advance (b.binmap block') 32 (32 * block') 1 = (bin', idx2bit bin') ∧
      Next b bin block' bin' := by
  have hthree : binmapSize = 3 := rfl
  have hninety : nbins = 96 := rfl
  have hfirst : (1 : BitVec 32) = idx2bit (32 * block') := by
    apply BitVec.eq_of_toNat_eq
    rw [toNat_idx2bit, Nat.mul_mod_right]
    rfl
  have hdiv : 32 * block' / 32 = block' := Nat.mul_div_cancel_left _ (by decide)
  have hmore : ¬ b.binmap (32 * block' / 32) < idx2bit (32 * block') := by
    rw [hdiv, ← hfirst, BitVec.lt_def]
    intro hlt
    exact hset (BitVec.eq_of_toNat_eq (Nat.lt_one_iff.1 hlt))
  obtain ⟨bin', hres, hnext⟩ := next_here h (by omega) hmore
  rw [hdiv] at hres hnext
  rw [hfirst]
  refine ⟨bin', hres, hle.trans hnext.le, hnext.lt, hnext.block, fun i hi hlt => ?_⟩
  by_cases hlow : i < 32 * block'
  · exact hskipped i hi hlow
  · exact hnext.skipped i (Nat.le_of_not_lt hlow) hlt

/-- The scan looks at a bin with nothing in the bins before it, or is out of bins. -/
theorem Ordered.next {b : Bins} (h : Ordered b) {block bin : Nat} {bit : BitVec 32}
    (hat : Cursor block bin bit) :
    ((if b.binmap block < bit ∨ bit = 0 then
          (b.skipBlocks block).map fun block => (block, 32 * block, (1 : BitVec 32))
        else some (block, bin, bit)) = none ∧ ∀ i, bin ≤ i → b.bin i = []) ∨
      ∃ block' start bit' bin', (if b.binmap block < bit ∨ bit = 0 then
            (b.skipBlocks block).map fun block => (block, 32 * block, (1 : BitVec 32))
          else some (block, bin, bit)) = some (block', start, bit') ∧
        advance (b.binmap block') 32 start bit' = (bin', idx2bit bin') ∧
        Next b bin block' bin' := by
  have hsize : nbins = 32 * binmapSize := rfl
  by_cases hguard : b.binmap block < bit ∨ bit = 0
  swap
  · rw [if_neg hguard]
    obtain ⟨hmore, hne⟩ := not_or.1 hguard
    obtain ⟨rfl, rfl⟩ := hat.at_bin.resolve_left fun hzero => hne hzero.1
    have hbin : bin < nbins := by
      by_contra hout
      have hend : bin / 32 = binmapSize := by
        have := hat.le
        omega
      rw [hend, h.trailing, BitVec.lt_def, toNat_idx2bit] at hmore
      exact hmore (Nat.two_pow_pos _)
    obtain ⟨bin', hres, hnext⟩ := next_here h hbin hmore
    exact Or.inr ⟨_, _, _, bin', rfl, hres, hnext⟩
  rw [if_pos hguard]
  -- the rest of the block
  have hrest : ∀ i, bin ≤ i → i < 32 * (block + 1) → b.bin i = [] := by
    intro i hi hlt
    rcases hat.at_bin with ⟨-, rfl⟩ | ⟨rfl, rfl⟩
    · omega
    · refine bin_eq_nil_of_bit h ?_
      rw [show i / 32 = bin / 32 by omega]
      exact no_bits_of_lt (hguard.resolve_right (idx2bit_ne_zero bin)) (by omega)
  have hstart : bin ≤ 32 * (block + 1) := by
    rcases hat.at_bin with ⟨-, rfl⟩ | ⟨rfl, -⟩ <;> omega
  rcases skipBlocks_spec b block with
    ⟨hnone, hzero⟩ | ⟨block', hsome, hlow, hhigh, hset, hzero⟩
  · rw [hnone]
    refine Or.inl ⟨rfl, fun i hi => ?_⟩
    by_cases hhere : i < 32 * (block + 1)
    · exact hrest i hi hhere
    by_cases hout : nbins ≤ i
    · exact h.within hout
    · exact bin_eq_nil_of_block h (hzero _ (by omega) (by omega))
  · rw [hsome]
    obtain ⟨bin', hres, hnext⟩ := next_block h bin hhigh hset (by omega) fun i hi hlt => by
      by_cases hhere : i < 32 * (block + 1)
      · exact hrest i hi hhere
      · exact bin_eq_nil_of_block h (hzero _ (by omega) (by omega))
    exact Or.inr ⟨block', _, _, bin', rfl, hres, hnext⟩

/-- The scan finds the next bin that is not empty, and takes the chunk at its back. -/
theorem scanBins_spec {b : Bins} (h : Ordered b) (fuel : Nat) {block bin : Nat} {bit : BitVec 32}
    (hat : Cursor block bin bit) (hfuel : nbins < fuel + bin) :
    ∃ map, Ordered { b with binmap := map } ∧
      ((scanBins fuel block bin bit b = (none, { b with binmap := map }) ∧
          ∀ i, bin ≤ i → b.bin i = []) ∨
        ∃ j victim bck, scanBins fuel block bin bit b =
            (some victim, { b with binmap := map, bin := Function.update b.bin j bck }) ∧
          bin ≤ j ∧ b.bin j = victim :: bck ∧ ∀ i, bin ≤ i → i < j → b.bin i = []) := by
  induction fuel generalizing b block bin bit with
  | zero =>
      have := hat.le
      omega
  | succ fuel ih =>
      rw [scanBins]
      rcases h.next hat with ⟨hnone, hempty⟩ | ⟨block', start, bit', bin', hsome, hadvance, hnext⟩
      · rw [hnone]
        exact ⟨b.binmap, h, Or.inl ⟨rfl, hempty⟩⟩
      rw [hsome]
      simp only [hadvance]
      have hle := hnext.le
      have hlt := hnext.lt
      obtain rfl := hnext.block
      rcases hbin : b.bin bin' with - | ⟨victim, bck⟩
      swap
      · exact ⟨b.binmap, h, Or.inr ⟨bin', victim, bck, rfl, hle, hbin, hnext.skipped⟩⟩
      -- a false alarm
      have hclear := h.unmark hlt hbin
      have hcursor : Cursor (bin' / 32) (bin' + 1) (idx2bit bin' <<< 1) := by
        refine ⟨hlt, ?_⟩
        rw [idx2bit_shift]
        by_cases hend : bin' % 32 = 31
        · rw [if_pos hend]
          exact Or.inl ⟨rfl, by omega⟩
        · rw [if_neg hend]
          exact Or.inr ⟨by omega, rfl⟩
      have hskipped : ∀ {i}, bin ≤ i → ¬ bin' + 1 ≤ i → b.bin i = [] := by
        intro i hi hnot
        rcases Nat.eq_or_lt_of_le (Nat.le_of_lt_succ (Nat.lt_of_not_le hnot)) with rfl | hlt
        · exact hbin
        · exact hnext.skipped i hi hlt
      obtain ⟨map, hordered, hcases⟩ := ih hclear hcursor (by omega)
      refine ⟨map, hordered, hcases.imp ?_ ?_⟩
      · rintro ⟨hres, hempty⟩
        refine ⟨hres, fun i hi => ?_⟩
        by_cases hlater : bin' + 1 ≤ i
        · exact hempty i hlater
        · exact hskipped hi hlater
      · rintro ⟨j, victim, bck, hres, hj, hvictim, hempty⟩
        refine ⟨j, victim, bck, hres, by omega, hvictim, fun i hi hlt => ?_⟩
        by_cases hlater : bin' + 1 ≤ i
        · exact hempty i hlater hlt
        · exact hskipped hi hlater

/-! ## Sorting -/

section Insert

variable {c : Chunk} {l : List Chunk}

theorem head_lt_head {c d : Chunk} : c.head < d.head ↔ c.len < d.len :=
  Nat.add_lt_add_iff_right

theorem insertSorted_perm (c : Chunk) (l : List Chunk) : (insertSorted c l).Perm (c :: l) := by
  induction l with
  | nil => exact List.Perm.refl _
  | cons fwd rest ih =>
      rw [insertSorted]
      split_ifs
      · exact (ih.cons fwd).trans (List.Perm.swap ..)
      · exact List.Perm.refl _

theorem insertSorted_sorted (h : l.Pairwise fun x y => y.len ≤ x.len) :
    (insertSorted c l).Pairwise fun x y => y.len ≤ x.len := by
  induction l with
  | nil => exact List.pairwise_singleton ..
  | cons fwd rest ih =>
      obtain ⟨hfwd, hrest⟩ := List.pairwise_cons.1 h
      rw [insertSorted]
      split_ifs with hlt
      · rw [head_lt_head] at hlt
        refine List.pairwise_cons.2 ⟨fun d hd => ?_, ih hrest⟩
        rcases List.mem_cons.1 ((insertSorted_perm c rest).subset hd) with rfl | hd
        · exact Nat.le_of_lt hlt
        · exact hfwd d hd
      · rw [head_lt_head, Nat.not_lt] at hlt
        refine List.pairwise_cons.2 ⟨fun d hd => ?_, h⟩
        rcases List.mem_cons.1 hd with rfl | hd
        · exact hlt
        · exact (hfwd d hd).trans hlt

theorem insertLarge_perm (c : Chunk) (l : List Chunk) : (insertLarge c l).Perm (c :: l) := by
  rcases l with - | ⟨last, front⟩
  · exact List.Perm.refl _
  · rw [insertLarge]
    split_ifs
    · exact List.Perm.refl _
    · refine (List.reverse_perm _).trans ((insertSorted_perm c _).trans ?_)
      exact (List.reverse_perm _).cons c

theorem insertLarge_sorted (h : l.Pairwise fun x y => x.len ≤ y.len) :
    (insertLarge c l).Pairwise fun x y => x.len ≤ y.len := by
  rcases l with - | ⟨last, front⟩
  · exact List.pairwise_singleton ..
  · rw [insertLarge]
    split_ifs with hlt
    · have hle : c.len ≤ last.len := Nat.le_of_lt_succ hlt
      refine List.pairwise_cons.2 ⟨fun d hd => ?_, h⟩
      rcases List.mem_cons.1 hd with rfl | hd
      · exact hle
      · exact hle.trans ((List.pairwise_cons.1 h).1 d hd)
    · rw [List.pairwise_reverse]
      exact insertSorted_sorted (List.pairwise_reverse.2 h)

end Insert

theorem Ordered.place {b : Bins} (h : Ordered b) {c : Chunk} (hc : Sized c) :
    Ordered (b.place c) ∧ (b.place c).sorted.Perm (c :: b.sorted) := by
  have hsize : nbins = 32 * binmapSize := rfl
  have hlt := binIndex_lt c.len
  obtain ⟨new, hnew, hbin⟩ : ∃ new, (if c.len < minLargeSize.toNat then
      b.bin (binIndex c.len) ++ [c] else insertLarge c (b.bin (binIndex c.len))) = new ∧
      new.Perm (c :: b.bin (binIndex c.len)) ∧ new.Pairwise fun x y => x.len ≤ y.len := by
    refine ⟨_, rfl, ?_⟩
    split_ifs with hsmall
    · refine ⟨List.perm_append_singleton .., ?_⟩
      refine List.pairwise_append.2 ⟨h.filed.sorted _, List.pairwise_singleton .., ?_⟩
      intro d hd e he
      rw [List.mem_singleton.1 he]
      have hd' := h.sized _ d hd
      exact Nat.le_of_eq (eq_of_binIndex_eq hd'.lt hd'.mod hc.mod hsmall
        (h.filed.classed _ d hd))
    · exact ⟨insertLarge_perm .., insertLarge_sorted (h.filed.sorted _)⟩
  have hplace : b.place c = markBin { b with
      bin := Function.update b.bin (binIndex c.len) new } (binIndex c.len) := by
    rw [← hnew]
    rfl
  have hmem : ∀ i, ∀ d ∈ Function.update b.bin (binIndex c.len) new i,
      d ∈ b.bin i ∨ d = c ∧ i = binIndex c.len := by
    intro i d hd
    by_cases hi : i = binIndex c.len
    · rw [hi, Function.update_self] at hd
      rw [hi]
      exact (List.mem_cons.1 (hbin.1.subset hd)).elim (fun he => Or.inr ⟨he, rfl⟩) Or.inl
    · rw [Function.update_of_ne hi] at hd
      exact Or.inl hd
  rw [hplace]
  refine ⟨⟨⟨fun i d hd => ?_, fun i => ?_⟩, fun i d hd => ?_, fun i hi => ?_, ?_⟩, ?_⟩
  · rcases hmem i d hd with hd | ⟨rfl, rfl⟩
    · exact h.filed.classed i d hd
    · rfl
  · by_cases hi : i = binIndex c.len
    · simp only [markBin, hi, Function.update_self]
      exact hbin.2
    · simp only [markBin, Function.update_of_ne hi]
      exact h.filed.sorted i
  · rcases hmem i d hd with hd | ⟨rfl, -⟩
    · exact h.sized i d hd
    · exact hc
  · -- the bitmap
    by_cases hblock : i / 32 = binIndex c.len / 32
    · simp only [markBin, hblock, Function.update_self]
      rw [BitVec.getLsbD_or, getLsbD_idx2bit, Bool.or_eq_true]
      by_cases hbit : binIndex c.len % 32 = i % 32
      · exact Or.inr (decide_eq_true hbit)
      · have hne : i ≠ binIndex c.len := fun he => hbit (by rw [he])
        refine Or.inl ?_
        rw [← hblock]
        refine h.mapped i fun hnil => hi ?_
        simp only [markBin, Function.update_of_ne hne]
        exact hnil
    · have hne : i ≠ binIndex c.len := fun he => hblock (by rw [he])
      simp only [markBin, Function.update_of_ne hblock]
      refine h.mapped i fun hnil => hi ?_
      simp only [markBin, Function.update_of_ne hne]
      exact hnil
  · simp only [markBin]
    rw [Function.update_of_ne (by omega)]
    exact h.trailing
  · have hperm := flatMap_update_perm b.bin List.nodup_range (List.mem_range.2 hlt) c
      (b.bin (binIndex c.len))
    rw [Function.update_eq_self] at hperm
    refine List.Perm.trans ?_ hperm
    refine List.Perm.flatMap_left _ fun i _ => ?_
    by_cases hi : i = binIndex c.len
    · simp only [markBin, hi, Function.update_self]
      exact hbin.1
    · simp only [markBin, Function.update_of_ne hi]
      exact List.Perm.refl _

/-- What the loop over the unsorted chunks `u` ends with: all are in their bins, or one of them is
taken, which fits exactly or is the last remainder. -/
inductive Sorts (nb : Word) (u : List Chunk) (b : Bins) : Option Chunk × Bins → Prop
  | sorted {b'} (ordered : Ordered b') (unsorted : b'.unsorted = [])
      (perm : (u ++ b.sorted).Perm b'.sorted) (inexact : ∀ c ∈ u, c.len ≠ nb.toNat) :
      Sorts nb u b (none, b')
  | taken {victim b'} (ordered : Ordered b')
      (perm : (u ++ b.sorted).Perm (victim :: b'.all)) (front : ∀ c ∈ b'.unsorted, c ∈ u)
      (fits : victim.len = nb.toNat ∨ nb < minLargeSize ∧ b'.unsorted = [] ∧
        victim.start = b.lastRemainder ∧ (nb + minsize).toNat < victim.len ∧
        ∀ c ∈ u, c.len ≠ nb.toNat) :
      Sorts nb u b (some victim, b')

theorem sortUnsorted_spec {nb : Word} (hnb : nb.toNat + minsize.toNat < 2 ^ 64) {u : List Chunk}
    {b : Bins} (h : Ordered b) (hu : ∀ c ∈ u, Sized c) : Sorts nb u b (b.sortUnsorted nb u) := by
  induction u generalizing b with
  | nil => exact .sorted ⟨h.filed, h.sized, h.mapped, h.trailing⟩ rfl (.refl _) (by simp)
  | cons victim bck ih =>
      rw [sortUnsorted]
      split_ifs with hlast hexact
      · obtain ⟨hsmall, rfl, hremainder, hlarge⟩ := hlast
        refine .taken ⟨h.filed, h.sized, h.mapped, h.trailing⟩ (.refl _) (by simp)
          (Or.inr ⟨hsmall, rfl, hremainder, hlarge, fun c hc => ?_⟩)
        rw [List.mem_singleton.1 hc]
        rw [BitVec.toNat_add, Nat.mod_eq_of_lt hnb] at hlarge
        omega
      · exact .taken ⟨h.filed, h.sized, h.mapped, h.trailing⟩ (.refl _)
          (fun c hc => List.mem_cons_of_mem _ hc) (Or.inl hexact)
      · -- the chunk goes to its bin
        have hvictim := hu victim (List.mem_cons_self ..)
        obtain ⟨hplaced, hperm⟩ := h.place hvictim
        have hmove : (victim :: bck ++ b.sorted).Perm (bck ++ (b.place victim).sorted) := by
          refine List.perm_middle.symm.trans ?_
          exact hperm.symm.append_left bck
        have hrest := ih hplaced fun c hc => hu c (List.mem_cons_of_mem _ hc)
        cases hres : (b.place victim).sortUnsorted nb bck with
        | mk o b' =>
            rw [hres] at hrest
            cases hrest with
            | sorted hordered hunsorted hsorted hinexact =>
                refine .sorted hordered hunsorted (hmove.trans hsorted) fun c hc => ?_
                rcases List.mem_cons.1 hc with rfl | hc
                · exact hexact
                · exact hinexact c hc
            | taken hordered htaken hfront hfits =>
                refine .taken hordered (hmove.trans htaken)
                  (fun c hc => List.mem_cons_of_mem _ (hfront c hc)) (hfits.imp_right ?_)
                rintro ⟨hsmall, hnil, hremainder, hlarge, hinexact⟩
                refine ⟨hsmall, hnil, hremainder, hlarge, fun c hc => ?_⟩
                rcases List.mem_cons.1 hc with rfl | hc
                · exact hexact
                · exact hinexact c hc

/-! ## The search -/

theorem Ordered.unlink {b : Bins} (h : Ordered b) (hnodup : (b.all.map Seg.start).Nodup)
    {victim : Chunk} (hmem : victim ∈ b.all) :
    Ordered (b.unlink victim.start) ∧ b.all.Perm (victim :: (b.unlink victim.start).all) := by
  have hfilter : (b.unlink victim.start).all =
      b.all.filter fun c => decide (c.start ≠ victim.start) := by
    rw [all, sorted, all, sorted, List.filter_append, List.filter_flatMap]
    rfl
  have hsub : ∀ i, ((b.unlink victim.start).bin i).Sublist (b.bin i) := fun i =>
    List.filter_sublist
  refine ⟨⟨⟨fun i c hc => h.filed.classed i c ((hsub i).subset hc),
    fun i => (h.filed.sorted i).sublist (hsub i)⟩, fun i c hc => h.sized i c ((hsub i).subset hc),
    fun i hi => h.mapped i ?_, h.trailing⟩, ?_⟩
  · intro hnil
    exact hi (List.sublist_nil.1 (hnil ▸ hsub i))
  · rw [hfilter]
    exact perm_cons_filter hnodup hmem

/-- The bins are scanned from that of `nb` on. -/
inductive Scans (nb : Word) (b : Bins) : Option Chunk × Bins → Prop
  | own {victim} (large : ¬ nb < minLargeSize)
      (find : (b.bin (binIndex nb.toNat)).find? (fun c => decide (nb.toNat ≤ c.len)) =
        some victim) :
      Scans nb b (some victim, b.unlink victim.start)
  | above {j victim bck map}
      (passed : ¬ nb < minLargeSize → ∀ c ∈ b.bin (binIndex nb.toNat), c.len < nb.toNat)
      (ordered : Ordered { b with binmap := map }) (lt : binIndex nb.toNat < j)
      (bin : b.bin j = victim :: bck)
      (empty : ∀ i, binIndex nb.toNat < i → i < j → b.bin i = []) :
      Scans nb b (some victim, { b with binmap := map, bin := Function.update b.bin j bck })
  | absent {map}
      (passed : ¬ nb < minLargeSize → ∀ c ∈ b.bin (binIndex nb.toNat), c.len < nb.toNat)
      (ordered : Ordered { b with binmap := map })
      (empty : ∀ i, binIndex nb.toNat < i → b.bin i = []) :
      Scans nb b (none, { b with binmap := map })

theorem scan_spec {b : Bins} (h : Ordered b) (nb : Word) : Scans nb b (b.scan nb) := by
  unfold scan scanLarge
  have hcursor : Cursor ((binIndex nb.toNat + 1) / 32) (binIndex nb.toNat + 1)
      (idx2bit (binIndex nb.toNat + 1)) := ⟨binIndex_lt _, Or.inr ⟨rfl, rfl⟩⟩
  obtain ⟨map, hordered, hscan⟩ := scanBins_spec h (nbins + 1) hcursor (by omega)
  -- the scan of the bins above
  have habove : (¬ nb < minLargeSize → ∀ c ∈ b.bin (binIndex nb.toNat), c.len < nb.toNat) →
      Scans nb b (scanBins (nbins + 1) ((binIndex nb.toNat + 1) / 32) (binIndex nb.toNat + 1)
        (idx2bit (binIndex nb.toNat + 1)) b) := by
    intro hpassed
    rcases hscan with ⟨hres, hempty⟩ | ⟨j, victim, bck, hres, hj, hbin, hempty⟩
    · rw [hres]
      exact .absent hpassed hordered hempty
    · rw [hres]
      exact .above hpassed hordered hj hbin hempty
  by_cases hsmall : nb < minLargeSize
  · rw [if_pos hsmall]
    exact habove fun hlarge => absurd hsmall hlarge
  · rw [if_neg hsmall]
    rcases hfind : (b.bin (binIndex nb.toNat)).find? (fun c => decide (nb.toNat ≤ c.len)) with
      - | victim
    · rw [hfind]
      refine habove fun _ c hc => ?_
      have hnot := List.find?_eq_none.1 hfind c hc
      simpa using hnot
    · rw [hfind]
      exact .own hsmall hfind

/-- The search ends without a chunk, and there is none that is large enough; or it takes one, whole
or with all others in their bins. -/
inductive Searches (nb : Word) (b : Bins) : Option Chunk × Bins → Prop
  | absent {b'} (ordered : Ordered b') (unsorted : b'.unsorted = []) (perm : b.all.Perm b'.all)
      (none_fits : ∀ c ∈ b.all, c.len < nb.toNat) : Searches nb b (none, b')
  | found {victim b'} (ordered : Ordered b') (perm : b.all.Perm (victim :: b'.all))
      (front : ∀ c ∈ b'.unsorted, c ∈ b.unsorted)
      (whole : victim.len = nb.toNat ∨ b'.unsorted = []) (fits : nb.toNat ≤ victim.len)
      (best : (∀ c ∈ b.all, nb.toNat ≤ c.len → victim.len ≤ c.len) ∨
        nb < minLargeSize ∧ victim.start = b.lastRemainder ∧ ∀ c ∈ b.all, c.len ≠ nb.toNat) :
      Searches nb b (some victim, b')

/-- What the lists of `malloc_state` keep: the chunks in them have different addresses. -/
structure Listed (b : Bins) : Prop where
  ordered : Ordered b
  sized : ∀ c ∈ b.unsorted, Sized c
  nodup : (b.all.map Seg.start).Nodup

/-- A chunk in a bin does not fit a small request exactly, if the bin for that is empty. -/
theorem Ordered.len_ne_of_empty {b : Bins} {nb : Word} (h : Ordered b) (hlow : nb < minLargeSize)
    (hsmall : b.bin (smallbinIndex nb.toNat) = []) {c : Chunk} (hc : c ∈ b.sorted) :
    c.len ≠ nb.toNat := by
  rintro hlen
  obtain ⟨i, hi⟩ := h.mem_sorted.1 hc
  have hclass := h.filed.classed i c hi
  rw [hlen, binIndex, if_pos (BitVec.lt_def.1 hlow)] at hclass
  rw [← hclass, hsmall] at hi
  exact List.not_mem_nil hi

theorem Ordered.own_empty {b b₁ : Bins} {nb : Word} (h : Ordered b) (h₁ : Ordered b₁)
    (hmod : nb.toNat % 16 = 0) (hlow : nb < minLargeSize)
    (hsmall : b.bin (smallbinIndex nb.toNat) = []) (hperm : b.all.Perm b₁.sorted)
    (hinexact : ∀ c ∈ b.unsorted, c.len ≠ nb.toNat) : b₁.bin (binIndex nb.toNat) = [] := by
  refine List.eq_nil_iff_forall_not_mem.2 fun c hc => ?_
  have hc' := h₁.sized _ c hc
  have hlen : c.len = nb.toNat :=
    eq_of_binIndex_eq hc'.lt hc'.mod hmod hlow (h₁.filed.classed _ c hc)
  rcases List.mem_append.1 (hperm.mem_iff.2 (h₁.mem_sorted.2 ⟨_, hc⟩)) with hold | hold
  · exact hinexact c hold hlen
  · exact h.len_ne_of_empty hlow hsmall hold hlen

theorem search_spec {b : Bins} (h : Listed b) {nb : Word} (hnb : nb.toNat < 2 ^ 32)
    (hmod : nb.toNat % 16 = 0)
    (hsmall : nb < minLargeSize → b.bin (smallbinIndex nb.toNat) = []) :
    Searches nb b (b.search nb) := by
  have hpad : nb.toNat + minsize.toNat < 2 ^ 64 := by
    rw [show minsize.toNat = 32 from rfl]
    omega
  have hsort := sortUnsorted_spec hpad h.ordered h.sized
  unfold search
  cases hres : b.sortUnsorted nb b.unsorted with
  | mk o b₁ =>
  rw [hres] at hsort
  cases hsort with
  | @taken victim _ hordered hperm hfront hfits =>
      have hwhole : victim.len = nb.toNat ∨ b₁.unsorted = [] := by
        rcases hfits with hexact | ⟨-, hnil, -⟩
        · exact Or.inl hexact
        · exact Or.inr hnil
      rcases hfits with hexact | ⟨hlow, -, hremainder, hlarge, hinexact⟩
      · refine .found hordered hperm hfront hwhole (Nat.le_of_eq hexact.symm) (Or.inl ?_)
        rw [hexact]
        exact fun c _ hc => hc
      · rw [BitVec.toNat_add, Nat.mod_eq_of_lt hpad] at hlarge
        refine .found hordered hperm hfront hwhole (by omega) (Or.inr ⟨hlow, hremainder, ?_⟩)
        intro c hc hlen
        rcases List.mem_append.1 hc with hc | hc
        · exact hinexact c hc hlen
        · exact h.ordered.len_ne_of_empty hlow (hsmall hlow) hc hlen
  | sorted hordered hunsorted hperm hinexact =>
  have hsized : ∀ i, ∀ c ∈ b₁.bin i, c.len < 2 ^ 32 := fun i c hc => (hordered.sized i c hc).lt
  have hb₁ : b₁.all = b₁.sorted := by rw [all, hunsorted, List.nil_append]
  have hall : b.all.Perm b₁.all := by
    rw [hb₁]
    exact hperm
  have hmem : ∀ c, c ∈ b.all ↔ ∃ i, c ∈ b₁.bin i := fun c =>
    hperm.mem_iff.trans hordered.mem_sorted
  -- nothing in the bin of `nb` is passed over that is large enough
  have hpassed : (¬ nb < minLargeSize → ∀ c ∈ b₁.bin (binIndex nb.toNat), c.len < nb.toNat) →
      ∀ c ∈ b₁.bin (binIndex nb.toNat), c.len < nb.toNat := by
    intro hlarge
    by_cases hlow : nb < minLargeSize
    · rw [h.ordered.own_empty hordered hmod hlow (hsmall hlow) hperm hinexact]
      exact fun c hc => absurd hc List.not_mem_nil
    · exact hlarge hlow
  have hbest : ∀ victim, BestFit Seg.len b₁.bin nb.toNat victim →
      ∀ c ∈ b.all, nb.toNat ≤ c.len → victim.len ≤ c.len := by
    intro victim hbest c hc hfits
    obtain ⟨i, hi⟩ := (hmem c).1 hc
    exact hbest.2 i c hi hfits
  have hscan := scan_spec hordered nb
  show Searches nb b (b₁.scan nb)
  cases hres' : b₁.scan nb with
  | mk o b₂ =>
  rw [hres'] at hscan
  cases hscan with
  | @own victim hlarge hfind =>
      have hfit := hordered.filed.bestFit_of_find graded_binIndex hsized hfind
      have hvictim : victim ∈ b₁.all := by
        rw [hb₁]
        exact hordered.mem_sorted.2 ⟨_, List.mem_of_find?_eq_some hfind⟩
      obtain ⟨hordered', hperm'⟩ := hordered.unlink ((hall.map _).nodup h.nodup) hvictim
      have hnil : (b₁.unlink victim.start).unsorted = [] := by
        simp [Bins.unlink, hunsorted]
      refine .found hordered' (hall.trans hperm') ?_ (Or.inr hnil) hfit.1 (Or.inl (hbest _ hfit))
      rw [hnil]
      exact fun c hc => absurd hc List.not_mem_nil
  | @above j victim bck map hlarge hordered' hlt hbin hempty =>
      have hfit := hordered.filed.bestFit_of_next graded_binIndex hsized hnb (hpassed hlarge) hlt
        hbin hempty
      obtain ⟨hpopped, hperm'⟩ := hordered'.pop hbin
      refine .found hpopped (hperm.trans ?_) ?_ (Or.inr hunsorted) hfit.1 (Or.inl (hbest _ hfit))
      · rw [all]
        show b₁.sorted.Perm (victim :: (b₁.unsorted ++ _))
        rw [hunsorted]
        exact hperm'
      · show ∀ c ∈ b₁.unsorted, _
        rw [hunsorted]
        exact fun c hc => absurd hc List.not_mem_nil
  | @absent map hlarge hordered' hempty =>
      refine .absent hordered' hunsorted hall fun c hc => ?_
      obtain ⟨i, hi⟩ := (hmem c).1 hc
      exact hordered.filed.lt_of_none graded_binIndex hsized (hpassed hlarge) hempty i c hi

end Bins

end UnnamedKernel.Mm.Heap
