import UnnamedKernel.Mm.Heap.Bins

/-!
# The index of a bin

The search for the highest bit finds the binary logarithm, and so the bins are four for each power
of two from 256 on. The index grows with the size as long as the size is an `unsigned int`.
-/

namespace UnnamedKernel.Mm.Heap

open UnnamedKernel.Lib UnnamedKernel.Kernel

section HighestBit

variable {x t b : BitVec 32}

theorem compare_and (hx : x.toNat < 2 ^ 16) (ht : t.toNat ≤ 2 ^ 16) (hb : b.toNat < 2 ^ 16) :
    ((x - t) >>> 16) &&& b = if x.toNat < t.toNat then b else 0 := by
  apply BitVec.eq_of_toNat_eq
  rw [BitVec.toNat_and, BitVec.toNat_ushiftRight, Nat.shiftRight_eq_div_pow, BitVec.toNat_sub]
  split_ifs with hlow
  · have hones : (2 ^ 32 - t.toNat + x.toNat) % 2 ^ 32 / 2 ^ 16 = 2 ^ 16 - 1 := by omega
    rw [hones, Nat.and_comm, Nat.and_two_pow_sub_one_eq_mod, Nat.mod_eq_of_lt hb]
  · have hzero : (2 ^ 32 - t.toNat + x.toNat) % 2 ^ 32 / 2 ^ 16 = 0 := by omega
    rw [hzero, Nat.zero_and]
    rfl

/-- One step of the search: below `2 ^ (16 - s)` the value is shifted left by `s`. -/
theorem normalize_step {s : Nat} (hs : s = 8 ∨ s = 4 ∨ s = 2) (hx : x.toNat < 2 ^ 16)
    (hlow : 2 ^ (16 - 2 * s) ≤ x.toNat) (ht : t.toNat = 2 ^ (16 - s)) (hb : b.toNat = s) :
    ∃ m : BitVec 32, ((x - t) >>> 16) &&& b = m ∧ m.toNat ≤ s ∧
      (x <<< m).toNat = x.toNat * 2 ^ m.toNat ∧ (x <<< m).toNat < 2 ^ 16 ∧
      2 ^ (16 - s) ≤ (x <<< m).toNat := by
  have hcompare : ((x - t) >>> 16) &&& b = if x.toNat < t.toNat then b else 0 :=
    compare_and hx (by rcases hs with rfl | rfl | rfl <;> omega)
      (by rcases hs with rfl | rfl | rfl <;> omega)
  refine ⟨_, hcompare, ?_⟩
  rw [ht]
  split_ifs with hsmall
  · have hshift : (x <<< b).toNat = x.toNat * 2 ^ s := by
      rw [BitVec.shiftLeft_eq', BitVec.toNat_shiftLeft, hb, Nat.shiftLeft_eq, Nat.mod_eq_of_lt]
      rcases hs with rfl | rfl | rfl <;> omega
    rw [hshift, hb]
    rcases hs with rfl | rfl | rfl <;> omega
  · have hsame : x <<< (0 : BitVec 32) = x := by simp
    rw [hsame]
    refine ⟨Nat.zero_le _, by simp, hx, Nat.le_of_not_lt hsmall⟩

/-- The leading two bits of a normalised value tell its logarithm. -/
theorem top_bits (hlow : 2 ^ 14 ≤ x.toNat) (hx : x.toNat < 2 ^ 16) :
    (x >>> 14 &&& ~~~(x >>> 14 >>> 1)).toNat + 13 = x.toNat.log2 := by
  have hq : (x >>> 14).toNat = x.toNat / 2 ^ 14 := by
    rw [BitVec.toNat_ushiftRight, Nat.shiftRight_eq_div_pow]
  have hcases : x >>> 14 = 1 ∨ x >>> 14 = 2 ∨ x >>> 14 = 3 := by
    have hone : (x >>> 14).toNat = 1 ∨ (x >>> 14).toNat = 2 ∨ (x >>> 14).toNat = 3 := by omega
    exact hone.imp BitVec.eq_of_toNat_eq (Or.imp BitVec.eq_of_toNat_eq BitVec.eq_of_toNat_eq)
  have hne : x.toNat ≠ 0 := by omega
  rcases hcases with h | h | h <;> rw [h] at hq ⊢
  · rw [show x.toNat.log2 = 14 from (Nat.log2_eq_iff hne).2 (by simp at hq; omega)]
    decide
  · rw [show x.toNat.log2 = 15 from (Nat.log2_eq_iff hne).2 (by simp at hq; omega)]
    decide
  · rw [show x.toNat.log2 = 15 from (Nat.log2_eq_iff hne).2 (by simp at hq; omega)]
    decide

end HighestBit

theorem log2_mul_two_pow {n : Nat} (hn : n ≠ 0) (k : Nat) : (n * 2 ^ k).log2 = n.log2 + k := by
  induction k with
  | zero => simp
  | succ k ih =>
      have hpos : n * 2 ^ k ≠ 0 := Nat.mul_ne_zero hn (Nat.two_pow_pos k).ne'
      rw [Nat.pow_succ, ← Nat.mul_assoc, Nat.mul_comm, Nat.log2_two_mul hpos, ih, Nat.add_assoc]

/-- `largebin_index` is the logarithm in quarters, up to the last bin. -/
theorem largebinIndex_eq {sz : BitVec 32} (hlow : 256 ≤ sz.toNat) (hsz : sz.toNat < 2 ^ 24) :
    largebinIndex sz = quarterLog sz.toNat - 4 := by
  have hx : (sz >>> 8).toNat = sz.toNat / 2 ^ 8 := by
    rw [BitVec.toNat_ushiftRight, Nat.shiftRight_eq_div_pow]
  have hguard : ¬ (0x10000 : BitVec 32) ≤ sz >>> 8 := by
    rw [BitVec.le_def, hx]
    show ¬ 65536 ≤ _
    omega
  unfold largebinIndex
  simp only [if_neg hguard]
  generalize hdef : sz >>> 8 = x at hx
  obtain ⟨m₁, hm₁, hle₁, hshift₁, hlt₁, hge₁⟩ := normalize_step (x := x) (t := 0x100) (b := 8)
    (s := 8) (by simp) (by omega) (by show 1 ≤ _; omega) (by decide) (by decide)
  rw [hm₁]
  obtain ⟨m₂, hm₂, hle₂, hshift₂, hlt₂, hge₂⟩ := normalize_step (x := x <<< m₁) (t := 0x1000)
    (b := 4) (s := 4) (by simp) hlt₁ hge₁ (by decide) (by decide)
  rw [hm₂]
  obtain ⟨m₃, hm₃, hle₃, hshift₃, hlt₃, hge₃⟩ := normalize_step (x := x <<< m₁ <<< m₂)
    (t := 0x4000) (b := 2) (s := 2) (by simp) hlt₂ hge₂ (by decide) (by decide)
  rw [hm₃]
  have htop := top_bits hge₃ hlt₃
  -- the shifts and the leading bits make up the logarithm
  have hne : x.toNat ≠ 0 := by omega
  have hshifts : x.toNat * 2 ^ m₁.toNat * 2 ^ m₂.toNat * 2 ^ m₃.toNat =
      x.toNat * 2 ^ (m₁.toNat + m₂.toNat + m₃.toNat) := by ring
  rw [hshift₃, hshift₂, hshift₁, hshifts, log2_mul_two_pow hne] at htop
  generalize x <<< m₁ <<< m₂ <<< m₃ >>> 14 &&& ~~~(x <<< m₁ <<< m₂ <<< m₃ >>> 14 >>> 1) = q at htop
  have hlog : x.toNat.log2 < 16 := (Nat.log2_lt hne).2 (by omega)
  have hm : (13 - (m₁ + m₂ + m₃) + q).toNat = x.toNat.log2 := by
    rw [BitVec.toNat_add, BitVec.toNat_sub, BitVec.toNat_add, BitVec.toNat_add,
      show (13 : BitVec 32).toNat = 13 from rfl]
    omega
  generalize 13 - (m₁ + m₂ + m₃) + q = m at hm
  have hsize : sz.toNat.log2 = x.toNat.log2 + 8 := by
    have hlow' := Nat.log2_self_le hne
    have hhigh : x.toNat < 2 ^ (x.toNat.log2 + 1) := (Nat.log2_lt hne).1 (Nat.lt_succ_self _)
    have height : 2 ^ (x.toNat.log2 + 8) = 2 ^ x.toNat.log2 * 256 := Nat.pow_add ..
    have hnine : 2 ^ (x.toNat.log2 + 8 + 1) = 2 ^ (x.toNat.log2 + 1) * 256 := by
      rw [show x.toNat.log2 + 8 + 1 = x.toNat.log2 + 1 + 8 by omega]
      exact Nat.pow_add ..
    rw [Nat.log2_eq_iff (by omega), height, hnine]
    omega
  obtain ⟨hqlow, hqhigh⟩ := quarter_bounds (n := sz.toNat) (by omega)
  unfold quarterLog
  rw [hsize, show x.toNat.log2 + 8 - 2 = x.toNat.log2 + 6 by omega] at hqlow hqhigh ⊢
  have hm₆ : (m + 6).toNat = x.toNat.log2 + 6 := by
    rw [BitVec.toNat_add, hm, show (6 : BitVec 32).toNat = 6 from rfl]
    omega
  have hwidth : (sz >>> (m + 6) &&& 3).toNat = sz.toNat / 2 ^ (x.toNat.log2 + 6) - 4 := by
    rw [BitVec.toNat_and, BitVec.ushiftRight_eq', BitVec.toNat_ushiftRight, hm₆,
      Nat.shiftRight_eq_div_pow, show (3 : BitVec 32).toNat = 2 ^ 2 - 1 from rfl,
      Nat.and_two_pow_sub_one_eq_mod]
    omega
  have hfour : (m <<< 2).toNat = 4 * x.toNat.log2 := by
    rw [BitVec.toNat_shiftLeft, hm, Nat.shiftLeft_eq]
    omega
  rw [BitVec.toNat_add, BitVec.toNat_add, hwidth, hfour,
    show (32 : BitVec 32).toNat = 32 from rfl]
  omega

theorem largebinIndex_last {sz : BitVec 32} (h : 2 ^ 24 ≤ sz.toNat) :
    largebinIndex sz = nbins - 1 := by
  have hguard : (0x10000 : BitVec 32) ≤ sz >>> 8 := by
    rw [BitVec.le_def, BitVec.toNat_ushiftRight, Nat.shiftRight_eq_div_pow]
    show 65536 ≤ _
    omega
  unfold largebinIndex
  exact if_pos hguard

/-- A size that should be a small one, as the truncation of a larger one can be. -/
theorem largebinIndex_low {sz : BitVec 32} (h : sz.toNat < 256) : largebinIndex sz < 32 := by
  have hx : sz >>> 8 = 0 := by
    apply BitVec.eq_of_toNat_eq
    rw [BitVec.toNat_ushiftRight, Nat.shiftRight_eq_div_pow]
    show _ = 0
    omega
  have hres : largebinIndex sz = (28 + (sz >>> 5 &&& 3)).toNat := by
    unfold largebinIndex
    rw [hx]
    rfl
  have hlow : (sz >>> 5 &&& 3).toNat < 4 := by
    rw [BitVec.toNat_and, show (3 : BitVec 32).toNat = 2 ^ 2 - 1 from rfl,
      Nat.and_two_pow_sub_one_eq_mod]
    exact Nat.mod_lt _ (by decide)
  rw [hres, BitVec.toNat_add]
  show (28 + _) % _ < _
  omega

theorem binIndex_eq {sz : Nat} (hsz : sz < 2 ^ 32) :
    binIndex sz = if sz < 256 then sz / 8 else if sz < 2 ^ 24 then quarterLog sz - 4 else 95 := by
  have hlarge : minLargeSize.toNat = 256 := by decide
  have hword : (BitVec.ofNat 32 sz).toNat = sz := by
    rw [BitVec.toNat_ofNat, Nat.mod_eq_of_lt hsz]
  unfold binIndex smallbinIndex
  rw [hlarge, BitVec.toNat_ushiftRight, hword, Nat.shiftRight_eq_div_pow]
  split_ifs with hsmall hlast
  · rfl
  · rw [largebinIndex_eq (by omega) (by omega), hword]
  · exact largebinIndex_last (by omega)

/-- The indices grow with the sizes that fit an `unsigned int`. -/
theorem graded_binIndex : Graded binIndex (2 ^ 32) := by
  intro m n hmn hn
  have hquarter : ∀ {m n : Nat}, 256 ≤ m → m ≤ n → quarterLog m - 4 ≤ quarterLog n - 4 :=
    fun hm hmn => Nat.sub_le_sub_right (quarterLog_mono (by omega) hmn) 4
  have hfirst : quarterLog 256 = 36 := by decide
  have hlast : quarterLog (2 ^ 24 - 1) = 99 := by decide
  rw [binIndex_eq hn, binIndex_eq (by omega)]
  split_ifs
  · omega
  · have := hquarter (m := 256) (n := n) (by omega) (by omega)
    omega
  · omega
  · omega
  · exact hquarter (by omega) hmn
  · have := hquarter (m := m) (n := 2 ^ 24 - 1) (by omega) (by omega)
    omega
  · omega
  · omega
  · exact Nat.le_refl _

theorem binIndex_lt (sz : Nat) : binIndex sz < nbins := by
  have hninety : nbins = 96 := rfl
  unfold binIndex
  split_ifs with hsmall
  · rw [show minLargeSize.toNat = 256 from rfl] at hsmall
    rw [smallbinIndex, BitVec.toNat_ushiftRight, BitVec.toNat_ofNat, Nat.shiftRight_eq_div_pow]
    omega
  · generalize BitVec.ofNat 32 sz = w
    by_cases hlow : w.toNat < 256
    · have := largebinIndex_low hlow
      omega
    by_cases hlast : w.toNat < 2 ^ 24
    · have hmono := quarterLog_mono (m := w.toNat) (n := 2 ^ 24 - 1) (by omega) (by omega)
      have hend : quarterLog (2 ^ 24 - 1) = 99 := by decide
      rw [largebinIndex_eq (by omega) hlast]
      omega
    · rw [largebinIndex_last (by omega)]
      omega

theorem eq_of_binIndex_eq {m n : Nat} (hm : m < 2 ^ 32) (hmod : m % 16 = 0) (hmod' : n % 16 = 0)
    (hsmall : n < minLargeSize.toNat) (h : binIndex m = binIndex n) : m = n := by
  rw [show minLargeSize.toNat = 256 from rfl] at hsmall
  rw [binIndex_eq hm, binIndex_eq (by omega), if_pos hsmall] at h
  have hfirst : 32 ≤ quarterLog 256 - 4 := by decide
  split_ifs at h with hlow hhigh
  · omega
  · have := quarterLog_mono (m := 256) (n := m) (by omega) (by omega)
    omega
  · omega

end UnnamedKernel.Mm.Heap
