import Mathlib.Data.Nat.Bitwise
import Mathlib.Tactic.Ring
import Mathlib.Tactic.NormNum

/-!
# 64-bit words

Rounding and masking facts for `BitVec 64`, stated through `toNat` so that the
callers can finish with linear arithmetic.
-/

namespace UnnamedKernel.Lib

/-- A machine word: `uint64_t`, `size_t` and `uintptr_t` are all this type. -/
abbrev Word := BitVec 64

/-- `w` is a power of two (so its logarithm is below 64). -/
def IsPow2 (w : Word) : Prop := ∃ k, w.toNat = 2 ^ k

/-- The unsigned rounding idiom `(v + (a - 1)) & ~(a - 1)`. -/
def roundUp (v a : Word) : Word := (v + (a - 1)) &&& ~~~(a - 1)

/-- The unsigned rounding idiom `v & ~(a - 1)`. -/
def roundDown (v a : Word) : Word := v &&& ~~~(a - 1)

namespace IsPow2

theorem pos {w : Word} (h : IsPow2 w) : 0 < w.toNat := by
  obtain ⟨k, hk⟩ := h
  rw [hk]
  exact Nat.two_pow_pos k

theorem exists_lt {w : Word} (h : IsPow2 w) : ∃ k < 64, w.toNat = 2 ^ k := by
  obtain ⟨k, hk⟩ := h
  refine ⟨k, ?_, hk⟩
  have hlt : 2 ^ k < 2 ^ 64 := hk ▸ w.isLt
  exact (Nat.pow_lt_pow_iff_right (by norm_num)).1 hlt

theorem toNat_sub_one {w : Word} (h : IsPow2 w) : (w - 1).toNat = w.toNat - 1 := by
  have hpos := h.pos
  bv_omega

theorem and_sub_one {w : Word} (h : IsPow2 w) : w &&& (w - 1) = 0 := by
  apply BitVec.eq_of_toNat_eq
  rw [BitVec.toNat_and, h.toNat_sub_one]
  obtain ⟨k, hk⟩ := h
  rw [hk, Nat.and_two_pow_sub_one_eq_mod, Nat.mod_self]
  rfl

/-- The usual test for a power of two. -/
theorem of_and_sub_one {w : Word} (hpos : 1 ≤ w) (h : w &&& (w - 1) = 0) : IsPow2 w := by
  have hle : 1 ≤ w.toNat := hpos
  have hsub : (w - 1).toNat = w.toNat - 1 := by bv_omega
  have hand := congrArg BitVec.toNat h
  rw [BitVec.toNat_and, hsub] at hand
  exact (Nat.and_sub_one_eq_zero_iff_isPowerOfTwo (by omega)).1 hand

end IsPow2

theorem toNat_and_sub_one (v : Word) {a : Word} (ha : IsPow2 a) :
    (v &&& (a - 1)).toNat = v.toNat % a.toNat := by
  rw [BitVec.toNat_and, ha.toNat_sub_one]
  obtain ⟨k, hk⟩ := ha
  rw [hk, Nat.and_two_pow_sub_one_eq_mod]

theorem and_sub_one_eq_zero_iff (v : Word) {a : Word} (ha : IsPow2 a) :
    v &&& (a - 1) = 0 ↔ v.toNat % a.toNat = 0 := by
  rw [← toNat_and_sub_one v ha, ← BitVec.toNat_inj]
  simp

theorem toNat_roundDown (v : Word) {a : Word} (ha : IsPow2 a) :
    (roundDown v a).toNat = v.toNat / a.toNat * a.toNat := by
  obtain ⟨k, hk, hpow⟩ := ha.exists_lt
  have hmask : a - 1 = BitVec.ofNat 64 (2 ^ k - 1) := by
    apply BitVec.eq_of_toNat_eq
    rw [ha.toNat_sub_one, hpow, BitVec.toNat_ofNat]
    have := a.isLt
    exact (Nat.mod_eq_of_lt (by omega)).symm
  have hshift : roundDown v a = (v >>> k) <<< k := by
    rw [roundDown, hmask]
    apply BitVec.eq_of_getLsbD_eq
    intro i hi
    simp only [BitVec.getLsbD_and, BitVec.getLsbD_not, BitVec.getLsbD_ofNat,
      Nat.testBit_two_pow_sub_one, BitVec.getLsbD_shiftLeft, BitVec.getLsbD_ushiftRight]
    by_cases hik : i < k
    · simp [hi, hik]
    · simp [hi, hik, show k + (i - k) = i by omega]
  rw [hshift, BitVec.toNat_shiftLeft, BitVec.toNat_ushiftRight, Nat.shiftRight_eq_div_pow,
    Nat.shiftLeft_eq, hpow]
  exact Nat.mod_eq_of_lt ((Nat.div_mul_le_self _ _).trans_lt v.isLt)

theorem roundUp_eq_roundDown (v a : Word) : roundUp v a = roundDown (v + (a - 1)) a := rfl

/-! ## Rounding to the least multiple, over the naturals -/

/-- The least multiple of `a` that is at least `n` (for positive `a`). -/
def ceilTo (n a : Nat) : Nat := (n + (a - 1)) / a * a

theorem dvd_ceilTo (n a : Nat) : a ∣ ceilTo n a := Nat.dvd_mul_left a _

theorem le_ceilTo (n : Nat) {a : Nat} (ha : 0 < a) : n ≤ ceilTo n a := by
  have hdm := Nat.div_add_mod (n + (a - 1)) a
  have hmod := Nat.mod_lt (n + (a - 1)) ha
  rw [Nat.mul_comm] at hdm
  unfold ceilTo
  omega

theorem ceilTo_lt (n : Nat) {a : Nat} (ha : 0 < a) : ceilTo n a < n + a := by
  have := Nat.div_mul_le_self (n + (a - 1)) a
  unfold ceilTo
  omega

theorem ceilTo_le {n m a : Nat} (ha : 0 < a) (hdvd : a ∣ m) (hle : n ≤ m) : ceilTo n a ≤ m := by
  obtain ⟨c, rfl⟩ := hdvd
  unfold ceilTo
  rw [Nat.mul_comm a c]
  apply Nat.mul_le_mul_right
  have hlt : (n + (a - 1)) / a < c + 1 := by
    apply Nat.div_lt_of_lt_mul
    rw [Nat.mul_add]
    omega
  omega

theorem ceilTo_of_dvd {n a : Nat} (ha : 0 < a) (hdvd : a ∣ n) : ceilTo n a = n :=
  Nat.le_antisymm (ceilTo_le ha hdvd (Nat.le_refl n)) (le_ceilTo n ha)

/-- Rounding up, when the sum `v + (a - 1)` stays below `2 ^ 64`. -/
theorem toNat_roundUp (v : Word) {a : Word} (ha : IsPow2 a)
    (hv : v.toNat + a.toNat ≤ 2 ^ 64) : (roundUp v a).toNat = ceilTo v.toNat a.toNat := by
  have hpos := ha.pos
  rw [roundUp_eq_roundDown, toNat_roundDown _ ha, BitVec.toNat_add, ha.toNat_sub_one,
    Nat.mod_eq_of_lt (by omega), ceilTo]

end UnnamedKernel.Lib
