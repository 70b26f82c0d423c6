import Mathlib.Algebra.Order.Field.Rat
import Mathlib.Data.Nat.Cast.Order.Field
import Mathlib.Tactic.FieldSimp
import Mathlib.Tactic.Linarith
import Mathlib.Tactic.Ring

/-!
# Scaling by a fixed-point factor

`count * mult / scale` for `count * num / den`, where `mult / scale` is the factor `num / den`
rounded down.
-/

namespace UnnamedKernel.Lib.Scaling

variable {num den mult scale count width p : Nat}

/-- `mult` is `scale * num / den`, rounded down. -/
def Represents (num den mult scale : Nat) : Prop :=
  mult * den ≤ scale * num ∧ scale * num < (mult + 1) * den

instance : Decidable (Represents num den mult scale) := inferInstanceAs (Decidable (_ ∧ _))

theorem represents_iff (hden : 0 < den) :
    Represents num den mult scale ↔ mult = scale * num / den := by
  rw [Represents, eq_comm, Nat.div_eq_iff hden, Nat.add_mul, Nat.one_mul]
  omega

/-- A product that is truncated first gives the same quotient exactly when there was nothing to
truncate. -/
theorem mod_div_eq_iff (hdvd : scale ∣ width) (hwidth : 0 < width) :
    p % width / scale = p / scale ↔ p < width := by
  constructor
  · intro h
    obtain ⟨k, rfl⟩ := hdvd
    have hk : 0 < k := Nat.pos_of_mul_pos_left hwidth
    have hsplit : p / scale = k * (p / (scale * k)) + p % (scale * k) / scale := by
      rw [Nat.mod_mul_right_div_self, ← Nat.div_div_eq_div_mul, Nat.div_add_mod]
    have hzero : k * (p / (scale * k)) = 0 := by omega
    have hquot := (Nat.mul_eq_zero.1 hzero).resolve_left (Nat.ne_of_gt hk)
    exact (Nat.div_eq_zero_iff.1 hquot).resolve_left (Nat.ne_of_gt hwidth)
  · intro h
    rw [Nat.mod_eq_of_lt h]

theorem Represents.abs_sub_le (h : Represents num den mult scale) (hden : 0 < den)
    (hscale : 0 < scale) (count : Nat) :
    |((count * mult / scale : Nat) : ℚ) - count * num / den| ≤ count / scale + 1 := by
  have hden' : (0 : ℚ) < den := by exact_mod_cast hden
  have hscale' : (0 : ℚ) < scale := by exact_mod_cast hscale
  have hcount : (0 : ℚ) ≤ count := Nat.cast_nonneg count
  have hlow : (mult : ℚ) * den ≤ scale * num := by exact_mod_cast h.1
  have hhigh : (scale : ℚ) * num < (mult + 1) * den := by exact_mod_cast h.2
  -- the factors, and then the counts
  have hfactor : (mult : ℚ) / scale ≤ num / den := by
    rw [div_le_div_iff₀ hscale' hden']
    linarith
  have hfactor' : (num : ℚ) / den ≤ mult / scale + 1 / scale := by
    rw [← add_div, div_le_div_iff₀ hden' hscale']
    linarith
  have hfloor : ((count * mult / scale : Nat) : ℚ) ≤ count * (mult / scale) := by
    rw [← mul_div_assoc]
    exact_mod_cast Nat.cast_div_le
  have hfloor' : (count : ℚ) * (mult / scale) < ((count * mult / scale : Nat) : ℚ) + 1 := by
    rw [← mul_div_assoc, div_lt_iff₀ hscale']
    exact_mod_cast Nat.lt_mul_of_div_lt (Nat.lt_succ_self _) hscale
  have hbelow := mul_le_mul_of_nonneg_left hfactor hcount
  have habove := mul_le_mul_of_nonneg_left hfactor' hcount
  have hgoal : (count : ℚ) * num / den = count * (num / den) := mul_div_assoc ..
  have hbound : (count : ℚ) / scale = count * (1 / scale) := by ring
  rw [mul_add] at habove
  rw [hgoal, hbound, abs_le]
  constructor
  · linarith
  · have hpos : (0 : ℚ) ≤ count * (1 / scale) := by positivity
    linarith

end UnnamedKernel.Lib.Scaling
