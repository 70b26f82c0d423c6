import Mathlib.Algebra.Order.Ring.Nat
import Mathlib.Data.Nat.ModEq
import Mathlib.Tactic.Ring

/-!
# Scaled counters

A counter that wraps at `period`, scaled by `mult / scale` through a product that wraps at
`width`. It runs backwards exactly where one of the two wraps.
-/

namespace UnnamedKernel.Lib.Counter

variable {period mult width scale a b t t' : Nat}

def scaled (period mult width scale t : Nat) : Nat := t % period * mult % width / scale

/-- Neither the counter nor the product wraps between `a` and `b`. -/
def SameEpoch (period mult width a b : Nat) : Prop :=
  a / period = b / period ∧ a % period * mult / width = b % period * mult / width

instance : Decidable (SameEpoch period mult width a b) :=
  inferInstanceAs (Decidable (_ ∧ _))

theorem mod_le_mod (h : a / period = b / period) (hab : a ≤ b) : a % period ≤ b % period := by
  have ha := Nat.div_add_mod a period
  have hb := Nat.div_add_mod b period
  rw [h] at ha
  omega

namespace SameEpoch

theorem between (h : SameEpoch period mult width a b) (hat : a ≤ t) (htb : t ≤ b) :
    SameEpoch period mult width a t := by
  have hdiv : a / period = t / period :=
    Nat.le_antisymm (Nat.div_le_div_right hat) (h.1 ▸ Nat.div_le_div_right htb)
  have hlow := Nat.mul_le_mul_right mult (mod_le_mod hdiv hat)
  have hhigh := Nat.mul_le_mul_right mult (mod_le_mod (hdiv.symm.trans h.1) htb)
  exact ⟨hdiv, Nat.le_antisymm (Nat.div_le_div_right hlow) (h.2 ▸ Nat.div_le_div_right hhigh)⟩

theorem symm (h : SameEpoch period mult width a b) : SameEpoch period mult width b a :=
  ⟨h.1.symm, h.2.symm⟩

theorem trans {c : Nat} (h : SameEpoch period mult width a b)
    (h' : SameEpoch period mult width b c) : SameEpoch period mult width a c :=
  ⟨h.1.trans h'.1, h.2.trans h'.2⟩

theorem scaled_le (h : SameEpoch period mult width a b) (hab : a ≤ b) :
    scaled period mult width scale a ≤ scaled period mult width scale b :=
  Nat.div_le_div_right (mod_le_mod h.2 (Nat.mul_le_mul_right mult (mod_le_mod h.1 hab)))

/-- Two ticks in different epochs have neighbours between them that are, too. -/
theorem exists_crossing (hab : a ≤ b) (h : ¬ SameEpoch period mult width a b) :
    ∃ t, a ≤ t ∧ t + 1 ≤ b ∧ ¬ SameEpoch period mult width t (t + 1) := by
  induction b, hab using Nat.le_induction with
  | base => exact absurd ⟨rfl, rfl⟩ h
  | succ b hab ih =>
      by_cases hb : SameEpoch period mult width a b
      · exact ⟨b, hab, Nat.le_refl _, fun hc => h (hb.trans hc)⟩
      · obtain ⟨t, hat, htb, ht⟩ := ih hb
        exact ⟨t, hat, Nat.le_succ_of_le htb, ht⟩

end SameEpoch

theorem product_crossing {r : Nat} (hwidth : 0 < width)
    (h : r * mult / width ≠ (r + 1) * mult / width) (hmult : mult ≤ width) :
    width - mult ≤ r * mult % width ∧ (r + 1) * mult % width < mult := by
  have hr := Nat.div_add_mod (r * mult) width
  have hr' := Nat.div_add_mod ((r + 1) * mult) width
  have hlt := Nat.mod_lt (r * mult) hwidth
  have hlt' := Nat.mod_lt ((r + 1) * mult) hwidth
  rw [Nat.add_mul, Nat.one_mul] at *
  have hle : r * mult / width ≤ (r * mult + mult) / width :=
    Nat.div_le_div_right (Nat.le_add_right ..)
  obtain ⟨k, hk⟩ := Nat.exists_eq_add_of_lt (Nat.lt_of_le_of_ne hle h)
  rw [hk, Nat.mul_add, Nat.mul_add] at hr'
  have hk0 : k = 0 := by
    by_contra hne
    have := Nat.mul_le_mul_left width (Nat.one_le_iff_ne_zero.2 hne)
    omega
  subst hk0
  omega

theorem mod_of_crossing (hperiod : 0 < period) (h : t / period ≠ (t + 1) / period) :
    t % period = period - 1 ∧ (t + 1) % period = 0 := by
  have ht := Nat.div_add_mod t period
  have ht' := Nat.div_add_mod (t + 1) period
  have hlt := Nat.mod_lt t hperiod
  have hlt' := Nat.mod_lt (t + 1) hperiod
  have hle : t / period ≤ (t + 1) / period := Nat.div_le_div_right (Nat.le_succ t)
  obtain ⟨k, hk⟩ := Nat.exists_eq_add_of_lt (Nat.lt_of_le_of_ne hle h)
  rw [hk, Nat.mul_add, Nat.mul_add] at ht'
  have hk0 : k = 0 := by
    by_contra hne
    have := Nat.mul_le_mul_left period (Nat.one_le_iff_ne_zero.2 hne)
    omega
  subst hk0
  omega

theorem mod_succ (h : t / period = (t + 1) / period) : (t + 1) % period = t % period + 1 := by
  have ht := Nat.div_add_mod t period
  have ht' := Nat.div_add_mod (t + 1) period
  rw [h] at ht
  omega

/-- At the end of an epoch the scaled counter goes back to zero. -/
theorem scaled_crossing (hperiod : 0 < period) (hpos : 0 < scale) (hmult : mult ≤ scale)
    (hfit : mult + scale ≤ width) (hlast : scale ≤ (period - 1) * mult % width)
    (h : ¬ SameEpoch period mult width t (t + 1)) :
    scaled period mult width scale (t + 1) < scaled period mult width scale t := by
  unfold scaled
  by_cases hdiv : t / period = (t + 1) / period
  · rw [mod_succ hdiv]
    have hprod : t % period * mult / width ≠ (t % period + 1) * mult / width := fun hp =>
      h ⟨hdiv, by rw [mod_succ hdiv]; exact hp⟩
    obtain ⟨hhigh, hlow⟩ := product_crossing (by omega) hprod (by omega)
    rw [Nat.div_eq_of_lt (Nat.lt_of_lt_of_le hlow hmult)]
    exact Nat.div_pos (by omega) hpos
  · obtain ⟨hmax, hzero⟩ := mod_of_crossing hperiod hdiv
    rw [hmax, hzero, Nat.zero_mul, Nat.zero_mod, Nat.zero_div]
    exact Nat.div_pos hlast hpos

/-! ## The difference of two readings

It is taken modulo `width` first, and then modulo `modulus`. -/

section Difference

variable {modulus : Nat}

theorem sub_mod_mod (hdvd : modulus ∣ period) (hdvd' : period ∣ width) (hperiod : 0 < period)
    (hwidth : 0 < width) (hab : a ≤ b) :
    (width - a % period + b % period) % width % modulus = (b - a) % modulus := by
  have ha : a % period ≤ width :=
    Nat.le_of_lt (Nat.lt_of_lt_of_le (Nat.mod_lt a hperiod) (Nat.le_of_dvd hwidth hdvd'))
  have hcount : ∀ t, t % period ≡ t [MOD modulus] := fun t => Nat.mod_mod_of_dvd t hdvd
  have hsum : (width - a % period + b % period) + a % period ≡ b - a + a % period [MOD modulus] :=
    calc (width - a % period + b % period) + a % period
        = width + b % period := by omega
      _ ≡ 0 + b [MOD modulus] :=
          Nat.ModEq.add (Nat.modEq_zero_iff_dvd.2 (hdvd.trans hdvd')) (hcount b)
      _ = b - a + a := by omega
      _ ≡ b - a + a % period [MOD modulus] := Nat.ModEq.add rfl (hcount a).symm
  rw [Nat.mod_mod_of_dvd _ (hdvd.trans hdvd')]
  exact Nat.ModEq.add_right_cancel' _ hsum

/-- A modulus above the period takes a wrap of the counter for elapsed ticks. -/
theorem sub_mod_eq_iff (hlt : period < modulus) (hdvd : modulus ∣ width) (hwidth : 0 < width)
    (hperiod : 0 < period) (hab : a ≤ b) (hgap : b < a + period) :
    (width - a % period + b % period) % width % modulus = b - a ↔ a / period = b / period := by
  have ha := Nat.div_add_mod a period
  have hb := Nat.div_add_mod b period
  have hla := Nat.mod_lt a hperiod
  have hlb := Nat.mod_lt b hperiod
  have hle := Nat.le_of_dvd hwidth hdvd
  rw [Nat.mod_mod_of_dvd _ hdvd]
  by_cases hepoch : a / period = b / period
  · simp only [hepoch, iff_true]
    rw [hepoch] at ha
    obtain ⟨k, rfl⟩ := hdvd
    rw [show modulus * k - a % period + b % period = b - a + modulus * k by omega,
      Nat.add_mul_mod_self_left, Nat.mod_eq_of_lt (by omega)]
  · simp only [hepoch, iff_false]
    -- the counter has wrapped once
    have hnext : b / period = a / period + 1 := by
      have hmono : a / period ≤ b / period := Nat.div_le_div_right hab
      have hstep : b / period < a / period + 2 := by
        rw [Nat.div_lt_iff_lt_mul hperiod, Nat.add_mul, Nat.mul_comm (a / period)]
        omega
      omega
    rw [hnext, Nat.mul_add, Nat.mul_one] at hb
    obtain ⟨k, hk⟩ := hdvd
    obtain ⟨j, rfl⟩ : ∃ j, k = j + 1 := Nat.exists_eq_add_one_of_ne_zero (by
      rintro rfl
      omega)
    rw [Nat.mul_add, Nat.mul_one] at hk
    rw [show width - a % period + b % period = modulus - period + (b - a) + modulus * j by omega,
      Nat.add_mul_mod_self_left, Nat.mod_eq_of_lt (by omega)]
    omega

end Difference

end UnnamedKernel.Lib.Counter
