import UnnamedKernel.Drivers.Clocksource
import UnnamedKernel.Lib.Scaling

/-!
# Cycles to nanoseconds

`cycles_to_ns` truncates its product to 64 bits and `compute_ms` the multiplier to 32. Each is
exact as long as there is nothing to truncate, and only then.
-/

namespace UnnamedKernel.Drivers

open UnnamedKernel.Lib Scaling

variable {cs : Clocksource} {cycles : Word} {freqHz shift mult : BitVec 32} {ms : MultShift}

/-! ## The product -/

section Product

theorem toNat_cyclesToNs (cycles : Word) (mult shift : BitVec 32) :
    (cyclesToNs cycles mult shift).toNat =
      cycles.toNat * mult.toNat % 2 ^ 64 / 2 ^ shift.toNat := by
  have hmult : (mult.setWidth 64).toNat = mult.toNat := BitVec.toNat_setWidth_of_le (by decide)
  rw [cyclesToNs, BitVec.toNat_ushiftRight, BitVec.toNat_mul, hmult, Nat.shiftRight_eq_div_pow]

theorem toNat_cyclesToNs_eq (h : cycles.toNat * mult.toNat < 2 ^ 64) :
    (cyclesToNs cycles mult shift).toNat = cycles.toNat * mult.toNat / 2 ^ shift.toNat := by
  rw [toNat_cyclesToNs, Nat.mod_eq_of_lt h]

theorem cyclesToNs_eq_iff (hshift : shift.toNat < 64) :
    (cyclesToNs cycles mult shift).toNat = cycles.toNat * mult.toNat / 2 ^ shift.toNat ↔
      cycles.toNat * mult.toNat < 2 ^ 64 := by
  rw [toNat_cyclesToNs, mod_div_eq_iff (Nat.pow_dvd_pow 2 (Nat.le_of_lt hshift)) (by decide)]

theorem Ktime.le_of_toNat_le {a b : Ktime} (hb : b.ns.toNat < 2 ^ 63)
    (hle : a.ns.toNat ≤ b.ns.toNat) :
    a.Le b := by
  rw [Ktime.Le, BitVec.sle_iff_toInt_le, BitVec.toInt_eq_toNat_of_lt (by omega),
    BitVec.toInt_eq_toNat_of_lt (by omega)]
  exact_mod_cast hle

/-- The conversion of `cs` is exact and monotonic up to a count of `cycles`. -/
structure ConvertsUpTo (cs : Clocksource) (cycles : Word) : Prop where
  exact : ∀ c : Word, c ≤ cycles →
    (cyclesToNs c cs.mult cs.shift).toNat = c.toNat * cs.mult.toNat / 2 ^ cs.shift.toNat
  mono : ∀ c c' : Word, c ≤ c' → c' ≤ cycles →
    cyclesToNs c cs.mult cs.shift ≤ cyclesToNs c' cs.mult cs.shift
  ktime : ∀ c c' : Word, c ≤ c' → c' ≤ cycles →
    c'.toNat * cs.mult.toNat / 2 ^ cs.shift.toNat < 2 ^ 63 →
    (Ktime.fromCycles c cs).Le (Ktime.fromCycles c' cs)

/-- The conversion is right up to a count exactly when the product for this count fits 64 bits. -/
theorem cyclesToNs_exact_iff (hshift : cs.shift.toNat < 64) :
    ConvertsUpTo cs cycles ↔ cycles.toNat * cs.mult.toNat < 2 ^ 64 := by
  constructor
  · intro h
    exact (cyclesToNs_eq_iff hshift).1 (h.exact cycles (BitVec.le_refl cycles))
  · intro h
    have hexact : ∀ c : Word, c ≤ cycles →
        (cyclesToNs c cs.mult cs.shift).toNat = c.toNat * cs.mult.toNat / 2 ^ cs.shift.toNat :=
      fun c hc => toNat_cyclesToNs_eq
        (Nat.lt_of_le_of_lt (Nat.mul_le_mul_right _ (BitVec.le_def.1 hc)) h)
    have hmono : ∀ c c' : Word, c ≤ c' → c' ≤ cycles →
        cyclesToNs c cs.mult cs.shift ≤ cyclesToNs c' cs.mult cs.shift := by
      intro c c' hle hc'
      rw [BitVec.le_def, hexact c (BitVec.le_trans hle hc'), hexact c' hc']
      exact Nat.div_le_div_right (Nat.mul_le_mul_right _ (BitVec.le_def.1 hle))
    refine ⟨hexact, hmono, fun c c' hle hc' hsmall => ?_⟩
    refine Ktime.le_of_toNat_le ?_ (BitVec.le_def.1 (hmono c c' hle hc'))
    exact (hexact c' hc').symm ▸ hsmall

/-- The source that stands for a TSC of 3 GHz. -/
def tsc3GHz : Clocksource :=
  { name := "tsc", rating := 300, mask := 0xFFFFFFFFFFFFFFFF, mult := 1431655765, shift := 32,
    counterBits := 64, read := Tsc.read }

theorem cyclesToNs_exact_iff_3GHz : ConvertsUpTo tsc3GHz 12884901891 :=
  (cyclesToNs_exact_iff (by decide)).2 (by decide)

/-- One cycle more, and the product wraps although the result is far from 64 bits. -/
theorem cyclesToNs_wraps :
    12884901892 * 1431655765 / 2 ^ 32 < 2 ^ 63 ∧
      (cyclesToNs 12884901892 1431655765 32).toNat ≠ 12884901892 * 1431655765 / 2 ^ 32 ∧
      ¬ cyclesToNs 12884901891 1431655765 32 ≤ cyclesToNs 12884901892 1431655765 32 := by
  decide +kernel

end Product

/-! ## The multiplier -/

section Multiplier

/-- The shift that `compute_ms` uses. -/
def usedShift (shift : BitVec 32) : Nat := if shift = 0 then 32 else shift.toNat

/-- A multiplier and a shift that stand for the frequency. -/
structure Represented (ms : MultShift) (freqHz : BitVec 32) : Prop where
  bounds : Represents (10 ^ 9) freqHz.toNat ms.mult.toNat (2 ^ ms.shift.toNat)
  close : ∀ cycles : Word, cycles.toNat * ms.mult.toNat < 2 ^ 64 →
    |((cyclesToNs cycles ms.mult ms.shift).toNat : ℚ) -
        cycles.toNat * (10 ^ 9 : ℕ) / freqHz.toNat| ≤
      cycles.toNat / (2 ^ ms.shift.toNat : ℕ) + 1

theorem computeMs_eq (hfreq : freqHz ≠ 0) (hfits : 2 ^ usedShift shift * 10 ^ 9 < 2 ^ 64) :
    ∃ ms, computeMs freqHz shift = some ms ∧ ms.shift.toNat = usedShift shift ∧
      ms.mult.toNat = 2 ^ usedShift shift * 10 ^ 9 / freqHz.toNat % 2 ^ 32 := by
  have hused : (if shift = 0 then computeShift else shift).toNat = usedShift shift := by
    unfold usedShift
    split_ifs <;> rfl
  refine ⟨⟨_, _⟩, if_neg hfreq, hused, ?_⟩
  have hsec : ((1 : Word) <<< usedShift shift).toNat = 2 ^ usedShift shift := by
    rw [BitVec.toNat_shiftLeft, Nat.shiftLeft_eq, show (1 : Word).toNat = 1 from rfl,
      Nat.one_mul, Nat.mod_eq_of_lt (by omega)]
  have hwide : (freqHz.setWidth 64).toNat = freqHz.toNat := BitVec.toNat_setWidth_of_le (by decide)
  rw [BitVec.toNat_setWidth, BitVec.toNat_udiv, BitVec.toNat_mul, hused, hsec, hwide]
  rw [show (1000000000 : Word).toNat = 10 ^ 9 from rfl, Nat.mod_eq_of_lt hfits]

/-- The multiplier stands for the frequency exactly when it fits 32 bits. -/
theorem computeMs_represents_iff (hfreq : freqHz ≠ 0)
    (hfits : 2 ^ usedShift shift * 10 ^ 9 < 2 ^ 64) :
    (∃ ms, computeMs freqHz shift = some ms ∧ ms.shift.toNat = usedShift shift ∧
      Represented ms freqHz) ↔ 2 ^ usedShift shift * 10 ^ 9 / freqHz.toNat < 2 ^ 32 := by
  have hpos : 0 < freqHz.toNat := by
    rw [Nat.pos_iff_ne_zero]
    exact fun hzero => hfreq (BitVec.eq_of_toNat_eq hzero)
  obtain ⟨ms, hres, hshift, hmult⟩ := computeMs_eq hfreq hfits
  constructor
  · rintro ⟨ms', hres', -, hrep⟩
    obtain rfl := Option.some.inj (hres.symm.trans hres')
    have hexact := (represents_iff hpos).1 hrep.bounds
    rw [hshift] at hexact
    rw [← hexact]
    exact ms.mult.isLt
  · intro hsmall
    rw [Nat.mod_eq_of_lt hsmall, ← hshift] at hmult
    have hbounds := (represents_iff hpos).2 hmult
    refine ⟨ms, hres, hshift, hbounds, fun cycles hlt => ?_⟩
    rw [toNat_cyclesToNs_eq hlt]
    exact hbounds.abs_sub_le hpos (Nat.two_pow_pos _) cycles.toNat

theorem computeMs_represents_iff_3GHz :
    ∃ ms, computeMs 3000000000 0 = some ms ∧ ms.shift.toNat = usedShift 0 ∧
      Represented ms 3000000000 :=
  (computeMs_represents_iff (by decide) (by decide)).2 (by decide)

/-- The PM timer's multiplier does not fit. -/
theorem acpiPm_not_represented :
    computeMs AcpiPm.freqHz 0 = some ⟨1568156297, 32⟩ ∧
      ¬ Represented ⟨1568156297, 32⟩ AcpiPm.freqHz :=
  ⟨by decide +kernel, fun h => absurd h.bounds (by decide +kernel)⟩

end Multiplier

/-! ## The TSC -/

section Tsc

variable {fw : Firmware} {frequency : Word}

/-- `tsc::init` refuses, or a second of cycles counts as a second. -/
def Calibrated (fw : Firmware) (frequency : Word) : Prop :=
  ∃ sources, Tsc.init fw = some sources ∧ ∀ cs ∈ sources, ∀ (n : Nat) (cycles : Word),
    cycles.toNat = n * frequency.toNat → cycles.toNat * cs.mult.toNat < 2 ^ 64 →
    |((cyclesToNs cycles cs.mult cs.shift).toNat : ℚ) - n * (10 ^ 9 : ℕ)| ≤
      cycles.toNat / (2 ^ 32 : ℕ) + 1

/-- The multiplier, in unbounded numbers. -/
def tscMult (frequency : Nat) : Nat := 2 ^ 32 * 10 ^ 9 / (frequency % 2 ^ 32) % 2 ^ 32

theorem tscInit_refused (hfw : fw.tscFrequency = some frequency)
    (hzero : frequency.toNat % 2 ^ 32 = 0) : Tsc.init fw = some [] := by
  have hnarrow : frequency.setWidth 32 = 0 := by
    apply BitVec.eq_of_toNat_eq
    rw [BitVec.toNat_setWidth, hzero]
    rfl
  rw [Tsc.init, hfw]
  exact if_pos hnarrow

theorem tscInit_eq (hfw : fw.tscFrequency = some frequency)
    (hpos : frequency.toNat % 2 ^ 32 ≠ 0) :
    ∃ cs, Tsc.init fw = some [cs] ∧ cs.shift.toNat = 32 ∧
      cs.mult.toNat = tscMult frequency.toNat := by
  have hnarrow : frequency.setWidth 32 ≠ 0 := by
    intro hzero
    apply hpos
    rw [← BitVec.toNat_setWidth, hzero]
    rfl
  have hfits : 2 ^ usedShift 0 * 10 ^ 9 < 2 ^ 64 := by decide
  obtain ⟨ms, hms, hshift, hmult⟩ := computeMs_eq hnarrow hfits
  rw [BitVec.toNat_setWidth] at hmult
  obtain ⟨cs, hcs, hm, hs⟩ : ∃ cs, Tsc.source (frequency.setWidth 32) = some cs ∧
      cs.mult = ms.mult ∧ cs.shift = ms.shift := by
    rw [Tsc.source, hms]
    exact ⟨_, rfl, rfl, rfl⟩
  refine ⟨cs, ?_, hs ▸ hshift, hm ▸ hmult⟩
  rw [Tsc.init, hfw]
  dsimp only
  rw [if_neg hnarrow, hcs]
  rfl

/-- Above 10⁹ Hz the multiplier stands for what is left of the frequency. -/
theorem tscMult_represents {f : Nat} (hf : 10 ^ 9 < f % 2 ^ 32) :
    Represents (10 ^ 9) (f % 2 ^ 32) (tscMult f) (2 ^ 32) := by
  have hfits : 2 ^ 32 * 10 ^ 9 / (f % 2 ^ 32) < 2 ^ 32 := by
    rw [Nat.div_lt_iff_lt_mul (by omega)]
    omega
  rw [represents_iff (by omega), tscMult, Nat.mod_eq_of_lt hfits]

theorem near_of_abs_le {f mult : Nat}
    (h : |((f * mult / 2 ^ 32 : Nat) : ℚ) - (10 ^ 9 : ℕ)| ≤ f / (2 ^ 32 : ℕ) + 1) :
    2 ^ 32 * 10 ^ 9 ≤ f * mult + f + 2 ^ 32 ∧ f * mult < 2 ^ 32 * 10 ^ 9 + f + 2 ^ 33 := by
  obtain ⟨hlow, hhigh⟩ := abs_le.1 h
  have hscaled : (2 ^ 32 : ℚ) * (f / (2 ^ 32 : ℕ)) = f := by
    push_cast
    ring
  have hfloor := Nat.div_add_mod (f * mult) (2 ^ 32)
  have hmod := Nat.mod_lt (f * mult) (by decide : 0 < 2 ^ 32)
  generalize f * mult / 2 ^ 32 = q at *
  constructor
  · have hq : (2 ^ 32 * 10 ^ 9 : ℚ) ≤ 2 ^ 32 * q + f + 2 ^ 32 := by
      push_cast at hlow
      linarith
    have hq' : 2 ^ 32 * 10 ^ 9 ≤ 2 ^ 32 * q + f + 2 ^ 32 := by exact_mod_cast hq
    omega
  · have hq : (2 ^ 32 * q : ℚ) ≤ 2 ^ 32 * 10 ^ 9 + f + 2 ^ 32 := by
      push_cast at hhigh
      linarith
    have hq' : 2 ^ 32 * q ≤ 2 ^ 32 * 10 ^ 9 + f + 2 ^ 32 := by exact_mod_cast hq
    omega

/-- What is left of a truncated frequency stands for less than a second of cycles. -/
theorem tscMult_far {f : Nat} (hf : 10 ^ 9 < f % 2 ^ 32) (hwide : 2 ^ 32 ≤ f) :
    2 ^ 32 * 10 ^ 9 + f + 2 ^ 33 ≤ f * tscMult f := by
  have hhigh := (tscMult_represents hf).2
  have hsplit := Nat.div_add_mod f (2 ^ 32)
  have hmod := Nat.mod_lt f (by decide : 0 < 2 ^ 32)
  have hlost : 1 ≤ f / 2 ^ 32 := (Nat.one_le_div_iff (by decide)).2 hwide
  have hmult : 10 ^ 9 ≤ tscMult f := by
    by_contra hlt
    have hprod : (tscMult f + 1) * (f % 2 ^ 32) ≤ 10 ^ 9 * (f % 2 ^ 32) :=
      Nat.mul_le_mul_right _ (by omega)
    omega
  generalize tscMult f = mult at *
  generalize f / 2 ^ 32 = lost at *
  generalize f % 2 ^ 32 = rest at *
  have hrest : 2 ^ 32 * 10 ^ 9 < rest * mult + rest := by
    rw [Nat.mul_comm, ← Nat.mul_add_one, Nat.mul_comm rest]
    omega
  have hover : 10 ^ 9 * lost ≤ lost * mult := by
    rw [Nat.mul_comm]
    exact Nat.mul_le_mul_left lost hmult
  calc 2 ^ 32 * 10 ^ 9 + f + 2 ^ 33
      ≤ rest * mult + rest + (2 ^ 32 * lost + rest) + 2 ^ 33 := by omega
    _ ≤ rest * mult + 2 ^ 32 * (10 ^ 9 * lost) := by omega
    _ ≤ rest * mult + 2 ^ 32 * (lost * mult) := by omega
    _ = f * mult := by rw [← hsplit, Nat.add_mul, Nat.mul_assoc, Nat.add_comm]

/-- A frequency that both truncations leave alone, or one that is refused, is calibrated.
Beyond that a second of cycles overflows, or the truncated multiplier is close by accident. -/
theorem tscInit_calibrated (hfw : fw.tscFrequency = some frequency)
    (hGHz : 10 ^ 9 ≤ frequency.toNat) :
    (frequency.toNat % 2 ^ 32 = 0 ∨ 10 ^ 9 < frequency.toNat ∧ frequency.toNat < 2 ^ 32 →
      Calibrated fw frequency) ∧
    (Calibrated fw frequency →
      frequency.toNat % 2 ^ 32 = 0 ∨ 10 ^ 9 < frequency.toNat ∧ frequency.toNat < 2 ^ 32 ∨
      2 ^ 32 < frequency.toNat ∧ (2 ^ 64 ≤ frequency.toNat * tscMult frequency.toNat ∨
        frequency.toNat % 2 ^ 32 ≤ 10 ^ 9 ∧
        2 ^ 32 * 10 ^ 9 ≤ frequency.toNat * tscMult frequency.toNat + frequency.toNat + 2 ^ 32 ∧
        frequency.toNat * tscMult frequency.toNat <
          2 ^ 32 * 10 ^ 9 + frequency.toNat + 2 ^ 33)) := by
  constructor
  · rintro (hzero | ⟨habove, hbelow⟩)
    · exact ⟨[], tscInit_refused hfw hzero, by simp⟩
    · have hkept : frequency.toNat % 2 ^ 32 = frequency.toNat := Nat.mod_eq_of_lt hbelow
      obtain ⟨cs, hinit, hshift, hmult⟩ := tscInit_eq hfw (by omega)
      refine ⟨[cs], hinit, fun cs' hmem n cycles hcycles hlt => ?_⟩
      obtain rfl := List.mem_singleton.1 hmem
      have hrep := tscMult_represents (f := frequency.toNat) (by omega)
      rw [hkept, ← hmult] at hrep
      have hpos : (frequency.toNat : ℚ) ≠ 0 := by
        have hne : frequency.toNat ≠ 0 := by omega
        exact_mod_cast hne
      have hsecond : (cycles.toNat : ℚ) * (10 ^ 9 : ℕ) / frequency.toNat = n * (10 ^ 9 : ℕ) := by
        rw [hcycles]
        push_cast
        field_simp
      rw [toNat_cyclesToNs_eq hlt, hshift, ← hsecond]
      exact hrep.abs_sub_le (by omega) (by decide) cycles.toNat
  · rintro ⟨sources, hinit, hall⟩
    by_cases hzero : frequency.toNat % 2 ^ 32 = 0
    · exact Or.inl hzero
    obtain ⟨cs, hinit', hshift, hmult⟩ := tscInit_eq hfw hzero
    obtain rfl := Option.some.inj (hinit.symm.trans hinit')
    have hone := hall cs (List.mem_singleton_self cs) 1 frequency (Nat.one_mul _).symm
    rw [toNat_cyclesToNs, hshift, hmult, Nat.cast_one, one_mul] at hone
    by_cases hclean : 10 ^ 9 < frequency.toNat ∧ frequency.toNat < 2 ^ 32
    · exact Or.inr (Or.inl hclean)
    by_cases hover : 2 ^ 64 ≤ frequency.toNat * tscMult frequency.toNat
    · refine Or.inr (Or.inr ⟨?_, Or.inl hover⟩)
      have hlarge : frequency.toNat ≠ 10 ^ 9 := by
        intro heq
        rw [heq] at hover
        exact absurd hover (by decide)
      omega
    · have hlt := Nat.lt_of_not_le hover
      have hone' := hone hlt
      rw [Nat.mod_eq_of_lt hlt] at hone'
      obtain ⟨hlow, hhigh⟩ := near_of_abs_le hone'
      have hlarge : frequency.toNat ≠ 10 ^ 9 := by
        intro heq
        rw [heq] at hlow
        exact absurd hlow (by decide)
      have hrest : frequency.toNat % 2 ^ 32 ≤ 10 ^ 9 := by
        by_contra hrest
        have hfar := tscMult_far (Nat.lt_of_not_le hrest) (by omega)
        exact absurd hhigh (Nat.not_lt.2 hfar)
      exact Or.inr (Or.inr ⟨by omega, Or.inr ⟨hrest, hlow, hhigh⟩⟩)

theorem tscInit_calibrated_3GHz : Calibrated ⟨some 3000000000, none, none⟩ 3000000000 :=
  (tscInit_calibrated rfl (by decide)).1 (Or.inr (by decide))

/-- At 5 GHz both truncations strike, and a second counts as two. -/
theorem tsc_5GHz_not_calibrated : ¬ Calibrated ⟨some 5000000000, none, none⟩ 5000000000 := by
  rintro ⟨sources, hinit, hall⟩
  obtain rfl := Option.some.inj hinit
  have hone := hall _ (List.mem_singleton_self _) 1 5000000000 rfl (by decide +kernel)
  have hns : (cyclesToNs 5000000000 1796902303 32).toNat = 2091869598 := by decide +kernel
  have habs : |((2091869598 : ℕ) : ℚ) - (1 : ℕ) * (10 ^ 9 : ℕ)| ≤
      (5000000000 : ℕ) / (2 ^ 32 : ℕ) + 1 := hns ▸ hone
  norm_num at habs

end Tsc

end UnnamedKernel.Drivers
