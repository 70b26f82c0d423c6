import UnnamedKernel.Drivers.Ktime

/-!
# Elapsed ticks across a wrap of the counter

`read_delta` subtracts two readings and masks the difference, so it measures the elapsed ticks
when the mask has the width of the counter. A wider mask is right between two wraps only.
-/

namespace UnnamedKernel.Drivers

open UnnamedKernel.Lib Counter

variable {fw : Firmware} {cs : Clocksource} {a b t : Nat} {ticks : List Nat}

/-! ## One reading -/

section Reading

/-- The elapsed ticks are no more than the mask holds, and a mask wider than the counter meets
no wrap. -/
def Clocksource.Spans (cs : Clocksource) (a b : Nat) : Prop :=
  b - a ≤ cs.mask.toNat ∧ (cs.mask.toNat < cs.period ∨ a / cs.period = b / cs.period)

instance (cs : Clocksource) (a b : Nat) : Decidable (cs.Spans a b) :=
  inferInstanceAs (Decidable (_ ∧ _))

theorem Registered.updateCycleLast (h : Registered cs) (cycles : Word) :
    Registered (cs.updateCycleLast cycles) :=
  ⟨h.read, h.shift, h.width⟩

theorem Registered.mask_eq (h : Registered cs) :
    ∃ bits ≤ 64, cs.mask.toNat + 1 = 2 ^ bits := by
  rcases h.width with ⟨-, hmask⟩ | ⟨-, hmask | hmask⟩ <;> rw [hmask]
  · exact ⟨64, by decide, by decide⟩
  · exact ⟨32, by decide, by decide⟩
  · exact ⟨24, by decide, by decide⟩

theorem Registered.period_dvd (h : Registered cs) : cs.period ∣ 2 ^ 64 := by
  apply Nat.pow_dvd_pow
  rcases h.width with ⟨hbits, -⟩ | ⟨hbits | hbits, -⟩ <;> rw [hbits] <;> decide

theorem Registered.toNat_readDelta (h : Registered cs) (a b : Nat) :
    ((cs.updateCycleLast (cs.read a)).readDelta b).toNat =
      (2 ^ 64 - a % cs.period + b % cs.period) % 2 ^ 64 % (cs.mask.toNat + 1) := by
  obtain ⟨bits, -, hmask⟩ := h.mask_eq
  have hones : cs.mask.toNat = 2 ^ bits - 1 := by omega
  simp only [Clocksource.readDelta, Clocksource.updateCycleLast]
  rw [BitVec.toNat_and, BitVec.toNat_sub, h.read, h.read, hmask, hones,
    Nat.and_two_pow_sub_one_eq_mod]

/-- One reading measures the elapsed ticks exactly when they are spanned. -/
theorem Registered.readDelta_eq_iff (h : Registered cs) (hab : a ≤ b) (hgap : b < a + cs.period) :
    ((cs.updateCycleLast (cs.read a)).readDelta b).toNat = b - a ↔ cs.Spans a b := by
  obtain ⟨bits, hbits, hmask⟩ := h.mask_eq
  rw [h.toNat_readDelta, Clocksource.Spans]
  by_cases hwide : cs.mask.toNat < cs.period
  · have hdvd : cs.mask.toNat + 1 ∣ cs.period := by
      have hle : 2 ^ bits ≤ 2 ^ cs.counterBits := hmask ▸ hwide
      rw [hmask]
      exact Nat.pow_dvd_pow 2 ((Nat.pow_le_pow_iff_right (by decide)).1 hle)
    rw [sub_mod_mod hdvd h.period_dvd cs.period_pos (by decide) hab]
    simp only [hwide, true_or, and_true]
    rw [Nat.mod_eq_iff_lt (by omega), Nat.lt_succ_iff]
  · rw [sub_mod_eq_iff (by omega) (hmask ▸ Nat.pow_dvd_pow 2 hbits) (by decide) cs.period_pos hab
      hgap]
    simp only [hwide, false_or, iff_and_self]
    omega

end Reading

/-! ## Many readings -/

section Readings

/-- What `read_delta` returns when it is called at these ticks, each time followed by
`update_cycle_last`. -/
def deltas (cs : Clocksource) : List Nat → List Word
  | [] => []
  | t :: ticks => cs.readDelta t :: deltas (cs.updateCycleLast (cs.read t)) ticks

/-- The ticks from each call to the next. -/
def gaps (t : Nat) : List Nat → List Nat
  | [] => []
  | t' :: ticks => (t' - t) :: gaps t' ticks

theorem add_sum_gaps (h : (t :: ticks).IsChain (· ≤ ·)) :
    t + (gaps t ticks).sum = (t :: ticks).getLast (List.cons_ne_nil t ticks) := by
  induction ticks generalizing t with
  | nil => simp [gaps]
  | cons t' ticks ih =>
      obtain ⟨hle, hchain⟩ := List.isChain_cons_cons.1 h
      rw [gaps, List.sum_cons, List.getLast_cons_cons, ← ih hchain]
      omega

/-- A run of calls measures the elapsed ticks. -/
def Measures (cs : Clocksource) (t : Nat) (ticks : List Nat) : Prop :=
  (deltas (cs.updateCycleLast (cs.read t)) ticks).map BitVec.toNat = gaps t ticks ∧
    ((deltas (cs.updateCycleLast (cs.read t)) ticks).map BitVec.toNat).sum =
      (t :: ticks).getLast (List.cons_ne_nil t ticks) - t

theorem Registered.deltas_eq_iff (h : Registered cs)
    (hgaps : (t :: ticks).IsChain fun a b => a ≤ b ∧ b < a + cs.period) :
    (deltas (cs.updateCycleLast (cs.read t)) ticks).map BitVec.toNat = gaps t ticks ↔
      (t :: ticks).IsChain cs.Spans := by
  induction ticks generalizing t cs with
  | nil => simp [deltas, gaps]
  | cons t' ticks ih =>
      obtain ⟨⟨hle, hgap⟩, hrest⟩ := List.isChain_cons_cons.1 hgaps
      have hread := (h.updateCycleLast (cs.read t))
      rw [deltas, gaps, List.map_cons, List.cons.injEq, List.isChain_cons_cons,
        h.readDelta_eq_iff hle hgap]
      exact and_congr_right fun _ => ih hread hrest

/-- Over every run of calls, less than a period of the counter apart, the deltas are the
elapsed ticks exactly when the mask spans each of them. -/
theorem readDelta_measures_iff {sources : List Clocksource}
    (hinit : Tsc.init fw = some sources ∨ Hpet.init fw = some sources ∨
      AcpiPm.init fw = some sources) (hcs : cs ∈ sources)
    (hgaps : (t :: ticks).IsChain fun a b => a ≤ b ∧ b < a + cs.period) :
    Measures cs t ticks ↔ (t :: ticks).IsChain cs.Spans := by
  have h : Registered cs := by
    rcases hinit with hinit | hinit | hinit
    · exact tscInit_registered hinit cs hcs
    · exact hpetInit_registered hinit cs hcs
    · exact acpiPmInit_registered hinit cs hcs
  rw [← h.deltas_eq_iff hgaps]
  constructor
  · exact And.left
  · intro heq
    refine ⟨heq, ?_⟩
    rw [heq, ← add_sum_gaps (hgaps.imp fun _ _ hgap => hgap.1), Nat.add_sub_cancel_left]

/-- The HPET, read on both sides of a wrap. -/
theorem readDelta_measures_iff_hpet :
    ∃ cs, Hpet.init ⟨none, some (true, 69841279), none⟩ = some [cs] ∧
      Measures cs 4294967290 [4294967295, 4294967299, 8589934591] := by
  obtain ⟨cs, hcs⟩ : ∃ cs, Hpet.source 14318179 = some cs := ⟨_, rfl⟩
  have hinit : Hpet.init ⟨none, some (true, 69841279), none⟩ = some [cs] := by
    rw [show Hpet.init ⟨none, some (true, 69841279), none⟩ =
      (Hpet.source 14318179).map fun cs => [cs] from rfl, hcs]
    rfl
  refine ⟨cs, hinit, ?_⟩
  obtain rfl := Option.some.inj hcs
  exact (readDelta_measures_iff (Or.inr (Or.inl hinit)) (List.mem_singleton_self _)
    (by decide +kernel)).2 (by decide +kernel)

/-- A PM timer of 24 bits whose FADT says four bytes: the tick at which it wraps counts as
2³² - 2²⁴ + 1. -/
theorem acpiPm_wrap_not_measured :
    ∃ cs, AcpiPm.init ⟨none, none, some ⟨0x608, 4, false⟩⟩ = some [cs] ∧
      ¬ Measures cs 16777215 [16777216] := by
  refine ⟨_, rfl, fun h => ?_⟩
  have hdelta := h.1
  revert hdelta
  decide +kernel

end Readings

end UnnamedKernel.Drivers
