import Mathlib.Data.List.Chain
import UnnamedKernel.Drivers.Clocksource
import UnnamedKernel.Lib.Counter

/-!
# Kernel time runs backwards at the end of an epoch

`ktime::now` scales the raw reading of the counter, so its value is that of a scaled counter
whose product wraps at 64 bits.
-/

namespace UnnamedKernel.Drivers

open UnnamedKernel.Lib Counter

variable {fw : Firmware} {cs : Clocksource} {a b t : Nat}

/-- The counter starts again after so many ticks. -/
def Clocksource.period (cs : Clocksource) : Nat := 2 ^ cs.counterBits

theorem Clocksource.period_pos (cs : Clocksource) : 0 < cs.period := Nat.two_pow_pos _

/-- What every source that a driver registers is like. -/
structure Registered (cs : Clocksource) : Prop where
  read : ∀ t, (cs.read t).toNat = t % cs.period
  shift : cs.shift = 32
  width : cs.counterBits = 64 ∧ cs.mask = 0xFFFFFFFFFFFFFFFF ∨
    (cs.counterBits = 32 ∨ cs.counterBits = 24) ∧ (cs.mask = 0xFFFFFFFF ∨ cs.mask = 0xFFFFFF)

section Registration

theorem computeMs_shift {freqHz : BitVec 32} {ms : MultShift} (h : computeMs freqHz 0 = some ms) :
    ms.shift = 32 := by
  simp only [computeMs, if_pos] at h
  split_ifs at h
  obtain rfl := Option.some.inj h
  rfl

theorem toNat_tscRead (t : Nat) : (Tsc.read t).toNat = t % 2 ^ 64 := by
  have hread : Tsc.read t = BitVec.ofNat 64 t := by
    apply BitVec.eq_of_getLsbD_eq
    intro i hi
    simp only [Tsc.read, BitVec.getLsbD_or, BitVec.getLsbD_shiftLeft, BitVec.getLsbD_setWidth,
      BitVec.getLsbD_ushiftRight]
    by_cases hlow : i < 32
    · simp [hlow, hi]
    · simp [hlow, hi, show 32 + (i - 32) = i by omega, show i - 32 < 32 by omega,
        show i - 32 < 64 by omega]
  rw [hread, BitVec.toNat_ofNat]

theorem toNat_hpetRead (t : Nat) : (Hpet.read t).toNat = t % 2 ^ 32 := by
  rw [Hpet.read, BitVec.toNat_setWidth_of_le (by decide), BitVec.toNat_ofNat]

theorem toNat_acpiPmRead (tmrValExt : Bool) (t : Nat) :
    (AcpiPm.read tmrValExt t).toNat = t % 2 ^ AcpiPm.counterBits tmrValExt := by
  rw [AcpiPm.read, BitVec.toNat_setWidth_of_le (by decide), BitVec.toNat_ofNat]
  cases tmrValExt with
  | false => exact Nat.mod_eq_of_lt (Nat.lt_trans (Nat.mod_lt _ (by decide)) (by decide))
  | true => exact Nat.mod_mod t _

theorem tscSource_registered {freqHz : BitVec 32} (h : Tsc.source freqHz = some cs) :
    Registered cs := by
  obtain ⟨ms, hms, hcs⟩ := Option.bind_eq_some_iff.1 h
  obtain rfl := Option.some.inj hcs
  exact ⟨toNat_tscRead, computeMs_shift hms, Or.inl ⟨rfl, rfl⟩⟩

theorem hpetSource_registered {freqHz : BitVec 32} (h : Hpet.source freqHz = some cs) :
    Registered cs := by
  obtain ⟨ms, hms, hcs⟩ := Option.bind_eq_some_iff.1 h
  obtain rfl := Option.some.inj hcs
  exact ⟨toNat_hpetRead, computeMs_shift hms, Or.inr ⟨Or.inl rfl, Or.inl rfl⟩⟩

theorem acpiPmSource_registered {mask : Word} (hmask : mask = 0xFFFFFFFF ∨ mask = 0xFFFFFF)
    {tmrValExt : Bool} (h : AcpiPm.source mask tmrValExt = some cs) : Registered cs := by
  obtain ⟨ms, hms, rfl⟩ : ∃ ms, computeMs AcpiPm.freqHz 0 = some ms ∧ _ = cs := by
    simpa [AcpiPm.source, Option.bind_eq_some_iff] using h
  refine ⟨toNat_acpiPmRead tmrValExt, computeMs_shift hms, Or.inr ⟨?_, hmask⟩⟩
  cases tmrValExt with
  | false => exact Or.inr rfl
  | true => exact Or.inl rfl

theorem tscInit_registered {sources : List Clocksource} (h : Tsc.init fw = some sources) :
    ∀ cs ∈ sources, Registered cs := by
  unfold Tsc.init at h
  cases hf : fw.tscFrequency with
  | none => simp_all
  | some frequency =>
      rw [hf] at h
      dsimp only at h
      split_ifs at h
      · simp_all
      · obtain ⟨cs, hcs, rfl⟩ := Option.map_eq_some_iff.1 h
        simpa using tscSource_registered hcs

theorem hpetInit_registered {sources : List Clocksource} (h : Hpet.init fw = some sources) :
    ∀ cs ∈ sources, Registered cs := by
  unfold Hpet.init at h
  cases hf : fw.hpet with
  | none => simp_all
  | some table =>
      rw [hf] at h
      dsimp only at h
      split_ifs at h
      · simp_all
      · obtain ⟨cs, hcs, rfl⟩ := Option.map_eq_some_iff.1 h
        simpa using hpetSource_registered hcs
      · simp_all

theorem acpiPmInit_registered {sources : List Clocksource} (h : AcpiPm.init fw = some sources) :
    ∀ cs ∈ sources, Registered cs := by
  unfold AcpiPm.init at h
  cases hf : fw.fadt with
  | none => simp_all
  | some table =>
      rw [hf] at h
      dsimp only at h
      split_ifs at h
      · simp_all
      · obtain ⟨cs, hcs, rfl⟩ := Option.map_eq_some_iff.1 h
        simpa using acpiPmSource_registered (Or.inl rfl) hcs
      · obtain ⟨cs, hcs, rfl⟩ := Option.map_eq_some_iff.1 h
        simpa using acpiPmSource_registered (Or.inr rfl) hcs

theorem pickWinner_mem (winner : Clocksource) (sources : List Clocksource) :
    pickWinner winner sources ∈ winner :: sources := by
  induction sources generalizing winner with
  | nil => exact List.mem_cons_self ..
  | cons cs sources ih =>
      rw [pickWinner]
      split_ifs with hbetter
      · exact List.mem_cons_of_mem _ (ih cs)
      · rcases List.mem_cons.1 (ih winner) with heq | hmem
        · rw [heq]
          exact List.mem_cons_self ..
        · exact List.mem_cons_of_mem _ (List.mem_cons_of_mem _ hmem)

theorem init_registered (h : init fw = some (some cs)) : Registered cs := by
  obtain ⟨tsc, htsc, h⟩ := Option.bind_eq_some_iff.1 h
  obtain ⟨hpet, hhpet, h⟩ := Option.bind_eq_some_iff.1 h
  obtain ⟨acpiPm, hacpiPm, h⟩ := Option.bind_eq_some_iff.1 h
  have hall : ∀ cs ∈ tsc ++ hpet ++ acpiPm, Registered cs := by
    simp only [List.mem_append]
    rintro cs ((hmem | hmem) | hmem)
    · exact tscInit_registered htsc cs hmem
    · exact hpetInit_registered hhpet cs hmem
    · exact acpiPmInit_registered hacpiPm cs hmem
  cases hsources : tsc ++ hpet ++ acpiPm with
  | nil => simp [hsources] at h
  | cons winner sources =>
      rw [hsources] at h hall
      obtain rfl := Option.some.inj (Option.some.inj h)
      exact hall _ (pickWinner_mem winner sources)

end Registration

/-! ## The value of `now` -/

section Value

/-- The scaled counter never gets to its first nanosecond. -/
def Clocksource.Flat (cs : Clocksource) : Prop := (cs.period - 1) * cs.mult.toNat < 2 ^ 32

theorem Registered.toNat_now (h : Registered cs) (t : Nat) :
    (Ktime.now cs t).ns.toNat = scaled cs.period cs.mult.toNat (2 ^ 64) (2 ^ 32) t := by
  have hmult : (cs.mult.setWidth 64).toNat = cs.mult.toNat :=
    BitVec.toNat_setWidth_of_le (by decide)
  have hshift : (32 : BitVec 32).toNat = 32 := rfl
  simp only [Ktime.now, Ktime.fromCycles, cyclesToNs, h.shift, hshift]
  rw [BitVec.toNat_ushiftRight, BitVec.toNat_mul, h.read, hmult, Nat.shiftRight_eq_div_pow, scaled]

theorem Registered.le_iff (h : Registered cs) (a b : Nat) :
    (Ktime.now cs a).Le (Ktime.now cs b) ↔
      scaled cs.period cs.mult.toNat (2 ^ 64) (2 ^ 32) a ≤
        scaled cs.period cs.mult.toNat (2 ^ 64) (2 ^ 32) b := by
  -- the values are small enough for the sign not to matter
  have hsmall : ∀ t, (Ktime.now cs t).ns.toInt = (Ktime.now cs t).ns.toNat := by
    intro t
    apply BitVec.toInt_eq_toNat_of_lt
    have hlt := Nat.div_lt_of_lt_mul (n := 2 ^ 32) (k := 2 ^ 32)
      (Nat.mod_lt (t % cs.period * cs.mult.toNat) (by decide : 0 < 2 ^ 64))
    rw [h.toNat_now, scaled]
    omega
  rw [Ktime.Le, BitVec.sle_iff_toInt_le, hsmall, hsmall, Int.ofNat_le, h.toNat_now, h.toNat_now]

theorem Clocksource.Flat.scaled_eq (h : cs.Flat) (t : Nat) :
    scaled cs.period cs.mult.toNat (2 ^ 64) (2 ^ 32) t = 0 := by
  have hle : t % cs.period ≤ cs.period - 1 := Nat.le_sub_one_of_lt (Nat.mod_lt t cs.period_pos)
  have hprod := Nat.mul_le_mul_right cs.mult.toNat hle
  exact Nat.div_eq_of_lt (Nat.lt_of_le_of_lt (Nat.mod_le ..) (Nat.lt_of_le_of_lt hprod h))

/-- Otherwise the last reading before the counter wraps is worth a nanosecond. -/
theorem Registered.last_of_not_flat (h : Registered cs) (hflat : ¬ cs.Flat) :
    2 ^ 32 ≤ (cs.period - 1) * cs.mult.toNat % 2 ^ 64 := by
  have hlt := cs.mult.isLt
  unfold Clocksource.Flat at hflat
  rw [Clocksource.period] at hflat ⊢
  rcases h.width with ⟨hbits, -⟩ | ⟨hbits | hbits, -⟩ <;> rw [hbits] at hflat ⊢
  · have hsplit : (2 ^ 64 - 1) * cs.mult.toNat =
        2 ^ 64 - cs.mult.toNat + 2 ^ 64 * (cs.mult.toNat - 1) := by omega
    rw [hsplit, Nat.add_mul_mod_self_left, Nat.mod_eq_of_lt (by omega)]
    omega
  · rw [Nat.mod_eq_of_lt (by omega)]
    omega
  · rw [Nat.mod_eq_of_lt (by omega)]
    omega

theorem Registered.mask_pos (h : Registered cs) : 0 < cs.mask.toNat := by
  rcases h.width with ⟨-, hm⟩ | ⟨-, hm | hm⟩ <;> rw [hm] <;> decide

end Value

/-- Calls at these ticks, no more than the mask apart. -/
def Calls (cs : Clocksource) (ticks : List Nat) : Prop :=
  ticks.IsChain fun t t' => t ≤ t' ∧ t' < t + (cs.mask.toNat + 1)

/-- Time never goes backwards between two ticks exactly when neither the counter nor the
product wraps between them. -/
theorem now_nondecreasing_iff (hinit : init fw = some (some cs)) (hab : a ≤ b) :
    (∀ ticks, Calls cs ticks → (∀ t ∈ ticks, a ≤ t ∧ t ≤ b) →
      (ticks.map (Ktime.now cs)).Pairwise Ktime.Le) ↔
    cs.Flat ∨ SameEpoch cs.period cs.mult.toNat (2 ^ 64) a b := by
  have h := init_registered hinit
  constructor
  · intro hall
    by_contra hnot
    obtain ⟨hflat, hepoch⟩ := not_or.1 hnot
    obtain ⟨t, hat, htb, hcross⟩ := SameEpoch.exists_crossing hab hepoch
    have hfit : cs.mult.toNat + 2 ^ 32 ≤ 2 ^ 64 := by
      have := cs.mult.isLt
      omega
    have hlt : scaled cs.period cs.mult.toNat (2 ^ 64) (2 ^ 32) (t + 1) <
        scaled cs.period cs.mult.toNat (2 ^ 64) (2 ^ 32) t :=
      scaled_crossing cs.period_pos (by decide) (Nat.le_of_lt cs.mult.isLt) hfit
        (h.last_of_not_flat hflat) hcross
    have hcalls : Calls cs [t, t + 1] :=
      List.isChain_pair.2 ⟨Nat.le_succ t, Nat.add_lt_add_left (Nat.succ_lt_succ h.mask_pos) t⟩
    have hpair := hall [t, t + 1] hcalls (by simp; omega)
    have hle : (Ktime.now cs t).Le (Ktime.now cs (t + 1)) := by simpa using hpair
    exact absurd ((h.le_iff _ _).1 hle) (Nat.not_le.2 hlt)
  · intro hor ticks hcalls hin
    have hsorted : ticks.Pairwise (· ≤ ·) := by
      rw [← List.isChain_iff_pairwise]
      exact List.IsChain.imp (fun _ _ hc => hc.1) hcalls
    rw [List.pairwise_map]
    refine hsorted.imp_of_mem fun {t t'} ht ht' hle => (h.le_iff t t').2 ?_
    rcases hor with hflat | hepoch
    · rw [hflat.scaled_eq, hflat.scaled_eq]
    · have hstart := hepoch.between (hin t ht).1 (hin t ht).2
      have hend := hepoch.between (hin t' ht').1 (hin t' ht').2
      exact (hstart.symm.trans hend).scaled_le hle

/-- Below the first wrap of its product, 4.3 s after reset, a TSC of 3 GHz is monotonic. -/
theorem now_nondecreasing_iff_first_epoch :
    ∃ cs, init ⟨some 3000000000, none, none⟩ = some (some cs) ∧
      ∀ ticks, Calls cs ticks → (∀ t ∈ ticks, 0 ≤ t ∧ t ≤ 12884901891) →
        (ticks.map (Ktime.now cs)).Pairwise Ktime.Le := by
  have hinit : init ⟨some 3000000000, none, none⟩ = some ((Tsc.source 3000000000)) := rfl
  obtain ⟨cs, hcs⟩ : ∃ cs, Tsc.source 3000000000 = some cs := ⟨_, rfl⟩
  refine ⟨cs, hinit.trans (congrArg some hcs), ?_⟩
  refine (now_nondecreasing_iff (hinit.trans (congrArg some hcs)) (by decide)).2 (Or.inr ?_)
  obtain rfl := Option.some.inj hcs
  decide +kernel

/-- One tick later it is back at zero. -/
theorem now_runs_backwards :
    ∃ cs, init ⟨some 3000000000, none, none⟩ = some (some cs) ∧
      ¬ ∀ ticks, Calls cs ticks → (ticks.map (Ktime.now cs)).Pairwise Ktime.Le := by
  have hinit : init ⟨some 3000000000, none, none⟩ = some ((Tsc.source 3000000000)) := rfl
  obtain ⟨cs, hcs⟩ : ∃ cs, Tsc.source 3000000000 = some cs := ⟨_, rfl⟩
  refine ⟨cs, hinit.trans (congrArg some hcs), fun hall => ?_⟩
  obtain rfl := Option.some.inj hcs
  have hpair := hall [12884901891, 12884901892] (List.isChain_pair.2 (by decide +kernel))
  revert hpair
  decide +kernel

end UnnamedKernel.Drivers
