import UnnamedKernel.Mm.Vmm.Walk

/-!
# Entries in memory

Two entries of page tables share no byte, so a store changes one entry, and
clearing a fresh table changes the entries of that table. The flag bits of the
entries that `map_virtual` writes are read off here once.
-/

namespace UnnamedKernel.Mm.Vmm

open UnnamedKernel.Lib UnnamedKernel.Kernel RadixTree

/-! ## Frames -/

theorem Frame.toNat_lt (t : Frame) : t.val.toNat < 2 ^ 52 := by
  have h := congrArg BitVec.toNat t.property
  rw [BitVec.toNat_and] at h
  rw [← h]
  exact Nat.lt_of_le_of_lt Nat.and_le_right (by decide)

theorem Frame.toNat_mod (t : Frame) : t.val.toNat % 4096 = 0 := by
  have hzero : t.val &&& (pageSize - 1) = 0 := by
    rw [← t.property, BitVec.and_assoc, show ppnMask &&& (pageSize - 1) = 0 by decide]
    exact BitVec.and_zero
  exact (and_sub_one_eq_zero_iff t.val isPow2_pageSize).1 hzero

theorem and_ppnMask_of_aligned {w : Word} (hmod : w.toNat % 4096 = 0) (hlt : w.toNat < 2 ^ 52) :
    w &&& ppnMask = w := by
  have hmask : ppnMask = ~~~(pageSize - 1) &&& 0x000FFFFFFFFFFFFF := by decide
  have hdown : w &&& ~~~(pageSize - 1) = w := by
    apply BitVec.eq_of_toNat_eq
    have := toNat_roundDown w isPow2_pageSize
    rw [toNat_pageSize] at this
    rw [show w &&& ~~~(pageSize - 1) = roundDown w pageSize from rfl, this]
    omega
  rw [hmask, ← BitVec.and_assoc, hdown]
  apply BitVec.eq_of_toNat_eq
  rw [BitVec.toNat_and, show (0x000FFFFFFFFFFFFF : Word).toNat = 2 ^ 52 - 1 from rfl,
    Nat.and_two_pow_sub_one_eq_mod, Nat.mod_eq_of_lt hlt]

/-! ## Stores to entries -/

section Stores

variable {m : Mem} {slide : Word} {t u : Frame} {i j : Fin 512}

theorem toNat_index (i : Fin 512) : (8 * BitVec.ofNat 64 i.val : Word).toNat = 8 * i.val := by
  have := i.isLt
  bv_omega

theorem entryPtr_add (t slide k : Word) : entryPtr (t + slide) k = t + 8 * k + slide := by
  unfold entryPtr
  ac_rfl

theorem toNat_entryOffset (t : Frame) (i : Fin 512) :
    (t.val + 8 * BitVec.ofNat 64 i.val).toNat = t.val.toNat + 8 * i.val := by
  have ht := t.toNat_lt
  have hi := i.isLt
  rw [BitVec.toNat_add, toNat_index]
  omega

/-- Distinct entries share no byte, whatever the slide is. -/
theorem entryPtr_apart (h : ¬ (t = u ∧ i = j)) :
    Mem.Apart (entryPtr (t.val + slide) (BitVec.ofNat 64 i))
      (entryPtr (u.val + slide) (BitVec.ofNat 64 j)) := by
  have ht := t.toNat_mod
  have hu := u.toNat_mod
  have hi := i.isLt
  have hj := j.isLt
  rw [entryPtr_add, entryPtr_add, Mem.apart_add_right]
  apply Mem.Apart.of_aligned
  · rw [toNat_entryOffset]
    omega
  · rw [toNat_entryOffset]
    omega
  · intro he
    have hsum := congrArg BitVec.toNat he
    rw [toNat_entryOffset, toNat_entryOffset] at hsum
    exact h ⟨Subtype.ext (BitVec.eq_of_toNat_eq (by omega)), Fin.ext (by omega)⟩

theorem entry_write64 (m : Mem) (slide : Word) (t : Frame) (i : Fin 512) (e : Word) :
    WritesEntry (entry m slide)
      (entry (m.write64 (entryPtr (t.val + slide) (BitVec.ofNat 64 i)) e) slide) t i e :=
  ⟨Mem.read64_write64_same _ _ _, fun _ _ h => Mem.read64_write64_apart m e (entryPtr_apart h)⟩

theorem entry_fill_same (u : Frame) (j : Fin 512) :
    entry (m.fill (u.val + slide) 0x1000 0) slide u j = 0 := by
  apply Mem.read64_fill_zero
  intro x hx
  have hj := toNat_index j
  have hjl := j.isLt
  unfold Mem.InRange entryPtr at *
  bv_omega

theorem entry_fill_other (h : t ≠ u) (j : Fin 512) :
    entry (m.fill (u.val + slide) 0x1000 0) slide t j = entry m slide t j := by
  apply Mem.read64_fill_outside
  intro x hx
  have ht := t.toNat_lt
  have hu := u.toNat_lt
  have htm := t.toNat_mod
  have hum := u.toNat_mod
  have hj := toNat_index j
  have hjl := j.isLt
  have hne : t.val.toNat ≠ u.val.toNat := fun he => h (Subtype.ext (BitVec.eq_of_toNat_eq he))
  unfold Mem.InRange entryPtr at *
  bv_omega

end Stores

/-! ## Flag bits -/

theorem isFlagSet_twoPow (e : Word) {k : Nat} (hk : k < 64) :
    isFlagSet e (BitVec.twoPow 64 k) = e.getLsbD k := by
  have hne : BitVec.twoPow 64 k ≠ 0 := by
    intro h
    have := congrArg (BitVec.getLsbD · k) h
    simp [hk] at this
  rw [isFlagSet, BitVec.and_twoPow]
  cases e.getLsbD k with
  | true => simp
  | false => simpa using hne.symm

theorem isFlagSet_present (e : Word) : isFlagSet e PageBits.present = e.getLsbD 0 :=
  isFlagSet_twoPow e (by decide)

theorem isFlagSet_readWrite (e : Word) : isFlagSet e PageBits.readWrite = e.getLsbD 1 :=
  isFlagSet_twoPow e (by decide)

theorem isFlagSet_user (e : Word) : isFlagSet e PageBits.user = e.getLsbD 2 :=
  isFlagSet_twoPow e (by decide)

theorem isFlagSet_writeThrough (e : Word) : isFlagSet e PageBits.writeThrough = e.getLsbD 3 :=
  isFlagSet_twoPow e (by decide)

theorem isFlagSet_cacheDisable (e : Word) : isFlagSet e PageBits.cacheDisable = e.getLsbD 4 :=
  isFlagSet_twoPow e (by decide)

theorem isFlagSet_largePage (e : Word) : isFlagSet e largePage = e.getLsbD 7 :=
  isFlagSet_twoPow e (by decide)

theorem isFlagSet_noExecute (e : Word) : isFlagSet e PageBits.noExecute = e.getLsbD 63 :=
  isFlagSet_twoPow e (by decide)

theorem and_present_eq_zero_iff (e : Word) :
    e &&& PageBits.present = 0 ↔ isFlagSet e PageBits.present = false := by
  rw [isFlagSet_present, show PageBits.present = BitVec.twoPow 64 0 by decide, BitVec.and_twoPow]
  cases e.getLsbD 0 <;> decide

/-- The entry that links a new table. -/
def tableEntry (u : Frame) : Word :=
  (u.val &&& ppnMask) ||| PageBits.present ||| PageBits.readWrite ||| PageBits.user

theorem tableEntry_getLsbD (u : Frame) {k : Nat} (hk : ppnMask.getLsbD k = false) :
    (tableEntry u).getLsbD k = (7 : Word).getLsbD k := by
  have hflags : PageBits.present ||| PageBits.readWrite ||| PageBits.user = 7 := by decide
  rw [tableEntry, BitVec.or_assoc, BitVec.or_assoc, ← BitVec.or_assoc PageBits.present, hflags,
    BitVec.getLsbD_or, BitVec.getLsbD_and, hk, Bool.and_false, Bool.false_or]

theorem or_and_ppnMask (p : Word) {f : Word} (hf : f &&& ppnMask = 0) :
    ((p &&& ppnMask) ||| f) &&& ppnMask = p &&& ppnMask := by
  rw [BitVec.and_or_distrib_right, hf, BitVec.and_assoc, BitVec.and_self]
  exact BitVec.or_zero

theorem tableOf_tableEntry (u : Frame) : tableOf (tableEntry u) = some u := by
  have hframe : tableEntry u &&& ppnMask = u.val := by
    have hflags : PageBits.present ||| (PageBits.readWrite ||| PageBits.user) = 7 := by decide
    rw [tableEntry, BitVec.or_assoc, BitVec.or_assoc, hflags, or_and_ppnMask _ (by decide),
      u.property]
  have hpresent : isFlagSet (tableEntry u) PageBits.present = true := by
    rw [isFlagSet_present, tableEntry_getLsbD u (by decide)]
    decide
  have hlarge : isFlagSet (tableEntry u) largePage = false := by
    rw [isFlagSet_largePage, tableEntry_getLsbD u (by decide)]
    decide
  rw [tableOf, hpresent, hlarge]
  exact congrArg some (Subtype.ext hframe)

theorem tableOf_zero : tableOf 0 = none := by decide

/-- The final entry that `map_virtual` writes. -/
def leafEntry (phys : Word) (flags : MapFlags) : Word := (phys &&& ppnMask) ||| entryFlags flags

theorem leafEntry_frame (phys : Word) (flags : MapFlags) :
    leafEntry phys flags &&& ppnMask = phys &&& ppnMask := by
  apply or_and_ppnMask
  unfold entryFlags
  cases isFlagSet flags MapFlags.write <;> cases isFlagSet flags MapFlags.user <;>
    cases isFlagSet flags MapFlags.writeThrough <;> cases isFlagSet flags MapFlags.cacheDisable <;>
    cases isFlagSet flags MapFlags.execute <;> decide

theorem leafEntry_getLsbD (phys : Word) (flags : MapFlags) {k : Nat}
    (hk : ppnMask.getLsbD k = false) :
    (leafEntry phys flags).getLsbD k = (entryFlags flags).getLsbD k := by
  rw [leafEntry, BitVec.getLsbD_or, BitVec.getLsbD_and, hk, Bool.and_false, Bool.false_or]

theorem leafEntry_flags (phys : Word) (flags : MapFlags) :
    isFlagSet (leafEntry phys flags) PageBits.present = true ∧
      isFlagSet (leafEntry phys flags) PageBits.readWrite = isFlagSet flags MapFlags.write ∧
      isFlagSet (leafEntry phys flags) PageBits.user = isFlagSet flags MapFlags.user ∧
      isFlagSet (leafEntry phys flags) PageBits.noExecute = !isFlagSet flags MapFlags.execute ∧
      isFlagSet (leafEntry phys flags) PageBits.writeThrough =
        isFlagSet flags MapFlags.writeThrough ∧
      isFlagSet (leafEntry phys flags) PageBits.cacheDisable =
        isFlagSet flags MapFlags.cacheDisable := by
  rw [isFlagSet_present, isFlagSet_readWrite, isFlagSet_user, isFlagSet_noExecute,
    isFlagSet_writeThrough, isFlagSet_cacheDisable, leafEntry_getLsbD _ _ (by decide),
    leafEntry_getLsbD _ _ (by decide), leafEntry_getLsbD _ _ (by decide),
    leafEntry_getLsbD _ _ (by decide), leafEntry_getLsbD _ _ (by decide),
    leafEntry_getLsbD _ _ (by decide)]
  unfold entryFlags
  cases isFlagSet flags MapFlags.write <;> cases isFlagSet flags MapFlags.user <;>
    cases isFlagSet flags MapFlags.writeThrough <;> cases isFlagSet flags MapFlags.cacheDisable <;>
    cases isFlagSet flags MapFlags.execute <;> decide

end UnnamedKernel.Mm.Vmm
