import UnnamedKernel.Lib.Memory

/-!
# Copying bytes

A copy of bytes as it should be: the destination holds what the source held before. A copy
one byte at a time agrees with it as long as it does not read what it has already written.
-/

namespace UnnamedKernel.Lib.Mem

/-- Store the byte `b` at `a`. -/
def write8 (m : Mem) (a : Word) (b : BitVec 8) : Mem := fun x => if x = a then b else m x

/-- The bytes `lo` to `hi` of `dest` hold what the same bytes of `src` held in `m`. -/
def copy (m : Mem) (dest src : Word) (lo hi : Nat) : Mem := fun x =>
  if lo ≤ (x - dest).toNat ∧ (x - dest).toNat < hi then m (src + (x - dest)) else m x

variable {m : Mem} {dest src : Word} {lo hi i : Nat}

theorem copy_of_not_inside {x : Word} (h : ¬ (lo ≤ (x - dest).toNat ∧ (x - dest).toNat < hi)) :
    m.copy dest src lo hi x = m x := if_neg h

@[simp] theorem copy_empty (m : Mem) (dest src : Word) (i : Nat) : m.copy dest src i i = m := by
  funext x
  exact copy_of_not_inside (by omega)

theorem copy_inside (hlo : lo ≤ i) (hhi : i < hi) (hi64 : i < 2 ^ 64) :
    m.copy dest src lo hi (dest + BitVec.ofNat 64 i) = m (src + BitVec.ofNat 64 i) := by
  have hoff : dest + BitVec.ofNat 64 i - dest = BitVec.ofNat 64 i := by
    rw [BitVec.add_comm, BitVec.add_sub_cancel]
  have hnat : (BitVec.ofNat 64 i).toNat = i := by
    rw [BitVec.toNat_ofNat, Nat.mod_eq_of_lt hi64]
  unfold copy
  rw [hoff, hnat, if_pos ⟨hlo, hhi⟩]

/-- One more byte at the end, if its source has not been written. -/
theorem copy_write8_succ (hlo : lo ≤ i) (hi64 : i < 2 ^ 64)
    (hread : m.copy dest src lo i (src + BitVec.ofNat 64 i) = m (src + BitVec.ofNat 64 i)) :
    (m.copy dest src lo i).write8 (dest + BitVec.ofNat 64 i)
      (m.copy dest src lo i (src + BitVec.ofNat 64 i)) = m.copy dest src lo (i + 1) := by
  funext x
  unfold write8
  by_cases hx : x = dest + BitVec.ofNat 64 i
  · rw [if_pos hx, hread, hx, copy_inside hlo (Nat.lt_succ_self i) hi64]
  · have hoff : (x - dest).toNat ≠ i := by bv_omega
    rw [if_neg hx]
    unfold copy
    split_ifs with h h' h'
    · rfl
    · exact absurd ⟨h.1, Nat.lt_succ_of_lt h.2⟩ h'
    · exact absurd ⟨h'.1, by omega⟩ h
    · rfl

theorem copy_write8_pred (hhi : i < hi) (hi64 : i < 2 ^ 64)
    (hread : m.copy dest src (i + 1) hi (src + BitVec.ofNat 64 i) =
      m (src + BitVec.ofNat 64 i)) :
    (m.copy dest src (i + 1) hi).write8 (dest + BitVec.ofNat 64 i)
      (m.copy dest src (i + 1) hi (src + BitVec.ofNat 64 i)) = m.copy dest src i hi := by
  funext x
  unfold write8
  by_cases hx : x = dest + BitVec.ofNat 64 i
  · rw [if_pos hx, hread, hx, copy_inside (Nat.le_refl i) hhi hi64]
  · have hoff : (x - dest).toNat ≠ i := by bv_omega
    rw [if_neg hx]
    unfold copy
    split_ifs with h h' h'
    · rfl
    · exact absurd ⟨Nat.le_of_succ_le h.1, h.2⟩ h'
    · exact absurd ⟨by omega, h'.2⟩ h
    · rfl

end UnnamedKernel.Lib.Mem
