import UnnamedKernel.Lib.Copy

/-!
# `memcpy` and `memmove` (`lib/memory.cpp`)

`memmove` copies upwards when the destination lies below the source and downwards when it
lies above, so it reads each byte before it writes it.
-/

namespace UnnamedKernel.Kernel

open UnnamedKernel.Lib

/-- The loop of `memcpy`, with `count` bytes to go from byte `i` on. -/
def memcpyLoop (dest src : Word) : Nat → Word → Mem → Mem
  | 0, _, m => m
  | count + 1, i, m => memcpyLoop dest src count (i + 1) (m.write8 (dest + i) (m (src + i)))

/-- `memcpy`. -/
def memcpy (m : Mem) (dest src n : Word) : Word × Mem := (dest, memcpyLoop dest src n.toNat 0 m)

/-- The loop of `memmove`, which goes down from byte `i - 1`. -/
def memmoveLoop (dest src : Word) : Nat → Mem → Mem
  | 0, m => m
  | i + 1, m => memmoveLoop dest src i
      (m.write8 (dest + BitVec.ofNat 64 i) (m (src + BitVec.ofNat 64 i)))

/-- `memmove`. -/
def memmove (m : Mem) (dest src n : Word) : Word × Mem :=
  if dest < src then memcpy m dest src n
  else if src < dest then (dest, memmoveLoop dest src n.toNat m)
  else (dest, m)

variable {dest src : Word}

/-- Upwards to a lower address, no byte is read after it has been written. -/
theorem memcpyLoop_copy (m : Mem) (hbelow : dest < src) (count i : Nat)
    (hsrc : src.toNat + (i + count) ≤ 2 ^ 64) :
    memcpyLoop dest src count (BitVec.ofNat 64 i) (m.copy dest src 0 i) =
      m.copy dest src 0 (i + count) := by
  induction count generalizing i with
  | zero => rfl
  | succ count ih =>
      have hnext : BitVec.ofNat 64 i + 1 = BitVec.ofNat 64 (i + 1) := by bv_omega
      have hread : m.copy dest src 0 i (src + BitVec.ofNat 64 i) =
          m (src + BitVec.ofNat 64 i) := by
        apply Mem.copy_of_not_inside
        bv_omega
      rw [memcpyLoop, Mem.copy_write8_succ (Nat.zero_le i) (by omega) hread, hnext,
        ih (i + 1) (by omega)]
      congr 1
      omega

/-- Downwards to a higher address, no byte is read after it has been written. -/
theorem memmoveLoop_copy (m : Mem) (habove : src < dest) {n : Nat} (i : Nat) (hi : i ≤ n)
    (hdest : dest.toNat + n ≤ 2 ^ 64) :
    memmoveLoop dest src i (m.copy dest src i n) = m.copy dest src 0 n := by
  induction i with
  | zero => rfl
  | succ i ih =>
      have hread : m.copy dest src (i + 1) n (src + BitVec.ofNat 64 i) =
          m (src + BitVec.ofNat 64 i) := by
        apply Mem.copy_of_not_inside
        bv_omega
      rw [memmoveLoop, Mem.copy_write8_pred (by omega) (by omega) hread]
      exact ih (by omega)

/-- `memmove` is a copy of what the source held before, for every overlap. -/
theorem memmove_eq (m : Mem) {dest src n : Word} (hdest : dest.toNat + n.toNat ≤ 2 ^ 64)
    (hsrc : src.toNat + n.toNat ≤ 2 ^ 64) :
    memmove m dest src n = (dest, m.copy dest src 0 n.toNat) := by
  unfold memmove
  split_ifs with hbelow habove
  · have hcopy := memcpyLoop_copy m hbelow n.toNat 0 (by omega)
    rw [Mem.copy_empty, Nat.zero_add] at hcopy
    rw [memcpy]
    exact congrArg (Prod.mk dest) hcopy
  · have hcopy := memmoveLoop_copy m habove n.toNat (Nat.le_refl _) hdest
    rw [Mem.copy_empty] at hcopy
    rw [hcopy]
  · obtain rfl : dest = src := by bv_omega
    refine congrArg (Prod.mk dest) (funext fun x => ?_)
    have hsame : dest + (x - dest) = x := by bv_omega
    unfold Mem.copy
    rw [hsame, ite_self]

/-- Every byte of the destination becomes what the byte of the source was, and no other byte
changes. -/
theorem memmove_copies (m : Mem) {dest src n : Word} (hdest : dest.toNat + n.toNat ≤ 2 ^ 64)
    (hsrc : src.toNat + n.toNat ≤ 2 ^ 64) :
    (∀ i < n.toNat, (memmove m dest src n).2 (dest + BitVec.ofNat 64 i) =
      m (src + BitVec.ofNat 64 i)) ∧
    ∀ x, ¬ Mem.InRange dest n x → (memmove m dest src n).2 x = m x := by
  rw [memmove_eq m hdest hsrc]
  constructor
  · intro i hi
    exact Mem.copy_inside (Nat.zero_le i) hi (hi.trans n.isLt)
  · intro x hx
    apply Mem.copy_of_not_inside
    rw [Mem.InRange, BitVec.lt_def] at hx
    omega

/-- Three bytes to the next address. -/
theorem memmove_copies_overlapping :
    (memmove (fun x => x.setWidth 8) 0x1001 0x1000 3).2 0x1003 = 2 := by
  have hdest : (0x1001 : Word).toNat + (3 : Word).toNat ≤ 2 ^ 64 := by decide
  have hsrc : (0x1000 : Word).toNat + (3 : Word).toNat ≤ 2 ^ 64 := by decide
  exact (memmove_copies (fun x => x.setWidth 8) hdest hsrc).1 2 (by decide)

end UnnamedKernel.Kernel
