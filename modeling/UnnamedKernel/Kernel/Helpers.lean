import UnnamedKernel.Lib.Memory

/-!
# Constants and helpers shared by the memory managers

`kernel/helpers.hpp`, `kernel/error.hpp`, `lib/utils.hpp`, the constant of `mm/pma.hpp`, and the
`memset` of `lib/memory.cpp`.
-/

namespace UnnamedKernel.Kernel

open UnnamedKernel.Lib

/-- `PAGE_SIZE`. -/
def pageSize : Word := 4096

/-- `core::ErrorCode`. -/
inductive ErrorCode where
  | memoryMisaligned
  | incorrectParameter
  | outOfMemory
  | mapFail
  deriving DecidableEq, Repr

/-- `core::check_aligned`. -/
def checkAligned (addr alignment : Word) : Bool := addr &&& (alignment - 1) == 0

/-- `core::is_flag_set`. -/
def isFlagSet {w : Nat} (v bit : BitVec w) : Bool := v &&& bit == bit

/-- `core::align_up`, which adds the alignment before it subtracts one. -/
def alignUp (value alignment : Word) : Word := (value + alignment - 1) &&& ~~~(alignment - 1)

/-- `core::align_down`. -/
def alignDown (value alignment : Word) : Word := roundDown value alignment

/-- `align_up` of `lib/utils.hpp`. -/
def utilsAlignUp (value alignment : Word) : Word := roundUp value alignment

/-- The loop of `memset`: byte `i` onwards, `count` bytes still to write. -/
def memsetLoop (ptr : Word) (ch : BitVec 8) : Nat → Word → Mem → Mem
  | 0, _, m => m
  | count + 1, i, m =>
      memsetLoop ptr ch count (i + 1) fun x => if x = ptr + i then ch else m x

/-- `memset`. A null destination is left alone. -/
def memset (m : Mem) (dest : Word) (ch : BitVec 8) (count : Word) : Mem :=
  if dest = 0 ∨ count = 0 then m else memsetLoop dest ch count.toNat 0 m

@[simp] theorem toNat_pageSize : pageSize.toNat = 4096 := rfl

theorem isPow2_pageSize : IsPow2 pageSize := ⟨12, rfl⟩

theorem alignUp_eq_roundUp (value alignment : Word) :
    alignUp value alignment = roundUp value alignment := by
  unfold alignUp roundUp
  rw [show value + alignment - 1 = value + (alignment - 1) by bv_omega]

theorem checkAligned_iff (addr : Word) {alignment : Word} (h : IsPow2 alignment) :
    checkAligned addr alignment = true ↔ addr.toNat % alignment.toNat = 0 := by
  rw [checkAligned, beq_iff_eq, and_sub_one_eq_zero_iff addr h]

theorem checkAligned_pageSize (addr : Word) :
    checkAligned addr pageSize = true ↔ addr.toNat % 4096 = 0 :=
  checkAligned_iff addr isPow2_pageSize

theorem alignUp_pageSize_mod (x : Word) : (alignUp x pageSize).toNat % 4096 = 0 := by
  rw [alignUp_eq_roundUp, roundUp_eq_roundDown, toNat_roundDown _ isPow2_pageSize, toNat_pageSize]
  omega

theorem alignUp_of_mod {x : Word} (h : x.toNat % 4096 = 0) : alignUp x pageSize = x := by
  apply BitVec.eq_of_toNat_eq
  rw [alignUp_eq_roundUp, roundUp_eq_roundDown, toNat_roundDown _ isPow2_pageSize, toNat_pageSize,
    BitVec.toNat_add, BitVec.toNat_sub, toNat_pageSize]
  have hone : (1 : Word).toNat = 1 := rfl
  omega

/-- After `i` bytes, the remaining turns of the loop write `[ptr + i, ptr + i + count)`. -/
theorem memsetLoop_apply (ptr : Word) (ch : BitVec 8) (count : Nat) (i : Word) (m : Mem)
    (x : Word) (hcount : i.toNat + count < 2 ^ 64) :
    memsetLoop ptr ch count i m x =
      if i.toNat ≤ (x - ptr).toNat ∧ (x - ptr).toNat < i.toNat + count then ch else m x := by
  induction count generalizing i m with
  | zero =>
      rw [memsetLoop, if_neg (by omega)]
  | succ count ih =>
      have hi : (i + 1).toNat = i.toNat + 1 := by bv_omega
      rw [memsetLoop, ih _ _ (by omega), hi]
      by_cases hx : x = ptr + i
      · have hoff : (x - ptr).toNat = i.toNat := by bv_omega
        rw [if_neg (by omega), if_pos hx, if_pos (by omega)]
      · have hoff : (x - ptr).toNat ≠ i.toNat := by bv_omega
        by_cases hlow : i.toNat + 1 ≤ (x - ptr).toNat ∧ (x - ptr).toNat < i.toNat + 1 + count
        · rw [if_pos hlow, if_pos (by omega)]
        · rw [if_neg hlow, if_neg hx, if_neg (by omega)]

theorem memset_eq_fill (m : Mem) {dest : Word} (ch : BitVec 8) (count : Word)
    (hdest : dest ≠ 0) : memset m dest ch count = m.fill dest count ch := by
  unfold memset
  funext x
  by_cases hc : count = 0
  · rw [if_pos (Or.inr hc), Mem.fill_of_not_inRange]
    subst hc
    unfold Mem.InRange
    bv_omega
  · have hzero : (0 : Word).toNat = 0 := rfl
    have hlt := count.isLt
    rw [if_neg (by tauto), memsetLoop_apply _ _ _ _ _ _ (by omega)]
    simp only [Mem.fill, Mem.InRange, BitVec.lt_def, hzero, Nat.zero_le, true_and, Nat.zero_add]

end UnnamedKernel.Kernel
