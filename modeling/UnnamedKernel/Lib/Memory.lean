import Mathlib.Tactic.Ring
import UnnamedKernel.Lib.Word

/-!
# Byte-addressed 64-bit memory

Little-endian loads and stores over a memory that maps every 64-bit address to
a byte. The read lemmas come in two kinds: a load sees the last store to its
own address, and a load of eight other bytes is left alone.
-/

namespace UnnamedKernel.Lib

/-- The contents of a 64-bit address space. -/
abbrev Mem := Word → BitVec 8

namespace Mem

/-- `x` is one of the `n` bytes starting at `a` (addresses wrap around). -/
def InRange (a n x : Word) : Prop := x - a < n

instance (a n x : Word) : Decidable (InRange a n x) := inferInstanceAs (Decidable (x - a < n))

/-- Load the little-endian word at `a`. -/
def read64 (m : Mem) (a : Word) : Word :=
  m (a + 7) ++ m (a + 6) ++ m (a + 5) ++ m (a + 4) ++ m (a + 3) ++ m (a + 2) ++ m (a + 1) ++ m a

/-- Store `v` at `a`, least significant byte first. -/
def write64 (m : Mem) (a v : Word) : Mem := fun x =>
  if InRange a 8 x then (v >>> (8 * (x - a).toNat)).setWidth 8 else m x

/-- Fill the `n` bytes at `a` with `c`. -/
def fill (m : Mem) (a n : Word) (c : BitVec 8) : Mem := fun x =>
  if InRange a n x then c else m x

/-- The two words at `a` and `b` share no byte. -/
def Apart (a b : Word) : Prop := 8 ≤ (a - b).toNat ∧ 8 ≤ (b - a).toNat

theorem apart_add_right (a b c : Word) : Apart (a + c) (b + c) ↔ Apart a b := by
  have hsub (x y : Word) : x + c - (y + c) = x - y := by bv_omega
  unfold Apart
  rw [hsub, hsub]

theorem Apart.of_aligned {a b : Word} (ha : a.toNat % 8 = 0) (hb : b.toNat % 8 = 0)
    (hne : a ≠ b) : Apart a b := by
  have hne' : a.toNat ≠ b.toNat := fun h => hne (BitVec.eq_of_toNat_eq h)
  unfold Apart
  bv_omega

theorem write64_of_not_inRange (m : Mem) {a x : Word} (v : Word) (h : ¬ InRange a 8 x) :
    write64 m a v x = m x := if_neg h

theorem fill_of_not_inRange (m : Mem) {a n x : Word} (c : BitVec 8) (h : ¬ InRange a n x) :
    fill m a n c x = m x := if_neg h

theorem fill_of_inRange (m : Mem) {a n x : Word} (c : BitVec 8) (h : InRange a n x) :
    fill m a n c x = c := if_pos h

theorem read64_congr {m m' : Mem} {a : Word} (h : ∀ x, InRange a 8 x → m x = m' x) :
    read64 m a = read64 m' a := by
  have hbyte : ∀ i : Word, i < 8 → m (a + i) = m' (a + i) := by
    intro i hi
    apply h
    unfold InRange
    bv_omega
  unfold read64
  rw [hbyte 7 (by decide), hbyte 6 (by decide), hbyte 5 (by decide), hbyte 4 (by decide),
    hbyte 3 (by decide), hbyte 2 (by decide), hbyte 1 (by decide)]
  have h0 : m a = m' a := by simpa using hbyte 0 (by decide)
  rw [h0]

private theorem append_bytes (v : Word) :
    (v >>> 56).setWidth 8 ++ (v >>> 48).setWidth 8 ++ (v >>> 40).setWidth 8 ++
      (v >>> 32).setWidth 8 ++ (v >>> 24).setWidth 8 ++ (v >>> 16).setWidth 8 ++
      (v >>> 8).setWidth 8 ++ v.setWidth 8 = v := by
  apply BitVec.eq_of_getLsbD_eq
  intro i hi
  simp only [BitVec.getLsbD_append, BitVec.getLsbD_setWidth, BitVec.getLsbD_ushiftRight]
  repeat' split
  all_goals simp (disch := omega) only [decide_eq_true, Bool.true_and]
  all_goals first | rfl | (congr 1; omega)

private theorem write64_byte (m : Mem) (a v : Word) {i : Word} (hi : i < 8) :
    write64 m a v (a + i) = (v >>> (8 * i.toNat)).setWidth 8 := by
  have hsub : a + i - a = i := by rw [BitVec.add_comm, BitVec.add_sub_cancel]
  have hin : InRange a 8 (a + i) := by
    unfold InRange
    rwa [hsub]
  rw [write64, if_pos hin, hsub]

theorem read64_write64_same (m : Mem) (a v : Word) : read64 (write64 m a v) a = v := by
  have h0 : write64 m a v a = v.setWidth 8 := by
    simpa using write64_byte m a v (i := 0) (by decide)
  unfold read64
  rw [write64_byte m a v (i := 7) (by decide), write64_byte m a v (i := 6) (by decide),
    write64_byte m a v (i := 5) (by decide), write64_byte m a v (i := 4) (by decide),
    write64_byte m a v (i := 3) (by decide), write64_byte m a v (i := 2) (by decide),
    write64_byte m a v (i := 1) (by decide), h0]
  exact append_bytes v

theorem read64_write64_apart (m : Mem) {a b : Word} (v : Word) (h : Apart a b) :
    read64 (write64 m b v) a = read64 m a := by
  apply read64_congr
  intro x hx
  apply write64_of_not_inRange
  unfold InRange at *
  unfold Apart at h
  bv_omega

private theorem append_inj {n k : Nat} {x x' : BitVec n} {y y' : BitVec k}
    (h : x ++ y = x' ++ y') : x = x' ∧ y = y' := by
  constructor
  · have hleft := congrArg (BitVec.extractLsb' k n) h
    rwa [BitVec.extractLsb'_append_eq_left, BitVec.extractLsb'_append_eq_left] at hleft
  · have hright := congrArg (BitVec.extractLsb' 0 k) h
    rwa [BitVec.extractLsb'_append_eq_right, BitVec.extractLsb'_append_eq_right] at hright

theorem read64_inj {m m' : Mem} {a : Word} (h : read64 m a = read64 m' a) {x : Word}
    (hx : InRange a 8 x) : m x = m' x := by
  unfold read64 at h
  obtain ⟨h, h0⟩ := append_inj h
  obtain ⟨h, h1⟩ := append_inj h
  obtain ⟨h, h2⟩ := append_inj h
  obtain ⟨h, h3⟩ := append_inj h
  obtain ⟨h, h4⟩ := append_inj h
  obtain ⟨h, h5⟩ := append_inj h
  obtain ⟨h7, h6⟩ := append_inj h
  have hcases : x = a ∨ x = a + 1 ∨ x = a + 2 ∨ x = a + 3 ∨ x = a + 4 ∨ x = a + 5 ∨ x = a + 6 ∨
      x = a + 7 := by
    unfold InRange at hx
    bv_omega
  rcases hcases with rfl | rfl | rfl | rfl | rfl | rfl | rfl | rfl <;> assumption

theorem write64_read64 (m : Mem) (a : Word) : write64 m a (read64 m a) = m := by
  funext x
  by_cases hx : InRange a 8 x
  · exact read64_inj (read64_write64_same m a _) hx
  · exact write64_of_not_inRange m _ hx

theorem read64_fill_zero (m : Mem) {a b n : Word}
    (h : ∀ x, InRange a 8 x → InRange b n x) : read64 (fill m b n 0) a = 0 := by
  have hzero : read64 (fill m b n 0) a = read64 (fun _ => 0) a := by
    apply read64_congr
    intro x hx
    exact fill_of_inRange m 0 (h x hx)
  rw [hzero]
  simp [read64]

theorem read64_fill_outside (m : Mem) {a b n : Word} (c : BitVec 8)
    (h : ∀ x, InRange a 8 x → ¬ InRange b n x) : read64 (fill m b n c) a = read64 m a := by
  apply read64_congr
  intro x hx
  exact fill_of_not_inRange m c (h x hx)

end Mem

end UnnamedKernel.Lib
