import UnnamedKernel.Lib.Memory

/-!
# Runs of bytes

What a stretch of memory holds, as a list.
-/

namespace UnnamedKernel.Lib.Mem

variable {m : Mem} {a : Word} {bs cs : List (BitVec 8)}

/-- Load the little-endian 32-bit word at `a`. -/
def read32 (m : Mem) (a : Word) : BitVec 32 := m (a + 3) ++ m (a + 2) ++ m (a + 1) ++ m a

/-- The `n` bytes at `a`. -/
def bytes (m : Mem) (a : Word) : Nat → List (BitVec 8)
  | 0 => []
  | n + 1 => m a :: m.bytes (a + 1) n

@[simp] theorem length_bytes (m : Mem) (a : Word) (n : Nat) : (m.bytes a n).length = n := by
  induction n generalizing a with
  | zero => rfl
  | succ n ih => rw [bytes, List.length_cons, ih]

theorem bytes_add (m : Mem) (a : Word) (n k : Nat) :
    m.bytes a (n + k) = m.bytes a n ++ m.bytes (a + BitVec.ofNat 64 n) k := by
  induction n generalizing a with
  | zero => simp [bytes]
  | succ n ih =>
      have haddr : a + 1 + BitVec.ofNat 64 n = a + BitVec.ofNat 64 (n + 1) := by
        rw [BitVec.add_assoc, Nat.add_comm n 1, BitVec.ofNat_add]
        rfl
      rw [Nat.add_right_comm, bytes, ih, haddr]
      rfl

theorem bytes_congr {m' : Mem} {n : Nat}
    (h : ∀ i < n, m' (a + BitVec.ofNat 64 i) = m (a + BitVec.ofNat 64 i)) :
    m'.bytes a n = m.bytes a n := by
  induction n with
  | zero => rfl
  | succ n ih =>
      rw [bytes_add, bytes_add, ih fun i hi => h i (Nat.lt_succ_of_lt hi)]
      simp only [bytes, h n (Nat.lt_succ_self n)]

theorem bytes_append :
    m.bytes a (bs ++ cs).length = bs ++ cs ↔
      m.bytes a bs.length = bs ∧ m.bytes (a + BitVec.ofNat 64 bs.length) cs.length = cs := by
  rw [List.length_append, bytes_add]
  constructor
  · exact fun h => List.append_inj h (length_bytes ..)
  · rintro ⟨hbs, hcs⟩
    rw [hbs, hcs]

end UnnamedKernel.Lib.Mem
