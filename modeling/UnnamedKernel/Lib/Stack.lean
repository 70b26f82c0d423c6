import UnnamedKernel.Lib.Memory

/-!
# Words on a stack

A stack grows towards lower addresses, eight bytes a word. A push leaves the words
that are on it alone, as long as the whole stack does not wrap onto itself.
-/

namespace UnnamedKernel.Lib.Stack

/-- The words from `sp` upwards are `ws`. -/
def Holds (m : Mem) : Word → List Word → Prop
  | _, [] => True
  | sp, w :: ws => m.read64 sp = w ∧ Holds m (sp + 8) ws

variable {m m' : Mem} {sp w : Word} {ws vs : List Word}

theorem Holds.head (h : Holds m sp (w :: ws)) : m.read64 sp = w := h.1

theorem Holds.tail (h : Holds m sp (w :: ws)) : Holds m (sp + 8) ws := h.2

theorem Holds.congr (h : Holds m sp ws) {n : Word} (hlen : 8 * ws.length ≤ n.toNat)
    (hsame : ∀ x, Mem.InRange sp n x → m' x = m x) : Holds m' sp ws := by
  induction ws generalizing sp n with
  | nil => trivial
  | cons w ws ih =>
      rw [List.length_cons] at hlen
      have hn := n.isLt
      refine ⟨?_, ih h.tail (n := n - 8) (by bv_omega) fun x hx => hsame x ?_⟩
      · rw [← h.head]
        refine Mem.read64_congr fun x hx => hsame x ?_
        unfold Mem.InRange at *
        bv_omega
      · unfold Mem.InRange at *
        bv_omega

theorem Holds.push (h : Holds m sp ws) (w : Word) (hlen : 8 * ws.length + 8 ≤ 2 ^ 64) :
    Holds (m.write64 (sp - 8) w) (sp - 8) (w :: ws) := by
  have hback : sp - 8 + 8 = sp := BitVec.sub_add_cancel sp 8
  refine ⟨Mem.read64_write64_same _ _ _, ?_⟩
  rw [hback]
  refine h.congr (n := -8) (by simpa using by omega) fun x hx => ?_
  apply Mem.write64_of_not_inRange
  unfold Mem.InRange at *
  bv_omega

theorem Holds.append_right (h : Holds m sp (ws ++ vs)) :
    Holds m (sp + 8 * BitVec.ofNat 64 ws.length) vs := by
  induction ws generalizing sp with
  | nil => simpa using h
  | cons w ws ih =>
      have hrest := ih h.tail
      have haddr : sp + 8 + 8 * BitVec.ofNat 64 ws.length =
          sp + 8 * BitVec.ofNat 64 (w :: ws).length := by
        rw [List.length_cons]
        bv_omega
      rwa [haddr] at hrest

end UnnamedKernel.Lib.Stack
