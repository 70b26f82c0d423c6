import UnnamedKernel.Lib.Tiling

/-!
# Taking intervals out of segments

What is left of a segment when an interval is taken out of it: the part before
and the part behind. Two intervals apart from each other can be taken out in
either order.
-/

namespace UnnamedKernel.Lib

namespace Seg

variable {α : Type}

/-- The part of a segment before `k`. -/
def front (k : Nat) (s : Seg α) : List (Seg α) := keep ⟨s.start, min s.stop k - s.start, s.tag⟩

/-- The part of a segment from `k` on. -/
def back (k : Nat) (s : Seg α) : List (Seg α) :=
  keep ⟨max s.start k, s.stop - max s.start k, s.tag⟩

/-- What is left of a segment without the `n` points from `i` on. -/
def without (i n : Nat) (s : Seg α) : List (Seg α) := front i s ++ back (i + n) s

theorem keep_of_pos {s : Seg α} (h : 0 < s.len) : s.keep = [s] := if_neg (Nat.pos_iff_ne_zero.1 h)

theorem keep_of_zero {s : Seg α} (h : s.len = 0) : s.keep = [] := if_pos h

theorem flatMap_keep (s : Seg α) (f : Seg α → List (Seg α)) :
    s.keep.flatMap f = if s.len = 0 then [] else f s := by
  unfold keep
  split_ifs <;> simp

theorem front_front (j k : Nat) (s : Seg α) :
    (front k s).flatMap (front j) = front (min k j) s := by
  unfold front
  rw [flatMap_keep]
  unfold keep stop
  simp only
  split_ifs with h₁ h₂ h₂ h₃ h₃
  · rfl
  · omega
  · rfl
  · omega
  · omega
  · congr 2
    omega

theorem back_back (j k : Nat) (s : Seg α) : (back k s).flatMap (back j) = back (max k j) s := by
  unfold back
  rw [flatMap_keep]
  unfold keep stop
  simp only
  split_ifs with h₁ h₂ h₂ h₃ h₃
  · rfl
  · omega
  · rfl
  · omega
  · omega
  · congr 2
    · omega
    · omega

theorem back_front (j k : Nat) (s : Seg α) :
    (front k s).flatMap (back j) = (back j s).flatMap (front k) := by
  unfold front back
  rw [flatMap_keep, flatMap_keep]
  unfold keep stop
  simp only
  split_ifs
  all_goals first | rfl | omega | skip
  congr 2
  omega

theorem back_front_nil {j k : Nat} (h : k ≤ j) (s : Seg α) : (front k s).flatMap (back j) = [] := by
  unfold front back
  rw [flatMap_keep]
  split_ifs with hz
  · rfl
  · refine keep_of_zero ?_
    simp only [stop] at hz ⊢
    omega

theorem flatMap_keep_append (s : Seg α) (f g : Seg α → List (Seg α)) :
    s.keep.flatMap (fun u => f u ++ g u) = s.keep.flatMap f ++ s.keep.flatMap g := by
  simp only [flatMap_keep]
  split_ifs <;> simp

/-- What is left after two intervals are taken out, one after the other. -/
theorem without_without (i n j m : Nat) (s : Seg α) :
    (without i n s).flatMap (without j m) =
      (front (min i j) s ++ (front i s).flatMap (back (j + m))) ++
        ((back (i + n) s).flatMap (front j) ++ back (max (i + n) (j + m)) s) := by
  have hfront : (front i s).flatMap (without j m) =
      (front i s).flatMap (front j) ++ (front i s).flatMap (back (j + m)) :=
    flatMap_keep_append _ _ _
  have hback : (back (i + n) s).flatMap (without j m) =
      (back (i + n) s).flatMap (front j) ++ (back (i + n) s).flatMap (back (j + m)) :=
    flatMap_keep_append _ _ _
  rw [without, List.flatMap_append, hfront, hback, front_front, back_back]

theorem without_comm {i n j m : Nat} (h : i + n ≤ j) (s : Seg α) :
    (without i n s).flatMap (without j m) = (without j m s).flatMap (without i n) := by
  have hnil : (front i s).flatMap (back (j + m)) = [] := back_front_nil (by omega) s
  rw [without_without, without_without, back_front (i + n) j s, ← back_front (j + m) i s, hnil,
    min_comm j i, max_comm (j + m) (i + n)]
  simp

theorem without_of_le {i n : Nat} {s : Seg α} (hpos : 0 < s.len) (h : s.stop ≤ i) :
    without i n s = [s] := by
  have hfront : front i s = [s] := by
    rw [front, min_eq_left h, keep_of_pos] <;> simp [stop, hpos]
  have hback : back (i + n) s = [] := keep_of_zero (by simp only [stop] at h ⊢; omega)
  rw [without, hfront, hback, List.append_nil]

theorem without_of_ge {i n : Nat} {s : Seg α} (hpos : 0 < s.len) (h : i + n ≤ s.start) :
    without i n s = [s] := by
  have hfront : front i s = [] := keep_of_zero (by simp only [stop]; omega)
  have hback : back (i + n) s = [s] := by
    rw [back, max_eq_left h, keep_of_pos] <;> simp [stop, hpos]
  rw [without, hfront, hback, List.nil_append]

theorem without_inside {i n : Nat} {s : Seg α} (hlo : s.start ≤ i) (hhi : i + n ≤ s.stop) :
    without i n s =
      keep ⟨s.start, i - s.start, s.tag⟩ ++ keep ⟨i + n, s.stop - (i + n), s.tag⟩ := by
  rw [without, front, back, min_eq_right (by omega), max_eq_right (by omega)]

theorem without_self (s : Seg α) : without s.start s.len s = [] := by
  rw [without_inside (Nat.le_refl _) (Nat.le_refl _), keep_of_zero, keep_of_zero] <;> simp [stop]

end Seg

end UnnamedKernel.Lib
