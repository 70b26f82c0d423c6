import Mathlib.Algebra.Ring.Nat
import Mathlib.Data.List.Basic
import Mathlib.Data.List.Pairwise
import Mathlib.Logic.Function.Basic

/-!
# Lists by size class

Elements are kept in one list for each class of sizes, the smallest first. Where classes grow with
sizes, a search from the class of a size upwards finds a best fit: first the rest of that class,
then the front of the next list that is not empty.
-/

namespace UnnamedKernel.Lib

variable {β : Type} {size : β → Nat} {cls : Nat → Nat} {bins : Nat → List β} {n j bound : Nat}
  {x : β} {rest : List β}

/-- Each element is in the list for its class, which is in ascending order. -/
structure Filed (size : β → Nat) (cls : Nat → Nat) (bins : Nat → List β) : Prop where
  classed : ∀ i, ∀ x ∈ bins i, cls (size x) = i
  sorted : ∀ i, (bins i).Pairwise fun x y => size x ≤ size y

/-- Classes grow with sizes below `bound`. -/
def Graded (cls : Nat → Nat) (bound : Nat) : Prop := ∀ m n, m ≤ n → n < bound → cls m ≤ cls n

/-- `x` is large enough for `n`, and no larger than any other element that is. -/
def BestFit (size : β → Nat) (bins : Nat → List β) (n : Nat) (x : β) : Prop :=
  n ≤ size x ∧ ∀ i, ∀ y ∈ bins i, n ≤ size y → size x ≤ size y

theorem Graded.lt_of_cls_lt {m n : Nat} (h : Graded cls bound) (hm : m < bound)
    (hlt : cls m < cls n) (hle : n ≤ m) : False := by
  have := h n m hle hm
  omega

namespace Filed

theorem head_le (h : Filed size cls bins) (hj : bins j = x :: rest) :
    ∀ y ∈ bins j, size x ≤ size y := by
  have hsorted := h.sorted j
  rw [hj] at hsorted ⊢
  intro y hy
  rcases List.mem_cons.1 hy with rfl | hy
  · exact Nat.le_refl _
  · exact (List.pairwise_cons.1 hsorted).1 y hy

/-- The first that is large enough in the class of `n`. -/
theorem bestFit_of_find (h : Filed size cls bins) (hgraded : Graded cls bound)
    (hsmall : ∀ i, ∀ y ∈ bins i, size y < bound)
    (hfind : (bins (cls n)).find? (fun y => decide (n ≤ size y)) = some x) :
    BestFit size bins n x := by
  obtain ⟨hfits, front, back, hlist, hfront⟩ := List.find?_eq_some_iff_append.1 hfind
  have hxmem : x ∈ bins (cls n) := by simp [hlist]
  have hsorted := h.sorted (cls n)
  rw [hlist] at hsorted
  refine ⟨of_decide_eq_true hfits, fun i y hy hny => ?_⟩
  have hi : cls n ≤ i := by
    rw [← h.classed i y hy]
    exact hgraded n (size y) hny (hsmall i y hy)
  rcases Nat.eq_or_lt_of_le hi with rfl | hlt
  · -- it is in the same list, and not among the ones passed over
    rw [hlist] at hy
    rcases List.mem_append.1 hy with hy | hy
    · have := hfront y hy
      simp only [Bool.not_eq_true', decide_eq_false_iff_not] at this
      exact absurd hny this
    · rcases List.mem_cons.1 hy with rfl | hy
      · exact Nat.le_refl _
      · exact (List.pairwise_cons.1 (List.pairwise_append.1 hsorted).2.1).1 y hy
  · by_contra hlarge
    refine hgraded.lt_of_cls_lt (hsmall _ x hxmem) (n := size y) ?_ (by omega)
    rw [h.classed _ x hxmem, h.classed i y hy]
    exact hlt

theorem bestFit_of_next (h : Filed size cls bins) (hgraded : Graded cls bound)
    (hsmall : ∀ i, ∀ y ∈ bins i, size y < bound) (hn : n < bound)
    (hown : ∀ y ∈ bins (cls n), size y < n) (hj : cls n < j) (hlist : bins j = x :: rest)
    (hempty : ∀ i, cls n < i → i < j → bins i = []) : BestFit size bins n x := by
  have hxmem : x ∈ bins j := by simp [hlist]
  refine ⟨?_, fun i y hy hny => ?_⟩
  · by_contra hlow
    refine hgraded.lt_of_cls_lt hn (n := size x) ?_ (by omega)
    rw [h.classed j x hxmem]
    exact hj
  have hi : cls n ≤ i := by
    rw [← h.classed i y hy]
    exact hgraded n (size y) hny (hsmall i y hy)
  rcases Nat.lt_trichotomy i j with hlt | rfl | hgt
  · rcases Nat.eq_or_lt_of_le hi with rfl | hi
    · have := hown y hy
      omega
    · rw [hempty i hi hlt] at hy
      exact absurd hy List.not_mem_nil
  · exact h.head_le hlist y hy
  · by_contra hlarge
    refine hgraded.lt_of_cls_lt (hsmall j x hxmem) (n := size y) ?_ (by omega)
    rw [h.classed j x hxmem, h.classed i y hy]
    exact hgt

/-- Nothing is large enough, if neither the class of `n` nor a later one has anything. -/
theorem lt_of_none (h : Filed size cls bins) (hgraded : Graded cls bound)
    (hsmall : ∀ i, ∀ y ∈ bins i, size y < bound) (hown : ∀ y ∈ bins (cls n), size y < n)
    (hempty : ∀ i, cls n < i → bins i = []) : ∀ i, ∀ y ∈ bins i, size y < n := by
  intro i y hy
  by_contra hfits
  rw [Nat.not_lt] at hfits
  have hi : cls n ≤ i := by
    rw [← h.classed i y hy]
    exact hgraded n (size y) hfits (hsmall i y hy)
  rcases Nat.eq_or_lt_of_le hi with rfl | hi
  · have := hown y hy
    omega
  · rw [hempty i hi] at hy
    exact absurd hy List.not_mem_nil

end Filed

/-! ## One element more or less -/

theorem flatMap_update_perm (f : Nat → List β) {i : Nat} {xs : List Nat} (hnodup : xs.Nodup)
    (hi : i ∈ xs) (p : β) (l : List β) :
    (xs.flatMap (Function.update f i (p :: l))).Perm
      (p :: xs.flatMap (Function.update f i l)) := by
  induction xs with
  | nil => simp at hi
  | cons x xs ih =>
      obtain ⟨hx, hnodup⟩ := List.nodup_cons.1 hnodup
      rw [List.flatMap_cons, List.flatMap_cons]
      by_cases he : x = i
      · subst he
        have hsame : xs.flatMap (Function.update f x (p :: l)) =
            xs.flatMap (Function.update f x l) := by
          refine List.flatMap_congr fun y hy => ?_
          have hne : y ≠ x := fun h => hx (h ▸ hy)
          rw [Function.update_of_ne hne, Function.update_of_ne hne]
        rw [hsame, Function.update_self, Function.update_self]
        exact List.Perm.refl _
      · rw [Function.update_of_ne he, Function.update_of_ne he]
        have hrest := ih hnodup ((List.mem_cons.1 hi).resolve_left (Ne.symm he))
        exact (hrest.append_left _).trans List.perm_middle

theorem perm_cons_filter {key : β → Nat} {l : List β} (hnodup : (l.map key).Nodup) (hx : x ∈ l) :
    l.Perm (x :: l.filter fun y => decide (key y ≠ key x)) := by
  induction l with
  | nil => exact absurd hx List.not_mem_nil
  | cons y l ih =>
      obtain ⟨hy, hrest⟩ := List.nodup_cons.1 hnodup
      rcases List.mem_cons.1 hx with rfl | hmem
      · have hall : l.filter (fun z => decide (key z ≠ key x)) = l := by
          refine List.filter_eq_self.2 fun z hz => decide_eq_true fun he => hy ?_
          exact List.mem_map.2 ⟨z, hz, he⟩
        rw [List.filter_cons_of_neg (by simp), hall]
      · have hne : key y ≠ key x := fun he => hy (List.mem_map.2 ⟨x, hmem, he.symm⟩)
        rw [List.filter_cons_of_pos (by simpa using hne)]
        exact ((ih hrest hmem).cons y).trans (List.Perm.swap ..)

/-! ## Four classes for each power of two -/

/-- Four classes of one width between two powers of two. -/
def quarterLog (n : Nat) : Nat := 4 * n.log2 + n / 2 ^ (n.log2 - 2)

theorem quarter_bounds (h : 4 ≤ n) : 4 ≤ n / 2 ^ (n.log2 - 2) ∧ n / 2 ^ (n.log2 - 2) < 8 := by
  have hn : n ≠ 0 := by omega
  have hlow := Nat.log2_self_le hn
  have hhigh : n < 2 ^ (n.log2 + 1) := (Nat.log2_lt hn).1 (Nat.lt_succ_self _)
  have htwo : 2 ≤ n.log2 := (Nat.le_log2 hn).2 h
  obtain ⟨k, hk⟩ := Nat.exists_eq_add_of_le htwo
  rw [hk] at hlow hhigh ⊢
  rw [show 2 + k - 2 = k by omega]
  rw [show 2 + k = k + 2 by omega, Nat.pow_add] at hlow
  rw [show 2 + k + 1 = k + 3 by omega, Nat.pow_add] at hhigh
  refine ⟨?_, ?_⟩
  · rw [Nat.le_div_iff_mul_le (Nat.two_pow_pos k)]
    omega
  · rw [Nat.div_lt_iff_lt_mul (Nat.two_pow_pos k)]
    omega

theorem quarterLog_mono {m n : Nat} (hm : 4 ≤ m) (h : m ≤ n) : quarterLog m ≤ quarterLog n := by
  have hlog : m.log2 ≤ n.log2 := by
    rw [Nat.le_log2 (by omega)]
    exact Nat.le_trans (Nat.log2_self_le (by omega)) h
  obtain ⟨-, hmhigh⟩ := quarter_bounds hm
  obtain ⟨hnlow, -⟩ := quarter_bounds (Nat.le_trans hm h)
  unfold quarterLog
  rcases Nat.eq_or_lt_of_le hlog with heq | hlt
  · rw [heq]
    exact Nat.add_le_add_left (Nat.div_le_div_right h) _
  · omega

end UnnamedKernel.Lib
