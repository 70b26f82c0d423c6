import Mathlib.Data.List.Basic

/-!
# Singly linked lists in a pointer store

`Links next p xs q` says that the pointers `xs` are chained from `p` by `next`
and that the last one points to `q`.
-/

namespace UnnamedKernel.Lib

variable {P : Type}

def Links (next : P → P) : P → List P → P → Prop
  | p, [], q => p = q
  | p, x :: xs, q => p = x ∧ Links next (next x) xs q

namespace Links

variable {next next' : P → P} {p q q' : P}

@[simp] theorem nil_iff : Links next p [] q ↔ p = q := Iff.rfl

@[simp] theorem cons_iff (x : P) (xs : List P) :
    Links next p (x :: xs) q ↔ p = x ∧ Links next (next x) xs q := Iff.rfl

theorem append_iff (l r : List P) :
    Links next p (l ++ r) q ↔ ∃ m, Links next p l m ∧ Links next m r q := by
  induction l generalizing p with
  | nil => simp
  | cons x l ih => simp [ih, and_assoc]

theorem congr {xs : List P} (h : Links next p xs q) (hsame : ∀ x ∈ xs, next' x = next x) :
    Links next' p xs q := by
  induction xs generalizing p with
  | nil => exact h
  | cons x xs ih =>
      obtain ⟨hp, hxs⟩ := h
      refine ⟨hp, ?_⟩
      rw [hsame x (by simp)]
      exact ih hxs fun y hy => hsame y (by simp [hy])

theorem retarget {xs : List P} {x : P} (h : Links next p (xs ++ [x]) q)
    (hsame : ∀ y ∈ xs, next' y = next y) (hlast : next' x = q') :
    Links next' p (xs ++ [x]) q' := by
  obtain ⟨m, hxs, hm, -⟩ := (append_iff xs [x]).1 h
  exact (append_iff xs [x]).2 ⟨m, hxs.congr hsame, hm, hlast⟩

end Links

end UnnamedKernel.Lib
