import Mathlib.Data.List.Basic

/-!
# Calls that may stop

`Ends bad Q x` says that the call `x` returns something that `Q` holds of, or stops for a reason
that is not `bad`. It composes along the calls that a function makes.
-/

namespace UnnamedKernel.Lib

variable {ε α β σ ι : Type} {bad : ε → Prop}

inductive Ends (bad : ε → Prop) (Q : α → Prop) : Except ε α → Prop where
  | ok {a : α} : Q a → Ends bad Q (.ok a)
  | error {e : ε} : ¬ bad e → Ends bad Q (.error e)

namespace Ends

variable {Q Q' : α → Prop} {R : β → Prop} {x : Except ε α}

theorem mono (h : Ends bad Q x) (hQ : ∀ a, Q a → Q' a) : Ends bad Q' x := by
  cases h with
  | ok h => exact .ok (hQ _ h)
  | error h => exact .error h

theorem weaken {bad' : ε → Prop} (h : Ends bad Q x) (hbad : ∀ e, bad' e → bad e) :
    Ends bad' Q x := by
  cases h with
  | ok h => exact .ok h
  | error h => exact .error fun he => h (hbad _ he)

theorem ne_error (h : Ends bad Q x) {e : ε} (he : bad e) : x ≠ .error e := by
  rintro rfl
  cases h with
  | error h => exact h he

theorem bind {f : α → Except ε β} (h : Ends bad Q x) (hf : ∀ a, Q a → Ends bad R (f a)) :
    Ends bad R (x >>= f) := by
  cases h with
  | ok h => exact hf _ h
  | error h => exact .error h

/-- What each step keeps holds after a run of steps. -/
theorem foldlM {P : σ → Prop} {step : σ → ι → Except ε σ}
    (hstep : ∀ s i, P s → Ends bad P (step s i)) (is : List ι) {s : σ} (hs : P s) :
    Ends bad P (is.foldlM step s) := by
  induction is generalizing s with
  | nil => exact .ok hs
  | cons i is ih =>
      rw [List.foldlM_cons]
      exact (hstep s i hs).bind fun _ => ih

end Ends

theorem foldlM_eq_error_iff {step : σ → ι → Except ε σ} {is : List ι} {s : σ} {e : ε} :
    is.foldlM step s = .error e ↔ ∃ front i rest s', is = front ++ i :: rest ∧
      front.foldlM step s = .ok s' ∧ step s' i = .error e := by
  constructor
  · intro he
    induction is generalizing s with
    | nil => simp [pure, Except.pure] at he
    | cons j is ih =>
        rw [List.foldlM_cons] at he
        rcases hj : step s j with e' | s₁
        · rw [hj] at he
          exact ⟨[], j, is, s, rfl, rfl, hj.trans he⟩
        · rw [hj] at he
          obtain ⟨front, i, rest, s', rfl, hfront, hi⟩ := ih he
          refine ⟨j :: front, i, rest, s', rfl, ?_, hi⟩
          rw [List.foldlM_cons, hj]
          exact hfront
  · rintro ⟨front, i, rest, s', rfl, hfront, hi⟩
    rw [List.foldlM_append, hfront]
    show List.foldlM step s' (i :: rest) = _
    rw [List.foldlM_cons, hi]
    rfl

end UnnamedKernel.Lib
