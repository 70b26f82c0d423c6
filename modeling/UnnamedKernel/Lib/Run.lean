import Mathlib.Data.List.Basic

/-!
# Runs of a partial step function

A run is a monadic fold of the step over a list of inputs, and `none` means that
some step did not return. One step lemma gives the run lemma.
-/

namespace UnnamedKernel.Lib

variable {σ ι : Type}

/-- The steps for `is`, one after the other. -/
def run (step : σ → ι → Option σ) (s : σ) (is : List ι) : Option σ := is.foldlM step s

@[simp] theorem run_nil (step : σ → ι → Option σ) (s : σ) : run step s [] = some s := rfl

@[simp] theorem run_cons (step : σ → ι → Option σ) (s : σ) (i : ι) (is : List ι) :
    run step s (i :: is) = (step s i).bind fun s' => run step s' is := rfl

/-- Every input of the run is legal in the state it meets. -/
def LegalRun (step : σ → ι → Option σ) (legal : σ → ι → Prop) : σ → List ι → Prop
  | _, [] => True
  | s, i :: is => legal s i ∧ ∀ s', step s i = some s' → LegalRun step legal s' is

/-- An invariant under which every legal step returns holds after every legal run. -/
theorem legalRun_invariant {step : σ → ι → Option σ} {P : σ → Prop} {legal : σ → ι → Prop}
    (hstep : ∀ s i, P s → legal s i → ∃ s', step s i = some s' ∧ P s') {s : σ} (hs : P s)
    (is : List ι) (hlegal : LegalRun step legal s is) : ∃ s', run step s is = some s' ∧ P s' := by
  induction is generalizing s with
  | nil => exact ⟨s, rfl, hs⟩
  | cons i is ih =>
      obtain ⟨s₁, h₁, hs₁⟩ := hstep s i hs hlegal.1
      obtain ⟨s', h', hs'⟩ := ih hs₁ (hlegal.2 s₁ h₁)
      exact ⟨s', by simp [h₁, h'], hs'⟩

theorem legalRun_and {step : σ → ι → Option σ} {legal legal' : σ → ι → Prop} {s : σ}
    {is : List ι} (h : LegalRun step legal s is) (h' : LegalRun step legal' s is) :
    LegalRun step (fun s i => legal s i ∧ legal' s i) s is := by
  induction is generalizing s with
  | nil => trivial
  | cons i is ih => exact ⟨⟨h.1, h'.1⟩, fun s₁ hs₁ => ih (h.2 s₁ hs₁) (h'.2 s₁ hs₁)⟩

theorem legalRun_of_forall {step : σ → ι → Option σ} {legal : ι → Prop} (s : σ) (is : List ι)
    (hlegal : ∀ i ∈ is, legal i) : LegalRun step (fun _ => legal) s is := by
  induction is generalizing s with
  | nil => trivial
  | cons i is ih =>
      exact ⟨hlegal i (by simp), fun s' _ => ih s' fun j hj => hlegal j (by simp [hj])⟩

theorem legalRun_append {step : σ → ι → Option σ} {legal : σ → ι → Prop} {s : σ}
    {is js : List ι} (h : LegalRun step legal s (is ++ js)) :
    LegalRun step legal s is ∧ ∀ s', run step s is = some s' → LegalRun step legal s' js := by
  induction is generalizing s with
  | nil =>
      refine ⟨trivial, fun s' hs' => ?_⟩
      obtain rfl : s = s' := by simpa using hs'
      exact h
  | cons i is ih =>
      refine ⟨⟨h.1, fun s₁ hs₁ => (ih (h.2 s₁ hs₁)).1⟩, fun s' hs' => ?_⟩
      obtain ⟨s₁, hs₁, hrest⟩ := Option.bind_eq_some_iff.1 (by simpa using hs')
      exact (ih (h.2 s₁ hs₁)).2 s' hrest

theorem run_invariant {step : σ → ι → Option σ} {P : σ → Prop} {legal : ι → Prop}
    (hstep : ∀ s i, P s → legal i → ∃ s', step s i = some s' ∧ P s') {s : σ} (hs : P s)
    (is : List ι) (hlegal : ∀ i ∈ is, legal i) : ∃ s', run step s is = some s' ∧ P s' :=
  legalRun_invariant hstep hs is (legalRun_of_forall s is hlegal)

theorem legalRun_preserves {step : σ → ι → Option σ} {P : σ → Prop} {legal : σ → ι → Prop}
    (hstep : ∀ s i s', P s → legal s i → step s i = some s' → P s') {s s' : σ} (hs : P s)
    {is : List ι} (hlegal : LegalRun step legal s is) (hrun : run step s is = some s') : P s' := by
  induction is generalizing s with
  | nil =>
      obtain rfl : s = s' := by simpa using hrun
      exact hs
  | cons i is ih =>
      obtain ⟨s₁, h₁, hrest⟩ := Option.bind_eq_some_iff.1 (by simpa using hrun)
      exact ih (hstep s i s₁ hs hlegal.1 h₁) (hlegal.2 s₁ h₁) hrest

/-- A step function that simulates another one step by step returns wherever the other does. -/
theorem run_simulates {τ : Type} (step : σ → ι → Option σ) (spec : τ → ι → Option τ)
    {R : σ → τ → Prop}
    (hstep : ∀ s t i t', R s t → spec t i = some t' → ∃ s', step s i = some s' ∧ R s' t')
    {s : σ} {t t' : τ} (hR : R s t) {is : List ι} (hrun : run spec t is = some t') :
    ∃ s', run step s is = some s' ∧ R s' t' := by
  induction is generalizing s t with
  | nil =>
      obtain rfl : t = t' := by simpa using hrun
      exact ⟨s, rfl, hR⟩
  | cons i is ih =>
      obtain ⟨t₁, ht₁, hrest⟩ := Option.bind_eq_some_iff.1 (by simpa using hrun)
      obtain ⟨s₁, hs₁, hR₁⟩ := hstep s t i t₁ hR ht₁
      obtain ⟨s', hs', hR'⟩ := ih hR₁ hrest
      exact ⟨s', by simp [hs₁, hs'], hR'⟩

end UnnamedKernel.Lib
