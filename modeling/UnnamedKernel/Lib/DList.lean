import Mathlib.Data.List.Basic

/-!
# Doubly linked lists in a pointer store

`Linked next prev before ps after` says that the pointers `ps` are chained in
both directions, that the chain is entered from `before` and that it leaves
towards `after`. The append law lets a proof open the chain at any node, change
the fields around it, and close it again.
-/

namespace UnnamedKernel.Lib

variable {P : Type}

/-- The nodes `ps` are linked in both directions between `before` and `after`. -/
def Linked (next prev : P → Option P) : Option P → List P → Option P → Prop
  | _, [], _ => True
  | before, p :: ps, after =>
      prev p = before ∧ next p = ps.head?.or after ∧ Linked next prev (some p) ps after

namespace Linked

variable {next prev next' prev' : P → Option P}

@[simp] theorem nil (before after : Option P) : Linked next prev before [] after := trivial

@[simp] theorem cons (before after : Option P) (p : P) (ps : List P) :
    Linked next prev before (p :: ps) after ↔
      prev p = before ∧ next p = ps.head?.or after ∧ Linked next prev (some p) ps after :=
  Iff.rfl

/-- Opening a chain: the left part leaves towards the right part's first node,
and the right part is entered from the left part's last node. -/
theorem append (before after : Option P) (l r : List P) :
    Linked next prev before (l ++ r) after ↔
      Linked next prev before l (r.head?.or after) ∧
        Linked next prev (l.getLast?.or before) r after := by
  induction l generalizing before with
  | nil => simp
  | cons p l ih =>
      have hlast : (p :: l).getLast?.or before = l.getLast?.or (some p) := by
        cases l with
        | nil => rfl
        | cons q l => simp [List.getLast?_cons]
      simp only [List.cons_append, cons, ih, List.head?_append, Option.or_assoc, hlast, and_assoc]

theorem congr {before after : Option P} {ps : List P}
    (h : Linked next prev before ps after)
    (hsame : ∀ p ∈ ps, next' p = next p ∧ prev' p = prev p) :
    Linked next' prev' before ps after := by
  induction ps generalizing before with
  | nil => trivial
  | cons p ps ih =>
      obtain ⟨hprev, hnext, hrest⟩ := h
      obtain ⟨hn, hp⟩ := hsame p (by simp)
      exact ⟨hp.trans hprev, hn.trans hnext, ih hrest fun q hq => hsame q (by simp [hq])⟩

/-- A chain entered from another node, once its first node points back there. -/
theorem enter {before before' after : Option P} {ps : List P}
    (h : Linked next prev before ps after)
    (hnext : ∀ p ∈ ps, next' p = next p)
    (hhead : ∀ p, ps.head? = some p → prev' p = before')
    (htail : ∀ p ∈ ps.tail, prev' p = prev p) :
    Linked next' prev' before' ps after := by
  cases ps with
  | nil => trivial
  | cons p ps =>
      obtain ⟨-, hn, hrest⟩ := h
      refine ⟨hhead p rfl, (hnext p (by simp)).trans hn, hrest.congr fun q hq => ?_⟩
      exact ⟨hnext q (by simp [hq]), htail q hq⟩

end Linked

end UnnamedKernel.Lib
