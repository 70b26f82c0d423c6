import UnnamedKernel.Mm.Vma.Walks

/-!
# The walks when nodes run out

`alloc_pages` and `free` as functions of the page ranges and of the answers that
`allocate_node` is going to give. A failed call leaves the ranges as they were
unless its first split succeeded and what followed did not.
-/

namespace UnnamedKernel.Mm.Vma

open UnnamedKernel.Lib

/-- The answers of the coming calls of `allocate_node`. -/
abbrev Grants := Nat → Bool

/-- The answers after the next `k`. -/
def Grants.drop (g : Grants) (k : Nat) : Grants := fun j => g (k + j)

/-- What becomes of the attempt to take `n` pages out of a fitting range. -/
inductive Attempt where
  | taken
  /-- no node for the first split -/
  | refused
  /-- the padding is cut off, and then there is no node for the second split -/
  | stranded
  deriving DecidableEq, Repr

def attempt (g : Grants) (n al : Nat) (s : PageSeg) : Attempt :=
  let padded := s.start < ceilTo s.start al
  let remains := ceilTo s.start al + n < s.stop
  if padded ∧ g 0 = false then .refused
  else if padded ∧ remains ∧ g 1 = false then .stranded
  else if ¬ padded ∧ remains ∧ g 0 = false then .refused
  else .taken

/-- `alloc_pages` on the ranges. -/
def allocRanges (n al : Nat) : Grants → List PageSeg → Option Nat × List PageSeg
  | _, [] => (none, [])
  | g, s :: l =>
      if Fits n al s then
        match attempt g n al s with
        | .taken => (some (ceilTo s.start al), takeParts n al s ++ l)
        | .refused => ((allocRanges n al (g.drop 1) l).1, s :: (allocRanges n al (g.drop 1) l).2)
        | .stranded => ((allocRanges n al (g.drop 2) l).1,
            cutAt (ceilTo s.start al - s.start) s ++ (allocRanges n al (g.drop 2) l).2)
      else ((allocRanges n al g l).1, s :: (allocRanges n al g l).2)

/-- The attempts that a call of `alloc_pages` makes. -/
def attempts (n al : Nat) : Grants → List PageSeg → List Attempt
  | _, [] => []
  | g, s :: l =>
      if Fits n al s then
        match attempt g n al s with
        | .taken => [.taken]
        | .refused => .refused :: attempts n al (g.drop 1) l
        | .stranded => .stranded :: attempts n al (g.drop 2) l
      else attempts n al g l

/-- The range `s` between `l` and `r` holds `page`: what `free` makes of it. -/
def freePart (g : Grants) (page n : Nat) (l : List PageSeg) (s : PageSeg) (r : List PageSeg) :
    Bool × List PageSeg :=
  let back := page + n < s.stop
  let front := s.start < page
  if page + n ≤ s.stop then
    if back ∧ g 0 = false then (false, l ++ s :: r)
    else if front ∧ back ∧ g 1 = false then (false, l ++ (cutAt (page + n - s.start) s ++ r))
    else if front ∧ ¬ back ∧ g 0 = false then (false, l ++ s :: r)
    else (true, coalesceSegs (l ++ Seg.keep ⟨s.start, page - s.start, false⟩) ⟨page, n, true⟩
      (Seg.keep ⟨page + n, s.stop - (page + n), false⟩ ++ r))
  else if s.start + 2 ^ 64 < page + n ∧ g 0 = true then
    (false, l ++ (cutAt (page + n - 2 ^ 64 - s.start) s ++ r))
  else (false, l ++ s :: r)

/-- `free` on the ranges, of which it has passed `l`. -/
def freeRanges (g : Grants) (page n : Nat) : List PageSeg → List PageSeg → Bool × List PageSeg
  | l, [] => (false, l)
  | l, s :: r =>
      if s.tag = false ∧ s.Covers page then freePart g page n l s r
      else freeRanges g page n (l ++ [s]) r

/-- A node is there for the first cut of a release that cannot be finished: for the second
cut there is none, or the page count wraps to a page inside the range. -/
def Severs (g : Grants) (page n : Nat) (l : List PageSeg) : Prop :=
  ∃ s ∈ l, s.tag = false ∧ s.Covers page ∧ g 0 = true ∧
    ((s.start < page ∧ page + n < s.stop ∧ g 1 = false) ∨ s.start + 2 ^ 64 < page + n)

variable {g : Grants} {n al page lo hi : Nat} {l : List PageSeg}

/-! ## When a failed call changes nothing -/

theorem allocRanges_none_iff : (allocRanges n al g l).1 = none ↔ .taken ∉ attempts n al g l := by
  induction l generalizing g with
  | nil => simp [allocRanges, attempts]
  | cons s l ih =>
      rw [allocRanges, attempts]
      split_ifs
      · split <;> simp [ih]
      · exact ih

theorem length_allocRanges (hnone : (allocRanges n al g l).1 = none) :
    (allocRanges n al g l).2.length = l.length + (attempts n al g l).count .stranded := by
  induction l generalizing g with
  | nil => simp [allocRanges, attempts]
  | cons s l ih =>
      rw [allocRanges] at hnone ⊢
      rw [attempts]
      split_ifs at hnone ⊢
      · split at hnone <;> rename_i hattempt
        · simp at hnone
        · rw [List.length_cons, ih hnone]
          simp
          omega
        · rw [List.length_append, ih hnone]
          simp [cutAt]
          omega
      · rw [List.length_cons, ih hnone]
        simp
        omega

/-- A failed `alloc_pages` changes the ranges when an attempt is stranded. -/
theorem allocRanges_eq_iff (hnone : (allocRanges n al g l).1 = none) :
    (allocRanges n al g l).2 = l ↔ .stranded ∉ attempts n al g l := by
  constructor
  · intro heq
    have hlen := length_allocRanges hnone
    rw [heq] at hlen
    exact List.count_eq_zero.1 (by omega)
  · intro hno
    induction l generalizing g with
    | nil => rfl
    | cons s l ih =>
        rw [allocRanges] at hnone ⊢
        rw [attempts] at hno
        split_ifs at hnone hno ⊢
        · split at hnone <;> rename_i hattempt <;> simp only [hattempt] at hno ⊢
          · simp at hnone
          · rw [ih hnone (by simpa using hno)]
          · simp at hno
        · rw [ih hnone hno]

theorem cutAt_ne (k : Nat) (s : PageSeg) (r : List PageSeg) :
    l ++ (cutAt k s ++ r) ≠ l ++ s :: r := by
  intro heq
  have := congrArg List.length heq
  simp [cutAt] at this

/-- A range that holds all the pages is released if each cut that it needs gets a node. -/
theorem freePart_release {s : PageSeg} {r : List PageSeg} (hfits : page + n ≤ s.stop)
    (hback : page + n < s.stop → g 0 = true)
    (hboth : s.start < page → page + n < s.stop → g 1 = true)
    (hfront : s.start < page → ¬ page + n < s.stop → g 0 = true) :
    freePart g page n l s r =
      (true, coalesceSegs (l ++ Seg.keep ⟨s.start, page - s.start, false⟩) ⟨page, n, true⟩
        (Seg.keep ⟨page + n, s.stop - (page + n), false⟩ ++ r)) := by
  unfold freePart
  simp only
  rw [if_pos hfits, if_neg, if_neg, if_neg]
  · rintro ⟨hlt, hend, hg⟩
    exact absurd (hfront hlt hend) (by simp [hg])
  · rintro ⟨hlt, hend, hg⟩
    exact absurd (hboth hlt hend) (by simp [hg])
  · rintro ⟨hend, hg⟩
    exact absurd (hback hend) (by simp [hg])

theorem freePart_eq_iff {s : PageSeg} {r : List PageSeg} (hcov : s.Covers page)
    (hfalse : (freePart g page n l s r).1 = false) :
    (freePart g page n l s r).2 = l ++ s :: r ↔
      ¬ (g 0 = true ∧ ((s.start < page ∧ page + n < s.stop ∧ g 1 = false) ∨
        s.start + 2 ^ 64 < page + n)) := by
  unfold freePart at hfalse ⊢
  simp only at hfalse ⊢
  have hstop : s.start < s.stop := by
    unfold Seg.Covers at hcov
    unfold Seg.stop
    omega
  split_ifs at hfalse ⊢ with hhi h₁ h₂ h₃ h₄
  · simp [h₁.2]
  · refine iff_of_false (cutAt_ne _ _ _) (not_not.2 ⟨?_, Or.inl h₂⟩)
    simpa [h₂.2.1] using h₁
  · simp [h₃.2.2]
  · exact iff_of_false (cutAt_ne _ _ _) (not_not.2 ⟨h₄.2, Or.inr h₄.1⟩)
  · refine iff_of_true rfl ?_
    rintro ⟨hg, ⟨-, hlt, -⟩ | hwrap⟩
    · omega
    · exact h₄ ⟨hwrap, hg⟩

theorem freeRanges_eq_iff {r : List PageSeg} (ht : Tiles lo hi (l ++ r))
    (hmiss : ∀ s ∈ l, ¬ (s.tag = false ∧ s.Covers page))
    (hfalse : (freeRanges g page n l r).1 = false) :
    (freeRanges g page n l r).2 = l ++ r ↔ ¬ Severs g page n (l ++ r) := by
  induction r generalizing l with
  | nil =>
      refine iff_of_true (by simp [freeRanges]) ?_
      rintro ⟨s, hs, hused, hcov, -⟩
      exact hmiss s (by simpa using hs) ⟨hused, hcov⟩
  | cons s r ih =>
      rw [freeRanges] at hfalse ⊢
      split_ifs at hfalse ⊢ with hhere
      · rw [freePart_eq_iff hhere.2 hfalse, not_iff_not]
        constructor
        · exact fun h => ⟨s, by simp, hhere.1, hhere.2, h.1, h.2⟩
        · rintro ⟨u, hu, -, hcov, h⟩
          rwa [ht.covers_unique hu (by simp) hcov hhere.2] at h
      · have hnext := ih (l := l ++ [s]) (by simpa using ht) (by
          intro u hu
          rcases List.mem_append.1 hu with hu | hu
          · exact hmiss u hu
          · rw [List.mem_singleton.1 hu]
            exact hhere) hfalse
        simpa using hnext

end UnnamedKernel.Mm.Vma
