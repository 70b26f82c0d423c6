import Mathlib.Algebra.BigOperators.Group.List.Basic
import Mathlib.Order.Interval.Finset.Nat
import Mathlib.Tactic.Ring

/-!
# Tilings of an interval by tagged segments

A list of segments tiles `[lo, hi)` when each one starts where the previous one
ends. The tag of a point is the tag of the segment that covers it; cutting a
segment or merging two equal neighbours keeps every tag.
-/

namespace UnnamedKernel.Lib

variable {α : Type}

/-- The interval `[start, start + len)` with a tag. -/
structure Seg (α : Type) where
  start : Nat
  len : Nat
  tag : α
  deriving DecidableEq, Repr

namespace Seg

def stop (s : Seg α) : Nat := s.start + s.len

def Covers (s : Seg α) (i : Nat) : Prop := s.start ≤ i ∧ i < s.start + s.len

instance (s : Seg α) (i : Nat) : Decidable (s.Covers i) :=
  inferInstanceAs (Decidable (_ ∧ _))

/-- Two neighbours as one segment, under the first one's tag. -/
def join (s t : Seg α) : Seg α := ⟨s.start, s.len + t.len, s.tag⟩

@[simp] theorem join_start (s t : Seg α) : (s.join t).start = s.start := rfl

@[simp] theorem join_tag (s t : Seg α) : (s.join t).tag = s.tag := rfl

/-- The segment as a list, dropped when it is empty. -/
def keep (s : Seg α) : List (Seg α) := if s.len = 0 then [] else [s]

@[simp] theorem sum_len_keep (s : Seg α) : (s.keep.map len).sum = s.len := by
  unfold keep
  split_ifs with h <;> simp [h]

end Seg

/-- The segments follow each other without gap or overlap from `lo` to `hi`. -/
def Tiles : Nat → Nat → List (Seg α) → Prop
  | lo, hi, [] => lo = hi
  | lo, hi, s :: l => s.start = lo ∧ Tiles s.stop hi l

/-- Point `i` lies in a segment of the list that carries the tag `t`. -/
def Tagged (l : List (Seg α)) (i : Nat) (t : α) : Prop := ∃ s ∈ l, s.Covers i ∧ s.tag = t

namespace Tiles

@[simp] theorem nil_iff (lo hi : Nat) : Tiles lo hi ([] : List (Seg α)) ↔ lo = hi := Iff.rfl

@[simp] theorem cons_iff (lo hi : Nat) (s : Seg α) (l : List (Seg α)) :
    Tiles lo hi (s :: l) ↔ s.start = lo ∧ Tiles s.stop hi l := Iff.rfl

theorem le {lo hi : Nat} {l : List (Seg α)} (h : Tiles lo hi l) : lo ≤ hi := by
  induction l generalizing lo with
  | nil => exact Nat.le_of_eq h
  | cons s l ih =>
      obtain ⟨hs, hl⟩ := h
      have := ih hl
      unfold Seg.stop at this
      omega

theorem append_iff (lo hi : Nat) (l r : List (Seg α)) :
    Tiles lo hi (l ++ r) ↔ ∃ mid, Tiles lo mid l ∧ Tiles mid hi r := by
  induction l generalizing lo with
  | nil => simp
  | cons s l ih => simp [ih, and_assoc]

theorem append {lo mid hi : Nat} {l r : List (Seg α)} (hl : Tiles lo mid l)
    (hr : Tiles mid hi r) : Tiles lo hi (l ++ r) :=
  (append_iff lo hi l r).2 ⟨mid, hl, hr⟩

/-- Replacing a middle part by another tiling of the same interval. -/
theorem replace {lo hi a b : Nat} {l r mid : List (Seg α)} {s : Seg α}
    (h : Tiles lo hi (l ++ s :: r)) (ha : a = s.start) (hb : b = s.stop)
    (hmid : Tiles a b mid) : Tiles lo hi (l ++ (mid ++ r)) := by
  subst ha hb
  obtain ⟨m, hl, hs, hr⟩ := (append_iff _ _ _ _).1 h
  exact hl.append ((hs ▸ hmid).append hr)

theorem keep {s : Seg α} {lo hi : Nat} (hlo : s.start = lo) (hhi : s.stop = hi) :
    Tiles lo hi s.keep := by
  unfold Seg.keep
  split_ifs with h
  · simp [Seg.stop, h] at hhi
    simp; omega
  · exact ⟨hlo, hhi⟩

theorem mem_bounds {lo hi : Nat} {l : List (Seg α)} (h : Tiles lo hi l) {s : Seg α}
    (hs : s ∈ l) : lo ≤ s.start ∧ s.stop ≤ hi := by
  induction l generalizing lo with
  | nil => simp at hs
  | cons t l ih =>
      obtain ⟨ht, hl⟩ := h
      have hle := hl.le
      rcases List.mem_cons.1 hs with rfl | hs
      · exact ⟨ht.ge, hle⟩
      · have := ih hl hs
        unfold Seg.stop at *
        omega

theorem covers_unique {lo hi i : Nat} {l : List (Seg α)} (h : Tiles lo hi l)
    {s t : Seg α} (hs : s ∈ l) (ht : t ∈ l) (hsi : s.Covers i) (hti : t.Covers i) : s = t := by
  induction l generalizing lo with
  | nil => simp at hs
  | cons u l ih =>
      obtain ⟨-, hl⟩ := h
      unfold Seg.Covers at hsi hti
      rcases List.mem_cons.1 hs with rfl | hsl <;> rcases List.mem_cons.1 ht with rfl | htl
      · rfl
      · have := (hl.mem_bounds htl).1
        unfold Seg.stop at this
        omega
      · have := (hl.mem_bounds hsl).1
        unfold Seg.stop at this
        omega
      · exact ih hl hsl htl

theorem tag_unique {lo hi i : Nat} {l : List (Seg α)} (h : Tiles lo hi l) {t u : α}
    (ht : Tagged l i t) (hu : Tagged l i u) : t = u := by
  obtain ⟨s, hs, hsi, rfl⟩ := ht
  obtain ⟨s', hs', hsi', rfl⟩ := hu
  rw [h.covers_unique hs hs' hsi hsi']

/-- Each segment ends where the later ones start, or in front of them. -/
theorem pairwise {lo hi : Nat} {l : List (Seg α)} (h : Tiles lo hi l) :
    l.Pairwise fun s t => s.stop ≤ t.start := by
  induction l generalizing lo with
  | nil => exact List.Pairwise.nil
  | cons s l ih =>
      obtain ⟨-, hl⟩ := h
      exact List.pairwise_cons.2 ⟨fun t ht => (hl.mem_bounds ht).1, ih hl⟩

theorem start_mod {lo hi k : Nat} {l : List (Seg α)} (h : Tiles lo hi l)
    (hlen : ∀ s ∈ l, s.len % k = 0) {s : Seg α} (hs : s ∈ l) : s.start % k = lo % k := by
  induction l generalizing lo with
  | nil => exact absurd hs List.not_mem_nil
  | cons t l ih =>
      obtain ⟨rfl, hl⟩ := h
      rcases List.mem_cons.1 hs with rfl | hs
      · rfl
      · have hrest := ih hl (fun u hu => hlen u (List.mem_cons_of_mem _ hu)) hs
        rw [hrest, Seg.stop, Nat.add_mod, hlen t (List.mem_cons_self ..), Nat.add_zero, Nat.mod_mod]

theorem sum_len {lo hi : Nat} {l : List (Seg α)} (h : Tiles lo hi l) :
    lo + (l.map Seg.len).sum = hi := by
  induction l generalizing lo with
  | nil => simpa using h
  | cons s l ih =>
      obtain ⟨hs, hl⟩ := h
      have := ih hl
      simp only [List.map_cons, List.sum_cons]
      unfold Seg.stop at this
      omega

theorem length_le {lo hi : Nat} {l : List (Seg α)} (h : Tiles lo hi l)
    (hpos : ∀ s ∈ l, 0 < s.len) : lo + l.length ≤ hi := by
  induction l generalizing lo with
  | nil => exact Nat.le_of_eq h
  | cons s l ih =>
      obtain ⟨hs, hl⟩ := h
      have := ih hl fun t ht => hpos t (by simp [ht])
      have := hpos s (by simp)
      simp only [List.length_cons]
      unfold Seg.stop at *
      omega

theorem tagged_cons_of_lt {lo hi i : Nat} {s : Seg α} {l : List (Seg α)} {t : α}
    (h : Tiles lo hi (s :: l)) (hi : i < s.stop) (ht : Tagged (s :: l) i t) :
    s.Covers i ∧ s.tag = t := by
  obtain ⟨u, hu, hcov, htag⟩ := ht
  rcases List.mem_cons.1 hu with rfl | hul
  · exact ⟨hcov, htag⟩
  · have := (h.2.mem_bounds hul).1
    unfold Seg.Covers at hcov
    omega

theorem tagged_cons_of_le {i : Nat} {s : Seg α} {l : List (Seg α)} {t : α}
    (hi : s.stop ≤ i) (ht : Tagged (s :: l) i t) : Tagged l i t := by
  obtain ⟨u, hu, hcov, htag⟩ := ht
  rcases List.mem_cons.1 hu with rfl | hul
  · unfold Seg.Covers at hcov
    unfold Seg.stop at hi
    omega
  · exact ⟨u, hul, hcov, htag⟩

theorem tagged_bounds {lo hi i : Nat} {l : List (Seg α)} {t : α} (h : Tiles lo hi l)
    (ht : Tagged l i t) : lo ≤ i ∧ i < hi := by
  obtain ⟨s, hs, hcov, -⟩ := ht
  have := h.mem_bounds hs
  unfold Seg.Covers at hcov
  unfold Seg.stop at this
  omega

end Tiles

namespace Tagged

@[simp] theorem nil (i : Nat) (t : α) : ¬ Tagged ([] : List (Seg α)) i t := by
  simp [Tagged]

@[simp] theorem cons (s : Seg α) (l : List (Seg α)) (i : Nat) (t : α) :
    Tagged (s :: l) i t ↔ (s.Covers i ∧ s.tag = t) ∨ Tagged l i t := by
  simp [Tagged]

@[simp] theorem append (l r : List (Seg α)) (i : Nat) (t : α) :
    Tagged (l ++ r) i t ↔ Tagged l i t ∨ Tagged r i t := by
  simp only [Tagged, List.mem_append, or_and_right, exists_or]

@[simp] theorem keep (s : Seg α) (i : Nat) (t : α) :
    Tagged s.keep i t ↔ s.Covers i ∧ s.tag = t := by
  unfold Seg.keep
  split_ifs with h
  · simp [Seg.Covers, h]
  · simp

/-- Joining two equally tagged neighbours changes no tag. -/
theorem join {s u : Seg α} (hstart : u.start = s.stop) (htag : u.tag = s.tag) (i : Nat) (t : α) :
    ((s.join u).Covers i ∧ (s.join u).tag = t) ↔
      (s.Covers i ∧ s.tag = t) ∨ (u.Covers i ∧ u.tag = t) := by
  simp only [Seg.Covers, Seg.join, htag, hstart, Seg.stop]
  constructor
  · rintro ⟨⟨hlo, hhi⟩, ht⟩
    by_cases hs : i < s.start + s.len
    · exact Or.inl ⟨⟨hlo, hs⟩, ht⟩
    · exact Or.inr ⟨⟨by omega, by omega⟩, ht⟩
  · rintro (⟨⟨hlo, hhi⟩, ht⟩ | ⟨⟨hlo, hhi⟩, ht⟩)
    · exact ⟨⟨hlo, by omega⟩, ht⟩
    · exact ⟨⟨by omega, by omega⟩, ht⟩

end Tagged

theorem sum_len_filter (l : List (Seg α)) (test : Seg α → Bool) :
    ((l.filter test).map Seg.len).sum + ((l.filter fun s => !test s).map Seg.len).sum =
      (l.map Seg.len).sum := by
  induction l with
  | nil => rfl
  | cons s l ih => cases hs : test s <;> simp [hs] <;> omega

/-- The points with a tag are as many as the lengths of its segments add up to. -/
theorem Tiles.card_tagged [DecidableEq α] {lo hi : Nat} {l : List (Seg α)} (h : Tiles lo hi l)
    (t : α) {points : Finset Nat} (hmem : ∀ i, i ∈ points ↔ Tagged l i t) :
    points.card = ((l.filter fun s => s.tag = t).map Seg.len).sum := by
  induction l generalizing lo points with
  | nil =>
      have hempty : points = ∅ := by
        ext i
        simp [hmem]
      simp [hempty]
  | cons s l ih =>
      obtain ⟨hs, hl⟩ := h
      let later := points.filter fun i => s.stop ≤ i
      have hlater : ∀ i, i ∈ later ↔ Tagged l i t := by
        intro i
        rw [Finset.mem_filter, hmem]
        refine ⟨fun hi => tagged_cons_of_le hi.2 hi.1, fun hi => ?_⟩
        exact ⟨(Tagged.cons _ _ _ _).2 (Or.inr hi), (hl.tagged_bounds hi).1⟩
      by_cases hst : s.tag = t
      · have hsplit : points = Finset.Ico s.start s.stop ∪ later := by
          ext i
          rw [Finset.mem_union, Finset.mem_Ico, hlater, hmem, Tagged.cons]
          simp [Seg.Covers, Seg.stop, hst]
        have hdisj : Disjoint (Finset.Ico s.start s.stop) later := by
          rw [Finset.disjoint_left]
          intro i hi hi'
          have := (Finset.mem_Ico.1 hi).2
          have := (Finset.mem_filter.1 hi').2
          omega
        rw [hsplit, Finset.card_union_of_disjoint hdisj, ih hl hlater]
        simp [hst, Seg.stop]
      · have hsame : points = later := by
          ext i
          rw [hlater, hmem, Tagged.cons]
          simp [hst]
        rw [hsame, ih hl hlater]
        simp [hst]

end UnnamedKernel.Lib
