import Mathlib.Data.List.Chain
import Mathlib.Tactic.Tauto
import UnnamedKernel.Lib.Tiling
import UnnamedKernel.Lib.Word

/-!
# What the range allocator does to page ranges

The abstract side of `VAddrAllocator`: a tiling of the window by ranges tagged
free or used, and the two walks `alloc_pages` and `free` as relations on such
tilings. A node allocation that fails is a choice of the environment, recorded
in a Boolean index: `true` means that no allocation failed.
-/

namespace UnnamedKernel.Mm.Vma

open UnnamedKernel.Lib

/-- A range of pages, tagged with whether it is free. -/
abbrev PageSeg := Seg Bool

/-- `n` pages at the first aligned page of `s` are free. -/
def Fits (n al : Nat) (s : PageSeg) : Prop := s.tag = true ∧ ceilTo s.start al + n ≤ s.stop

instance (n al : Nat) (s : PageSeg) : Decidable (Fits n al s) :=
  inferInstanceAs (Decidable (_ ∧ _))

/-- The parts of a fitting range once `n` aligned pages are taken out of it. -/
def takeParts (n al : Nat) (s : PageSeg) : List PageSeg :=
  Seg.keep ⟨s.start, ceilTo s.start al - s.start, true⟩ ++
    ⟨ceilTo s.start al, n, false⟩ ::
      Seg.keep ⟨ceilTo s.start al + n, s.stop - (ceilTo s.start al + n), true⟩

/-- A range cut in two after `k` pages. -/
def cutAt (k : Nat) (s : PageSeg) : List PageSeg :=
  [⟨s.start, k, s.tag⟩, ⟨s.start + k, s.len - k, s.tag⟩]

/-- The walk of `alloc_pages`: which page it returns and what is left behind. -/
inductive AllocWalk (n al : Nat) : Bool → List PageSeg → Option Nat → List PageSeg → Prop
  | done : AllocWalk n al true [] none []
  | skip {ok s l r l'} (hfit : ¬ Fits n al s) (rest : AllocWalk n al ok l r l') :
      AllocWalk n al ok (s :: l) r (s :: l')
  | take {s l} (hfit : Fits n al s) :
      AllocWalk n al true (s :: l) (some (ceilTo s.start al)) (takeParts n al s ++ l)
  /-- the first split fails, and the range stays whole -/
  | refuse {ok s l r l'} (hfit : Fits n al s) (rest : AllocWalk n al ok l r l') :
      AllocWalk n al false (s :: l) r (s :: l')
  /-- the padding is cut off, then the second split fails -/
  | strand {ok s l r l'} (hfit : Fits n al s) (hpad : s.start < ceilTo s.start al)
      (rest : AllocWalk n al ok l r l') :
      AllocWalk n al false (s :: l) r (cutAt (ceilTo s.start al - s.start) s ++ l')

/-- The first half of `coalesce`: the freed range joins a free left neighbour. -/
def mergePrev (l : List PageSeg) (m : PageSeg) : List PageSeg × PageSeg :=
  match l.getLast? with
  | some p => if p.tag then (l.dropLast, p.join m) else (l, m)
  | none => (l, m)

/-- The second half of `coalesce`: the freed range swallows a free right neighbour. -/
def mergeNext (m : PageSeg) (r : List PageSeg) : List PageSeg :=
  match r with
  | nx :: r' => if nx.tag then m.join nx :: r' else m :: r
  | [] => [m]

def coalesceSegs (l : List PageSeg) (m : PageSeg) (r : List PageSeg) : List PageSeg :=
  (mergePrev l m).1 ++ mergeNext (mergePrev l m).2 r

/-- The walk of `free` on pages `[page, page + n)`, `n` counted without wrapping. -/
inductive FreeWalk (page n : Nat) : Bool → List PageSeg → Bool → List PageSeg → Prop
  | miss {l} (hmiss : ¬ Tagged l page false) : FreeWalk page n true l false l
  | release {l s r} (hused : s.tag = false) (hlo : s.start ≤ page) (hhi : page + n ≤ s.stop) :
      FreeWalk page n true (l ++ s :: r) true
        (coalesceSegs (l ++ Seg.keep ⟨s.start, page - s.start, false⟩) ⟨page, n, true⟩
          (Seg.keep ⟨page + n, s.stop - (page + n), false⟩ ++ r))
  | overrun {l s r} (hused : s.tag = false) (hcov : s.Covers page) (hhi : s.stop < page + n)
      (hwrap : page + n ≤ s.start + 2 ^ 64) :
      FreeWalk page n true (l ++ s :: r) false (l ++ s :: r)
  /-- `page + npages` wraps to a page inside the range, and the range is cut there -/
  | wrapCut {l s r} (hused : s.tag = false) (hcov : s.Covers page)
      (hwrap : s.start + 2 ^ 64 < page + n) (hn : n < 2 ^ 64) :
      FreeWalk page n true (l ++ s :: r) false
        (l ++ (cutAt (page + n - 2 ^ 64 - s.start) s ++ r))
  /-- a split fails before the list has changed; a whole range needs no split -/
  | starve {l s r} (hused : s.tag = false) (hcov : s.Covers page)
      (hpart : ¬ (s.start = page ∧ s.len = n)) :
      FreeWalk page n false (l ++ s :: r) false (l ++ s :: r)
  /-- the tail is cut off, then the split before `page` fails -/
  | starveHead {l s r} (hused : s.tag = false) (hlo : s.start < page) (hn : 0 < n)
      (hhi : page + n < s.stop) :
      FreeWalk page n false (l ++ s :: r) false (l ++ (cutAt (page + n - s.start) s ++ r))

/-- No two neighbours are both free. -/
def NoFreePair (l : List PageSeg) : Prop := l.IsChain fun s t => s.tag = true → t.tag = false

/-- No range is empty. -/
def NoEmpty (l : List PageSeg) : Prop := ∀ s ∈ l, 0 < s.len

@[simp] theorem noEmpty_nil : NoEmpty [] := by simp [NoEmpty]

@[simp] theorem noEmpty_cons (s : PageSeg) (l : List PageSeg) :
    NoEmpty (s :: l) ↔ 0 < s.len ∧ NoEmpty l := by simp [NoEmpty]

@[simp] theorem noEmpty_append (l r : List PageSeg) :
    NoEmpty (l ++ r) ↔ NoEmpty l ∧ NoEmpty r := by
  simp only [NoEmpty, List.mem_append, or_imp, forall_and]

@[simp] theorem noEmpty_keep (s : PageSeg) : NoEmpty s.keep := by
  unfold Seg.keep NoEmpty
  split_ifs with h
  · simp
  · simpa using Nat.pos_of_ne_zero h

/-! ## Cutting a range changes no tag -/

theorem cutAt_tiles {s : PageSeg} {k : Nat} (hk : k ≤ s.len) :
    Tiles s.start s.stop (cutAt k s) := by
  simp only [cutAt, Tiles.cons_iff, Tiles.nil_iff, Seg.stop, true_and]
  omega

theorem cutAt_tagged {s : PageSeg} {k : Nat} (hk : k ≤ s.len) (i : Nat) (t : Bool) :
    Tagged (cutAt k s) i t ↔ s.Covers i ∧ s.tag = t := by
  simp only [cutAt, Tagged.cons, Tagged.nil, or_false, Seg.Covers]
  rw [← or_and_right]
  refine and_congr_left fun _ => ?_
  omega

theorem cutAt_noEmpty {s : PageSeg} {k : Nat} (hpos : 0 < k) (hk : k < s.len) :
    NoEmpty (cutAt k s) := by
  simp only [cutAt, noEmpty_cons, noEmpty_nil, and_true]
  omega

/-! ## Merging with free neighbours -/

theorem mergePrev_concat (l : List PageSeg) (p m : PageSeg) :
    mergePrev (l ++ [p]) m = if p.tag then (l, p.join m) else (l ++ [p], m) := by
  simp [mergePrev]

@[simp] theorem mergePrev_nil (m : PageSeg) : mergePrev [] m = ([], m) := rfl

theorem mergePrev_tiles {lo hi : Nat} {l r : List PageSeg} {m : PageSeg}
    (h : Tiles lo hi (l ++ m :: r)) :
    Tiles lo hi ((mergePrev l m).1 ++ (mergePrev l m).2 :: r) := by
  rcases List.eq_nil_or_concat l with rfl | ⟨l, p, rfl⟩
  · exact h
  · rw [List.concat_eq_append] at h ⊢
    rw [mergePrev_concat]
    split_ifs with hp
    · rw [List.append_assoc, Tiles.append_iff] at h
      obtain ⟨mid, hl, hpm⟩ := h
      simp only [List.singleton_append, Tiles.cons_iff] at hpm
      refine hl.append ⟨hpm.1, ?_⟩
      have hstop : (p.join m).stop = m.stop := by
        have := hpm.2.1
        simp only [Seg.stop, Seg.join] at this ⊢
        omega
      rw [hstop]
      exact hpm.2.2
    · exact h

theorem mergeNext_tiles {lo hi : Nat} {r : List PageSeg} {m : PageSeg}
    (h : Tiles lo hi (m :: r)) : Tiles lo hi (mergeNext m r) := by
  cases r with
  | nil => exact h
  | cons nx r =>
      simp only [mergeNext]
      split_ifs with hnx
      · obtain ⟨hm, hnxs, hr⟩ := h
        refine ⟨hm, ?_⟩
        have hstop : (m.join nx).stop = nx.stop := by
          simp only [Seg.stop, Seg.join] at hnxs ⊢
          omega
        rw [hstop]
        exact hr
      · exact h

theorem mergePrev_tag {l : List PageSeg} {m : PageSeg} (hm : m.tag = true) :
    (mergePrev l m).2.tag = true := by
  rcases List.eq_nil_or_concat l with rfl | ⟨l, p, rfl⟩
  · exact hm
  · rw [List.concat_eq_append, mergePrev_concat]
    split_ifs with hp
    · exact hp
    · exact hm

theorem mergePrev_tagged {lo hi : Nat} {l r : List PageSeg} {m : PageSeg}
    (h : Tiles lo hi (l ++ m :: r)) (hm : m.tag = true) (i : Nat) (t : Bool) :
    Tagged ((mergePrev l m).1 ++ (mergePrev l m).2 :: r) i t ↔ Tagged (l ++ m :: r) i t := by
  rcases List.eq_nil_or_concat l with rfl | ⟨l, p, rfl⟩
  · rfl
  · rw [List.concat_eq_append] at h ⊢
    rw [mergePrev_concat]
    split_ifs with hp
    · rw [List.append_assoc, Tiles.append_iff] at h
      obtain ⟨mid, -, hpm⟩ := h
      simp only [List.singleton_append, Tiles.cons_iff] at hpm
      have hjoin := Tagged.join hpm.2.1 (hm.trans hp.symm) i t
      simp only [Tagged.append, Tagged.cons, Tagged.nil, or_false, hjoin]
      tauto
    · rfl

theorem mergeNext_tagged {lo hi : Nat} {r : List PageSeg} {m : PageSeg}
    (h : Tiles lo hi (m :: r)) (hm : m.tag = true) (i : Nat) (t : Bool) :
    Tagged (mergeNext m r) i t ↔ Tagged (m :: r) i t := by
  cases r with
  | nil => rfl
  | cons nx r =>
      simp only [mergeNext]
      split_ifs with hnx
      · have hjoin := Tagged.join h.2.1 (hnx.trans hm.symm) i t
        simp only [Tagged.cons, hjoin]
        tauto
      · rfl

theorem coalesceSegs_tiles {lo hi : Nat} {l r : List PageSeg} {m : PageSeg}
    (h : Tiles lo hi (l ++ m :: r)) : Tiles lo hi (coalesceSegs l m r) := by
  obtain ⟨mid, hl, hr⟩ := (Tiles.append_iff _ _ _ _).1 (mergePrev_tiles h)
  exact hl.append (mergeNext_tiles hr)

theorem coalesceSegs_tagged {lo hi : Nat} {l r : List PageSeg} {m : PageSeg}
    (h : Tiles lo hi (l ++ m :: r)) (hm : m.tag = true) (i : Nat) (t : Bool) :
    Tagged (coalesceSegs l m r) i t ↔ Tagged (l ++ m :: r) i t := by
  have hprev := mergePrev_tiles h
  obtain ⟨mid, -, hr⟩ := (Tiles.append_iff _ _ _ _).1 hprev
  rw [← mergePrev_tagged h hm, coalesceSegs, Tagged.append, Tagged.append,
    mergeNext_tagged hr (mergePrev_tag hm)]

theorem coalesceSegs_noEmpty {l r : List PageSeg} {m : PageSeg} (h : NoEmpty (l ++ m :: r)) :
    NoEmpty (coalesceSegs l m r) := by
  simp only [noEmpty_append, noEmpty_cons] at h
  obtain ⟨hl, hm, hr⟩ := h
  have hprev : NoEmpty (mergePrev l m).1 ∧ 0 < (mergePrev l m).2.len := by
    rcases List.eq_nil_or_concat l with rfl | ⟨l, p, rfl⟩
    · exact ⟨hl, hm⟩
    · rw [List.concat_eq_append, mergePrev_concat]
      rw [List.concat_eq_append, noEmpty_append] at hl
      split_ifs with hp
      · exact ⟨hl.1, by simp only [Seg.join]; omega⟩
      · exact ⟨(noEmpty_append _ _).2 hl, hm⟩
  rw [coalesceSegs, noEmpty_append]
  refine ⟨hprev.1, ?_⟩
  cases r with
  | nil => simpa [mergeNext] using hprev.2
  | cons nx r =>
      simp only [mergeNext]
      rw [noEmpty_cons] at hr
      split_ifs with hnx
      · rw [noEmpty_cons]
        exact ⟨by simp only [Seg.join]; omega, hr.2⟩
      · rw [noEmpty_cons, noEmpty_cons]
        exact ⟨hprev.2, hr⟩

theorem noFreePair_insert {l r : List PageSeg} {m : PageSeg} (hl : NoFreePair l)
    (hr : NoFreePair r) (hlast : ∀ p ∈ l.getLast?, p.tag = false)
    (hfirst : ∀ p ∈ r.head?, p.tag = false) : NoFreePair (l ++ m :: r) := by
  unfold NoFreePair at *
  rw [List.isChain_append, List.isChain_cons]
  refine ⟨hl, ⟨fun y hy => ?_, hr⟩, fun x hx y _ => ?_⟩
  · simp [hfirst y hy]
  · simp [hlast x hx]

/-- `coalesce` leaves no two free neighbours when there were none around the freed range. -/
theorem coalesceSegs_noFreePair {l r : List PageSeg} {m : PageSeg} (hl : NoFreePair l)
    (hr : NoFreePair r) : NoFreePair (coalesceSegs l m r) := by
  have hprev : NoFreePair (mergePrev l m).1 ∧
      ∀ p ∈ (mergePrev l m).1.getLast?, p.tag = false := by
    rcases List.eq_nil_or_concat l with rfl | ⟨l, p, rfl⟩
    · simp [NoFreePair]
    · rw [List.concat_eq_append] at hl ⊢
      rw [mergePrev_concat]
      split_ifs with hp
      · unfold NoFreePair at hl ⊢
        rw [List.isChain_append] at hl
        refine ⟨hl.1, fun x hx => ?_⟩
        have := hl.2.2 x hx p (by simp)
        simpa [hp] using this
      · refine ⟨hl, fun x hx => ?_⟩
        simp only [List.getLast?_append, List.getLast?_singleton, Option.some_or,
          Option.mem_some_iff] at hx
        simpa [← hx] using hp
  unfold coalesceSegs
  cases r with
  | nil => exact noFreePair_insert hprev.1 hr hprev.2 (by simp)
  | cons nx r =>
      simp only [mergeNext]
      have hr' := hr
      unfold NoFreePair at hr'
      rw [List.isChain_cons] at hr'
      split_ifs with hnx
      · refine noFreePair_insert hprev.1 hr'.2 hprev.2 fun p hp => ?_
        simpa [hnx] using hr'.1 p hp
      · exact noFreePair_insert hprev.1 hr hprev.2 (by simpa using hnx)

end UnnamedKernel.Mm.Vma
