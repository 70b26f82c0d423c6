import UnnamedKernel.Lib.Cutting
import UnnamedKernel.Mm.Vma.Walks

/-!
# The allocated ranges

The used ranges of a tiling determine it, once its free ranges are as large as
they can be. `alloc_pages` adds one range to them, `free` cuts its pages out of one.
-/

namespace UnnamedKernel.Mm.Vma

open UnnamedKernel.Lib

/-- The allocated ranges, in list order. -/
def used (l : List PageSeg) : List PageSeg := l.filter fun s => !s.tag

/-- Pages `[page, page + n)` lie inside one allocated range. -/
def HeldTogether (l : List PageSeg) (page n : Nat) : Prop :=
  ∃ s ∈ l, s.tag = false ∧ s.start ≤ page ∧ page + n ≤ s.stop

@[simp] theorem used_nil : used [] = [] := rfl

@[simp] theorem used_cons (s : PageSeg) (l : List PageSeg) :
    used (s :: l) = if s.tag then used l else s :: used l := by
  unfold used
  cases hs : s.tag <;> simp [hs]

@[simp] theorem used_append (l r : List PageSeg) : used (l ++ r) = used l ++ used r :=
  List.filter_append ..

theorem mem_used {l : List PageSeg} {s : PageSeg} : s ∈ used l ↔ s ∈ l ∧ s.tag = false := by
  simp [used]

theorem used_keep (s : PageSeg) : used s.keep = if s.tag then [] else s.keep := by
  unfold Seg.keep
  split_ifs <;> simp_all

variable {n al page lo hi : Nat} {ok b : Bool} {l l' : List PageSeg}

/-! ## Tilings with the same allocated ranges -/

theorem NoFreePair.used_head {s : PageSeg} (h : NoFreePair (s :: l)) (hs : s.tag = true) :
    (used l).head? = l.head? := by
  cases l with
  | nil => rfl
  | cons u l =>
      unfold NoFreePair at h
      have hu := (List.isChain_cons.1 h).1 u (by simp) hs
      simp [hu]

theorem NoFreePair.tail {s : PageSeg} (h : NoFreePair (s :: l)) : NoFreePair l := by
  unfold NoFreePair at h ⊢
  exact (List.isChain_cons.1 h).2

private theorem start_not_mem {s u : PageSeg} (ht : Tiles lo hi (s :: l)) (hpos : 0 < s.len)
    (hu : u.start = lo) : u ∉ l := by
  intro hmem
  have := (ht.2.mem_bounds hmem).1
  have := ht.1
  unfold Seg.stop at *
  omega

theorem NoEmpty.nodup (hne : NoEmpty l) (ht : Tiles lo hi l) : l.Nodup := by
  induction l generalizing lo with
  | nil => exact List.nodup_nil
  | cons s l ih =>
      rw [noEmpty_cons] at hne
      exact List.nodup_cons.2 ⟨start_not_mem ht hne.1 ht.1, ih hne.2 ht.2⟩

theorem NoEmpty.apart (hne : NoEmpty l) (ht : Tiles lo hi l) {s u : PageSeg} (hs : s ∈ l)
    (hu : u ∈ l) (hsu : s ≠ u) : s.stop ≤ u.start ∨ u.stop ≤ s.start := by
  by_contra hover
  rw [not_or] at hover
  have := hne s hs
  have := hne u hu
  have hcov : s.Covers (max s.start u.start) ∧ u.Covers (max s.start u.start) := by
    unfold Seg.Covers Seg.stop at *
    omega
  exact hsu (ht.covers_unique hs hu hcov.1 hcov.2)

private theorem free_stop {s : PageSeg} (ht : Tiles lo hi (s :: l)) (h : NoFreePair (s :: l))
    (hs : s.tag = true) : s.stop = ((used l).head?.map Seg.start).getD hi := by
  rw [h.used_head hs]
  cases l with
  | nil => simpa using ht.2
  | cons u l => simpa using ht.2.1.symm

/-- The allocated ranges determine the tiling. -/
theorem eq_of_used_eq (ht : Tiles lo hi l) (ht' : Tiles lo hi l') (hne : NoEmpty l)
    (hne' : NoEmpty l') (h : NoFreePair l) (h' : NoFreePair l') (hused : used l = used l') :
    l = l' := by
  induction l generalizing lo l' with
  | nil =>
      cases l' with
      | nil => rfl
      | cons s' l' =>
          have := ht'.length_le hne'
          simp at ht this
          omega
  | cons s l ih =>
      cases l' with
      | nil =>
          have := ht.length_le hne
          simp at ht' this
          omega
      | cons s' l' =>
          rw [noEmpty_cons] at hne hne'
          have hstart : s.start = s'.start := ht.1.trans ht'.1.symm
          have hsame : s = s' ∧ used l = used l' := by
            cases hs : s.tag <;> cases hs' : s'.tag
            · simpa [hs, hs'] using hused
            · have hmem : s ∈ used l' := by
                have : s ∈ used (s' :: l') := by simp [← hused, hs]
                simpa [hs'] using this
              exact absurd (mem_used.1 hmem).1 (start_not_mem ht' hne'.1 ht.1)
            · have hmem : s' ∈ used l := by
                have : s' ∈ used (s :: l) := by simp [hused, hs']
                simpa [hs] using this
              exact absurd (mem_used.1 hmem).1 (start_not_mem ht hne.1 ht'.1)
            · have hrest : used l = used l' := by simpa [hs, hs'] using hused
              have hstop : s.stop = s'.stop := by
                rw [free_stop ht h hs, free_stop ht' h' hs', hrest]
              obtain ⟨a, k, t⟩ := s
              obtain ⟨a', k', t'⟩ := s'
              simp only [Seg.stop] at hstart hstop hs hs'
              refine ⟨?_, hrest⟩
              simp only [Seg.mk.injEq]
              exact ⟨hstart, by omega, hs.trans hs'.symm⟩
          obtain ⟨rfl, hrest⟩ := hsame
          rw [ih ht.2 ht'.2 hne.2 hne'.2 h.tail h'.tail hrest]

/-! ## What the walks do to the allocated ranges -/

theorem used_takeParts (s : PageSeg) :
    used (takeParts n al s) = [⟨ceilTo s.start al, n, false⟩] := by
  simp [takeParts, used_keep]

theorem used_cutAt_free {s : PageSeg} (hs : s.tag = true) (k : Nat) : used (cutAt k s) = [] := by
  simp [cutAt, hs]

theorem used_coalesceSegs {r : List PageSeg} {m : PageSeg} (hm : m.tag = true) :
    used (coalesceSegs l m r) = used l ++ used r := by
  have hprev : used (mergePrev l m).1 = used l := by
    rcases List.eq_nil_or_concat l with rfl | ⟨l, p, rfl⟩
    · rfl
    · rw [List.concat_eq_append, mergePrev_concat]
      split_ifs with hp <;> simp [hp]
  have htag := mergePrev_tag (l := l) hm
  rw [coalesceSegs, used_append, hprev]
  congr 1
  cases r with
  | nil => simp [mergeNext, htag]
  | cons nx r =>
      simp only [mergeNext]
      split_ifs with hnx <;> simp [htag, hnx]

namespace AllocWalk

variable {r : Option Nat}

theorem used_none (h : AllocWalk n al ok l r l') (hr : r = none) : used l' = used l := by
  induction h with
  | done => rfl
  | skip _ _ ih => simp [ih hr]
  | take => simp at hr
  | refuse _ _ ih => simp [ih hr]
  | strand hfit _ _ ih => simp [used_cutAt_free hfit.1, hfit.1, ih hr]

/-- A successful call adds one allocated range. -/
theorem used_some (h : AllocWalk n al ok l r l') {p : Nat} (hr : r = some p) :
    ∃ pre post, used l = pre ++ post ∧ used l' = pre ++ ⟨p, n, false⟩ :: post := by
  induction h with
  | done => simp at hr
  | @skip ok s l r l' _ _ ih =>
      obtain ⟨pre, post, hl, hl'⟩ := ih hr
      refine ⟨if s.tag then pre else s :: pre, post, ?_, ?_⟩ <;>
        cases hs : s.tag <;> simp [hs, hl, hl']
  | @take s l hfit =>
      obtain rfl : ceilTo s.start al = p := by simpa using hr
      exact ⟨[], used l, by simp [hfit.1], by simp [used_takeParts]⟩
  | @refuse ok s l r l' hfit _ ih =>
      obtain ⟨pre, post, hl, hl'⟩ := ih hr
      exact ⟨pre, post, by simp [hfit.1, hl], by simp [hfit.1, hl']⟩
  | @strand ok s l r l' hfit _ _ ih =>
      obtain ⟨pre, post, hl, hl'⟩ := ih hr
      exact ⟨pre, post, by simp [hfit.1, hl], by simp [used_cutAt_free hfit.1, hl']⟩

end AllocWalk

theorem flatMap_without_beside {r : List PageSeg} {s : PageSeg} (ht : Tiles lo hi (l ++ s :: r))
    (hne : NoEmpty (l ++ s :: r)) (hlo : s.start ≤ page) (hhi : page + n ≤ s.stop) :
    (used l).flatMap (Seg.without page n) = used l ∧
      (used r).flatMap (Seg.without page n) = used r := by
  obtain ⟨mid, hl, hs, hr⟩ := (Tiles.append_iff _ _ _ _).1 ht
  simp only [noEmpty_append, noEmpty_cons] at hne
  have hflat : ∀ t : List PageSeg, (∀ u ∈ t, Seg.without page n u = [u]) →
      t.flatMap (Seg.without page n) = t := by
    intro t h
    rw [List.flatMap_congr h]
    simp
  refine ⟨hflat _ fun u hu => ?_, hflat _ fun u hu => ?_⟩
  · have hul := (mem_used.1 hu).1
    have := (hl.mem_bounds hul).2
    exact Seg.without_of_le (hne.1 u hul) (by omega)
  · have hur := (mem_used.1 hu).1
    have := (hr.mem_bounds hur).1
    exact Seg.without_of_ge (hne.2.2 u hur) (by omega)

namespace FreeWalk

/-- A successful call cuts its pages out of the allocated ranges. -/
theorem used_true (h : FreeWalk page n ok l b l') (hb : b = true) (ht : Tiles lo hi l)
    (hne : NoEmpty l) : used l' = (used l).flatMap (Seg.without page n) := by
  cases h with
  | @release l s r hused hlo hhi =>
      obtain ⟨hl, hr⟩ := flatMap_without_beside ht hne hlo hhi
      rw [used_coalesceSegs rfl]
      simp [used_keep, hused, hl, hr, Seg.without_inside hlo hhi]
  | miss => simp at hb
  | overrun => simp at hb
  | wrapCut => simp at hb
  | starve => simp at hb
  | starveHead => simp at hb

theorem heldTogether (h : FreeWalk page n ok l b l') (hb : b = true) : HeldTogether l page n := by
  cases h with
  | @release l s r hused hlo hhi => exact ⟨s, by simp, hused, hlo, hhi⟩
  | miss => simp at hb
  | overrun => simp at hb
  | wrapCut => simp at hb
  | starve => simp at hb
  | starveHead => simp at hb

/-- Where no node allocation failed, a range held together is released. -/
theorem released (h : FreeWalk page n ok l b l') (hok : ok = true) (ht : Tiles lo hi l)
    (hwindow : hi ≤ 2 ^ 64) (hn : 0 < n) (hheld : HeldTogether l page n) : b = true := by
  obtain ⟨u, hu, htag, hlo, hhi⟩ := hheld
  have hstop := (ht.mem_bounds hu).2
  have hcov : u.Covers page := by
    unfold Seg.Covers Seg.stop at *
    omega
  -- the range that the walk stops at is the one that holds the pages
  have hsame : ∀ {l₁ s r₁}, l = l₁ ++ s :: r₁ → s.Covers page → s = u := fun hl hc =>
    ht.covers_unique (by simp [hl]) hu hc hcov
  cases h with
  | miss hmiss => exact absurd ⟨u, hu, hcov, htag⟩ hmiss
  | release => rfl
  | overrun _ hc hover =>
      rw [hsame rfl hc] at hover
      omega
  | wrapCut _ hc hwrap hn' =>
      rw [hsame rfl hc] at hwrap
      omega
  | starve => simp at hok
  | starveHead => simp at hok

end FreeWalk

theorem FreeWalk.of_used_nil (h : FreeWalk page n ok l b l') (hused : used l = []) : l' = l := by
  have hfree : ∀ {l₁ s r₁}, l = l₁ ++ s :: r₁ → s.tag = false → False := by
    rintro l₁ s r₁ rfl hs
    simp [hs] at hused
  cases h with
  | miss => rfl
  | release hs => exact absurd hs (hfree rfl)
  | overrun => rfl
  | wrapCut hs => exact absurd hs (hfree rfl)
  | starve => rfl
  | starveHead hs => exact absurd hs (hfree rfl)

/-- `page + n` does not wrap to a page inside the allocated range that holds `page`. -/
def NoWrapInside (l : List PageSeg) (page n : Nat) : Prop :=
  ∀ s ∈ l, s.tag = false → s.Covers page → page + n ≤ s.start + 2 ^ 64

/-- A failed release cuts nothing when no node allocation failed and the sum does not wrap. -/
theorem FreeWalk.eq_of_false (h : FreeWalk page n ok l b l') (hok : ok = true) (hb : b = false)
    (hclean : NoWrapInside l page n) : l' = l := by
  cases h with
  | miss => rfl
  | release => simp at hb
  | overrun => rfl
  | @wrapCut l s r hused hcov hwrap =>
      have := hclean s (by simp) hused hcov
      omega
  | starve => simp at hok
  | starveHead => simp at hok

theorem FreeWalk.used_whole (h : FreeWalk page n ok l b l') (hb : b = true) (ht : Tiles lo hi l)
    (hne : NoEmpty l) {pre post : List PageSeg} (hused : used l = pre ++ ⟨page, n, false⟩ :: post) :
    used l' = pre ++ post := by
  have hself : Seg.without page n (⟨page, n, false⟩ : PageSeg) = [] :=
    Seg.without_self ⟨page, n, false⟩
  have hmem : ∀ u ∈ pre ++ ⟨page, n, false⟩ :: post, u ∈ l := fun u hu =>
    (mem_used.1 (hused ▸ hu)).1
  have hnodup : (used l).Nodup := (hne.nodup ht).filter _
  rw [hused, List.nodup_middle, List.nodup_cons] at hnodup
  have hothers : ∀ u ∈ pre ++ post, Seg.without page n u = [u] := by
    intro u hu
    have hul := hmem u (by
      rcases List.mem_append.1 hu with hu | hu <;> simp [hu])
    have hne' : (⟨page, n, false⟩ : PageSeg) ≠ u := fun he => hnodup.1 (he ▸ hu)
    rcases hne.apart ht (hmem _ (by simp)) hul hne' with hafter | hbefore
    · exact Seg.without_of_ge (hne u hul) hafter
    · exact Seg.without_of_le (hne u hul) hbefore
  have hflat : ∀ t : List PageSeg, (∀ u ∈ t, u ∈ pre ++ post) →
      t.flatMap (Seg.without page n) = t := by
    intro t hsub
    rw [List.flatMap_congr fun u hu => hothers u (hsub u hu)]
    simp
  rw [h.used_true hb ht hne, hused, List.flatMap_append, List.flatMap_cons, hself,
    hflat pre fun u hu => by simp [hu], hflat post fun u hu => by simp [hu], List.nil_append]

theorem HeldTogether.after {j m : Nat} (h : FreeWalk page n ok l b l') (hb : b = true)
    (ht : Tiles lo hi l) (hne : NoEmpty l) (hm : 0 < m) (hheld : HeldTogether l j m)
    (hapart : j + m ≤ page ∨ page + n ≤ j) : HeldTogether l' j m := by
  obtain ⟨s, hs, htag, hlo, hhi⟩ := hheld
  have hmem : ∀ u ∈ Seg.without page n s, u ∈ used l' := by
    intro u hu
    rw [h.used_true hb ht hne, List.mem_flatMap]
    exact ⟨s, mem_used.2 ⟨hs, htag⟩, hu⟩
  rcases hapart with hbefore | hbehind
  · have hpart :
        (⟨s.start, min s.stop page - s.start, s.tag⟩ : PageSeg) ∈ Seg.without page n s := by
      rw [Seg.without, Seg.front, Seg.keep_of_pos (by simp only; omega)]
      simp
    obtain ⟨hl', htag'⟩ := mem_used.1 (hmem _ hpart)
    refine ⟨_, hl', htag', hlo, ?_⟩
    simp only [Seg.stop]
    unfold Seg.stop at hhi
    omega
  · have hpart : (⟨max s.start (page + n), s.stop - max s.start (page + n), s.tag⟩ : PageSeg) ∈
        Seg.without page n s := by
      rw [Seg.without, Seg.back, Seg.keep_of_pos (s := ⟨max s.start (page + n), _, _⟩)
        (by simp only; omega)]
      simp
    obtain ⟨hl', htag'⟩ := mem_used.1 (hmem _ hpart)
    refine ⟨_, hl', htag', by simp only; omega, ?_⟩
    simp only [Seg.stop]
    unfold Seg.stop at hhi
    omega

end UnnamedKernel.Mm.Vma
