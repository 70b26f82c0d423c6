import UnnamedKernel.Mm.Vma.Segments

/-!
# What the two walks preserve

One lemma per property and walk: the tiling of the window, the absence of empty
ranges, the tag of every page, and, when no node allocation failed, the absence
of free neighbours. The last one makes `alloc_pages` a complete first-fit search.
-/

namespace UnnamedKernel.Mm.Vma

open UnnamedKernel.Lib

variable {n al page lo hi : Nat} {ok : Bool} {l l' : List PageSeg}

/-! ## The parts taken out of a fitting range -/

theorem Fits.start_le {s : PageSeg} (hal : 0 < al) : s.start ≤ ceilTo s.start al :=
  le_ceilTo s.start hal

theorem Fits.pad_le {s : PageSeg} (hfit : Fits n al s) : ceilTo s.start al - s.start ≤ s.len := by
  have := hfit.2
  unfold Seg.stop at this
  omega

theorem takeParts_tiles {s : PageSeg} (hal : 0 < al) (hfit : Fits n al s) :
    Tiles s.start s.stop (takeParts n al s) := by
  have hlo := Fits.start_le (s := s) hal
  have hhi := hfit.2
  refine (Tiles.append_iff _ _ _ _).2 ⟨ceilTo s.start al, Tiles.keep rfl ?_, rfl,
    Tiles.keep rfl ?_⟩
  · simp only [Seg.stop]
    omega
  · simp only [Seg.stop] at hhi ⊢
    omega

theorem takeParts_noEmpty (s : PageSeg) (hn : 0 < n) : NoEmpty (takeParts n al s) := by
  simp [takeParts, hn]

theorem takeParts_tagged {s : PageSeg} (hal : 0 < al) (hfit : Fits n al s) (i : Nat) (t : Bool) :
    Tagged (takeParts n al s) i t ↔
      s.Covers i ∧
        (if ceilTo s.start al ≤ i ∧ i < ceilTo s.start al + n then t = false else s.tag = t) := by
  have hlo := Fits.start_le (s := s) hal
  obtain ⟨htag, hhi⟩ := hfit
  simp only [takeParts, Tagged.append, Tagged.cons, Tagged.keep, Seg.Covers, htag]
  unfold Seg.stop at *
  split_ifs with h
  · constructor
    · rintro (⟨hc, -⟩ | ⟨-, ht⟩ | ⟨hc, -⟩)
      · omega
      · exact ⟨by omega, ht.symm⟩
      · omega
    · rintro ⟨-, rfl⟩
      exact Or.inr (Or.inl ⟨h, rfl⟩)
  · constructor
    · rintro (⟨hc, ht⟩ | ⟨hc, -⟩ | ⟨hc, ht⟩)
      · exact ⟨by omega, ht⟩
      · omega
      · exact ⟨by omega, ht⟩
    · rintro ⟨hc, ht⟩
      by_cases hi : i < ceilTo s.start al
      · exact Or.inl ⟨by omega, ht⟩
      · exact Or.inr (Or.inr ⟨by omega, ht⟩)

theorem takeParts_noFreePair {s : PageSeg} {r : List PageSeg} (hfit : Fits n al s)
    (h : NoFreePair (s :: r)) : NoFreePair (takeParts n al s ++ r) := by
  have hr : NoFreePair r := by
    unfold NoFreePair at h ⊢
    exact (List.isChain_cons.1 h).2
  have hfirst : ∀ p ∈ r.head?, p.tag = false := by
    unfold NoFreePair at h
    intro p hp
    simpa [hfit.1] using (List.isChain_cons.1 h).1 p hp
  have hright : NoFreePair
      (Seg.keep ⟨ceilTo s.start al + n, s.stop - (ceilTo s.start al + n), true⟩ ++ r) := by
    unfold Seg.keep
    split_ifs
    · exact hr
    · exact noFreePair_insert (l := []) (by simp [NoFreePair]) hr (by simp) hfirst
  unfold takeParts
  rw [List.append_assoc]
  unfold NoFreePair at hright ⊢
  unfold Seg.keep at hright ⊢
  simp only [List.cons_append, List.isChain_append, List.isChain_cons, hright, and_true]
  refine ⟨by split_ifs <;> simp, by simp, ?_⟩
  intro x _ y hy
  simp only [List.head?_cons, Option.mem_some_iff] at hy
  simp [← hy]

/-! ## `alloc_pages` -/

/-- From `l` to `l'`, the `n` free pages at `p` become used and no other page changes. -/
def TookRun (n p : Nat) (l l' : List PageSeg) : Prop :=
  (∀ i, p ≤ i → i < p + n → Tagged l i true) ∧
    ∀ i t, Tagged l' i t ↔ if p ≤ i ∧ i < p + n then t = false else Tagged l i t

/-- The run lies behind the first range, which may be cut but keeps its tag. -/
theorem TookRun.behind {p : Nat} {s : PageSeg} (h : TookRun n p l l') (parts : List PageSeg)
    (hparts : ∀ i t, Tagged parts i t ↔ s.Covers i ∧ s.tag = t) (hlo : s.stop ≤ p) :
    TookRun n p (s :: l) (parts ++ l') := by
  refine ⟨fun i hi hi' => (Tagged.cons _ _ _ _).2 (Or.inr (h.1 i hi hi')), fun i t => ?_⟩
  have hcov : p ≤ i → ¬ s.Covers i := by
    unfold Seg.Covers Seg.stop at *
    omega
  simp only [Tagged.append, Tagged.cons, hparts, h.2]
  split_ifs with hin
  · simp [hcov hin.1]
  · rfl

namespace AllocWalk

variable {r : Option Nat}

theorem mem_of_some (h : AllocWalk n al ok l r l') {p : Nat} (hr : r = some p) :
    (⟨p, n, false⟩ : PageSeg) ∈ l' := by
  induction h with
  | done => simp at hr
  | skip _ _ ih => exact List.mem_cons_of_mem _ (ih hr)
  | take _ =>
      obtain rfl := Option.some.inj hr
      simp [takeParts]
  | refuse _ _ ih => exact List.mem_cons_of_mem _ (ih hr)
  | strand _ _ _ ih => exact List.mem_append_right _ (ih hr)

theorem tiles (h : AllocWalk n al ok l r l') (hal : 0 < al) (ht : Tiles lo hi l) :
    Tiles lo hi l' := by
  induction h generalizing lo with
  | done => exact ht
  | skip _ _ ih => exact ⟨ht.1, ih ht.2⟩
  | take hfit => exact (ht.1 ▸ takeParts_tiles hal hfit).append ht.2
  | refuse _ _ ih => exact ⟨ht.1, ih ht.2⟩
  | strand hfit _ _ ih =>
      obtain ⟨rfl, hrest⟩ := ht
      exact (cutAt_tiles hfit.pad_le).append (ih hrest)

theorem noEmpty (h : AllocWalk n al ok l r l') (hn : 0 < n) (hl : NoEmpty l) : NoEmpty l' := by
  induction h with
  | done => exact hl
  | skip _ _ ih =>
      exact (noEmpty_cons _ _).2 ⟨((noEmpty_cons _ _).1 hl).1, ih ((noEmpty_cons _ _).1 hl).2⟩
  | take _ => exact (noEmpty_append _ _).2 ⟨takeParts_noEmpty _ hn, ((noEmpty_cons _ _).1 hl).2⟩
  | refuse _ _ ih =>
      exact (noEmpty_cons _ _).2 ⟨((noEmpty_cons _ _).1 hl).1, ih ((noEmpty_cons _ _).1 hl).2⟩
  | strand hfit hpad _ ih =>
      refine (noEmpty_append _ _).2 ⟨cutAt_noEmpty (by omega) ?_, ih ((noEmpty_cons _ _).1 hl).2⟩
      have := hfit.2
      unfold Seg.stop at this
      omega

theorem empty (h : AllocWalk n al ok [⟨0, 0, true⟩] r l') (hn : 0 < n) : l' = [⟨0, 0, true⟩] := by
  have hfit : ¬ Fits n al ⟨0, 0, true⟩ := by
    simp only [Fits, Seg.stop]
    omega
  cases h with
  | skip _ rest => cases rest; rfl
  | take h => exact absurd h hfit
  | refuse h => exact absurd h hfit
  | strand h => exact absurd h hfit

theorem tagged_none (h : AllocWalk n al ok l r l') (hr : r = none) (i : Nat) (t : Bool) :
    Tagged l' i t ↔ Tagged l i t := by
  induction h with
  | done => rfl
  | skip _ _ ih => simp only [Tagged.cons, ih hr]
  | take _ => simp at hr
  | refuse _ _ ih => simp only [Tagged.cons, ih hr]
  | strand hfit _ _ ih => simp only [Tagged.append, Tagged.cons, cutAt_tagged hfit.pad_le, ih hr]

theorem some_aligned (h : AllocWalk n al ok l r l') (hal : 0 < al) (ht : Tiles lo hi l)
    {p : Nat} (hr : r = some p) : al ∣ p ∧ lo ≤ p ∧ p + n ≤ hi := by
  have behind : ∀ {s : PageSeg} {l : List PageSeg} {lo : Nat}, Tiles lo hi (s :: l) →
      (al ∣ p ∧ s.stop ≤ p ∧ p + n ≤ hi) → al ∣ p ∧ lo ≤ p ∧ p + n ≤ hi := by
    intro s l lo ht hp
    refine ⟨hp.1, ?_, hp.2.2⟩
    have := ht.1
    unfold Seg.stop at hp
    omega
  induction h generalizing lo with
  | done => simp at hr
  | skip _ _ ih => exact behind ht (ih ht.2 hr)
  | @take s l hfit =>
      obtain rfl : ceilTo s.start al = p := by simpa using hr
      have hb := Tiles.mem_bounds ht (List.mem_cons_self ..)
      exact ⟨dvd_ceilTo _ _, hb.1.trans (le_ceilTo _ hal), hfit.2.trans hb.2⟩
  | refuse _ _ ih => exact behind ht (ih ht.2 hr)
  | strand _ _ _ ih => exact behind ht (ih ht.2 hr)

theorem tookRun (h : AllocWalk n al ok l r l') (hal : 0 < al) (ht : Tiles lo hi l)
    {p : Nat} (hr : r = some p) : TookRun n p l l' := by
  induction h generalizing lo with
  | done => simp at hr
  | @skip ok s l r l' _ rest ih =>
      exact (ih ht.2 hr).behind [s] (by simp) (some_aligned rest hal ht.2 hr).2.1
  | @take s l hfit =>
      obtain rfl : ceilTo s.start al = p := by simpa using hr
      have hstart := le_ceilTo s.start hal
      have hstop := hfit.2
      have hmem : ∀ i, ceilTo s.start al ≤ i → i < ceilTo s.start al + n → s.Covers i := by
        unfold Seg.Covers Seg.stop at *
        omega
      refine ⟨fun i hi hi' => (Tagged.cons _ _ _ _).2 (Or.inl ⟨hmem i hi hi', hfit.1⟩), ?_⟩
      intro i t
      simp only [Tagged.append, Tagged.cons, takeParts_tagged hal hfit]
      split_ifs with hin
      · have hnot : ¬ Tagged l i t := fun hl => by
          have := (ht.2.tagged_bounds hl).1
          omega
        simp [hnot, hmem i hin.1 hin.2]
      · rfl
  | @refuse ok s l r l' _ rest ih =>
      exact (ih ht.2 hr).behind [s] (by simp) (some_aligned rest hal ht.2 hr).2.1
  | @strand ok s l r l' hfit _ rest ih =>
      exact (ih ht.2 hr).behind _ (cutAt_tagged hfit.pad_le) (some_aligned rest hal ht.2 hr).2.1

/-- The first range of the result is free only if the first range before was. -/
private theorem head_free (h : AllocWalk n al ok l r l') (hok : ok = true) :
    ∀ y ∈ l'.head?, y.tag = true → ∃ x ∈ l.head?, x.tag = true := by
  cases h with
  | done => simp
  | skip => simp
  | @take s l hfit => exact fun _ _ _ => ⟨s, by simp, hfit.1⟩
  | refuse => simp at hok
  | strand => simp at hok

theorem noFreePair (h : AllocWalk n al ok l r l') (hok : ok = true) (hl : NoFreePair l) :
    NoFreePair l' := by
  induction h with
  | done => exact hl
  | @skip ok s l r l' hfit rest ih =>
      unfold NoFreePair at hl ih ⊢
      rw [List.isChain_cons] at hl ⊢
      refine ⟨fun y hy hfree => ?_, ih hok hl.2⟩
      by_contra hyfree
      obtain ⟨x, hx, hxfree⟩ := head_free rest hok y hy (by simpa using hyfree)
      simp [hl.1 x hx hfree] at hxfree
  | take hfit => exact takeParts_noFreePair hfit hl
  | refuse => simp at hok
  | strand => simp at hok

/-- Free pages in a row lie in one range, when no two free ranges are neighbours. -/
private theorem run_in_head {s : PageSeg} {p : Nat} (ht : Tiles lo hi (s :: l))
    (hpair : NoFreePair (s :: l)) (hempty : NoEmpty (s :: l)) (hn : 0 < n)
    (hfree : ∀ i, p ≤ i → i < p + n → Tagged (s :: l) i true) (hp : p < s.stop) :
    s.tag = true ∧ s.start ≤ p ∧ p + n ≤ s.stop := by
  obtain ⟨hcov, htag⟩ := ht.tagged_cons_of_lt hp (hfree p (Nat.le_refl p) (by omega))
  refine ⟨htag, hcov.1, ?_⟩
  by_contra hlt
  have hnext := Tiles.tagged_cons_of_le (Nat.le_refl s.stop) (hfree s.stop (by omega) (by omega))
  cases l with
  | nil => simp at hnext
  | cons u l =>
      have hu : s.stop < u.stop := by
        have := ht.2.1
        have := ((noEmpty_cons _ _).1 ((noEmpty_cons _ _).1 hempty).2).1
        unfold Seg.stop at *
        omega
      obtain ⟨-, hutag⟩ := ht.2.tagged_cons_of_lt hu hnext
      unfold NoFreePair at hpair
      simp [(List.isChain_cons.1 hpair).1 u (by simp) htag] at hutag

/-- Without failed node allocations the walk finds the least aligned run of `n`
free pages, and misses only when there is none. -/
theorem firstFit (h : AllocWalk n al ok l r l') (hok : ok = true) (hal : 0 < al) (hn : 0 < n)
    (ht : Tiles lo hi l) (hpair : NoFreePair l) (hempty : NoEmpty l) {p : Nat} (hdvd : al ∣ p)
    (hfree : ∀ i, p ≤ i → i < p + n → Tagged l i true) : ∃ q, r = some q ∧ q ≤ p := by
  induction h generalizing lo with
  | done => exact absurd (hfree p (Nat.le_refl p) (by omega)) (Tagged.nil _ _)
  | @skip ok s l r l' hfit rest ih =>
      by_cases hp : p < s.stop
      · obtain ⟨htag, hstart, hstop⟩ := run_in_head ht hpair hempty hn hfree hp
        have := ceilTo_le hal hdvd hstart
        exact absurd ⟨htag, by omega⟩ hfit
      · refine ih hok ht.2 ?_ ((noEmpty_cons _ _).1 hempty).2 fun i hi hi' => ?_
        · unfold NoFreePair at hpair ⊢
          exact (List.isChain_cons.1 hpair).2
        · exact Tiles.tagged_cons_of_le (by omega) (hfree i hi hi')
  | @take s l hfit =>
      refine ⟨_, rfl, ?_⟩
      by_cases hp : p < s.stop
      · obtain ⟨-, hstart, -⟩ := run_in_head ht hpair hempty hn hfree hp
        exact ceilTo_le hal hdvd hstart
      · have := hfit.2
        omega
  | refuse => simp at hok
  | strand => simp at hok

end AllocWalk

/-! ## `free` -/

/-- From `l` to `l'`, the `n` used pages at `page` become free and no other page changes. -/
def ReleasedRun (n page : Nat) (l l' : List PageSeg) : Prop :=
  (∀ i, page ≤ i → i < page + n → Tagged l i false) ∧
    ∀ i t, Tagged l' i t ↔ if page ≤ i ∧ i < page + n then t = true else Tagged l i t

namespace FreeWalk

variable {b : Bool}

/-- The tiling with the released pages cut out of their range, before `coalesce`. -/
private theorem released_tiles {l r : List PageSeg} {s : PageSeg}
    (hlo : s.start ≤ page) (hhi : page + n ≤ s.stop) (ht : Tiles lo hi (l ++ s :: r)) :
    Tiles lo hi ((l ++ Seg.keep ⟨s.start, page - s.start, false⟩) ++ ⟨page, n, true⟩ ::
      (Seg.keep ⟨page + n, s.stop - (page + n), false⟩ ++ r)) := by
  obtain ⟨mid, hl, hs, hr⟩ := (Tiles.append_iff _ _ _ _).1 ht
  have hleft : Tiles mid page (Seg.keep (⟨s.start, page - s.start, false⟩ : PageSeg)) := by
    refine Tiles.keep hs ?_
    simp only [Seg.stop]
    omega
  have hright : Tiles (page + n) s.stop
      (Seg.keep (⟨page + n, s.stop - (page + n), false⟩ : PageSeg)) := by
    refine Tiles.keep rfl ?_
    simp only [Seg.stop] at hhi ⊢
    omega
  exact (hl.append hleft).append ⟨rfl, hright.append hr⟩

theorem tiles (h : FreeWalk page n ok l b l') (ht : Tiles lo hi l) : Tiles lo hi l' := by
  cases h with
  | miss => exact ht
  | release _ hlo hhi => exact coalesceSegs_tiles (released_tiles hlo hhi ht)
  | overrun => exact ht
  | wrapCut _ hcov hwrap hn =>
      refine ht.replace rfl rfl (cutAt_tiles ?_)
      unfold Seg.Covers at hcov
      omega
  | starve => exact ht
  | starveHead _ hlo hn hhi =>
      refine ht.replace rfl rfl (cutAt_tiles ?_)
      unfold Seg.stop at hhi
      omega

theorem noEmpty (h : FreeWalk page n ok l b l') (hn : 0 < n) (hl : NoEmpty l) : NoEmpty l' := by
  cases h with
  | miss => exact hl
  | release =>
      simp only [noEmpty_append, noEmpty_cons] at hl
      apply coalesceSegs_noEmpty
      simp [hl.1, hl.2.2, hn]
  | overrun => exact hl
  | wrapCut _ hcov hwrap hn =>
      simp only [noEmpty_append, noEmpty_cons] at hl ⊢
      unfold Seg.Covers at hcov
      exact ⟨hl.1, cutAt_noEmpty (by omega) (by omega), hl.2.2⟩
  | starve => exact hl
  | starveHead _ hlo _ hhi =>
      simp only [noEmpty_append, noEmpty_cons] at hl ⊢
      unfold Seg.stop at hhi
      exact ⟨hl.1, cutAt_noEmpty (by omega) (by omega), hl.2.2⟩

theorem tagged_false (h : FreeWalk page n ok l b l') (hb : b = false) (i : Nat) (t : Bool) :
    Tagged l' i t ↔ Tagged l i t := by
  cases h with
  | miss => rfl
  | release => simp at hb
  | overrun => rfl
  | @wrapCut l s r _ hcov hwrap hn =>
      have hle : page + n - 2 ^ 64 - s.start ≤ s.len := by
        unfold Seg.Covers at hcov
        omega
      simp only [Tagged.append, Tagged.cons, cutAt_tagged hle]
  | starve => rfl
  | @starveHead l s r _ hlo hn hhi =>
      have hle : page + n - s.start ≤ s.len := by
        unfold Seg.stop at hhi
        omega
      simp only [Tagged.append, Tagged.cons, cutAt_tagged hle]

theorem releasedRun (h : FreeWalk page n ok l b l') (hb : b = true) (ht : Tiles lo hi l) :
    ReleasedRun n page l l' := by
  cases h with
  | miss => simp at hb
  | @release l s r hused hlo hhi =>
      have hmem : ∀ i, page ≤ i → i < page + n → s.Covers i := by
        unfold Seg.Covers Seg.stop at *
        omega
      refine ⟨fun i hi hi' => ?_, fun i t => ?_⟩
      · exact (Tagged.append _ _ _ _).2 (Or.inr ((Tagged.cons _ _ _ _).2
          (Or.inl ⟨hmem i hi hi', hused⟩)))
      · rw [coalesceSegs_tagged (released_tiles hlo hhi ht) rfl]
        have hone : ∀ u ∈ l ++ r, page ≤ i → i < page + n → ¬ u.Covers i := by
          intro u hu hi hi' hcov
          obtain ⟨mid, hl, hs, hr⟩ := (Tiles.append_iff _ _ _ _).1 ht
          have hsi := hmem i hi hi'
          unfold Seg.Covers at hcov hsi
          rcases List.mem_append.1 hu with hu | hu
          · have := (hl.mem_bounds hu).2
            unfold Seg.stop at this
            omega
          · have := (hr.mem_bounds hu).1
            unfold Seg.stop at this
            omega
        have hout : page ≤ i → i < page + n → ¬ Tagged l i t ∧ ¬ Tagged r i t := by
          intro hi hi'
          exact ⟨fun ⟨u, hu, hc, _⟩ => hone u (by simp [hu]) hi hi' hc,
            fun ⟨u, hu, hc, _⟩ => hone u (by simp [hu]) hi hi' hc⟩
        simp only [Tagged.append, Tagged.cons, Tagged.keep, Seg.Covers, hused]
        unfold Seg.stop at *
        split_ifs with hin
        · obtain ⟨hnl, hnr⟩ := hout hin.1 hin.2
          constructor
          · rintro ((hl | ⟨hc, -⟩) | ⟨-, hc⟩ | ⟨hc, -⟩ | hr)
            · exact absurd hl hnl
            · omega
            · exact hc.symm
            · omega
            · exact absurd hr hnr
          · rintro rfl
            exact Or.inr (Or.inl ⟨hin, rfl⟩)
        · constructor
          · rintro ((hl | ⟨hc, hc'⟩) | ⟨hc, -⟩ | ⟨hc, hc'⟩ | hr)
            · exact Or.inl hl
            · exact Or.inr (Or.inl ⟨by omega, hc'⟩)
            · exact absurd hc hin
            · exact Or.inr (Or.inl ⟨by omega, hc'⟩)
            · exact Or.inr (Or.inr hr)
          · rintro (hl | ⟨hc, hc'⟩ | hr)
            · exact Or.inl (Or.inl hl)
            · by_cases hi : i < page
              · exact Or.inl (Or.inr ⟨by omega, hc'⟩)
              · exact Or.inr (Or.inr (Or.inl ⟨by omega, hc'⟩))
            · exact Or.inr (Or.inr (Or.inr hr))
  | overrun => simp at hb
  | wrapCut => simp at hb
  | starve => simp at hb
  | starveHead => simp at hb

theorem whole (h : FreeWalk page n ok l b l') (ht : Tiles lo hi l) (hn : 0 < n) (hn' : n < 2 ^ 64)
    (hmem : (⟨page, n, false⟩ : PageSeg) ∈ l) : b = true := by
  have hcovers : (⟨page, n, false⟩ : PageSeg).Covers page := by
    simp only [Seg.Covers]
    omega
  have hexact : ∀ {l₁ s r₁}, l = l₁ ++ s :: r₁ → s.Covers page → s = ⟨page, n, false⟩ :=
    fun hl hc => ht.covers_unique (by simp [hl]) hmem hc hcovers
  cases h with
  | miss hmiss => exact absurd ⟨_, hmem, hcovers, rfl⟩ hmiss
  | release => rfl
  | overrun _ hcov hhi =>
      rw [hexact rfl hcov] at hhi
      exact absurd hhi (Nat.lt_irrefl _)
  | wrapCut _ hcov hwrap =>
      rw [hexact rfl hcov] at hwrap
      simp only at hwrap
      omega
  | starve _ hcov hpart =>
      rw [hexact rfl hcov] at hpart
      exact absurd ⟨rfl, rfl⟩ hpart
  | @starveHead _ s _ _ hlo _ hhi =>
      have hcov : s.Covers page :=
        ⟨Nat.le_of_lt hlo, Nat.lt_of_le_of_lt (Nat.le_add_right _ n) hhi⟩
      rw [hexact rfl hcov] at hlo
      exact absurd hlo (Nat.lt_irrefl _)

end FreeWalk

theorem TookRun.undo {p : Nat} {l'' : List PageSeg} (h : TookRun n p l l')
    (h' : ReleasedRun n p l' l'') (ht : Tiles lo hi l) (i : Nat) (t : Bool) :
    Tagged l'' i t ↔ Tagged l i t := by
  rw [h'.2, h.2]
  split_ifs with hin
  · have hfree := h.1 i hin.1 hin.2
    constructor
    · rintro rfl
      exact hfree
    · intro htag
      exact ht.tag_unique htag hfree
  · rfl

namespace FreeWalk

variable {b : Bool}

private theorem cut_noFreePair {l r : List PageSeg} {s : PageSeg} {k : Nat}
    (hused : s.tag = false) (h : NoFreePair (l ++ s :: r)) :
    NoFreePair (l ++ (cutAt k s ++ r)) := by
  unfold NoFreePair at h ⊢
  rw [List.isChain_append, List.isChain_cons] at h
  obtain ⟨hl, ⟨-, hr⟩, -⟩ := h
  simp [cutAt, List.isChain_append, List.isChain_cons, hused, hl, hr]

theorem noFreePair (h : FreeWalk page n ok l b l') (hl : NoFreePair l) : NoFreePair l' := by
  cases h with
  | miss => exact hl
  | @release l s r hused hlo hhi =>
      unfold NoFreePair at hl
      rw [List.isChain_append, List.isChain_cons] at hl
      obtain ⟨hl, ⟨-, hr⟩, -⟩ := hl
      apply coalesceSegs_noFreePair
      · unfold NoFreePair Seg.keep
        split_ifs <;> simp [List.isChain_append, hl]
      · unfold NoFreePair Seg.keep
        split_ifs <;> simp [List.isChain_cons, hr]
  | overrun => exact hl
  | wrapCut hused => exact cut_noFreePair hused hl
  | starve => exact hl
  | starveHead hused => exact cut_noFreePair hused hl

end FreeWalk

end UnnamedKernel.Mm.Vma
