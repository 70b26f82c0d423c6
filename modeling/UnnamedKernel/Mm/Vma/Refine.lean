import Mathlib.Algebra.Order.BigOperators.Group.List
import UnnamedKernel.Mm.Vma.Shape
import UnnamedKernel.Mm.Vma.Starve

/-!
# The pointer code performs the walks

`alloc_pages` and `free`, run on the linked nodes, are the walks of
`UnnamedKernel.Mm.Vma.Segments` on the page ranges of the list, and they return.
-/

namespace UnnamedKernel.Mm.Vma

open UnnamedKernel.Lib UnnamedKernel.Kernel

variable {maxNodes : Nat}

/-- The invariant between calls. -/
structure Inv (a : VAddrAllocator maxNodes) (cells : List Cell) : Prop where
  shape : Shape a cells
  tiles : Tiles 0 a.totalPages.toNat (segs cells)
  noEmpty : NoEmpty (segs cells) ∨ segs cells = [⟨0, 0, true⟩]
  bound : a.totalPages.toNat < 2 ^ 52
  unlocked : a.locked = false

theorem toNat_alignUp {v al : Word} (hal : IsPow2 al) (hv : v.toNat < 2 ^ 52) :
    (alignUp v al).toNat = ceilTo v.toNat al.toNat := by
  have hpos := hal.pos
  unfold alignUp
  split_ifs with h
  · have hone : al.toNat = 1 := by
      rw [BitVec.le_def] at h
      have : (1 : Word).toNat = 1 := rfl
      omega
    rw [hone, ceilTo_of_dvd (by omega) (one_dvd _)]
  · have hsum : v.toNat + al.toNat ≤ 2 ^ 64 := by
      obtain ⟨k, hk, hpow⟩ := hal.exists_lt
      have : al.toNat ≤ 2 ^ 63 := by
        rw [hpow]
        exact Nat.pow_le_pow_right (by omega) (by omega)
      omega
    rw [← toNat_roundUp v hal hsum, roundUp, show v + al - 1 = v + (al - 1) by bv_omega]

namespace VAddrAllocator

variable {a : VAddrAllocator maxNodes} {l r : List Cell} {p : NodePtr} {s : PageSeg}

theorem afterNull_shape {cells : List Cell} (h : Shape a cells) : Shape a.afterNull cells :=
  ⟨h.head, h.linked, h.seg, h.nodup,
    h.pool.congr rfl (Nat.le_succ _) (fun _ hx => hx) fun _ _ => rfl⟩

theorem relock_shape {cells : List Cell} {b : Bool} (h : Shape a cells) :
    Shape ({ a with locked := b } : VAddrAllocator maxNodes) cells :=
  ⟨h.head, h.linked, h.seg, h.nodup,
    h.pool.congr rfl (Nat.le_refl _) (fun _ hx => hx) fun _ _ => rfl⟩

theorem vaddrFromPage_congr {a' : VAddrAllocator maxNodes} (h : a'.base = a.base) (page : Word) :
    a'.vaddrFromPage page = a.vaddrFromPage page := by
  rw [vaddrFromPage, vaddrFromPage, h]

theorem coalesceNext_spec (h : Shape a (l ++ (p, s) :: r))
    (hlen : ((segs (l ++ (p, s) :: r)).map Seg.len).sum < 2 ^ 64) :
    ∃ a' cells', (match (a.nodes p).next with
        | some nx => if (a.nodes nx).isFree then a.mergeInto p nx else some a
        | none => some a) = some a' ∧ Shape a' cells' ∧
      segs cells' = segs l ++ mergeNext s (segs r) ∧ SameWindow a a' ∧
      a'.newCount = a.newCount := by
  have hnx := h.at_node.2.1
  cases r with
  | nil => exact ⟨a, l ++ [(p, s)], by rw [hnx]; rfl, h, by simp [mergeNext], .refl _, rfl⟩
  | cons c r =>
      obtain ⟨q, t⟩ := c
      have hq : Shape a ((l ++ [(p, s)]) ++ (q, t) :: r) := by simpa using h
      have hqfree : (a.nodes q).isFree = t.tag := hq.isFree_eq
      rw [hnx]
      simp only [ptrs_cons, List.head?_cons, hqfree, segs_cons, mergeNext]
      by_cases ht : t.tag = true
      · have hsum : s.len + t.len < 2 ^ 64 := by
          simp only [segs_append, segs_cons, List.map_append, List.map_cons, List.sum_append,
            List.sum_cons] at hlen
          omega
        obtain ⟨a', hmerge, hshape, hwin, hcount⟩ := h.mergeInto_spec hsum
        refine ⟨a', _, by rw [if_pos ht, hmerge], hshape, ?_, hwin, hcount⟩
        simp [ht, Seg.join]
      · exact ⟨a, l ++ (p, s) :: (q, t) :: r, by rw [if_neg ht], h, by simp [ht],
          .refl _, rfl⟩

/-- `coalesce` merges the ranges that `coalesceSegs` merges. -/
theorem coalesce_spec (h : Shape a (l ++ (p, s) :: r))
    (hlen : ((segs (l ++ (p, s) :: r)).map Seg.len).sum < 2 ^ 64) :
    ∃ a' cells', a.coalesce p = some a' ∧ Shape a' cells' ∧
      segs cells' = coalesceSegs (segs l) s (segs r) ∧ SameWindow a a' ∧
      a'.newCount = a.newCount := by
  have hpv := h.at_node.2.2
  rcases List.eq_nil_or_concat l with rfl | ⟨l₀, ⟨q, t⟩, rfl⟩
  · obtain ⟨a', cells', hres, hshape, hsegs, hwin, hcount⟩ := coalesceNext_spec h hlen
    refine ⟨a', cells', ?_, hshape, by simpa [coalesceSegs] using hsegs, hwin, hcount⟩
    rw [coalesce, hpv]
    exact hres
  · rw [List.concat_eq_append] at h hlen hpv ⊢
    have hq : Shape a (l₀ ++ (q, t) :: (p, s) :: r) := by simpa using h
    have hqfree : (a.nodes q).isFree = t.tag := hq.isFree_eq
    have hprev : (a.nodes p).prev = some q := by rw [hpv]; simp
    by_cases ht : t.tag = true
    · have hsum : ((segs (l₀ ++ (q, t.join s) :: r)).map Seg.len).sum < 2 ^ 64 ∧
          t.len + s.len < 2 ^ 64 := by
        simp only [segs_append, segs_cons, segs_nil, List.map_append, List.map_cons, List.map_nil,
          List.sum_append, List.sum_cons, List.sum_nil, Seg.join] at hlen ⊢
        omega
      obtain ⟨a₁, hmerge, hshape₁, hwin₁, hcount₁⟩ := hq.mergeInto_spec hsum.2
      obtain ⟨a', cells', hres, hshape, hsegs, hwin, hcount⟩ := coalesceNext_spec hshape₁ hsum.1
      refine ⟨a', cells', ?_, hshape, ?_, hwin₁.trans hwin, hcount.trans hcount₁⟩
      · rw [coalesce, hprev]
        simp only [hqfree, ht, if_true, hmerge]
        exact hres
      · simpa [coalesceSegs, mergePrev_concat, ht, Seg.join] using hsegs
    · obtain ⟨a', cells', hres, hshape, hsegs, hwin, hcount⟩ := coalesceNext_spec h hlen
      refine ⟨a', cells', ?_, hshape, ?_, hwin, hcount⟩
      · rw [coalesce, hprev]
        simp only [hqfree, ht]
        exact hres
      · simpa [coalesceSegs, mergePrev_concat, ht] using hsegs

theorem takeNode_spec (h : Shape a (l ++ (p, s) :: r)) (heap : HeapAnswers) {npages : Word}
    (hpos : 0 < npages.toNat) (hle : npages.toNat ≤ s.len) (hstop : s.stop < 2 ^ 64) :
    (∃ a' cells', a.takeNode heap p npages =
        (some (a.vaddrFromPage (BitVec.ofNat 64 s.start)), a') ∧ Shape a' (l ++ cells') ∧
      segs cells' = ⟨s.start, npages.toNat, false⟩ ::
        (Seg.keep ⟨s.start + npages.toNat, s.stop - (s.start + npages.toNat), s.tag⟩ ++ segs r) ∧
      Drew heap a a' (if npages.toNat < s.len then [true] else [])) ∨
    (a.takeNode heap p npages = (none, a.afterNull) ∧ npages.toNat < s.len ∧
      Drew heap a a.afterNull [false]) := by
  have hlen := h.npages_toNat
  by_cases hlt : npages.toNat < s.len
  · have hcond : npages < (a.nodes p).npages := by rwa [BitVec.lt_def, hlen]
    rcases h.splitNodeLeft_spec heap hpos hlt hstop with
      ⟨q, a₁, hsplit, hqp, hshape, hdrew⟩ | ⟨hsplit, hdrew⟩
    · left
      have hset := hshape.modify_isFree false
      have hdrew' := hdrew.trans (Drew.nil heap
        (modify_window a₁ p fun n => { n with isFree := false }) rfl rfl)
      refine ⟨_, _, ?_, hset, ?_, by rw [if_pos hlt]; exact hdrew'⟩
      · simp only [takeNode, if_pos hcond, hsplit, if_neg hqp]
        rw [vaddrFromPage_congr hdrew'.window.base, hset.start_eq]
      · have hne : ¬ s.stop - (s.start + npages.toNat) = 0 := by
          unfold Seg.stop
          omega
        have hrest : s.stop - (s.start + npages.toNat) = s.len - npages.toNat := by
          unfold Seg.stop
          omega
        simp only [segs_cons, Seg.keep, if_neg hne]
        simp [hrest]
    · right
      simp only [takeNode, if_pos hcond, hsplit, if_true]
      exact ⟨trivial, hlt, hdrew⟩
  · left
    have hcond : ¬ npages < (a.nodes p).npages := by rwa [BitVec.lt_def, hlen]
    have hset := h.modify_isFree false
    refine ⟨_, _, ?_, hset, ?_,
      by rw [if_neg hlt]; exact Drew.nil heap (modify_window _ _ _) rfl rfl⟩
    · simp only [takeNode, if_neg hcond]
      rw [vaddrFromPage_congr (modify_window a p _).base, hset.start_eq]
    · have heq : npages.toNat = s.len := by omega
      simp [Seg.keep, Seg.stop, heq]

/-! ## `alloc_pages` -/

/-- The code's fit test, `padding + npages <= cur->npages` and the test before it. -/
theorem fits_iff (h : Shape a (l ++ (p, s) :: r)) {npages alignPages : Word}
    (hal : IsPow2 alignPages) (hstop : s.stop < 2 ^ 52) :
    ((a.nodes p).isFree = true ∧ npages ≤ (a.nodes p).npages ∧
      alignUp (a.nodes p).start alignPages - (a.nodes p).start + npages ≤ (a.nodes p).npages) ↔
      Fits npages.toNat alignPages.toNat s := by
  have hlen := h.npages_toNat
  have hstart := h.start_toNat
  have hpos := hal.pos
  have hlt := alignPages.isLt
  unfold Seg.stop at hstop
  have hup := toNat_alignUp hal (show (a.nodes p).start.toNat < 2 ^ 52 by omega)
  rw [hstart] at hup
  have hge := le_ceilTo s.start hpos
  have hceil : ceilTo s.start alignPages.toNat < 2 ^ 63 + 2 ^ 52 := by
    obtain ⟨k, hk, hpow⟩ := hal.exists_lt
    have : alignPages.toNat ≤ 2 ^ 63 := by
      rw [hpow]
      exact Nat.pow_le_pow_right (by omega) (by omega)
    have := ceilTo_lt s.start hpos
    omega
  rw [h.isFree_eq, Fits, Seg.stop]
  refine and_congr_right fun _ => ?_
  bv_omega

theorem toNat_padding (h : Shape a (l ++ (p, s) :: r)) {alignPages : Word}
    (hal : IsPow2 alignPages) (hstop : s.stop < 2 ^ 52) :
    (alignUp (a.nodes p).start alignPages - (a.nodes p).start).toNat =
      ceilTo s.start alignPages.toNat - s.start := by
  have hstart := h.start_toNat
  unfold Seg.stop at hstop
  have hup := toNat_alignUp hal (show (a.nodes p).start.toNat < 2 ^ 52 by omega)
  have hge := le_ceilTo s.start hal.pos
  rw [hstart] at hup
  bv_omega

theorem attempt_eq_taken {g : Grants} {n al : Nat} {s : PageSeg}
    (h₀ : s.start < ceilTo s.start al ∨ ceilTo s.start al + n < s.stop → g 0 = true)
    (h₁ : s.start < ceilTo s.start al → ceilTo s.start al + n < s.stop → g 1 = true) :
    attempt g n al s = .taken := by
  unfold attempt
  rw [if_neg, if_neg, if_neg]
  · rintro ⟨-, hrest, hg⟩
    simp [h₀ (Or.inr hrest)] at hg
  · rintro ⟨hpad, hrest, hg⟩
    simp [h₁ hpad hrest] at hg
  · rintro ⟨hpad, hg⟩
    simp [h₀ (Or.inl hpad)] at hg

/-- One fitting node: its parts are taken, or a failed split leaves it whole or
cut at the aligned page. -/
theorem tryNode_spec (h : Shape a (l ++ (p, s) :: r)) (heap : HeapAnswers) {npages padding : Word}
    {al : Nat} (hn : 0 < npages.toNat) (hal : 0 < al) (hfit : Fits npages.toNat al s)
    (hpad : padding.toNat = ceilTo s.start al - s.start) (hstop : s.stop < 2 ^ 52) :
    (∃ q a' cells', a.tryNode heap p padding npages =
        (some (a.vaddrFromPage (BitVec.ofNat 64 (ceilTo s.start al))), q, a') ∧
      Shape a' (l ++ cells') ∧ segs cells' = takeParts npages.toNat al s ++ segs r ∧
      SameWindow a a' ∧ attempt (a.grants heap) npages.toNat al s = .taken) ∨
    (∃ q a' front, a.tryNode heap p padding npages = (none, q, a') ∧
      Shape a' (l ++ (front ++ r)) ∧ (a'.nodes q).next = (ptrs r).head? ∧
      (segs front = [s] ∧ attempt (a.grants heap) npages.toNat al s = .refused ∧
          Drew heap a a' [false] ∨
        s.start < ceilTo s.start al ∧ segs front = cutAt (ceilTo s.start al - s.start) s ∧
          attempt (a.grants heap) npages.toNat al s = .stranded ∧
            Drew heap a a' [true, false])) := by
  have hge := le_ceilTo s.start hal
  have hend := hfit.2
  unfold Seg.stop at hend hstop
  by_cases hp0 : 0 < padding
  · have hpos : 0 < padding.toNat := hp0
    have hpadded : s.start < ceilTo s.start al := by omega
    rcases h.splitNodeLeft_spec heap hpos (by omega) (by unfold Seg.stop; omega) with
      ⟨q, a₁, hsplit, hqp, hshape, hdrew⟩ | ⟨hsplit, hdrew⟩
    · have hsum : s.start + padding.toNat = ceilTo s.start al := by omega
      have hgrant : a.grants heap 0 = true := hdrew.answers 0 true rfl
      rw [hsum, hpad] at hshape
      have hright : Shape a₁ ((l ++ [(p, ⟨s.start, ceilTo s.start al - s.start, s.tag⟩)]) ++
          (q, ⟨ceilTo s.start al, s.len - (ceilTo s.start al - s.start), s.tag⟩) :: r) := by
        simpa using hshape
      have hnext := hright.at_node.2.1
      rcases takeNode_spec hright heap hn (by simp only; omega)
        (by simp only [Seg.stop]; omega) with
        ⟨a', cells', htake, hshape', hsegs, hdrew'⟩ | ⟨htake, hrest, hdrew'⟩
      · left
        refine ⟨q, a', (p, ⟨s.start, ceilTo s.start al - s.start, s.tag⟩) :: cells', ?_,
          by simpa using hshape', ?_, hdrew.window.trans hdrew'.window,
          attempt_eq_taken (fun _ => hgrant) fun _ hrest => ?_⟩
        · simp only [tryNode, if_pos hp0, hsplit, if_neg hqp, htake,
            vaddrFromPage_congr hdrew.window.base]
        · have hne : ¬ ceilTo s.start al - s.start = 0 := by omega
          have hstop' : ceilTo s.start al + (s.len - (ceilTo s.start al - s.start)) =
              s.start + s.len := by omega
          simp only [segs_cons, hsegs, takeParts, Seg.keep, if_neg hne, Seg.stop, hstop', hfit.1,
            List.cons_append, List.nil_append]
          rfl
        · unfold Seg.stop at hrest
          rw [if_pos (by simp only; omega)] at hdrew'
          exact (hdrew.trans hdrew').answers 1 true rfl
      · right
        simp only at hrest
        refine ⟨q, _, [(p, _), (q, _)], ?_, by simpa using afterNull_shape hshape, ?_,
          Or.inr ⟨hpadded, ?_, ?_, hdrew.trans hdrew'⟩⟩
        · simp only [tryNode, if_pos hp0, hsplit, if_neg hqp, htake]
        · exact hnext
        · simp [cutAt, show s.start + (ceilTo s.start al - s.start) = ceilTo s.start al by omega]
        · have hfail : a.grants heap 1 = false := (hdrew.trans hdrew').answers 1 false rfl
          unfold attempt
          rw [if_neg (by simp [hgrant]), if_pos]
          refine ⟨hpadded, ?_, hfail⟩
          unfold Seg.stop
          omega
    · right
      have hfail : a.grants heap 0 = false := hdrew.answers 0 false rfl
      refine ⟨p, a.afterNull, [(p, s)], ?_, by simpa using afterNull_shape h, h.at_node.2.1,
        Or.inl ⟨rfl, ?_, hdrew⟩⟩
      · simp only [tryNode, if_pos hp0, hsplit, if_true]
      · unfold attempt
        rw [if_pos ⟨hpadded, hfail⟩]
  · have hzero : ¬ 0 < padding.toNat := hp0
    have heq : ceilTo s.start al = s.start := by omega
    have hpadded : ¬ s.start < ceilTo s.start al := by omega
    rcases takeNode_spec h heap hn (by omega) (by unfold Seg.stop; omega) with
      ⟨a', cells', htake, hshape', hsegs, hdrew⟩ | ⟨htake, hrest, hdrew⟩
    · left
      refine ⟨p, a', cells', ?_, hshape', ?_, hdrew.window,
        attempt_eq_taken (fun hor => ?_) fun hpad _ => absurd hpad hpadded⟩
      · simp only [tryNode, if_neg hp0, htake, heq]
      · simp [hsegs, takeParts, heq, hfit.1, Seg.keep]
      · have hrest := hor.resolve_left hpadded
        unfold Seg.stop at hrest
        rw [if_pos (by omega)] at hdrew
        exact hdrew.answers 0 true rfl
    · right
      refine ⟨p, a.afterNull, [(p, s)], ?_, by simpa using afterNull_shape h, h.at_node.2.1,
        Or.inl ⟨rfl, ?_, hdrew⟩⟩
      · simp only [tryNode, if_neg hp0, htake]
      · unfold attempt
        rw [if_neg (by simp [hpadded]), if_neg (by simp [hpadded]), if_pos]
        refine ⟨hpadded, ?_, hdrew.answers 0 false rfl⟩
        unfold Seg.stop
        omega

theorem allocLoop_spec (heap : HeapAnswers) {npages alignPages : Word} (hn : 0 < npages.toNat)
    (hal : IsPow2 alignPages) (fuel : Nat) (l rest : List Cell) (a : VAddrAllocator maxNodes)
    (h : Shape a (l ++ rest)) (hbound : ∀ c ∈ rest, c.2.stop < 2 ^ 52)
    (hfuel : rest.length < fuel) :
    ∃ r a' cells' ok, allocLoop heap npages alignPages fuel (ptrs rest).head? a =
        some (r.map fun page => a.vaddrFromPage (BitVec.ofNat 64 page), a') ∧
      Shape a' (l ++ cells') ∧
      AllocWalk npages.toNat alignPages.toNat ok (segs rest) r (segs cells') ∧
      allocRanges npages.toNat alignPages.toNat (a.grants heap) (segs rest) = (r, segs cells') ∧
      SameWindow a a' ∧ (NoNull heap a a' → ok = true) := by
  induction fuel generalizing l rest a with
  | zero => omega
  | succ fuel ih =>
      rcases rest with _ | ⟨⟨p, s⟩, rest⟩
      · exact ⟨none, a, [], true, by simp [allocLoop], h, .done, rfl, .refl a, fun _ => rfl⟩
      have hstop : s.stop < 2 ^ 52 := hbound (p, s) (by simp)
      have hrest : ∀ c ∈ rest, c.2.stop < 2 ^ 52 := fun c hc => hbound c (by simp [hc])
      have hfuel' : rest.length < fuel := by simpa using hfuel
      have hfit : _ ↔ Fits npages.toNat alignPages.toNat s := fits_iff h hal hstop
      have hnext := h.at_node.2.1
      simp only [ptrs_cons, List.head?_cons, segs_cons]
      rw [allocLoop]
      by_cases hF : Fits npages.toNat alignPages.toNat s
      · obtain ⟨h1, h2, h3⟩ := hfit.2 hF
        simp only [if_pos (And.intro h1 h2), if_pos h3]
        rcases tryNode_spec h heap hn hal.pos hF (toNat_padding h hal hstop) hstop with
          ⟨q, a', cells', htry, hshape, hsegs, hwin, hattempt⟩ |
          ⟨q, a₁, front, htry, hshape, hqnext, hfront⟩
        · refine ⟨some (ceilTo s.start alignPages.toNat), a', cells', true, by rw [htry]; rfl,
            hshape, ?_, ?_, hwin, fun _ => rfl⟩
          · rw [hsegs]
            exact .take hF
          · rw [allocRanges, if_pos hF, hattempt, hsegs]
        · obtain ⟨r, a', cells', ok, hres, hshape', hw, hranges, hwin', -⟩ :=
            ih (l ++ front) rest a₁ (by simpa using hshape) hrest hfuel'
          have hwin : SameWindow a a₁ := by
            rcases hfront with ⟨-, -, hdrew⟩ | ⟨-, -, -, hdrew⟩ <;> exact hdrew.window
          refine ⟨r, a', front ++ cells', false, ?_, by simpa using hshape', ?_, ?_,
            hwin.trans hwin', fun hno => ?_⟩
          · simp only [htry, hqnext]
            simpa only [vaddrFromPage_congr hwin.base] using hres
          · rw [segs_append]
            rcases hfront with ⟨hfront, -, -⟩ | ⟨hpad, hfront, -, -⟩
            · rw [hfront]
              exact .refuse hF hw
            · rw [hfront]
              exact .strand hF hpad hw
          · rw [allocRanges, if_pos hF, segs_append]
            rcases hfront with ⟨hfront, hattempt, hdrew⟩ | ⟨-, hfront, hattempt, hdrew⟩
            · have hlater : Grants.drop (a.grants heap) 1 = a₁.grants heap :=
                funext fun j => (hdrew.later j).symm
              simp only [hattempt, hlater, hranges, hfront, List.singleton_append]
            · have hlater : Grants.drop (a.grants heap) 2 = a₁.grants heap :=
                funext fun j => (hdrew.later j).symm
              simp only [hattempt, hlater, hranges, hfront]
          · rcases hfront with ⟨-, -, hdrew⟩ | ⟨-, -, -, hdrew⟩ <;>
              simpa using hdrew.noNull.1 (hno.left hwin')
      · -- not enough room here
        obtain ⟨r, a', cells', ok, hres, hshape', hw, hranges, hwin', hok⟩ :=
          ih (l ++ [(p, s)]) rest a (by simpa using h) hrest hfuel'
        refine ⟨r, a', (p, s) :: cells', ok, ?_, by simpa using hshape', .skip hF hw,
          by rw [allocRanges, if_neg hF, hranges]; rfl, hwin', hok⟩
        rw [← hnext] at hres
        by_cases h1 : (a.nodes p).isFree = true ∧ npages ≤ (a.nodes p).npages
        · have h2 : ¬ alignUp (a.nodes p).start alignPages - (a.nodes p).start + npages ≤
              (a.nodes p).npages := fun h2 => hF (hfit.1 ⟨h1.1, h1.2, h2⟩)
          simpa only [if_pos h1, if_neg h2] using hres
        · simpa only [if_neg h1] using hres

/-! ## `free` -/

theorem splitNodeLeft_whole (heap : HeapAnswers) (a : VAddrAllocator maxNodes) {left : Word}
    (h : left.toNat = 0 ∨ (a.nodes p).npages.toNat ≤ left.toNat) :
    a.splitNodeLeft heap p left = (p, a) := by
  unfold splitNodeLeft
  by_cases h0 : left = 0
  · rw [if_pos h0]
  · have hle : (a.nodes p).npages ≤ left := by
      rw [BitVec.le_def]
      refine h.resolve_left fun hz => h0 (BitVec.eq_of_toNat_eq hz)
    rw [if_neg h0, if_pos hle]

theorem cutRight_spec (h : Shape a (l ++ (p, s) :: r)) (heap : HeapAnswers) {right : Word} {k : Nat}
    (hk : 0 < k) (hright : k + right.toNat = s.len) (hstop : s.stop < 2 ^ 64) :
    (∃ a' tail, a.cutRight heap p right = (true, a') ∧
      Shape a' (l ++ (p, ⟨s.start, k, s.tag⟩) :: tail) ∧
      segs tail = Seg.keep ⟨s.start + k, s.len - k, s.tag⟩ ++ segs r ∧
      Drew heap a a' (if k < s.len then [true] else [])) ∨
    (a.cutRight heap p right = (false, a.afterNull) ∧ k < s.len ∧
      Drew heap a a.afterNull [false]) := by
  have hlen := h.npages_toNat
  by_cases hr0 : 0 < right
  · have hpos : 0 < right.toNat := hr0
    have hleft : ((a.nodes p).npages - right).toNat = k := by bv_omega
    have hkl : k < s.len := by omega
    rcases h.splitNodeLeft_spec heap (hleft ▸ hk) (show _ < s.len by rw [hleft]; omega) hstop with
      ⟨q, a₁, hsplit, hqp, hshape, hdrew⟩ | ⟨hsplit, hdrew⟩
    · rw [hleft] at hshape
      refine Or.inl ⟨a₁, (q, _) :: r, ?_, hshape, ?_, by rwa [if_pos hkl]⟩
      · simp only [cutRight, if_pos hr0, hsplit, bne_iff_ne.2 hqp]
      · have hne : ¬ s.len - k = 0 := by omega
        simp [Seg.keep, hne]
    · exact Or.inr ⟨by simp only [cutRight, if_pos hr0, hsplit, bne_self_eq_false], hkl, hdrew⟩
  · have hzero : right.toNat = 0 := Nat.eq_zero_of_not_pos hr0
    obtain rfl : k = s.len := by omega
    refine Or.inl ⟨a, r, by simp only [cutRight, if_neg hr0], h, by simp [Seg.keep], ?_⟩
    rw [if_neg (Nat.lt_irrefl _)]
    exact .nil heap (.refl a) rfl rfl

theorem cutLeft_spec (h : Shape a (l ++ (p, s) :: r)) (heap : HeapAnswers) {left : Word}
    (hlt : left.toNat < s.len) (hstop : s.stop < 2 ^ 64) :
    (∃ a' w front, a.cutLeft heap p left = (some w, a') ∧
      Shape a' (front ++ (w, ⟨s.start + left.toNat, s.len - left.toNat, s.tag⟩) :: r) ∧
      segs front = segs l ++ Seg.keep ⟨s.start, left.toNat, s.tag⟩ ∧
      Drew heap a a' (if 0 < left.toNat then [true] else [])) ∨
    (a.cutLeft heap p left = (none, a.afterNull) ∧ 0 < left.toNat ∧
      Drew heap a a.afterNull [false]) := by
  by_cases hl0 : 0 < left
  · have hpos : 0 < left.toNat := hl0
    rcases h.splitNodeLeft_spec heap hpos hlt hstop with
      ⟨q, a₁, hsplit, hqp, hshape, hdrew⟩ | ⟨hsplit, hdrew⟩
    · refine Or.inl ⟨a₁, q, l ++ [(p, _)], ?_, by simpa using hshape, ?_, by rwa [if_pos hpos]⟩
      · simp only [cutLeft, if_pos hl0, hsplit, if_neg hqp]
      · have hne : ¬ left.toNat = 0 := by omega
        simp [Seg.keep, hne]
    · exact Or.inr ⟨by simp only [cutLeft, if_pos hl0, hsplit, if_true], hpos, hdrew⟩
  · have hzero : left.toNat = 0 := Nat.eq_zero_of_not_pos hl0
    refine Or.inl ⟨a, p, l, by simp only [cutLeft, if_neg hl0], by simpa [hzero] using h,
      by simp [Seg.keep, hzero], ?_⟩
    rw [if_neg (by omega)]
    exact .nil heap (.refl a) rfl rfl

theorem release_spec (h : Shape a (l ++ (p, s) :: r))
    (hlen : ((segs (l ++ (p, s) :: r)).map Seg.len).sum < 2 ^ 64) :
    ∃ a' cells', (a.modify p fun n => { n with isFree := true }).coalesce p = some a' ∧
      Shape a' cells' ∧ segs cells' = coalesceSegs (segs l) ⟨s.start, s.len, true⟩ (segs r) ∧
      SameWindow a a' ∧ a'.newCount = a.newCount := by
  have hset := h.modify_isFree true
  have hsum : ((segs (l ++ (p, { s with tag := true }) :: r)).map Seg.len).sum < 2 ^ 64 := by
    simpa using hlen
  obtain ⟨a', cells', hres, hshape, hsegs, hwin, hcount⟩ := coalesce_spec hset hsum
  exact ⟨a', cells', hres, hshape, hsegs, (modify_window _ _ _).trans hwin, hcount⟩

/-- `page + npages` stays below `2 ^ 64` and inside the node: the middle is cut
out and released, unless a split fails. -/
theorem freePortion_inside (h : Shape a (l ++ (p, s) :: r)) (heap : HeapAnswers)
    {page npages : Word} (hn : 0 < npages.toNat) (hused : s.tag = false)
    (hlo : s.start ≤ page.toNat) (hhi : page.toNat + npages.toNat ≤ s.stop)
    (hpart : ¬ (s.start = page.toNat ∧ s.len = npages.toNat)) (hstop : s.stop < 2 ^ 52)
    (hlen : ((segs (l ++ (p, s) :: r)).map Seg.len).sum < 2 ^ 64) :
    ∃ b a' cells' ok, a.freePortion heap p page npages = some (b, a') ∧ Shape a' cells' ∧
      FreeWalk page.toNat npages.toNat ok (segs (l ++ (p, s) :: r)) b (segs cells') ∧
      freePart (a.grants heap) page.toNat npages.toNat (segs l) s (segs r) = (b, segs cells') ∧
      SameWindow a a' ∧ (NoNull heap a a' → ok = true) := by
  have hstart := h.start_toNat
  have hnp := h.npages_toNat
  unfold Seg.stop at hhi hstop
  have hcov : s.Covers page.toNat := by
    unfold Seg.Covers
    omega
  have htest : ¬ (a.nodes p).start + (a.nodes p).npages < page + npages := by bv_omega
  have hleft : (page - (a.nodes p).start).toNat = page.toNat - s.start := by bv_omega
  have hright : ((a.nodes p).start + (a.nodes p).npages - (page + npages)).toNat =
      s.start + s.len - (page.toNat + npages.toNat) := by bv_omega
  unfold freePortion
  simp only [if_neg htest]
  have hk : page.toNat + npages.toNat - s.start +
      ((a.nodes p).start + (a.nodes p).npages - (page + npages)).toNat = s.len := by omega
  have hback : page.toNat + npages.toNat - s.start < s.len ↔
      page.toNat + npages.toNat < s.stop := by
    unfold Seg.stop
    omega
  have hfits : page.toNat + npages.toNat ≤ s.stop := hhi
  rcases cutRight_spec h heap (by omega) hk (by unfold Seg.stop; omega) with
    ⟨a₁, tail, hcut, hshape₁, htail, hdrew₁⟩ | ⟨hcut, hrest, hdrew⟩
  swap
  · simp only [hcut, segs_append, segs_cons]
    refine ⟨false, _, _, false, rfl, afterNull_shape h, by simpa using .starve hused hcov hpart, ?_,
      hdrew.window, fun hno => by simpa using hdrew.noNull.1 hno⟩
    simp only [freePart, if_pos hfits,
      if_pos (And.intro (hback.1 hrest) (hdrew.answers 0 false rfl)),
      segs_append, segs_cons]
  simp only [hcut]
  have hl : (page - (a.nodes p).start).toNat < page.toNat + npages.toNat - s.start := by omega
  rcases cutLeft_spec hshape₁ heap hl (by simp only [Seg.stop]; omega) with
    ⟨a₂, w, front, hcutl, hshape₂, hfront, hdrew₂⟩ | ⟨hcutl, hpos, hdrew₂⟩
  swap
  · simp only [hcutl]
    have hbefore : s.start < page.toNat := by omega
    by_cases hr0 : page.toNat + npages.toNat - s.start < s.len
    · rw [if_pos hr0] at hdrew₁
      have hdrew := hdrew₁.trans hdrew₂
      have hne : ¬ s.len - (page.toNat + npages.toNat - s.start) = 0 := by omega
      refine ⟨false, _, _, false, rfl, afterNull_shape hshape₁, ?_, ?_, hdrew.window,
        fun hno => by simpa using hdrew.noNull.1 hno⟩
      · simp only [segs_append, segs_cons, htail, Seg.keep, if_neg hne]
        exact .starveHead hused hbefore hn (hback.1 hr0)
      · have hgrant : a.grants heap 0 = true := hdrew.answers 0 true rfl
        rw [freePart, if_pos hfits, if_neg (by simp [hgrant]),
          if_pos ⟨hbefore, hback.1 hr0, hdrew.answers 1 false rfl⟩]
        simp only [segs_append, segs_cons, htail, Seg.keep, if_neg hne]
        rfl
    · rw [if_neg hr0] at hdrew₁
      have hdrew := hdrew₁.trans hdrew₂
      have hzero : s.len - (page.toNat + npages.toNat - s.start) = 0 := by omega
      have hwhole : (⟨s.start, page.toNat + npages.toNat - s.start, s.tag⟩ : PageSeg) = s := by
        rw [show page.toNat + npages.toNat - s.start = s.len by omega]
      refine ⟨false, _, _, false, rfl, afterNull_shape hshape₁, ?_, ?_, hdrew.window,
        fun hno => by simpa using hdrew.noNull.1 hno⟩
      · simp only [segs_append, segs_cons, htail, Seg.keep, if_pos hzero, hwhole]
        exact .starve hused hcov hpart
      · have hend : ¬ page.toNat + npages.toNat < s.stop := fun h => hr0 (hback.2 h)
        rw [freePart, if_pos hfits, if_neg fun h => hend h.1, if_neg fun h => hend h.2.1,
          if_pos ⟨hbefore, hend, hdrew.answers 0 false rfl⟩]
        simp only [segs_append, segs_cons, htail, Seg.keep, if_pos hzero, hwhole, List.nil_append]
  rw [hleft] at hshape₂ hfront
  have hmid : (⟨s.start + (page.toNat - s.start), page.toNat + npages.toNat - s.start -
      (page.toNat - s.start), s.tag⟩ : PageSeg) = ⟨page.toNat, npages.toNat, s.tag⟩ := by
    rw [show s.start + (page.toNat - s.start) = page.toNat by omega,
      show page.toNat + npages.toNat - s.start - (page.toNat - s.start) = npages.toNat by omega]
  rw [hmid] at hshape₂
  -- ASSERT(working->npages == npages)
  have hassert : (a₂.nodes w).npages = npages := BitVec.eq_of_toNat_eq hshape₂.npages_toNat
  have hsum : ((segs (front ++ (w, ⟨page.toNat, npages.toNat, s.tag⟩) :: tail)).map
      Seg.len).sum < 2 ^ 64 := by
    simp only [segs_append, segs_cons, htail, hfront, List.map_append, List.map_cons,
      List.sum_append, List.sum_cons, Seg.sum_len_keep] at hlen ⊢
    omega
  obtain ⟨a', cells', hres, hshape', hsegs, hwin, hcount⟩ := release_spec hshape₂ hsum
  have hrest : s.start + (page.toNat + npages.toNat - s.start) = page.toNat + npages.toNat := by
    omega
  have hrlen : s.len - (page.toNat + npages.toNat - s.start) =
      s.stop - (page.toNat + npages.toNat) := by
    unfold Seg.stop
    omega
  have hdrew := hdrew₁.trans hdrew₂
  refine ⟨true, a', cells', true, ?_, hshape', ?_, ?_, hdrew.window.trans hwin, fun _ => rfl⟩
  · simp only [hcutl, hassert, if_true, hres]
    rfl
  · rw [hsegs, htail, hfront, hused, hrest, hrlen, segs_append, segs_cons]
    exact .release hused hlo hfits
  · rw [hleft] at hdrew
    rw [hsegs, htail, hfront, hused, hrest, hrlen]
    apply freePart_release hfits
    · intro hend
      rw [if_pos (hback.2 hend)] at hdrew
      exact hdrew.answers 0 true rfl
    · intro hlt hend
      rw [if_pos (hback.2 hend), if_pos (by omega)] at hdrew
      exact hdrew.answers 1 true rfl
    · intro hlt hend
      rw [if_neg fun h => hend (hback.1 h), if_pos (by omega)] at hdrew
      exact hdrew.answers 0 true rfl

/-- `page + npages` passes the end of the node or wraps: nothing is released, but
a sum that wraps to a page inside the node cuts the node there. -/
theorem freePortion_outside (h : Shape a (l ++ (p, s) :: r)) (heap : HeapAnswers)
    {page npages : Word} (hused : s.tag = false) (hcov : s.Covers page.toNat)
    (hhi : s.stop < page.toNat + npages.toNat) (hstop : s.stop < 2 ^ 52) :
    ∃ a' cells' ok, a.freePortion heap p page npages = some (false, a') ∧ Shape a' cells' ∧
      FreeWalk page.toNat npages.toNat ok (segs (l ++ (p, s) :: r)) false (segs cells') ∧
      freePart (a.grants heap) page.toNat npages.toNat (segs l) s (segs r) =
        (false, segs cells') ∧
      SameWindow a a' ∧ (NoNull heap a a' → ok = true) := by
  have hover : ¬ page.toNat + npages.toNat ≤ s.stop := Nat.not_le.2 hhi
  have hstart := h.start_toNat
  have hnp := h.npages_toNat
  have hn := npages.isLt
  have hcov' := hcov
  unfold Seg.Covers at hcov'
  unfold Seg.stop at hhi hstop
  unfold freePortion
  by_cases hwrap : page.toNat + npages.toNat < 2 ^ 64
  · have htest : (a.nodes p).start + (a.nodes p).npages < page + npages := by bv_omega
    simp only [if_pos htest]
    refine ⟨a, _, true, rfl, h, ?_, ?_, .refl a, fun _ => rfl⟩
    · simp only [segs_append, segs_cons]
      exact .overrun hused hcov (by unfold Seg.stop; omega) (by omega)
    · rw [freePart, if_neg hover, if_neg fun h => by omega, segs_append, segs_cons]
  -- the end of the node, and the end of the pages behind the wrap
  have hnode : ((a.nodes p).start + (a.nodes p).npages).toNat = s.start + s.len := by
    rw [BitVec.toNat_add, hstart, hnp]
    omega
  have hend : (page + npages).toNat = page.toNat + npages.toNat - 2 ^ 64 := by
    rw [BitVec.toNat_add]
    omega
  have hbelow : page + npages < (a.nodes p).start + (a.nodes p).npages := by
    rw [BitVec.lt_def, hnode, hend]
    omega
  have htest : ¬ (a.nodes p).start + (a.nodes p).npages < page + npages :=
    BitVec.not_lt.2 (BitVec.le_of_lt hbelow)
  have hright : 0 < (a.nodes p).start + (a.nodes p).npages - (page + npages) := by
    rw [BitVec.lt_def, BitVec.toNat_sub_of_le (BitVec.le_of_lt hbelow)]
    exact Nat.sub_pos_of_lt hbelow
  have hcut : ((a.nodes p).npages - ((a.nodes p).start + (a.nodes p).npages - (page + npages))) =
      page + npages - (a.nodes p).start := by
    generalize (a.nodes p).start = x, (a.nodes p).npages = y, page + npages = z
    bv_omega
  simp only [if_neg htest, cutRight, if_pos hright, hcut]
  by_cases hin : s.start + 2 ^ 64 < page.toNat + npages.toNat
  · have hk : (page + npages - (a.nodes p).start).toNat =
        page.toNat + npages.toNat - 2 ^ 64 - s.start := by
      rw [BitVec.toNat_sub_of_le (by rw [BitVec.le_def, hstart, hend]; omega), hend, hstart]
    have hpos : 0 < (page + npages - (a.nodes p).start).toNat := by omega
    have hlt : (page + npages - (a.nodes p).start).toNat < s.len := by omega
    rcases h.splitNodeLeft_spec heap hpos hlt (by unfold Seg.stop; omega) with
      ⟨q, a₁, hsplit, hqp, hshape, hdrew⟩ | ⟨hsplit, hdrew⟩
    · have hlen₁ := hshape.npages_toNat
      have hl0 : 0 < page - (a.nodes p).start := by bv_omega
      have hwhole : a₁.splitNodeLeft heap p (page - (a.nodes p).start) = (p, a₁) := by
        apply splitNodeLeft_whole
        right
        rw [hlen₁]
        bv_omega
      refine ⟨a₁, _, true, ?_, hshape, ?_, ?_, hdrew.window, fun _ => rfl⟩
      · simp only [hsplit, bne_iff_ne.2 hqp, cutLeft, if_pos hl0, hwhole, if_true]
      · rw [hk]
        simp only [segs_append, segs_cons]
        exact .wrapCut hused hcov hin hn
      · rw [freePart, if_neg hover, if_pos ⟨hin, hdrew.answers 0 true rfl⟩, hk]
        simp only [segs_append, segs_cons]
        rfl
    · refine ⟨_, _, false, ?_, afterNull_shape h, ?_, ?_, hdrew.window,
        fun hno => by simpa using hdrew.noNull.1 hno⟩
      · simp only [hsplit, bne_self_eq_false]
      · simp only [segs_append, segs_cons]
        exact .starve hused hcov (by omega)
      · have hfail : a.grants heap 0 = false := hdrew.answers 0 false rfl
        rw [freePart, if_neg hover, if_neg (by simp [hfail]), segs_append, segs_cons]
  · have hwhole : a.splitNodeLeft heap p (page + npages - (a.nodes p).start) = (p, a) := by
      apply splitNodeLeft_whole
      rw [hnp]
      bv_omega
    refine ⟨a, _, true, ?_, h, ?_, ?_, .refl a, fun _ => rfl⟩
    · simp only [hwhole, bne_self_eq_false]
    · simp only [segs_append, segs_cons]
      exact .overrun hused hcov (by unfold Seg.stop; omega) (by omega)
    · rw [freePart, if_neg hover, if_neg fun h => hin h.1, segs_append, segs_cons]

theorem freeLoop_spec (heap : HeapAnswers) (page : Word) {npages : Word} (hn : 0 < npages.toNat)
    (fuel : Nat) (l rest : List Cell) (a : VAddrAllocator maxNodes) (h : Shape a (l ++ rest))
    (hmiss : ¬ Tagged (segs l) page.toNat false) (hbound : ∀ c ∈ rest, c.2.stop < 2 ^ 52)
    (hlen : ((segs (l ++ rest)).map Seg.len).sum < 2 ^ 64) (hfuel : rest.length < fuel) :
    ∃ b a' cells' ok, freeLoop heap page npages fuel (ptrs rest).head? a = some (b, a') ∧
      Shape a' cells' ∧
      FreeWalk page.toNat npages.toNat ok (segs (l ++ rest)) b (segs cells') ∧
      freeRanges (a.grants heap) page.toNat npages.toNat (segs l) (segs rest) = (b, segs cells') ∧
      SameWindow a a' ∧ (NoNull heap a a' → ok = true) := by
  induction fuel generalizing l rest with
  | zero => omega
  | succ fuel ih =>
      rcases rest with _ | ⟨⟨p, s⟩, rest⟩
      · exact ⟨false, a, l, true, by simp [freeLoop], by simpa using h,
          by simpa using .miss hmiss, rfl, .refl a, fun _ => rfl⟩
      have hstop : s.stop < 2 ^ 52 := hbound (p, s) (by simp)
      have hstart := h.start_toNat
      have hnp := h.npages_toNat
      have htag := h.isFree_eq
      have hcov : s.Covers page.toNat ↔ (a.nodes p).start ≤ page ∧
          page < (a.nodes p).start + (a.nodes p).npages := by
        unfold Seg.stop at hstop
        unfold Seg.Covers
        bv_omega
      simp only [ptrs_cons, List.head?_cons, freeLoop]
      by_cases hexact : (a.nodes p).isFree = false ∧ (a.nodes p).start = page ∧
          (a.nodes p).npages = npages
      · obtain ⟨hused, hpage, hlast⟩ := hexact
        rw [hpage] at hstart
        rw [hlast] at hnp
        obtain ⟨a', cells', hres, hshape, hsegs, hwin, -⟩ := release_spec h hlen
        refine ⟨true, a', cells', true, ?_, hshape, ?_, ?_, hwin, fun _ => rfl⟩
        · simp only [if_pos (And.intro hused (And.intro hpage hlast)), hres]
          rfl
        rotate_left
        · have hcovers : s.tag = false ∧ s.Covers page.toNat := by
            refine ⟨htag ▸ hused, ?_⟩
            unfold Seg.Covers
            omega
          rw [segs_cons, freeRanges, if_pos hcovers, freePart, hstart, hnp, hsegs]
          simp [Seg.keep, Seg.stop]
        · have hwalk : FreeWalk s.start s.len true (segs l ++ s :: segs rest) true
              (coalesceSegs (segs l ++ Seg.keep ⟨s.start, s.start - s.start, false⟩)
                ⟨s.start, s.len, true⟩
                (Seg.keep ⟨s.start + s.len, s.stop - (s.start + s.len), false⟩ ++ segs rest)) :=
            .release (htag ▸ hused) (Nat.le_refl _) (Nat.le_refl _)
          simpa [hstart, hnp, hsegs, Seg.keep, Seg.stop] using hwalk
      rw [if_neg hexact]
      by_cases hin : (a.nodes p).isFree = false ∧ (a.nodes p).start ≤ page ∧
          page < (a.nodes p).start + (a.nodes p).npages
      · rw [if_pos hin]
        have hused : s.tag = false := htag ▸ hin.1
        have hc := hcov.2 hin.2
        have hpart : ¬ (s.start = page.toNat ∧ s.len = npages.toNat) := by
          rintro ⟨hs, hl⟩
          exact hexact ⟨hin.1, BitVec.eq_of_toNat_eq (hstart.trans hs),
            BitVec.eq_of_toNat_eq (hnp.trans hl)⟩
        rw [segs_cons (p, s) rest, freeRanges, if_pos ⟨hused, hc⟩]
        by_cases hhi : page.toNat + npages.toNat ≤ s.stop
        · exact freePortion_inside h heap hn hused hc.1 hhi hpart hstop hlen
        · obtain ⟨a', cells', ok, hres⟩ :=
            freePortion_outside h heap hused hc (Nat.lt_of_not_le hhi) hstop
          exact ⟨false, a', cells', ok, hres⟩
      · -- not this node
        have hnot : ¬ (s.tag = false ∧ s.Covers page.toNat) := by
          rintro ⟨ht, hc⟩
          exact hin ⟨htag.trans ht, hcov.1 hc⟩
        rw [if_neg hin, h.at_node.2.1, segs_cons (p, s) rest, freeRanges, if_neg hnot]
        have hmiss' : ¬ Tagged (segs (l ++ [(p, s)])) page.toNat false := by
          simp only [segs_append, segs_cons, segs_nil, Tagged.append, Tagged.cons, Tagged.nil,
            or_false, not_or]
          exact ⟨hmiss, fun hc => hnot ⟨hc.2, hc.1⟩⟩
        have hnext := ih (l ++ [(p, s)]) rest (by simpa using h) hmiss'
          (fun c hc => hbound c (by simp [hc])) (by simpa using hlen) (by simpa using hfuel)
        simpa using hnext

theorem freePagesLoop_spec (fuel : Nat) (l rest : List Cell) (a : VAddrAllocator maxNodes)
    (h : Shape a (l ++ rest)) (hfuel : rest.length < fuel) (sum : Word)
    (hsum : sum.toNat + (((segs rest).filter Seg.tag).map Seg.len).sum < 2 ^ 64) :
    a.freePagesLoop fuel (ptrs rest).head? sum =
      some (BitVec.ofNat 64 (sum.toNat + (((segs rest).filter Seg.tag).map Seg.len).sum)) := by
  induction fuel generalizing l rest sum with
  | zero => omega
  | succ fuel ih =>
      rcases rest with _ | ⟨⟨p, s⟩, rest⟩
      · simp [freePagesLoop]
      have hnp := h.npages_toNat
      have htag := h.isFree_eq
      have hnext := h.at_node.2.1
      simp only [ptrs_cons, List.head?_cons, segs_cons, freePagesLoop, hnext, htag] at hsum ⊢
      by_cases hs : s.tag = true
      · rw [List.filter_cons_of_pos hs, List.map_cons, List.sum_cons] at hsum ⊢
        have hadd : (sum + (a.nodes p).npages).toNat = sum.toNat + s.len := by bv_omega
        have := ih (l ++ [(p, s)]) rest (by simpa using h) (by simpa using hfuel)
          (sum + (a.nodes p).npages) (by omega)
        rw [if_pos hs, this, hadd, Nat.add_assoc]
      · rw [List.filter_cons_of_neg hs] at hsum ⊢
        rw [if_neg hs]
        exact ih (l ++ [(p, s)]) rest (by simpa using h) (by simpa using hfuel) sum hsum

end VAddrAllocator

namespace Inv

open VAddrAllocator

variable {a : VAddrAllocator maxNodes} {cells : List Cell}

theorem mem_stop (h : Inv a cells) : ∀ c ∈ cells, c.2.stop < 2 ^ 52 := fun _ hc =>
  (h.tiles.mem_bounds (List.mem_map_of_mem hc)).2.trans_lt h.bound

theorem length_lt (h : Inv a cells) : cells.length < walkLimit := by
  have hbound := h.bound
  have hlen : (segs cells).length = cells.length := List.length_map ..
  rw [walkLimit, ← hlen]
  rcases h.noEmpty with hne | hone
  · have := h.tiles.length_le hne
    omega
  · rw [hone]
    norm_num

theorem sum_len (h : Inv a cells) : ((segs cells).map Seg.len).sum = a.totalPages.toNat := by
  simpa using h.tiles.sum_len

/-- The degenerate window of no pages has one empty free node. -/
theorem noEmpty_of_pos (h : Inv a cells) (hpos : 0 < a.totalPages.toNat) :
    NoEmpty (segs cells) := by
  refine h.noEmpty.resolve_right fun hone => ?_
  have := h.tiles
  rw [hone] at this
  simp [Seg.stop] at this
  omega

end Inv

namespace VAddrAllocator

theorem allocPages_zero (a : VAddrAllocator maxNodes) (heap : HeapAnswers) (alignPages : Word) :
    a.allocPages heap 0 alignPages = some (none, a) := if_pos rfl

theorem free_zero (a : VAddrAllocator maxNodes) (heap : HeapAnswers) (vaddr : Word) :
    a.free heap vaddr 0 = some (true, a) := if_pos rfl

theorem ne_zero_of_allocPages {a a' : VAddrAllocator maxNodes} {heap : HeapAnswers}
    {npages alignPages vaddr : Word}
    (hcall : a.allocPages heap npages alignPages = some (some vaddr, a')) : npages ≠ 0 := by
  rintro rfl
  rw [allocPages_zero] at hcall
  simp at hcall

variable {a : VAddrAllocator maxNodes} {cells : List Cell}

/-- `alloc_pages` returns; what it returns and leaves is an `AllocWalk`, and the one that
the coming answers of `allocate_node` lead to. -/
theorem allocPages_ranges (h : Inv a cells) (heap : HeapAnswers) {npages alignPages : Word}
    (hn : npages ≠ 0) (hal : IsPow2 alignPages) :
    ∃ r a' cells' ok, a.allocPages heap npages alignPages =
        some (r.map fun page => a.vaddrFromPage (BitVec.ofNat 64 page), a') ∧ Inv a' cells' ∧
      AllocWalk npages.toNat alignPages.toNat ok (segs cells) r (segs cells') ∧
      allocRanges npages.toNat alignPages.toNat (a.grants heap) (segs cells) =
        (r, segs cells') ∧
      SameWindow a a' ∧ (NoNull heap a a' → ok = true) := by
  have hnpos : 0 < npages.toNat := by bv_omega
  have hassert : alignPages &&& (alignPages - 1) = 0 ∧ 1 ≤ alignPages := by
    refine ⟨hal.and_sub_one, ?_⟩
    have := hal.pos
    bv_omega
  have hshape : Shape { a with locked := true } ([] ++ cells) := relock_shape h.shape
  obtain ⟨r, a', cells', ok, hres, hshape', hwalk, hranges, hwin, hok⟩ :=
    allocLoop_spec heap hnpos hal walkLimit [] cells _ hshape h.mem_stop h.length_lt
  have hhead : a.head = (ptrs cells).head? := h.shape.head
  have hwin' : SameWindow a a'.unlock :=
    ⟨hwin.base, hwin.totalPages, h.unlocked.symm, hwin.newCount⟩
  refine ⟨r, a'.unlock, cells', ok, ?_, ⟨relock_shape hshape', ?_, ?_, ?_, rfl⟩, hwalk, hranges,
    hwin', hok⟩
  · simp only [allocPages, if_neg hn, if_pos hassert, lock, h.unlocked]
    rw [← hhead] at hres
    simp [hres, vaddrFromPage]
  · rw [hwin'.totalPages]
    exact hwalk.tiles hal.pos h.tiles
  · rcases h.noEmpty with hne | hone
    · exact Or.inl (hwalk.noEmpty hnpos hne)
    · right
      rw [hone] at hwalk
      exact hwalk.empty hnpos
  · rw [hwin'.totalPages]
    exact h.bound

theorem allocPages_spec (h : Inv a cells) (heap : HeapAnswers) {npages alignPages : Word}
    (hn : npages ≠ 0) (hal : IsPow2 alignPages) :
    ∃ r a' cells' ok, a.allocPages heap npages alignPages =
        some (r.map fun page => a.vaddrFromPage (BitVec.ofNat 64 page), a') ∧ Inv a' cells' ∧
      AllocWalk npages.toNat alignPages.toNat ok (segs cells) r (segs cells') ∧
      SameWindow a a' ∧ (NoNull heap a a' → ok = true) := by
  obtain ⟨r, a', cells', ok, hres, hinv', hwalk, -, hwin, hok⟩ := allocPages_ranges h heap hn hal
  exact ⟨r, a', cells', ok, hres, hinv', hwalk, hwin, hok⟩

theorem freeRanges_miss {g : Grants} {page n : Nat} (l r : List PageSeg)
    (hmiss : ¬ Tagged r page false) : freeRanges g page n l r = (false, l ++ r) := by
  induction r generalizing l with
  | nil => simp [freeRanges]
  | cons s r ih =>
      rw [Tagged.cons, not_or] at hmiss
      rw [freeRanges, if_neg fun h => hmiss.1 ⟨h.2, h.1⟩, ih (l ++ [s]) hmiss.2]
      simp

/-- `free` returns; what it returns and leaves is a `FreeWalk`, and the one that the coming
answers of `allocate_node` lead to. -/
theorem free_ranges (h : Inv a cells) (heap : HeapAnswers) (vaddr : Word) {npages : Word}
    (hn : npages ≠ 0) :
    ∃ b a' cells' ok, a.free heap vaddr npages = some (b, a') ∧ Inv a' cells' ∧
      FreeWalk (a.pageFromVaddr vaddr).toNat npages.toNat ok (segs cells) b (segs cells') ∧
      freeRanges (a.grants heap) (a.pageFromVaddr vaddr).toNat npages.toNat [] (segs cells) =
        (b, segs cells') ∧
      SameWindow a a' ∧ (NoNull heap a a' → ok = true) := by
  have hnpos : 0 < npages.toNat := by bv_omega
  by_cases hpage : a.totalPages ≤ a.pageFromVaddr vaddr
  · have hmiss : ¬ Tagged (segs cells) (a.pageFromVaddr vaddr).toNat false := by
      intro htagged
      have := (h.tiles.tagged_bounds htagged).2
      rw [BitVec.le_def] at hpage
      omega
    exact ⟨false, a, cells, true, by simp only [free, if_neg hn, if_pos hpage], h, .miss hmiss,
      freeRanges_miss [] _ hmiss, .refl a, fun _ => rfl⟩
  have hshape : Shape { a with locked := true } ([] ++ cells) := relock_shape h.shape
  have hlen : ((segs ([] ++ cells)).map Seg.len).sum < 2 ^ 64 := by
    have := h.sum_len
    have := h.bound
    simp only [List.nil_append]
    omega
  obtain ⟨b, a', cells', ok, hres, hshape', hwalk, hranges, hwin, hok⟩ :=
    freeLoop_spec heap (a.pageFromVaddr vaddr) hnpos walkLimit [] cells _ hshape (by simp)
      h.mem_stop hlen h.length_lt
  have hhead : a.head = (ptrs cells).head? := h.shape.head
  have hwin' : SameWindow a a'.unlock :=
    ⟨hwin.base, hwin.totalPages, h.unlocked.symm, hwin.newCount⟩
  rw [List.nil_append] at hwalk
  refine ⟨b, a'.unlock, cells', ok, ?_, ⟨relock_shape hshape', ?_, ?_, ?_, rfl⟩, hwalk, hranges,
    hwin', hok⟩
  · simp only [free, if_neg hn, if_neg hpage, lock, h.unlocked]
    rw [← hhead] at hres
    simp [hres]
  · rw [hwin'.totalPages]
    exact hwalk.tiles h.tiles
  · have hne := h.noEmpty_of_pos (by rw [BitVec.le_def] at hpage; omega)
    exact Or.inl (hwalk.noEmpty hnpos hne)
  · rw [hwin'.totalPages]
    exact h.bound

theorem free_spec (h : Inv a cells) (heap : HeapAnswers) (vaddr : Word) {npages : Word}
    (hn : npages ≠ 0) :
    ∃ b a' cells' ok, a.free heap vaddr npages = some (b, a') ∧ Inv a' cells' ∧
      FreeWalk (a.pageFromVaddr vaddr).toNat npages.toNat ok (segs cells) b (segs cells') ∧
      SameWindow a a' ∧ (NoNull heap a a' → ok = true) := by
  obtain ⟨b, a', cells', ok, hres, hinv', hwalk, -, hwin, hok⟩ := free_ranges h heap vaddr hn
  exact ⟨b, a', cells', ok, hres, hinv', hwalk, hwin, hok⟩

theorem freePagesTotal_spec (h : Inv a cells) :
    a.freePagesTotal =
      some (BitVec.ofNat 64 (((segs cells).filter Seg.tag).map Seg.len).sum) := by
  have hsum : (((segs cells).filter Seg.tag).map Seg.len).sum ≤ a.totalPages.toNat := by
    rw [← h.sum_len]
    exact (List.filter_sublist.map Seg.len).sum_le_sum fun _ _ => Nat.zero_le _
  have hbound := h.bound
  have hzero : (0 : Word).toNat = 0 := rfl
  have := freePagesLoop_spec walkLimit [] cells a h.shape h.length_lt 0 (by omega)
  rw [freePagesTotal, h.shape.head]
  simpa using this

theorem pool_blank (maxNodes : Nat) (base size : Word) :
    Pool ({ base := base, totalPages := size / pageSize, freeStack := List.range maxNodes } :
      VAddrAllocator maxNodes) [] :=
  ⟨List.nodup_range, fun i hi => by simpa using hi, by simp, by simp⟩

theorem init_spec {heap : HeapAnswers} {base size : Word}
    (hinit : init heap base size = some a) :
    ∃ p, Inv a [(p, ⟨0, size.toNat / 4096, true⟩)] ∧ a.base = base ∧
      a.totalPages.toNat = size.toNat / 4096 := by
  have htotal : (size / pageSize).toNat = size.toNat / 4096 := by
    rw [BitVec.toNat_udiv]
    rfl
  unfold init at hinit
  rcases (pool_blank maxNodes base size).allocateNode_spec heap with
    ⟨p, a₁, halloc, -, hpool, -, -, hdrew⟩ | ⟨halloc, -⟩
  swap
  · simp only [halloc, reduceCtorEq] at hinit
  simp only [halloc, Option.some.injEq] at hinit
  subst hinit
  have hwin := hdrew.window
  have hlen : a₁.totalPages.toNat = size.toNat / 4096 := hwin.totalPages ▸ htotal
  refine ⟨p, ⟨⟨rfl, by simp, ?_, by simp, ?_⟩, ?_, ?_, ?_, hwin.locked⟩, hwin.base, hlen⟩
  · simp [Node.seg, hlen]
  · exact hpool.congr rfl (Nat.le_refl _) (by simp) (by simp)
  · show Tiles 0 a₁.totalPages.toNat _
    simp [Seg.stop, hlen]
  · rcases Nat.eq_zero_or_pos (size.toNat / 4096) with hz | hpos
    · exact Or.inr (by simp [hz])
    · exact Or.inl (by simpa using hpos)
  · have := size.isLt
    show a₁.totalPages.toNat < 2 ^ 52
    omega

end VAddrAllocator

end UnnamedKernel.Mm.Vma
