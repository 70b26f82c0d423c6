import UnnamedKernel.Mm.Vmm.Advance

/-!
# How many frames `map_virtual` takes

One frame for each table that is missing on the way to its page. It succeeds when
`alloc_page` has them all.
-/

namespace UnnamedKernel.Mm.Vmm

open UnnamedKernel.Lib UnnamedKernel.Kernel RadixTree

/-- The next `n` calls of `alloc_page` succeed. -/
def Supplied (frames : FrameAnswers) (k n : Nat) : Prop := ∀ j < n, frames (k + j) ≠ 0

/-- The paths of the tables that lead to the entry of `va`. -/
def prefixes (va : Word) : List (List (Fin 512)) :=
  [[levelIndex 3 va], [levelIndex 3 va, levelIndex 2 va], tablePath va]

/-- No table of the pagemap, and no frame still to come, lies at the null address. -/
structure Visible (frames : FrameAnswers) (slide : Word) (root : Frame) (s : Machine) : Prop where
  tables : ∀ p u, p.length ≤ 3 → tableAt s.mem slide root p = some u → u.val + slide ≠ 0
  frames : ∀ k, s.taken ≤ k → frames k ≠ 0 → frames k + slide ≠ 0

theorem Visible.advances {frames : FrameAnswers} {slide : Word} {root : Frame} {pages : Set Word}
    {s s' : Machine} (h : Visible frames slide root s)
    (ha : Advances frames slide root pages s s') : Visible frames slide root s' := by
  refine ⟨fun p u hlen hp => ?_, fun k hk => h.frames k (ha.taken.trans hk)⟩
  rcases ha.new p u hlen hp with hold | ⟨k, hk, -, hu, hu0⟩
  · exact h.tables p u hlen hold
  · rw [← hu]
    exact h.frames k hk hu0

def hasTable (slide : Word) (root : Frame) (s : Machine) (p : List (Fin 512)) : Bool :=
  (tableAt s.mem slide root p).isSome

/-- The tables that are missing for `va`. -/
def tablesNeeded (has : List (Fin 512) → Bool) (va : Word) : Nat :=
  (prefixes va).countP fun p => !has p

theorem tablesNeeded_zeroed {slide : Word} {root : Frame} {m : Machine}
    (hzero : ∀ x, Mem.InRange (root.val + slide) 0x1000 x → m.mem x = 0) (va : Word) :
    tablesNeeded (hasTable slide root m) va = 3 := by
  refine List.countP_eq_length.2 fun p hp => ?_
  have hne : p ≠ [] := by
    rintro rfl
    simp [prefixes, tablePath] at hp
  cases hat : tableAt m.mem slide root p with
  | none =>
      rw [hasTable, hat]
      rfl
  | some x => exact absurd (tableAt_zeroed hzero hat).1 hne

/-- The frames that mapping some pages to new frames takes: one for each page, and one for
each table that is missing and was not made for a page before. -/
def framesNeeded (has : List (Fin 512) → Bool) : List Word → Nat
  | [] => 0
  | va :: vas =>
      1 + tablesNeeded has va + framesNeeded (fun p => has p || (prefixes va).contains p) vas

theorem framesNeeded_le (has : List (Fin 512) → Bool) (vas : List Word) :
    framesNeeded has vas ≤ 4 * vas.length := by
  induction vas generalizing has with
  | nil => exact le_rfl
  | cons va vas ih =>
      have htables : tablesNeeded has va ≤ 3 := List.countP_le_length
      have hrest := ih fun p => has p || (prefixes va).contains p
      rw [framesNeeded, List.length_cons]
      omega

theorem supplied_add (frames : FrameAnswers) (k n m : Nat) :
    Supplied frames k (n + m) ↔ Supplied frames k n ∧ Supplied frames (k + n) m := by
  constructor
  · intro h
    exact ⟨fun j hj => h j (by omega), fun j hj => by
      rw [Nat.add_assoc]
      exact h (n + j) (by omega)⟩
  · rintro ⟨hn, hm⟩ j hj
    rcases Nat.lt_or_ge j n with hlt | hge
    · exact hn j hlt
    · have hj' := hm (j - n) (by omega)
      rwa [show k + n + (j - n) = k + j by omega] at hj'

theorem supplied_one (frames : FrameAnswers) (k : Nat) : Supplied frames k 1 ↔ frames k ≠ 0 := by
  constructor
  · intro h
    exact h 0 Nat.one_pos
  · intro h j hj
    obtain rfl : j = 0 := by omega
    exact h

theorem supplied_zero (frames : FrameAnswers) (k : Nat) : Supplied frames k 0 := fun _ hj =>
  absurd hj (Nat.not_lt_zero _)

theorem pos_of_not_supplied {frames : FrameAnswers} {k n : Nat} (h : ¬ Supplied frames k n) :
    0 < n := by
  rw [Nat.pos_iff_ne_zero]
  rintro rfl
  exact h (supplied_zero frames k)

theorem framesNeeded_congr {has has' : List (Fin 512) → Bool} (vas : List Word)
    (h : ∀ p, p.length ≤ 3 → has p = has' p) : framesNeeded has vas = framesNeeded has' vas := by
  induction vas generalizing has has' with
  | nil => rfl
  | cons va vas ih =>
      have hneed : tablesNeeded has va = tablesNeeded has' va := by
        refine List.countP_congr fun p hp => ?_
        have hlen : p.length ≤ 3 := by
          simp only [prefixes, List.mem_cons, List.not_mem_nil, or_false] at hp
          rcases hp with rfl | rfl | rfl <;> simp [tablePath]
        rw [h p hlen]
      rw [framesNeeded, framesNeeded, hneed, ih fun p hp => by rw [h p hp]]

section EnsureTable

variable {frames : FrameAnswers} {slide : Word} {root t : Frame} {s : Machine}
  {p : List (Fin 512)} {i : Fin 512}

/-- The tables after a step down: one more when the step made a table. -/
theorem Grows.hasTable_eq {s' : Machine} {u : Frame} {k : Nat} (hg : Grows frames slide root s s')
    (hlen : p.length < 3) (hk : s.taken = k) (htaken : s'.taken ≤ k + 1) (hu : frames k = u.val)
    (hnew : tableAt s'.mem slide root (p ++ [i]) = some u) {q : List (Fin 512)}
    (hq : q.length ≤ 3) :
    hasTable slide root s' q = (hasTable slide root s q || q == p ++ [i]) := by
  rw [Bool.eq_iff_iff, Bool.or_eq_true, beq_iff_eq]
  constructor
  · intro h
    obtain ⟨x, hx⟩ := Option.isSome_iff_exists.1 h
    rcases hg.new q x hq hx with hold | ⟨j, hj, hj', hjx, -⟩
    · exact Or.inl (Option.isSome_iff_exists.2 ⟨x, hold⟩)
    · obtain rfl : j = k := by omega
      obtain rfl : x = u := Subtype.ext (hjx.symm.trans hu)
      exact Or.inr (hg.tree.noSharing q (p ++ [i]) x hq (by simp; omega) hx hnew)
  · rintro (h | rfl)
    · obtain ⟨x, hx⟩ := Option.isSome_iff_exists.1 h
      exact Option.isSome_iff_exists.2 ⟨x, hg.keeps q x hq hx⟩
    · exact Option.isSome_iff_exists.2 ⟨u, hnew⟩

theorem ensureTable_demand (hvisible : Visible frames slide root s) (hframes : FreshFrames frames)
    (h : Tree frames slide root s) (hp : tableAt s.mem slide root p = some t) (hlen : p.length < 3)
    (hclear : isFlagSet (entry s.mem slide t i) PageBits.present = true →
      isFlagSet (entry s.mem slide t i) largePage = false) (need : Nat)
    (hneed : need = if hasTable slide root s (p ++ [i]) then 0 else 1) :
    ∃ ptr s', ensureTable frames slide (entryPtr (t.val + slide) (BitVec.ofNat 64 i)) s =
        (ptr, s') ∧ (ptr ≠ 0 ↔ Supplied frames s.taken need) ∧ s'.taken = s.taken + need ∧
      (ptr ≠ 0 → ∀ q, q.length ≤ 3 →
        hasTable slide root s' q = (hasTable slide root s q || q == p ++ [i])) := by
  obtain ⟨ptr, s', hres, hgrows, -, hnext⟩ := ensureTable_spec hframes h hp hlen hclear
  refine ⟨ptr, s', hres, ?_⟩
  have hconcat : tableAt s.mem slide root (p ++ [i]) = tableOf (entry s.mem slide t i) :=
    descend_concat hp i
  rcases ensureTable_cases hframes slide t i s with
    ⟨hpresent, hcase⟩ | ⟨habsent, hmissing⟩
  · obtain ⟨rfl, rfl⟩ := Prod.mk.inj (hres.symm.trans hcase)
    have hlink : tableAt s'.mem slide root (p ++ [i]) =
        some (frameOf (entry s'.mem slide t i)) := by
      rw [hconcat, tableOf, if_pos ⟨hpresent, by simp [hclear hpresent]⟩]
    have hhas : hasTable slide root s' (p ++ [i]) = true := by
      rw [hasTable, hlink]
      rfl
    have hptr := hvisible.tables (p ++ [i]) _ (by simp; omega) hlink
    rw [hhas, if_pos rfl] at hneed
    subst hneed
    refine ⟨⟨fun _ => supplied_zero _ _, fun _ => hptr⟩, rfl, fun _ q hq => ?_⟩
    rw [Bool.eq_iff_iff, Bool.or_eq_true, beq_iff_eq]
    constructor
    · exact Or.inl
    · rintro (hq | rfl)
      · exact hq
      · exact hhas
  · have hhas : hasTable slide root s (p ++ [i]) = false := by
      rw [hasTable, hconcat, tableOf, if_neg (by simp [habsent])]
      rfl
    rw [hhas, if_neg (by simp)] at hneed
    subst hneed
    rw [supplied_one]
    rcases hmissing with ⟨hnone, hcase⟩ | ⟨hzero, hvirt, u, hu, hcase⟩
    · obtain ⟨rfl, rfl⟩ := Prod.mk.inj (hres.symm.trans hcase)
      have hzero : frames s.taken = 0 := by
        rcases hnone with hzero | hvirt
        · exact hzero
        · by_contra hne
          exact hvisible.frames _ (Nat.le_refl _) hne hvirt
      exact ⟨⟨fun hne => absurd rfl hne, fun hne => absurd hzero hne⟩, rfl,
        fun hne => absurd rfl hne⟩
    · obtain ⟨rfl, rfl⟩ := Prod.mk.inj (hres.symm.trans hcase)
      have hptr : u.val + slide ≠ 0 := hu ▸ hvirt
      obtain ⟨w, hw, hnew⟩ := hnext hptr
      have hwu : frames s.taken = w.val := by
        rw [hu]
        bv_omega
      exact ⟨⟨fun _ => hzero, fun _ => hptr⟩, rfl, fun _ q hq =>
        hgrows.hasTable_eq hlen rfl (Nat.le_refl _) hwu hnew hq⟩

theorem ensureTable_demand_step (hvisible : Visible frames slide root s)
    (hframes : FreshFrames frames) (h : Tree frames slide root s) {virt : Word}
    (hclear : UpperAll tableOf (entry s.mem slide) root 3 (ClearOn virt))
    (hp : tableAt s.mem slide root p = some t) (hpre : (p ++ [i]) <+: tablePath virt) (need : Nat)
    (hneed : need = if hasTable slide root s (p ++ [i]) then 0 else 1) :
    ∃ ptr s', ensureTable frames slide (entryPtr (t.val + slide) (BitVec.ofNat 64 i)) s =
        (ptr, s') ∧ Tree frames slide root s' ∧ Visible frames slide root s' ∧
      UpperAll tableOf (entry s'.mem slide) root 3 (ClearOn virt) ∧
      (ptr ≠ 0 ↔ Supplied frames s.taken need) ∧ s'.taken = s.taken + need ∧
      (ptr ≠ 0 → (∀ q, q.length ≤ 3 →
          hasTable slide root s' q = (hasTable slide root s q || q == p ++ [i])) ∧
        ∃ u : Frame, ptr = u.val + slide ∧ tableAt s'.mem slide root (p ++ [i]) = some u) := by
  have hlen : p.length < 3 := by
    have := hpre.length_le
    simp only [List.length_append, List.length_cons, List.length_nil, tablePath] at this
    omega
  obtain ⟨ptr, s', hres, hgrows, -, hc, hnext⟩ := ensureTable_step hframes h hclear hp hpre
  obtain ⟨ptr', s'', hres', hsup, htaken, hok⟩ :=
    ensureTable_demand hvisible hframes h hp hlen (hclear p i t hlen hp hpre) need hneed
  obtain ⟨rfl, rfl⟩ := Prod.mk.inj (hres.symm.trans hres')
  have hadv : Advances frames slide root ∅ s s' := .of_grows hgrows
  have hvisible' := hvisible.advances hadv
  exact ⟨ptr, s', hres, hgrows.tree, hvisible', hc, hsup, htaken, fun hne =>
    ⟨hok hne, hnext hne⟩⟩

end EnsureTable

section MapVirtual

variable {frames : FrameAnswers} {slide : Word} {root : Frame} {s : Machine} {virt phys : Word}

/-- `map_virtual` asks for no more frames than tables are missing. It succeeds when these frames
are there, and then takes them all and makes just these tables; when not, it asks in vain. -/
theorem mapVirtual_demand (hvisible : Visible frames slide root s) (hframes : FreshFrames frames)
    (h : Tree frames slide root s) (flags : MapFlags)
    (hclear : UpperAll tableOf (entry s.mem slide) root 3 (ClearOn virt)) (hvirt : virt ≠ 0)
    (hvirtAligned : virt.toNat % 4096 = 0) (hphys : phys ≠ 0)
    (hphysAligned : phys.toNat % 4096 = 0) :
    ∃ ok s', mapVirtual frames slide (root.val + slide) virt phys flags s = (ok, s') ∧
      (ok = true ↔
        Supplied frames s.taken (tablesNeeded (hasTable slide root s) virt)) ∧
      s'.taken ≤ s.taken + tablesNeeded (hasTable slide root s) virt ∧
      (ok = false → s.taken < s'.taken) ∧
      (ok = true → s'.taken = s.taken + tablesNeeded (hasTable slide root s) virt ∧
        ∀ q, q.length ≤ 3 → hasTable slide root s' q =
          (hasTable slide root s q || (prefixes virt).contains q)) := by
  have h3 := index_eq virt 3
  have h2 := index_eq virt 2
  have h1 := index_eq virt 1
  have h0 := index_eq virt 0
  simp only [Nat.mul_zero, Nat.add_zero, Nat.mul_one, Nat.reduceMul, Nat.reduceAdd] at h3 h2 h1 h0
  set i₃ := levelIndex 3 virt with hi₃
  set i₂ := levelIndex 2 virt with hi₂
  set i₁ := levelIndex 1 virt with hi₁
  -- what each level needs, by the tables of `s`
  set n₁ := if hasTable slide root s [i₃] then 0 else 1 with hn₁
  set n₂ := if hasTable slide root s [i₃, i₂] then 0 else 1 with hn₂
  set n₃ := if hasTable slide root s [i₃, i₂, i₁] then 0 else 1 with hn₃
  have hneed : tablesNeeded (hasTable slide root s) virt = n₁ + n₂ + n₃ := by
    simp only [tablesNeeded, prefixes, tablePath, List.countP_cons, List.countP_nil, hn₁, hn₂, hn₃,
      ← hi₃, ← hi₂, ← hi₁]
    cases hasTable slide root s [i₃] <;> cases hasTable slide root s [i₃, i₂] <;>
      cases hasTable slide root s [i₃, i₂, i₁] <;> rfl
  rw [hneed, supplied_add, supplied_add]
  unfold mapVirtual
  simp only [h3, h2, h1, h0]
  rw [if_neg (not_or.2 ⟨hvirt, not_not.2 ((checkAligned_pageSize virt).2 hvirtAligned)⟩),
    if_neg (not_or.2 ⟨hphys, not_not.2 ((checkAligned_pageSize phys).2 hphysAligned)⟩),
    if_neg (hvisible.tables [] root (Nat.zero_le _) rfl)]
  obtain ⟨pdpt, s₁, hres₁, ht₁, hv₁, hc₁, hsup₁, htaken₁, hok₁⟩ :=
    ensureTable_demand_step (p := []) (i := i₃)
      hvisible hframes h hclear rfl ⟨_, rfl⟩ n₁ hn₁
  rw [hres₁]
  by_cases hz₁ : pdpt = 0
  · have hno : ¬ Supplied frames s.taken n₁ := fun hsup => hsup₁.2 hsup hz₁
    have hpos := pos_of_not_supplied hno
    refine ⟨false, s₁, by simp only [if_pos hz₁], ?_, by omega, fun _ => by omega, by simp⟩
    simp [hno]
  obtain ⟨hhas₁, u₁, rfl, hu₁⟩ := hok₁ hz₁
  obtain ⟨pd, s₂, hres₂, ht₂, hv₂, hc₂, hsup₂, htaken₂, hok₂⟩ := ensureTable_demand_step (i := i₂)
    hv₁ hframes ht₁ hc₁ hu₁ ⟨_, rfl⟩ n₂ (by
      rw [hhas₁ _ (by simp)]
      simp [hn₂])
  rw [htaken₁] at hsup₂
  simp only [if_neg hz₁, hres₂]
  by_cases hz₂ : pd = 0
  · have hno : ¬ Supplied frames (s.taken + n₁) n₂ := fun hsup => hsup₂.2 hsup hz₂
    have hpos := pos_of_not_supplied hno
    refine ⟨false, s₂, by simp only [if_pos hz₂], ?_, by omega, fun _ => by omega, by simp⟩
    simp [hno]
  obtain ⟨hhas₂, u₂, rfl, hu₂⟩ := hok₂ hz₂
  obtain ⟨pt, s₃, hres₃, ht₃, -, hc₃, hsup₃, htaken₃, hok₃⟩ := ensureTable_demand_step (i := i₁)
    hv₂ hframes ht₂ hc₂ hu₂ ⟨_, rfl⟩ n₃ (by
      rw [hhas₂ _ (by simp), hhas₁ _ (by simp)]
      simp [hn₃])
  rw [htaken₂, htaken₁] at hsup₃
  simp only [if_neg hz₂, hres₃]
  by_cases hz₃ : pt = 0
  · have hno : ¬ Supplied frames (s.taken + n₁ + n₂) n₃ := fun hsup => hsup₃.2 hsup hz₃
    have hpos := pos_of_not_supplied hno
    refine ⟨false, s₃, by simp only [if_pos hz₃], ?_, by omega, fun _ => by omega, by simp⟩
    simp [← Nat.add_assoc, hno]
  obtain ⟨hhas₃, u₃, rfl, hu₃⟩ := hok₃ hz₃
  have htaken : (s₃.setLeaf slide u₃ virt (leafEntry phys flags)).taken =
      s.taken + (n₁ + n₂ + n₃) := by
    show s₃.taken = _
    omega
  refine ⟨true, s₃.setLeaf slide u₃ virt (leafEntry phys flags), ?_, ?_, htaken.le,
    by simp, fun _ => ⟨htaken, fun q hq => ?_⟩⟩
  · simp only [if_neg hz₃, leafEntry]
    rfl
  · simp only [true_iff]
    exact ⟨⟨hsup₁.1 hz₁, hsup₂.1 hz₂⟩, by simpa [Nat.add_assoc] using hsup₃.1 hz₃⟩
  · rw [hasTable, setLeaf_tableAt ht₃ hu₃ hq, ← hasTable, hhas₃ q hq, hhas₂ q hq, hhas₁ q hq]
    simp [prefixes, tablePath, Bool.or_assoc, beq_eq_decide, ← hi₃, ← hi₂, ← hi₁]

end MapVirtual

end UnnamedKernel.Mm.Vmm
