import UnnamedKernel.Mm.Heap.Break
import UnnamedKernel.Mm.Heap.Loop

/-!
# What `sbrk` answers

`sbrk` moves the break and returns the old one when there is room for the increment:
in the window, and in frames for its pages and for the tables that are missing on the
way to them. Without room it returns 0, which its caller does not take for a failure.
-/

namespace UnnamedKernel.Mm.Heap

open UnnamedKernel.Lib UnnamedKernel.Kernel Vmm RadixTree

/-! ## The pages of the loop -/

section Pages

variable {base v : Word} {count : Nat}

theorem mem_pagesFrom {i : Word} :
    v ∈ pagesFrom base count i ↔ ∃ j < count, v = base + (i + BitVec.ofNat 64 j) * pageSize := by
  induction count generalizing i with
  | zero => simp [pagesFrom]
  | succ count ih =>
      have hshift : ∀ j, i + 1 + BitVec.ofNat 64 j = i + BitVec.ofNat 64 (j + 1) := fun j => by
        bv_omega
      rw [pagesFrom, List.mem_cons, ih]
      constructor
      · rintro (rfl | ⟨j, hj, rfl⟩)
        · exact ⟨0, Nat.succ_pos count, by simp⟩
        · exact ⟨j + 1, Nat.succ_lt_succ hj, by rw [hshift]⟩
      · rintro ⟨j, hj, rfl⟩
        cases j with
        | zero => exact Or.inl (by simp)
        | succ j => exact Or.inr ⟨j, Nat.lt_of_succ_lt_succ hj, by rw [hshift]⟩

theorem page_offset (j : Nat) :
    (0 + BitVec.ofNat 64 j) * pageSize = BitVec.ofNat 64 (j * 4096) := by
  unfold pageSize
  bv_omega

theorem mem_pagesFrom_zero :
    v ∈ pagesFrom base count 0 ↔ ∃ j < count, v = base + BitVec.ofNat 64 (j * 4096) := by
  rw [mem_pagesFrom]
  apply exists_congr
  intro j
  rw [page_offset]

theorem toNat_pagesFrom (hfits : base.toNat + count * 4096 ≤ 2 ^ 64) {j : Nat} (hj : j < count) :
    (base + BitVec.ofNat 64 (j * 4096)).toNat = base.toNat + j * 4096 := by
  rw [BitVec.toNat_add, BitVec.toNat_ofNat]
  omega

theorem aligned_of_mem_pagesFrom (hbase : base.toNat % 4096 = 0)
    (hv : v ∈ pagesFrom base count 0) : v.toNat % 4096 = 0 := by
  obtain ⟨j, -, rfl⟩ := mem_pagesFrom_zero.1 hv
  rw [BitVec.toNat_add, BitVec.toNat_ofNat]
  omega

/-- The loop passes the null page when it starts there or runs past the end of the addresses. -/
theorem null_mem_pagesFrom (hbase : base.toNat % 4096 = 0) (hcount : 0 < count) :
    (0 : Word) ∉ pagesFrom base count 0 ↔ base ≠ 0 ∧ base.toNat + count * 4096 ≤ 2 ^ 64 := by
  rw [mem_pagesFrom_zero]
  constructor
  · intro hnone
    have hne : base ≠ 0 := by
      rintro rfl
      exact hnone ⟨0, hcount, by simp⟩
    refine ⟨hne, ?_⟩
    by_contra hover
    have hlt := base.isLt
    refine hnone ⟨(2 ^ 64 - base.toNat) / 4096, by omega, ?_⟩
    apply BitVec.eq_of_toNat_eq
    rw [BitVec.toNat_add, BitVec.toNat_ofNat]
    have hzero : (0 : Word).toNat = 0 := rfl
    omega
  · rintro ⟨hne, hfits⟩ ⟨j, hj, hnull⟩
    have hpage := toNat_pagesFrom hfits hj
    rw [← hnull] at hpage
    have hzero : (0 : Word).toNat = 0 := rfl
    have hpos : base.toNat ≠ 0 := fun he => hne (BitVec.eq_of_toNat_eq he)
    omega

end Pages

/-! ## Room for an increment -/

/-- What `sbrk` needs to extend the heap by `increment`. -/
structure Room (env : Env) (root : Frame) (h : HeapState) (increment : Word) : Prop where
  initialized : h.isInitialized = true
  aligned : h.top.toNat % 4096 = 0
  nonnull : h.top ≠ 0
  /-- the new pages do not run past the end of the addresses -/
  noWrap : h.top.toNat + (Kernel.alignUp increment pageSize).toNat ≤ 2 ^ 64
  window : ¬ h.heapBase + h.heapSize < h.top + Kernel.alignUp increment pageSize
  /-- there are frames for the new pages and for the missing tables -/
  supplied : Supplied env.frames h.machine.taken (framesNeeded (hasTable env.slide root h.machine)
    (pagesFrom h.top (Kernel.alignUp increment pageSize / pageSize).toNat 0))

/-- The pages that some increment passes the window test with. -/
def HeapState.reach (h : HeapState) : Set Word :=
  {v | ∃ increment, ¬ h.heapBase + h.heapSize < h.top + Kernel.alignUp increment pageSize ∧
    v ∈ pagesFrom h.top (Kernel.alignUp increment pageSize / pageSize).toNat 0}

/-- The pagemap is a tree that the direct map reaches, without large pages where `sbrk` may map. -/
structure Growable (env : Env) (root : Frame) (h : HeapState) : Prop where
  tree : Tree env.frames env.slide root h.machine
  visible : Visible env.frames env.slide root h.machine
  clear : UpperAll tableOf (entry h.machine.mem env.slide) root 3 (ClearFor h.reach)

theorem toNat_pageCount (increment : Word) (h : 0 < increment.toInt) :
    (Kernel.alignUp increment pageSize / pageSize).toNat * 4096 =
        (Kernel.alignUp increment pageSize).toNat ∧
      0 < (Kernel.alignUp increment pageSize / pageSize).toNat := by
  have hsize := toNat_alignedIncrement h
  rw [BitVec.toNat_udiv, toNat_pageSize]
  omega

section Sbrk

variable {env : Env} {root : Frame} {h : HeapState} {increment : Word}

/-- `sbrk` for a positive increment, up to the window test and the page loop. -/
theorem HeapState.sbrk_eq (hinit : h.isInitialized = true) (hpos : 0 < increment.toInt) :
    h.sbrk env increment =
      if h.heapBase + h.heapSize < h.top + Kernel.alignUp increment pageSize then
        some (0, { h with heapTop := some h.top }.setError .outOfMemory)
      else
        match mapPages env h.top (Kernel.alignUp increment pageSize / pageSize).toNat 0
          h.machine with
        | (some _, m) => some (0, { h with machine := m, heapTop := some h.top })
        | (none, m) => some (h.top,
            { h with
              machine := m, heapTop := some (h.top + Kernel.alignUp increment pageSize) }) := by
  have hsign := toNat_lt_of_toInt_pos hpos
  unfold HeapState.sbrk
  rw [if_neg (by simp [hinit])]
  simp only [if_neg hsign.1, hsign.2.1, Bool.false_eq_true, if_false]
  rfl

theorem HeapState.sbrk_zero (env : Env) (h : HeapState) :
    ∃ h', h.sbrk env 0 = some (if h.isInitialized then h.top else 0, h') ∧ h'.top = h.top ∧
      h'.isInitialized = h.isInitialized := by
  unfold HeapState.sbrk
  by_cases hinit : h.isInitialized = true
  · rw [if_neg (by simp [hinit])]
    simp only [if_pos hinit]
    exact ⟨_, rfl, rfl, rfl⟩
  · rw [if_pos hinit, if_neg hinit]
    exact ⟨h, rfl, rfl, rfl⟩

/-- For a positive increment `sbrk` moves the break, by pages that are not null, and returns the
old one; or it leaves the break and returns 0. -/
theorem HeapState.sbrk_answer (hcr3 : env.cr3 = root.val) (hpos : 0 < increment.toInt) :
    ∃ r h', h.sbrk env increment = some (r, h') ∧ h'.isInitialized = h.isInitialized ∧
      ((r = 0 ∧ h'.top = h.top) ∨ r = h.top ∧ h.isInitialized = true ∧
        h'.top = h.top + Kernel.alignUp increment pageSize ∧ h.top.toNat % 4096 = 0 ∧ h.top ≠ 0 ∧
        h.top.toNat + (Kernel.alignUp increment pageSize).toNat ≤ 2 ^ 64) := by
  by_cases hinit : h.isInitialized = true
  swap
  · refine ⟨0, h, ?_, rfl, Or.inl ⟨rfl, rfl⟩⟩
    unfold HeapState.sbrk
    rw [if_pos hinit]
  have hcount := toNat_pageCount increment hpos
  rw [HeapState.sbrk_eq hinit hpos]
  split_ifs with hwindow
  · exact ⟨_, _, rfl, rfl, Or.inl ⟨rfl, rfl⟩⟩
  rcases hloop : mapPages env h.top (Kernel.alignUp increment pageSize / pageSize).toNat 0 h.machine
    with ⟨code, m⟩
  cases code with
  | some code => exact ⟨_, _, rfl, rfl, Or.inl ⟨rfl, rfl⟩⟩
  | none =>
      have haligned : h.top.toNat % 4096 = 0 := by
        by_contra hmis
        exact mapPages_misaligned hmis hcount.2 hloop
      have hpages := (null_mem_pagesFrom haligned hcount.2).1 fun hnull =>
        mapPages_null hcr3 h.top _ 0 h.machine hnull (congrArg Prod.fst hloop)
      rw [hcount.1] at hpages
      exact ⟨_, _, rfl, rfl, Or.inr ⟨rfl, hinit, rfl, haligned, hpages⟩⟩

theorem HeapState.sbrk_extends_iff (hframes : FreshFrames env.frames) (hcr3 : env.cr3 = root.val)
    (hgrow : Growable env root h) (hpos : 0 < increment.toInt) :
    (∃ h', h.sbrk env increment = some (h.top, h') ∧
      h'.top = h.top + Kernel.alignUp increment pageSize) ↔ Room env root h increment := by
  have hsize := toNat_alignedIncrement hpos
  have hcount := toNat_pageCount increment hpos
  have hloop := fun hwindow hpages => mapPages_demand hcr3 hframes h.top
    (Kernel.alignUp increment pageSize / pageSize).toNat 0 hgrow.tree hgrow.visible
    (UpperAll.clearFor_mono hgrow.clear fun v hv => ⟨increment, hwindow, hv⟩) hpages
  have hmoved : h.top + Kernel.alignUp increment pageSize ≠ h.top := by
    intro he
    bv_omega
  constructor
  · rintro ⟨h', hres, htop⟩
    obtain ⟨r, h₁, hres₁, -, ⟨-, hkept⟩ | ⟨-, hinit, -, haligned, hne, hfits⟩⟩ :=
      HeapState.sbrk_answer (h := h) hcr3 hpos
    · obtain ⟨-, rfl⟩ := Prod.mk.inj (Option.some.inj (hres.symm.trans hres₁))
      exact absurd (htop.symm.trans hkept) hmoved
    rw [HeapState.sbrk_eq hinit hpos] at hres
    split_ifs at hres with hwindow
    · obtain ⟨-, rfl⟩ := Prod.mk.inj (Option.some.inj hres)
      exact absurd htop.symm hmoved
    have hnull := (null_mem_pagesFrom haligned hcount.2).2 ⟨hne, by rw [hcount.1]; exact hfits⟩
    refine ⟨hinit, haligned, hne, hfits, hwindow, (hloop hwindow fun v hv =>
      ⟨fun he => hnull (he ▸ hv), aligned_of_mem_pagesFrom haligned hv⟩).1 ?_⟩
    split at hres
    · obtain ⟨-, rfl⟩ := Prod.mk.inj (Option.some.inj hres)
      exact absurd htop.symm hmoved
    · exact congrArg Prod.fst ‹_›
  · intro hroom
    have hnull := (null_mem_pagesFrom hroom.aligned hcount.2).2
      ⟨hroom.nonnull, by rw [hcount.1]; exact hroom.noWrap⟩
    have hend := (hloop hroom.window fun v hv =>
      ⟨fun he => hnull (he ▸ hv), aligned_of_mem_pagesFrom hroom.aligned hv⟩).2 hroom.supplied
    rw [HeapState.sbrk_eq hroom.initialized hpos, if_neg hroom.window]
    rcases hres : mapPages env h.top (Kernel.alignUp increment pageSize / pageSize).toNat 0
      h.machine with ⟨code, m⟩
    rw [hres] at hend
    simp only at hend
    subst hend
    exact ⟨_, rfl, rfl⟩

end Sbrk

/-! ## The failure half of the contract -/

/-- `MORECORE_FAILURE`. -/
def morecoreFailure : Word := -1

/-- `sbrk` extends the break and returns the old one, or leaves it and returns
`MORECORE_FAILURE`. -/
def MeetsMorecore (env : Env) (h : HeapState) (increment : Word) : Prop :=
  ∃ r h', h.sbrk env increment = some (r, h') ∧
    (r = h.top ∧ h'.top = h.top + Kernel.alignUp increment pageSize ∨
      r = morecoreFailure ∧ h'.top = h.top)

/-- There is nothing to extend and a break to return, or there is room. -/
def Answered (env : Env) (root : Frame) (h : HeapState) (increment : Word) : Prop :=
  (increment = 0 ∧ (h.isInitialized = true ∨ h.top = 0)) ∨
    (0 < increment.toInt ∧ Room env root h increment)

theorem meetsMorecore_iff {env : Env} {root : Frame} {h : HeapState} {increment : Word}
    (hframes : FreshFrames env.frames) (hcr3 : env.cr3 = root.val)
    (hgrow : Growable env root h) (hsign : 0 ≤ increment.toInt) :
    MeetsMorecore env h increment ↔ Answered env root h increment := by
  by_cases hzero : increment = 0
  · subst hzero
    obtain ⟨h', hres, htop, -⟩ := h.sbrk_zero env
    have hstay : h.top + Kernel.alignUp 0 pageSize = h.top := by
      have hnone : Kernel.alignUp 0 pageSize = 0 := by decide
      rw [hnone]
      simp
    have hanswered : Answered env root h 0 ↔ h.isInitialized = true ∨ h.top = 0 := by
      simp [Answered]
    rw [hanswered]
    constructor
    · rintro ⟨r, h₁, hres₁, hcases⟩
      obtain ⟨rfl, rfl⟩ := Prod.mk.inj (Option.some.inj (hres.symm.trans hres₁))
      by_cases hinit : h.isInitialized = true
      · exact Or.inl hinit
      · rw [if_neg hinit] at hcases
        rcases hcases with ⟨hr, -⟩ | ⟨hr, -⟩
        · exact Or.inr hr.symm
        · exact absurd hr (by decide)
    · intro hbreak
      refine ⟨_, h', hres, Or.inl ⟨?_, htop.trans hstay.symm⟩⟩
      split_ifs with hinit
      · rfl
      · exact (hbreak.resolve_left hinit).symm
  · have hpos : 0 < increment.toInt := by
      have hne : increment.toInt ≠ 0 := fun he => hzero (BitVec.eq_of_toInt_eq he)
      omega
    have hanswered : Answered env root h increment ↔ Room env root h increment := by
      unfold Answered
      rw [or_iff_right fun hnone => hzero hnone.1, and_iff_right hpos]
    rw [hanswered, ← HeapState.sbrk_extends_iff hframes hcr3 hgrow hpos]
    constructor
    · rintro ⟨r, h', hres, ⟨rfl, htop⟩ | ⟨hr, htop⟩⟩
      · exact ⟨h', hres, htop⟩
      · obtain ⟨r', h₁, hres₁, -, ⟨hr', -⟩ | ⟨-, -, htop', -⟩⟩ :=
          HeapState.sbrk_answer (h := h) hcr3 hpos
        · obtain ⟨rfl, -⟩ := Prod.mk.inj (Option.some.inj (hres.symm.trans hres₁))
          rw [hr] at hr'
          exact absurd hr' (by decide)
        · -- the break has not moved, and it has
          obtain ⟨-, rfl⟩ := Prod.mk.inj (Option.some.inj (hres.symm.trans hres₁))
          have hsize := toNat_alignedIncrement hpos
          rw [htop] at htop'
          bv_omega
    · rintro ⟨h', hres, htop⟩
      exact ⟨_, h', hres, Or.inl ⟨rfl, htop⟩⟩

end UnnamedKernel.Mm.Heap
