import UnnamedKernel.Lib.Run
import UnnamedKernel.Mm.Heap.Model
import UnnamedKernel.Mm.Vmm.Entries

/-!
# The break and its window

`sbrk` compares `heap_top + aligned_increment` with the end of the window, modulo
`2 ^ 64`. A sum that wraps passes the comparison although the pages run past the end.
-/

namespace UnnamedKernel.Mm.Heap

open UnnamedKernel.Lib UnnamedKernel.Kernel Vmm

/-- The pages that `mapPages` passes to `map_virtual`, in order. -/
def mappedPages (env : Env) (base : Word) : Nat → Word → Machine → List Word
  | 0, _, _ => []
  | count + 1, i, m =>
      let (page, m) := m.allocPage env.frames
      if page = 0 then []
      else
        let (result, m) := mapVirtual env.frames env.slide (env.cr3 + env.slide)
          (base + i * pageSize) page (MapFlags.read ||| MapFlags.write) m
        (base + i * pageSize) :: if result then mappedPages env base count (i + 1) m else []

/-- The pages that `sbrk` passes to `map_virtual`. -/
def HeapState.sbrkPages (env : Env) (h : HeapState) (increment : Word) : List Word :=
  if ¬ h.isInitialized ∨ increment = 0 ∨ increment.slt 0 then []
  else
    let alignedIncrement := Kernel.alignUp increment pageSize
    if h.heapBase + h.heapSize < h.top + alignedIncrement then []
    else mappedPages env h.top (alignedIncrement / pageSize).toNat 0 h.machine

/-- The page at `v` lies in `[base, base + size)`. -/
def PageWithin (base size v : Word) : Prop :=
  base.toNat ≤ v.toNat ∧ v.toNat + 4096 ≤ base.toNat + size.toNat

/-- The break lies in `[base, base + size]`, whose end may be `2 ^ 64`. -/
def BreakWithin (base size top : Word) : Prop :=
  (base.toNat ≤ top.toNat ∧ top.toNat ≤ base.toNat + size.toNat) ∨
    (top = 0 ∧ base.toNat + size.toNat = 2 ^ 64)

/-- The request is refused, or fits without wrapping, or `map_virtual` refuses its first page,
which is in the window. -/
def Confined (base size top increment : Word) : Prop :=
  base + size < top + Kernel.alignUp increment pageSize ∨
    top.toNat + (Kernel.alignUp increment pageSize).toNat ≤ base.toNat + size.toNat ∨
    (top.toNat % 4096 ≠ 0 ∧ top.toNat + 4096 ≤ base.toNat + size.toNat)

instance (base size top increment : Word) : Decidable (Confined base size top increment) :=
  inferInstanceAs (Decidable (_ ∨ _ ∨ _))

theorem toNat_lt_of_toInt_pos {w : Word} (h : 0 < w.toInt) :
    w ≠ 0 ∧ w.slt 0 = false ∧ 0 < w.toNat ∧ w.toNat < 2 ^ 63 := by
  have hlt : w.toNat < 2 ^ 63 := by
    rw [BitVec.toInt_eq_toNat_cond] at h
    split_ifs at h <;> omega
  have hne : w ≠ 0 := by
    rintro rfl
    simp at h
  refine ⟨hne, ?_, by bv_omega, hlt⟩
  rw [BitVec.slt_eq_decide, decide_eq_false_iff_not]
  simp
  omega

theorem toInt_pos {w : Word} (hne : w ≠ 0) (hslt : ¬ w.slt 0 = true) : 0 < w.toInt := by
  rw [BitVec.slt_eq_decide, decide_eq_true_eq] at hslt
  have hzero : w.toInt ≠ 0 := fun he => hne (BitVec.eq_of_toInt_eq he)
  have : (0 : Word).toInt = 0 := rfl
  omega

theorem toNat_alignedIncrement {increment : Word} (h : 0 < increment.toInt) :
    (Kernel.alignUp increment pageSize).toNat % 4096 = 0 ∧
      0 < (Kernel.alignUp increment pageSize).toNat ∧
      (Kernel.alignUp increment pageSize).toNat ≤ 2 ^ 63 := by
  obtain ⟨-, -, hpos, hlt⟩ := toNat_lt_of_toInt_pos h
  rw [alignUp_eq_roundUp, toNat_roundUp increment isPow2_pageSize (by rw [toNat_pageSize]; omega),
    toNat_pageSize]
  have hle := le_ceilTo increment.toNat (show 0 < 4096 by decide)
  have hdvd := dvd_ceilTo increment.toNat 4096
  have hup := ceilTo_le (show 0 < 4096 by decide) (show 4096 ∣ 2 ^ 63 by decide) hlt.le
  omega

section Pages

variable {env : Env} {base v : Word}

theorem mapVirtual_misaligned {frames : FrameAnswers} {slide root virt phys : Word}
    {flags : MapFlags} {s : Machine} (h : virt.toNat % 4096 ≠ 0) :
    (mapVirtual frames slide root virt phys flags s).1 = false := by
  have hcheck : ¬ checkAligned virt pageSize = true :=
    fun hc => h ((checkAligned_pageSize virt).1 hc)
  unfold mapVirtual
  rw [if_pos (Or.inr hcheck)]

theorem mem_mappedPages {count : Nat} {i : Word} {m : Machine}
    (h : v ∈ mappedPages env base count i m) :
    ∃ j < count, v = base + (i + BitVec.ofNat 64 j) * pageSize := by
  induction count generalizing i m with
  | zero => simp [mappedPages] at h
  | succ count ih =>
      rw [mappedPages] at h
      simp only at h
      split_ifs at h
      · simp at h
      · rcases List.mem_cons.1 h with rfl | h
        · exact ⟨0, by omega, by simp⟩
        · obtain ⟨j, hj, rfl⟩ := ih h
          refine ⟨j + 1, by omega, ?_⟩
          rw [show i + 1 + BitVec.ofNat 64 j = i + BitVec.ofNat 64 (j + 1) by bv_omega]
      · rw [List.mem_singleton] at h
        exact ⟨0, by omega, by simpa using h⟩

theorem head_mem_mappedPages (i : Word) (m : Machine) {count : Nat} (hcount : 0 < count)
    (hframe : env.frames m.taken ≠ 0) : base + i * pageSize ∈ mappedPages env base count i m := by
  obtain ⟨count, rfl⟩ := Nat.exists_eq_succ_of_ne_zero hcount.ne'
  have hcall : ¬ (m.allocPage env.frames).1 = 0 := hframe
  rw [mappedPages]
  simp only [if_neg hcall]
  exact List.mem_cons_self ..

/-- From a misaligned break on, the loop does not get past its first page. -/
theorem mem_mappedPages_misaligned {count : Nat} {m : Machine} (hbase : base.toNat % 4096 ≠ 0)
    (h : v ∈ mappedPages env base count 0 m) : v = base := by
  cases count with
  | zero => simp [mappedPages] at h
  | succ count =>
      have hzero : base + 0 * pageSize = base := by simp
      rw [mappedPages, hzero] at h
      simp only [mapVirtual_misaligned hbase, Bool.false_eq_true, if_false] at h
      split_ifs at h
      · simp at h
      · exact List.mem_singleton.1 h

end Pages

/-! ## Tables that let every mapping through -/

/-- Every aligned word is an entry that is present and points past the null frame. -/
def Open (m : Mem) : Prop :=
  ∀ x : Word, x.toNat % 8 = 0 →
    m.read64 x &&& PageBits.present ≠ 0 ∧ m.read64 x &&& ppnMask ≠ 0

/-- Frames of one address, no slide, and the root table at that address too. -/
def openEnv : Env := ⟨fun _ => 0x1000, fun _ => true, 0, 0x1000⟩

theorem Open.write64 {m : Mem} (h : Open m) {x e : Word} (hx : x.toNat % 8 = 0)
    (he : e &&& PageBits.present ≠ 0 ∧ e &&& ppnMask ≠ 0) : Open (m.write64 x e) := by
  intro y hy
  by_cases hxy : y = x
  · rw [hxy, Mem.read64_write64_same]
    exact he
  · rw [Mem.read64_write64_apart m e (by unfold Mem.Apart; bv_omega)]
    exact h y hy

theorem Open.ensureTable {s : Machine} (h : Open s.mem) (frames : FrameAnswers) {x : Word}
    (hx : x.toNat % 8 = 0) : ∃ table, Vmm.ensureTable frames 0 x s = (table, s) ∧ table ≠ 0 ∧
      table.toNat % 4096 = 0 := by
  obtain ⟨hpresent, hframe⟩ := h x hx
  refine ⟨(s.mem.read64 x &&& ppnMask) + 0, if_neg hpresent, by simpa using hframe, ?_⟩
  have := (frameOf (s.mem.read64 x)).toNat_mod
  simpa [frameOf] using this

theorem toNat_entryPtr_mod {table : Word} (i : Word) (h : table.toNat % 4096 = 0) :
    (entryPtr table (i &&& 0x1ff)).toNat % 8 = 0 := by
  unfold entryPtr
  bv_omega

theorem Open.mapVirtual {s : Machine} (h : Open s.mem) {virt : Word} (hvirt : virt ≠ 0)
    (haligned : virt.toNat % 4096 = 0) :
    (Vmm.mapVirtual openEnv.frames 0 0x1000 virt 0x1000 (MapFlags.read ||| MapFlags.write) s).1 =
        true ∧
      Open (Vmm.mapVirtual openEnv.frames 0 0x1000 virt 0x1000
        (MapFlags.read ||| MapFlags.write) s).2.mem := by
  have hcheck := (checkAligned_pageSize virt).2 haligned
  obtain ⟨pdpt, h₃, hne₃, hmod₃⟩ := h.ensureTable openEnv.frames
    (toNat_entryPtr_mod (virt >>> 39) (by decide : (0x1000 : Word).toNat % 4096 = 0))
  obtain ⟨pd, h₂, hne₂, hmod₂⟩ := h.ensureTable openEnv.frames
    (toNat_entryPtr_mod (virt >>> 30) hmod₃)
  obtain ⟨pt, h₁, hne₁, hmod₁⟩ := h.ensureTable openEnv.frames
    (toNat_entryPtr_mod (virt >>> 21) hmod₂)
  have hcond : ¬ (virt = 0 ∨ ¬ checkAligned virt pageSize = true) :=
    not_or.2 ⟨hvirt, not_not.2 hcheck⟩
  unfold Vmm.mapVirtual
  simp only [if_neg hcond, h₃, h₂, h₁, if_neg hne₃, if_neg hne₂, if_neg hne₁]
  rw [if_neg (by decide), if_neg (by decide)]
  refine ⟨rfl, h.write64 (toNat_entryPtr_mod (virt >>> 12) hmod₁) ?_⟩
  decide

theorem Open.mem_mappedPages {base : Word} {count j : Nat} (hj : j < count) {i : Word} {m : Machine}
    (h : Open m.mem) (hpages : ∀ k < j, base + (i + BitVec.ofNat 64 k) * pageSize ≠ 0 ∧
      (base + (i + BitVec.ofNat 64 k) * pageSize).toNat % 4096 = 0) :
    base + (i + BitVec.ofNat 64 j) * pageSize ∈ mappedPages openEnv base count i m := by
  induction count generalizing i m j with
  | zero => omega
  | succ count ih =>
      have hframe : openEnv.frames m.taken = 0x1000 := rfl
      have hroot : openEnv.cr3 + openEnv.slide = 0x1000 := by decide
      have hslide : openEnv.slide = 0 := rfl
      rw [mappedPages, hroot, hslide]
      simp only [Machine.allocPage, hframe]
      rw [if_neg (by decide)]
      cases j with
      | zero => simp
      | succ j =>
          obtain ⟨hne, haligned⟩ := hpages 0 (by omega)
          have hzero : i + BitVec.ofNat 64 0 = i := by simp
          rw [hzero] at hne haligned
          obtain ⟨hres, hopen⟩ :=
            Open.mapVirtual (s := { m with taken := m.taken + 1 }) h hne haligned
          have hnext : ∀ k, i + 1 + BitVec.ofNat 64 k = i + BitVec.ofNat 64 (k + 1) := fun k => by
            bv_omega
          have hrest := ih (j := j) (by omega) hopen (i := i + 1) fun k hk => by
            rw [hnext]
            exact hpages (k + 1) (by omega)
          rw [hnext] at hrest
          refine List.mem_cons_of_mem _ ?_
          rw [if_pos hres]
          exact hrest

/-! ## One call -/

section Call

variable {base size top increment : Word}

theorem sbrkPages_eq (env : Env) (heap : HeapState) (hinit : heap.isInitialized = true)
    (hpos : 0 < increment.toInt)
    (htest : ¬ heap.heapBase + heap.heapSize < heap.top + Kernel.alignUp increment pageSize) :
    heap.sbrkPages env increment = mappedPages env heap.top
      (Kernel.alignUp increment pageSize / pageSize).toNat 0 heap.machine := by
  obtain ⟨hzero, hslt, -, -⟩ := toNat_lt_of_toInt_pos hpos
  unfold HeapState.sbrkPages
  rw [if_neg (not_or.2 ⟨not_not.2 hinit, not_or.2 ⟨hzero, by rw [hslt]; decide⟩⟩)]
  exact if_neg htest

theorem Confined.pageWithin (h : Confined base size top increment)
    (hsum : base.toNat + size.toNat ≤ 2 ^ 64) (htop : BreakWithin base size top)
    (hpos : 0 < increment.toInt) (env : Env) (heap : HeapState) (hbase : heap.heapBase = base)
    (hsize : heap.heapSize = size) (hbreak : heap.top = top) {v : Word}
    (hv : v ∈ heap.sbrkPages env increment) : PageWithin base size v := by
  obtain ⟨hmod, hne, hle⟩ := toNat_alignedIncrement hpos
  unfold HeapState.sbrkPages at hv
  rw [hbase, hsize, hbreak] at hv
  simp only at hv
  split_ifs at hv with hidle hrefused
  · simp at hv
  · simp at hv
  obtain ⟨j, hj, hvj⟩ := mem_mappedPages hv
  rw [BitVec.toNat_udiv, toNat_pageSize] at hj
  have hvNat : v = top + BitVec.ofNat 64 (j * 4096) := by
    rw [hvj]
    unfold pageSize
    bv_omega
  rcases h with hlt | hfits | ⟨hmis, hroom⟩
  · exact absurd hlt hrefused
  · rcases htop with ⟨hlo, hhi⟩ | ⟨rfl, hend⟩
    · unfold PageWithin
      bv_omega
    · -- the break is at the end of the address space
      refine absurd ?_ hrefused
      bv_omega
  · obtain rfl := mem_mappedPages_misaligned hmis hv
    rcases htop with ⟨hlo, hhi⟩ | ⟨rfl, hend⟩
    · exact ⟨hlo, hroom⟩
    · exact absurd rfl hmis

/-- A call that is not confined may pass a page outside of the window. -/
theorem exists_page_outside (h : ¬ Confined base size top increment)
    (hsum : base.toNat + size.toNat ≤ 2 ^ 64) (htop : BreakWithin base size top)
    (hpos : 0 < increment.toInt) {heap : HeapState} (hinit : heap.isInitialized = true)
    (hbase : heap.heapBase = base) (hsize : heap.heapSize = size) (hbreak : heap.top = top) :
    ∃ v ∈ { heap with machine := { mem := fun _ => 0xff } }.sbrkPages openEnv increment,
      ¬ PageWithin base size v := by
  obtain ⟨hmod, hne, hle⟩ := toNat_alignedIncrement hpos
  unfold Confined at h
  simp only [not_or, not_and_or] at h
  obtain ⟨hpassed, hover, halign⟩ := h
  have hcount : (Kernel.alignUp increment pageSize / pageSize).toNat =
      (Kernel.alignUp increment pageSize).toNat / 4096 := by
    rw [BitVec.toNat_udiv, toNat_pageSize]
  have hpages : { heap with machine := { mem := fun _ => 0xff } }.sbrkPages openEnv increment =
      mappedPages openEnv top (Kernel.alignUp increment pageSize / pageSize).toNat 0
        { mem := fun _ => 0xff } := by
    subst hbase hsize hbreak
    exact sbrkPages_eq openEnv { heap with machine := _ } hinit hpos hpassed
  have hopen : Open fun _ => 0xff := fun x _ => by
    simp only [Mem.read64]
    decide
  -- the sum wraps, and the window ends before the address space
  have hwrap : 2 ^ 64 ≤ top.toNat + (Kernel.alignUp increment pageSize).toNat ∧
      base.toNat + size.toNat < 2 ^ 64 := by
    rw [BitVec.lt_def, BitVec.toNat_add, BitVec.toNat_add] at hpassed
    have := top.isLt
    omega
  obtain ⟨hlo, hhi⟩ : base.toNat ≤ top.toNat ∧ top.toNat ≤ base.toNat + size.toNat :=
    htop.resolve_right fun hend => by omega
  obtain ⟨j, hjdef⟩ : ∃ j, j = (base.toNat + size.toNat - top.toNat) / 4096 := ⟨_, rfl⟩
  have hpage : ∀ k ≤ j, (top + (0 + BitVec.ofNat 64 k) * pageSize).toNat =
      top.toNat + k * 4096 := by
    intro k hk
    unfold pageSize
    bv_omega
  refine ⟨top + (0 + BitVec.ofNat 64 j) * pageSize, ?_, ?_⟩
  · rw [hpages]
    refine Open.mem_mappedPages (by rw [hcount]; omega) hopen fun k hk => ?_
    have hk' := hpage k hk.le
    have haligned : top.toNat % 4096 = 0 := by omega
    refine ⟨fun he => ?_, by omega⟩
    rw [he] at hk'
    have hz : (0 : Word).toNat = 0 := rfl
    omega
  · unfold PageWithin
    rw [hpage j le_rfl]
    omega

end Call

/-! ## Runs -/

/-- A call that grows the heap. -/
inductive HeapCall where
  | mmap (length : Word) (flags : BitVec 32)
  | sbrk (increment : Word)

/-- The heap and the pages that `sbrk` has passed to `map_virtual`. -/
structure Growth where
  heap : HeapState
  passed : List Word

namespace Growth

def step (env : Env) (s : Growth) : HeapCall → Option Growth
  | .mmap length flags => do
      let (_, h) ← s.heap.mmap env length flags
      some ⟨h, s.passed⟩
  | .sbrk increment => do
      let (_, h) ← s.heap.sbrk env increment
      some ⟨h, s.passed ++ s.heap.sbrkPages env increment⟩

/-- The positive increments are confined. -/
def Legal (s : Growth) : HeapCall → Prop
  | .mmap _ _ => True
  | .sbrk increment =>
      0 < increment.toInt → Confined s.heap.heapBase s.heap.heapSize s.heap.top increment

end Growth

/-- The window of `sbrk` as it was set up, and the break in it. -/
structure Bounded (base size : Word) (s : Growth) : Prop where
  initialized : s.heap.isInitialized = true
  heapBase : s.heap.heapBase = base
  heapSize : s.heap.heapSize = size
  top : BreakWithin base size s.heap.top
  passed : ∀ v ∈ s.passed, PageWithin base size v

/-- `h'` differs from `h` in what `mmap` works on only. -/
structure SameBreak (h h' : HeapState) : Prop where
  initialized : h'.isInitialized = h.isInitialized
  heapBase : h'.heapBase = h.heapBase
  heapSize : h'.heapSize = h.heapSize
  heapTop : h'.heapTop = h.heapTop

theorem sameBreak_allocate {env : Env} {h h' : HeapState} {length : Word} {r : Option Word}
    (hres : h.allocateVirtualMemory env length = some (r, h')) : SameBreak h h' := by
  unfold HeapState.allocateVirtualMemory at hres
  split_ifs at hres
  · obtain ⟨⟨r', a⟩, -, hres⟩ := Option.bind_eq_some_iff.1 hres
    obtain ⟨-, rfl⟩ := Prod.mk.inj (Option.some.inj hres)
    exact ⟨rfl, rfl, rfl, rfl⟩
  · obtain ⟨-, rfl⟩ := Prod.mk.inj (Option.some.inj hres)
    exact ⟨rfl, rfl, rfl, rfl⟩

theorem sameBreak_deallocate {env : Env} {h h' : HeapState} {address length : Word}
    (hres : h.deallocateVirtualMemory env address length = some h') : SameBreak h h' := by
  obtain ⟨⟨b, a⟩, -, hres⟩ := Option.bind_eq_some_iff.1 hres
  obtain rfl := Option.some.inj hres
  exact ⟨rfl, rfl, rfl, rfl⟩

theorem sameBreak_mmap {env : Env} {h h' : HeapState} {length r : Word} {flags : BitVec 32}
    (hres : h.mmap env length flags = some (r, h')) : SameBreak h h' := by
  unfold HeapState.mmap at hres
  split_ifs at hres
  · obtain ⟨-, rfl⟩ := Prod.mk.inj (Option.some.inj hres)
    exact ⟨rfl, rfl, rfl, rfl⟩
  · obtain ⟨-, rfl⟩ := Prod.mk.inj (Option.some.inj hres)
    exact ⟨rfl, rfl, rfl, rfl⟩
  · obtain ⟨⟨base, h₁⟩, halloc, hres⟩ := Option.bind_eq_some_iff.1 hres
    have hsame := sameBreak_allocate halloc
    cases base with
    | none =>
        obtain ⟨-, rfl⟩ := Prod.mk.inj (Option.some.inj hres)
        exact hsame
    | some base =>
        obtain ⟨hinit, hbase, hsize, htop⟩ := hsame
        simp only at hres
        split at hres
        · obtain ⟨-, rfl⟩ := Prod.mk.inj (Option.some.inj hres)
          exact ⟨hinit, hbase, hsize, htop⟩
        · obtain ⟨h₂, hdealloc, hres⟩ := Option.bind_eq_some_iff.1 hres
          obtain ⟨-, rfl⟩ := Prod.mk.inj (Option.some.inj hres)
          obtain ⟨hinit', hbase', hsize', htop'⟩ := sameBreak_deallocate hdealloc
          exact ⟨hinit'.trans hinit, hbase'.trans hbase, hsize'.trans hsize, htop'.trans htop⟩
        · obtain ⟨-, rfl⟩ := Prod.mk.inj (Option.some.inj hres)
          exact ⟨hinit, hbase, hsize, htop⟩

theorem mapPages_misaligned {env : Env} {base : Word} {count : Nat} {m m' : Machine}
    (hbase : base.toNat % 4096 ≠ 0) (hcount : 0 < count) :
    mapPages env base count 0 m ≠ (none, m') := by
  obtain ⟨count, rfl⟩ := Nat.exists_eq_succ_of_ne_zero hcount.ne'
  have hzero : base + 0 * pageSize = base := by simp
  rw [mapPages, hzero]
  simp only [mapVirtual_misaligned hbase, Bool.false_eq_true, if_false]
  split_ifs <;> simp

/-- What `sbrk` does to the break: nothing, or it passes the test and moves it. -/
theorem sbrk_cases {env : Env} {h h' : HeapState} {increment r : Word}
    (hres : h.sbrk env increment = some (r, h')) :
    (h'.isInitialized = h.isInitialized ∧ h'.heapBase = h.heapBase ∧ h'.heapSize = h.heapSize) ∧
      (h'.top = h.top ∨ h.isInitialized = true ∧ 0 < increment.toInt ∧
        h'.top = h.top + Kernel.alignUp increment pageSize ∧
        ¬ h.heapBase + h.heapSize < h.top + Kernel.alignUp increment pageSize ∧
        ∃ m', mapPages env h.top (Kernel.alignUp increment pageSize / pageSize).toNat 0 h.machine =
          (none, m')) := by
  unfold HeapState.sbrk at hres
  simp only at hres
  split_ifs at hres with hinit hzero hslt hpassed
  · obtain ⟨-, rfl⟩ := Prod.mk.inj (Option.some.inj hres)
    exact ⟨⟨rfl, rfl, rfl⟩, Or.inl rfl⟩
  · obtain ⟨-, rfl⟩ := Prod.mk.inj (Option.some.inj hres)
    exact ⟨⟨rfl, rfl, rfl⟩, Or.inl rfl⟩
  · split at hres <;> rename_i hloop
    · obtain ⟨-, rfl⟩ := Prod.mk.inj (Option.some.inj hres)
      exact ⟨⟨rfl, rfl, rfl⟩, Or.inl rfl⟩
    · obtain ⟨-, rfl⟩ := Prod.mk.inj (Option.some.inj hres)
      exact ⟨⟨rfl, rfl, rfl⟩, Or.inr ⟨hinit, toInt_pos hzero hslt, rfl, hpassed, _, hloop⟩⟩
  · obtain ⟨-, rfl⟩ := Prod.mk.inj (Option.some.inj hres)
    exact ⟨⟨rfl, rfl, rfl⟩, Or.inl rfl⟩

namespace Bounded

variable {base size : Word} {s s' : Growth}

theorem sbrk (h : Bounded base size s) (hsum : base.toNat + size.toNat ≤ 2 ^ 64) {env : Env}
    {increment : Word} (hlegal : s.Legal (.sbrk increment))
    (hres : s.step env (.sbrk increment) = some s') : Bounded base size s' := by
  obtain ⟨⟨r, heap⟩, hcall, hres⟩ := Option.bind_eq_some_iff.1 hres
  obtain rfl := Option.some.inj hres
  obtain ⟨⟨hinit, hbase, hsize⟩, htop⟩ := sbrk_cases hcall
  have hpassed : ∀ v ∈ s.passed ++ s.heap.sbrkPages env increment, PageWithin base size v := by
    intro v hv
    rcases List.mem_append.1 hv with hv | hv
    · exact h.passed v hv
    · by_cases hpos : 0 < increment.toInt
      · have hconfined := hlegal hpos
        rw [h.heapBase, h.heapSize] at hconfined
        exact hconfined.pageWithin hsum h.top hpos env s.heap h.heapBase h.heapSize rfl hv
      · -- an increment that is not positive maps nothing
        unfold HeapState.sbrkPages at hv
        have hstop : increment = 0 ∨ increment.slt 0 = true := by
          by_contra hno
          rw [not_or] at hno
          exact hpos (toInt_pos hno.1 hno.2)
        rw [if_pos (Or.inr hstop)] at hv
        simp at hv
  refine ⟨hinit.trans h.initialized, hbase.trans h.heapBase, hsize.trans h.heapSize, ?_, hpassed⟩
  rcases htop with htop | ⟨-, hpos, htop, htest, m', hloop⟩
  · rw [htop]
    exact h.top
  have hconfined := hlegal hpos
  obtain ⟨hmod, hne, hle⟩ := toNat_alignedIncrement hpos
  rw [h.heapBase, h.heapSize] at hconfined htest
  rw [htop]
  rcases hconfined with hlt | hfits | ⟨hmis, -⟩
  · exact absurd hlt htest
  · rcases h.top with ⟨hlo, hhi⟩ | ⟨hzero, hend⟩
    · unfold BreakWithin
      bv_omega
    · rw [hzero] at htest
      refine absurd ?_ htest
      bv_omega
  · refine absurd hloop (mapPages_misaligned hmis ?_)
    rw [BitVec.toNat_udiv, toNat_pageSize]
    omega

theorem step (h : Bounded base size s) (hsum : base.toNat + size.toNat ≤ 2 ^ 64) {env : Env}
    {c : HeapCall} (hlegal : s.Legal c) (hres : s.step env c = some s') : Bounded base size s' := by
  cases c with
  | sbrk increment => exact h.sbrk hsum hlegal hres
  | mmap length flags =>
      obtain ⟨⟨r, heap⟩, hcall, hres⟩ := Option.bind_eq_some_iff.1 hres
      obtain rfl := Option.some.inj hres
      obtain ⟨hinit, hbase, hsize, htop⟩ := sameBreak_mmap hcall
      have hsame : heap.top = s.heap.top := by rw [HeapState.top, HeapState.top, htop, hbase]
      exact ⟨hinit.trans h.initialized, hbase.trans h.heapBase, hsize.trans h.heapSize,
        hsame ▸ h.top, h.passed⟩

end Bounded

/-- In every run of confined calls from a break in the window, the break stays in the window, all
pages that `sbrk` passes to `map_virtual` lie in it, and the next positive increment passes such
pages only, whatever the frames and tables are, just if it is confined. -/
theorem sbrk_run_within {base size : Word} (hsum : base.toNat + size.toNat ≤ 2 ^ 64) (env : Env)
    {h : HeapState} (hinit : h.isInitialized = true) (hbase : h.heapBase = base)
    (hsize : h.heapSize = size) (htop : BreakWithin base size h.top) (calls : List HeapCall)
    (hlegal : LegalRun (Growth.step env) (fun s c => s.Legal c) ⟨h, []⟩ calls) {s : Growth}
    (hrun : Lib.run (Growth.step env) ⟨h, []⟩ calls = some s) :
    BreakWithin base size s.heap.top ∧ (∀ v ∈ s.passed, PageWithin base size v) ∧
      ∀ increment : Word, 0 < increment.toInt →
        ((∀ env' m, ∀ v ∈ { s.heap with machine := m }.sbrkPages env' increment,
          PageWithin base size v) ↔ Confined base size s.heap.top increment) := by
  have hs : Bounded base size s := legalRun_preserves
    (fun _ _ _ h hlegal hres => Bounded.step h hsum hlegal hres)
    (⟨hinit, hbase, hsize, htop, by simp⟩ : Bounded base size ⟨h, []⟩) hlegal hrun
  refine ⟨hs.top, hs.passed, fun increment hpos =>
    ⟨fun hall => ?_, fun hconfined env' m v hv => ?_⟩⟩
  · by_contra hesc
    obtain ⟨v, hv, hout⟩ := exists_page_outside hesc hsum hs.top hpos hs.initialized hs.heapBase
      hs.heapSize rfl
    exact hout (hall _ _ v hv)
  · exact hconfined.pageWithin hsum hs.top hpos env' { s.heap with machine := m } hs.heapBase
      hs.heapSize rfl hv

theorem sbrk_run_within_two_pages :
    ∃ s, Lib.run (Growth.step openEnv)
        ⟨{ allocator := {}, machine := { mem := fun _ => 0xff }, isInitialized := true,
           heapBase := 0xffff800040000000, heapSize := 0x2000000 }, []⟩ [.sbrk 0x2000] = some s ∧
      BreakWithin 0xffff800040000000 0x2000000 s.heap.top ∧
      (∀ v ∈ s.passed, PageWithin 0xffff800040000000 0x2000000 v) ∧
      ∀ increment : Word, 0 < increment.toInt →
        ((∀ env' m, ∀ v ∈ { s.heap with machine := m }.sbrkPages env' increment,
          PageWithin 0xffff800040000000 0x2000000 v) ↔
            Confined 0xffff800040000000 0x2000000 s.heap.top increment) := by
  obtain ⟨s, hs⟩ : ∃ s, Lib.run (Growth.step openEnv)
      ⟨{ allocator := {}, machine := { mem := fun _ => 0xff }, isInitialized := true,
         heapBase := 0xffff800040000000, heapSize := 0x2000000 }, []⟩ [.sbrk 0x2000] = some s :=
    ⟨_, rfl⟩
  refine ⟨s, hs, sbrk_run_within (by decide) openEnv rfl rfl rfl (Or.inl (by decide))
    [.sbrk 0x2000] ?_ hs⟩
  exact ⟨fun _ => by decide, fun _ _ => trivial⟩

/-- With the window exhausted, an increment that takes the break to `2 ^ 64` passes the test, and
the page behind the window goes to `map_virtual`. -/
theorem page_behind_window :
    ∃ h : HeapState, h.isInitialized = true ∧ BreakWithin h.heapBase h.heapSize h.top ∧
      (0 : Int) < (0x7fffbe000000 : Word).toInt ∧
      ∃ v ∈ h.sbrkPages ⟨fun _ => 0x5000, fun _ => true, 0xffff800000000000, 0x1000⟩
          0x7fffbe000000,
        ¬ PageWithin h.heapBase h.heapSize v := by
  refine ⟨{ allocator := {}, machine := { mem := fun _ => 0 }, isInitialized := true,
            heapBase := 0xffff800040000000, heapSize := 0x2000000,
            heapTop := some 0xffff800042000000 },
    rfl, Or.inl (by decide), by decide, 0xffff800042000000 + 0 * pageSize, ?_,
    by unfold PageWithin; decide⟩
  rw [sbrkPages_eq _ _ rfl (by decide) (by decide)]
  exact head_mem_mappedPages _ _ (by decide) (by decide)

end UnnamedKernel.Mm.Heap
