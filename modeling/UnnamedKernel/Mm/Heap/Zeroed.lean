import UnnamedKernel.Mm.Heap.Private
import UnnamedKernel.Mm.Heap.Sysmalloc
import UnnamedKernel.Mm.Vmm.LargePages

/-!
# What the pages of `mmap` hold

Neither `alloc_page` nor `map_virtual` nor `mmap` clears the frame of a page: a page of a region
reads what its frame held when `mmap` was called.
-/

namespace UnnamedKernel.Mm.Heap

open UnnamedKernel.Lib UnnamedKernel.Kernel Vma Vmm RadixTree

/-- The byte that the processor reads at `x`, `none` when the page is not present. -/
def readByte (m : Mem) (slide : Word) (root : Frame) (x : Word) : Option (BitVec 8) :=
  (walk m slide root x).map fun mp => m (mp.phys + slide + (x &&& (pageSize - 1)))

/-- The call of `alloc_page` for the page `j` behind page `i` of the loop: there is one before for
each page in front of it, and for each table that is missing on the way to one of them. -/
def dataIndex (env : Env) (root : Frame) (m : Machine) (base i : Word) (j : Nat) : Nat :=
  m.taken + framesNeeded (hasTable env.slide root m) (pagesFrom base j i)

/-- The frame that `mmap` maps page `j` to. -/
def dataFrame (env : Env) (root : Frame) (m : Machine) (base : Word) (j : Nat) : Word :=
  env.frames (dataIndex env root m base 0 j)

/-- The frames that `mmap` maps its pages to hold nothing but zeros. -/
def ZeroFrames (env : Env) (root : Frame) (h : HeapState) (length : Word) : Prop :=
  ∀ base h₁, h.allocateVirtualMemory env (Kernel.alignUp length pageSize) = some (some base, h₁) →
    ∀ j < (Kernel.alignUp length pageSize / pageSize).toNat, ∀ x,
      Mem.InRange (dataFrame env root h.machine base j + env.slide) 0x1000 x →
        h.machine.mem x = 0

/-! ## Frames of data -/

section Frames

variable {frames : FrameAnswers} {slide : Word} {root u : Frame} {s : Machine} {virt : Word}
  {k : Nat} {x : Word}

theorem frame_eq_of_inRange {f : Word} (hmod : f.toNat % 4096 = 0) (hlt : f.toNat < 2 ^ 52)
    (hu : Mem.InRange (u.val + slide) 0x1000 x) (hf : Mem.InRange (f + slide) 0x1000 x) :
    f = u.val := by
  have hum := u.toNat_mod
  have hult := u.toNat_lt
  unfold Mem.InRange at hu hf
  bv_omega

theorem mapVirtual_keepsFrame (phys : Word) (flags : MapFlags) (hframes : FreshFrames frames)
    (h : Tree frames slide root s) (hclear : ClearWay slide root virt s) (hk : frames k ≠ 0)
    (hdata : NotTable frames slide root s k)
    (hout : k < s.taken ∨
      (mapVirtual frames slide (root.val + slide) virt phys flags s).2.taken ≤ k)
    (hx : Mem.InRange (frames k + slide) 0x1000 x) :
    (mapVirtual frames slide (root.val + slide) virt phys flags s).2.mem x = s.mem x := by
  refine mapVirtual_frame flags fun r hr hxr => ?_
  obtain ⟨u, hown, hpage⟩ := hclear.lands hframes h flags r hr
  have hframe := frame_eq_of_inRange (hframes.aligned k) (hframes.bound k) (hpage x hxr) hx
  rcases hown with ⟨p, hlen, hp⟩ | ⟨j, hj, hj', hju, -⟩
  · exact hdata p u hlen hp hframe
  · obtain rfl := hframes.distinct k j hk (hframe.trans hju.symm)
    omega

end Frames

/-! ## The page loop -/

section Loop

variable {env : Env} {root : Frame} (hcr3 : env.cr3 = root.val) (hframes : FreshFrames env.frames)

include hcr3 hframes

theorem mapPages_keepsFrame (base : Word) (count : Nat) (i : Word) {m : Machine}
    (h : Tree env.frames env.slide root m)
    (hclear : UpperAll tableOf (entry m.mem env.slide) root 3
      (ClearFor {v | v ∈ pagesFrom base count i})) {k : Nat} (hk : env.frames k ≠ 0)
    (htaken : k < m.taken) (hdata : NotTable env.frames env.slide root m k) {x : Word}
    (hx : Mem.InRange (env.frames k + env.slide) 0x1000 x) :
    (mapPages env base count i m).2.mem x = m.mem x := by
  induction count generalizing i m with
  | zero => rfl
  | succ count ih =>
      by_cases hpage : env.frames m.taken = 0
      · rw [mapPages_noFrame base count i m hpage]
      have htake : Tree env.frames env.slide root { m with taken := m.taken + 1 } := tree_take h
      have hclear₀ := UpperAll.clearOn hclear (v := base + i * pageSize) (by simp [pagesFrom])
      have hturn := mapVirtual_keepsFrame (env.frames m.taken) (MapFlags.read ||| MapFlags.write)
        hframes htake hclear₀ hk hdata (Or.inl (Nat.lt_succ_of_lt htaken)) hx
      have hmap := mapVirtual_advances (env.frames m.taken) (MapFlags.read ||| MapFlags.write)
        hframes htake hclear₀
      rw [mapPages_succ hcr3 base count i m hpage]
      split_ifs
      · have hclear₁ := UpperAll.clearFor_mono (hmap.upper _ (linkable_clearFor _) hclear)
          fun v (hv : v ∈ pagesFrom base count (i + 1)) => List.mem_cons_of_mem _ hv
        rw [ih (i + 1) hmap.tree hclear₁ (Nat.lt_of_lt_of_le (Nat.lt_succ_of_lt htaken) hmap.taken)
          (hmap.notTable hframes (Nat.lt_succ_of_lt htaken) hk hdata)]
        exact hturn
      · exact hturn

/-- At its end the loop has mapped each page to the frame taken for it, which holds what it did. -/
theorem mapPages_contents (base : Word) (count : Nat) (i : Word) {m : Machine}
    (h : Tree env.frames env.slide root m) (hvisible : Visible env.frames env.slide root m)
    (hclear : UpperAll tableOf (entry m.mem env.slide) root 3
      (ClearFor {v | v ∈ pagesFrom base count i}))
    (hpages : ∀ v ∈ pagesFrom base count i, v ≠ 0 ∧ v.toNat % 4096 = 0)
    (hpaths : (pagesFrom base count i).Pairwise fun v w => path v ≠ path w)
    (hdone : (mapPages env base count i m).1 = none) {j : Nat} (hj : j < count) :
    ∃ mp, walk (mapPages env base count i m).2.mem env.slide root
        (base + (i + BitVec.ofNat 64 j) * pageSize) = some mp ∧
      mp.phys = env.frames (dataIndex env root m base i j) ∧ mp.phys ≠ 0 ∧
      ∀ x, Mem.InRange (mp.phys + env.slide) 0x1000 x →
        (mapPages env base count i m).2.mem x = m.mem x := by
  induction count generalizing i m j with
  | zero => omega
  | succ count ih =>
      by_cases hpage : env.frames m.taken = 0
      · rw [mapPages_noFrame base count i m hpage] at hdone
        simp at hdone
      obtain ⟨hhead, htail⟩ := List.pairwise_cons.1 hpaths
      obtain ⟨hv0, hvAligned⟩ := hpages (base + i * pageSize) (by simp [pagesFrom])
      have htake : Tree env.frames env.slide root { m with taken := m.taken + 1 } := tree_take h
      have htaken₀ : Advances env.frames env.slide root ∅ m { m with taken := m.taken + 1 } :=
        advances_take h
      have hvisible₀ := hvisible.advances htaken₀
      have hclear₀ := UpperAll.clearOn hclear (v := base + i * pageSize) (by simp [pagesFrom])
      have hmap := mapVirtual_advances (env.frames m.taken) (MapFlags.read ||| MapFlags.write)
        hframes htake hclear₀
      have hmapped := mapVirtual_mapped (env.frames m.taken) (MapFlags.read ||| MapFlags.write)
        hframes htake hclear₀ (hframes.aligned _) (hframes.bound _) (by decide)
      have hkeeps := fun k hk hdata hout x hx => mapVirtual_keepsFrame (k := k) (x := x)
        (env.frames m.taken) (MapFlags.read ||| MapFlags.write) hframes htake hclear₀ hk hdata hout
        hx
      obtain ⟨ok, m', hres, -, -, -, htables⟩ := mapVirtual_demand hvisible₀ hframes htake
        (MapFlags.read ||| MapFlags.write) hclear₀ hv0 hvAligned hpage (hframes.aligned _)
      rw [mapPages_succ hcr3 base count i m hpage, hres] at hdone ⊢
      rw [hres] at hmap hmapped hkeeps
      by_cases hok : ok = true
      swap
      · rw [if_neg hok] at hdone
        simp at hdone
      rw [if_pos hok] at hdone ⊢
      obtain ⟨htaken, htable⟩ := htables hok
      have hclear₁ : UpperAll tableOf (entry m'.mem env.slide) root 3
          (ClearFor {v | v ∈ pagesFrom base count (i + 1)}) :=
        UpperAll.clearFor_mono (hmap.upper _ (linkable_clearFor _) hclear) fun v hv =>
          List.mem_cons_of_mem _ hv
      cases j with
      | zero =>
          obtain ⟨mp, hwalk, hphys, -⟩ := hmapped hok
          have hadv := mapPages_advances hcr3 hframes base count (i + 1) hmap.tree hclear₁
          have hdata : NotTable env.frames env.slide root m m.taken :=
            h.notTable (Nat.le_refl _) hpage
          have hfirst : base + (i + BitVec.ofNat 64 0) * pageSize = base + i * pageSize := by simp
          rw [hfirst, hadv.walks _ hhead]
          refine ⟨mp, hwalk, hphys, hphys ▸ hpage, fun x hx => ?_⟩
          rw [hphys] at hx
          rw [mapPages_keepsFrame hcr3 hframes base count (i + 1) hmap.tree hclear₁ hpage hmap.taken
            (hmap.notTable hframes (Nat.lt_succ_self _) hpage hdata) hx]
          exact hkeeps m.taken hpage hdata (Or.inl (Nat.lt_succ_self _)) x hx
      | succ j =>
          obtain ⟨mp, hwalk, hphys, hne, hkept⟩ := ih (i + 1) hmap.tree (hvisible₀.advances hmap)
            hclear₁ (fun v hv => hpages v (List.mem_cons_of_mem _ hv)) htail hdone
            (Nat.lt_of_succ_lt_succ hj)
          have hshift : i + 1 + BitVec.ofNat 64 j = i + BitVec.ofNat 64 (j + 1) := by bv_omega
          have hindex : dataIndex env root m' base (i + 1) j =
              dataIndex env root m base i (j + 1) := by
            unfold dataIndex
            rw [pagesFrom, framesNeeded, framesNeeded_congr _ htable, htaken]
            show m.taken + 1 + tablesNeeded (hasTable env.slide root m) _ + _ = _
            simp only [Nat.add_assoc]
            rfl
          rw [hshift] at hwalk
          refine ⟨mp, hwalk, hindex ▸ hphys, hne, fun x hx => ?_⟩
          rw [hkept x hx]
          -- the frame is still to come in this turn
          have hlater : m'.taken ≤ dataIndex env root m' base (i + 1) j := Nat.le_add_right _ _
          rw [hphys] at hne hx
          exact hkeeps _ hne (htake.notTable (hmap.taken.trans hlater) hne) (Or.inr hlater) x hx

end Loop

/-! ## `mmap` -/

theorem mmap_success {env : Env} {h h' : HeapState} {length r : Word} {flags : BitVec 32}
    (hres : h.mmap env length flags = some (r, h')) (hr : r ≠ mapFailed) :
    ∃ h₁, h.allocateVirtualMemory env (Kernel.alignUp length pageSize) = some (some r, h₁) ∧
      mapPages env r (Kernel.alignUp length pageSize / pageSize).toNat 0 h.machine =
        (none, h'.machine) := by
  unfold HeapState.mmap at hres
  split_ifs at hres
  · exact absurd (Prod.mk.inj (Option.some.inj hres)).1.symm hr
  · exact absurd (Prod.mk.inj (Option.some.inj hres)).1.symm hr
  obtain ⟨⟨base, h₁⟩, halloc, hres⟩ := Option.bind_eq_some_iff.1 hres
  cases base with
  | none => exact absurd (Prod.mk.inj (Option.some.inj hres)).1.symm hr
  | some base =>
      have hmachine : h₁.machine = h.machine := by
        have haligned : checkAligned (Kernel.alignUp length pageSize) pageSize = true :=
          (checkAligned_pageSize _).2 (alignUp_pageSize_mod length)
        unfold HeapState.allocateVirtualMemory at halloc
        rw [if_neg (by simp [haligned])] at halloc
        obtain ⟨⟨base', a⟩, -, halloc⟩ := Option.bind_eq_some_iff.1 halloc
        obtain ⟨-, rfl⟩ := Prod.mk.inj (Option.some.inj halloc)
        rfl
      simp only at hres
      split at hres <;> rename_i hloop
      · obtain ⟨rfl, rfl⟩ := Prod.mk.inj (Option.some.inj hres)
        rw [hmachine] at hloop
        exact ⟨h₁, halloc, hloop⟩
      · obtain ⟨h₂, -, hres⟩ := Option.bind_eq_some_iff.1 hres
        exact absurd (Prod.mk.inj (Option.some.inj hres)).1.symm hr
      · exact absurd (Prod.mk.inj (Option.some.inj hres)).1.symm hr

theorem mmap_of_done {env : Env} {h h₁ : HeapState} {length r : Word} {flags : BitVec 32}
    {m : Machine}
    (hflags : isFlagSet flags mapPrivate = true ∧ isFlagSet flags mapAnonymous = true)
    (hlength : length ≠ 0)
    (hcall : h.allocateVirtualMemory env (Kernel.alignUp length pageSize) = some (some r, h₁))
    (hloop : mapPages env r (Kernel.alignUp length pageSize / pageSize).toNat 0 h₁.machine =
      (none, m)) :
    h.mmap env length flags = some (r, { h₁ with machine := m }) := by
  unfold HeapState.mmap
  rw [if_neg (by simp [hflags]), if_neg hlength]
  simp only [hcall, Option.bind_eq_bind, Option.bind_some, hloop]

theorem region_byte {r : Word} (x : Word) (hr : r.toNat % 4096 = 0) :
    alignDown x pageSize = r + (0 + BitVec.ofNat 64 ((x - r).toNat / 4096)) * pageSize ∧
      (x &&& (pageSize - 1)).toNat = (x - r).toNat % 4096 := by
  constructor
  · apply BitVec.eq_of_toNat_eq
    rw [alignDown, toNat_roundDown _ isPow2_pageSize, BitVec.toNat_add, BitVec.toNat_mul,
      BitVec.toNat_add, BitVec.toNat_ofNat, BitVec.toNat_sub, toNat_pageSize]
    have hzero : (0 : Word).toNat = 0 := rfl
    omega
  · rw [BitVec.toNat_and, show (pageSize - 1).toNat = 2 ^ 12 - 1 by decide,
      Nat.and_two_pow_sub_one_eq_mod, BitVec.toNat_sub]
    omega

theorem inRange_offset (a x : Word) : Mem.InRange a 0x1000 (a + (x &&& (pageSize - 1))) := by
  have hlt : (x &&& (pageSize - 1)).toNat < 4096 := by
    rw [BitVec.toNat_and]
    exact Nat.lt_of_le_of_lt Nat.and_le_right (by decide)
  unfold Mem.InRange
  bv_omega

section Mmap

variable {env : Env} {root : Frame} {h h' : HeapState} {cells : List Cell} {length r : Word}
  {flags : BitVec 32}

/-- A byte of the region is a byte of the frame taken for its page, as it was before the call. -/
theorem mmap_readByte (hcr3 : env.cr3 = root.val) (hframes : FreshFrames env.frames)
    (hinv : Inv h.allocator cells) (hw : WindowFits h)
    (htree : Tree env.frames env.slide root h.machine)
    (hvisible : Visible env.frames env.slide root h.machine)
    (hclear : UpperAll tableOf (entry h.machine.mem env.slide) root 3 (ClearFor h.window))
    (hres : h.mmap env length flags = some (r, h')) (hr : r ≠ mapFailed) {x : Word}
    (hx : x ∈ (⟨r, Kernel.alignUp length pageSize⟩ : Range)) :
    readByte h'.machine.mem env.slide root x =
      some (h.machine.mem (dataFrame env root h.machine r ((x - r).toNat / 4096) + env.slide +
        (x &&& (pageSize - 1)))) := by
  obtain ⟨h₁, halloc, hloop⟩ := mmap_success hres hr
  have hpage : r.toNat % 4096 = 0 := mmap_aligned hres hr
  have hmod := alignUp_pageSize_mod length
  rw [Range.mem_iff, BitVec.lt_def] at hx
  simp only at hx
  have hcount : (x - r).toNat / 4096 < (Kernel.alignUp length pageSize / pageSize).toNat := by
    rw [BitVec.toNat_udiv, toNat_pageSize]
    omega
  -- the pages of the loop are pages of the window
  obtain ⟨page, hbase, hfits⟩ : ∃ page, r = h.pageAt page ∧
      page + (Kernel.alignUp length pageSize / pageSize).toNat ≤ h.allocator.totalPages.toNat := by
    rcases allocateVirtualMemory_spec hinv env length with
      ⟨-, a', cells', hcall, -⟩ | ⟨-, page, a', cells', hcall, -, -, hfits, -⟩
    · have hsame := Prod.mk.inj (Option.some.inj (halloc.symm.trans hcall))
      exact absurd hsame.1 (by simp)
    · have hsame := Prod.mk.inj (Option.some.inj (halloc.symm.trans hcall))
      exact ⟨page, Option.some.inj hsame.1, hfits⟩
  have hwindow : ∀ v ∈ pagesFrom r (Kernel.alignUp length pageSize / pageSize).toNat 0,
      v ∈ h.window := by
    intro v hv
    rw [hbase, h.mem_pagesFrom_pageAt] at hv
    obtain ⟨i, -, hhi, rfl⟩ := hv
    exact ⟨i, by omega, rfl⟩
  have hdone := congrArg Prod.fst hloop
  have hnull : (0 : Word) ∉ pagesFrom r (Kernel.alignUp length pageSize / pageSize).toNat 0 :=
    fun hnull => mapPages_null hcr3 _ _ 0 _ hnull hdone
  obtain ⟨mp, hwalk, hphys, -, hkept⟩ := mapPages_contents hcr3 hframes r _ 0 htree hvisible
    (UpperAll.clearFor_mono hclear hwindow)
    (fun v hv => ⟨fun he => hnull (he ▸ hv), aligned_of_mem_pagesFrom hpage hv⟩)
    (by rw [hbase]; exact hw.pairwise_path hfits) hdone hcount
  rw [hloop] at hwalk hkept
  have halign := (region_byte x hpage).1
  have hsame : walk h'.machine.mem env.slide root x = some mp := by
    rw [← walk_congr (samePage_alignDown x), halign]
    exact hwalk
  unfold readByte
  rw [hsame, Option.map_some, hkept _ (inRange_offset _ x), hphys]
  rfl

/-- After `mmap` has succeeded its region reads zeros only, just if the frames of its pages held
zeros only before. -/
theorem mmap_clears_iff (hcr3 : env.cr3 = root.val)
    (hframes : FreshFrames env.frames) (hinv : Inv h.allocator cells) (hw : WindowFits h)
    (htree : Tree env.frames env.slide root h.machine)
    (hvisible : Visible env.frames env.slide root h.machine)
    (hclear : UpperAll tableOf (entry h.machine.mem env.slide) root 3 (ClearFor h.window))
    (hres : h.mmap env length flags = some (r, h')) (hr : r ≠ mapFailed) :
    (∀ x ∈ (⟨r, Kernel.alignUp length pageSize⟩ : Range),
        readByte h'.machine.mem env.slide root x = some 0) ↔ ZeroFrames env root h length := by
  have hread := fun x hx =>
    mmap_readByte (x := x) hcr3 hframes hinv hw htree hvisible hclear hres hr hx
  have hpage : r.toNat % 4096 = 0 := mmap_aligned hres hr
  have hsize : (Kernel.alignUp length pageSize / pageSize).toNat * 4096 =
      (Kernel.alignUp length pageSize).toNat := by
    have hmod := alignUp_pageSize_mod length
    rw [BitVec.toNat_udiv, toNat_pageSize]
    omega
  obtain ⟨h₁, halloc, -⟩ := mmap_success hres hr
  constructor
  · intro hzero base h₂ halloc' j hj y hy
    obtain rfl : r = base := by
      have hsame := Prod.mk.inj (Option.some.inj (halloc.symm.trans halloc'))
      exact Option.some.inj hsame.1
    -- byte `y` of the frame is read at the same offset of page `j`
    obtain ⟨o, ho⟩ : ∃ o, o = y - (dataFrame env root h.machine r j + env.slide) := ⟨_, rfl⟩
    have holt : o.toNat < 4096 := by
      rw [ho]
      exact hy
    obtain ⟨x, hxe⟩ : ∃ x, x = r + BitVec.ofNat 64 (j * 4096) + o := ⟨_, rfl⟩
    have hlen := (Kernel.alignUp length pageSize).isLt
    have hdist : (x - r).toNat = j * 4096 + o.toNat := by
      rw [hxe]
      bv_omega
    have hxr : x ∈ (⟨r, Kernel.alignUp length pageSize⟩ : Range) := by
      rw [Range.mem_iff, BitVec.lt_def]
      simp only
      omega
    have hoffset : x &&& (pageSize - 1) = o := by
      apply BitVec.eq_of_toNat_eq
      rw [(region_byte x hpage).2, hdist]
      omega
    have hindex : (x - r).toNat / 4096 = j := by omega
    have hbyte := (hread x hxr).symm.trans (hzero x hxr)
    rw [hoffset, hindex, ho] at hbyte
    have hy' : dataFrame env root h.machine r j + env.slide +
        (y - (dataFrame env root h.machine r j + env.slide)) = y := by bv_omega
    rw [hy'] at hbyte
    exact Option.some.inj hbyte
  · intro hzero x hx
    rw [hread x hx]
    rw [Range.mem_iff, BitVec.lt_def] at hx
    simp only at hx
    have hindex : (x - r).toNat / 4096 < (Kernel.alignUp length pageSize / pageSize).toNat := by
      omega
    exact congrArg some (hzero r h₁ halloc _ hindex _ (inRange_offset _ x))

end Mmap

/-! ## A frame that has been used before -/

/-- One frame for a page, and three for its tables. -/
private def usedEnv : Env := ⟨frameRow 4, fun _ => false, 0xffff800000000000, 0x1000⟩

private theorem freshFrames_usedEnv : FreshFrames usedEnv.frames :=
  freshFrames_frameRow (by decide : 4 ≤ 1000)

/-- Zeros, but for a byte in the first frame. -/
private def usedHeap (a : VAddrAllocator 2048) : HeapState :=
  { allocator := a, machine := { mem := Function.update (fun _ => 0) 0xffff800000002000 0x2a } }

private theorem zeroed_usedHeap (a : VAddrAllocator 2048) (x : Word)
    (hx : Mem.InRange ((frameOf 0x1000).val + usedEnv.slide) 0x1000 x) :
    (usedHeap a).machine.mem x = 0 := by
  have hne : x ≠ 0xffff800000002000 := by
    rintro rfl
    exact absurd hx (by decide)
  simp only [usedHeap, Function.update_of_ne hne]

private theorem wellFormed_usedHeap (a : VAddrAllocator 2048) :
    WellFormed usedEnv.frames usedEnv.slide (frameOf 0x1000) (usedHeap a).machine :=
  wellFormed_frameRow (by decide : 4 ≤ 1000) (zeroed_usedHeap a)

private theorem mapPages_usedHeap (a : VAddrAllocator 2048) :
    (mapPages usedEnv 0xffff800040000000 1 0 (usedHeap a).machine).1 = none := by
  have hwf := wellFormed_usedHeap a
  have hcr3 : usedEnv.cr3 = (frameOf 0x1000).val := rfl
  refine (mapPages_demand hcr3 freshFrames_usedEnv _ 1 0 hwf.tree hwf.visible
    (fun q j t hlen hp _ _ _ => hwf.small q j t hlen hp) ?_).2 ?_
  · simp only [pagesFrom, List.mem_singleton, forall_eq]
    decide
  · rw [pagesFrom, pagesFrom, framesNeeded, framesNeeded,
      tablesNeeded_zeroed (zeroed_usedHeap a)]
    exact supplied_frameRow (by decide : 4 ≤ 1000)

private theorem usedHeap_mmap :
    ∃ (a : VAddrAllocator 2048) (h' : HeapState) (cells : List Cell),
      VAddrAllocator.init (fun _ => false) 0xffff800040000000 0x4000 = some a ∧
      Inv a cells ∧ WindowFits (usedHeap a) ∧
      (usedHeap a).mmap usedEnv 0x1000 (mapPrivate ||| mapAnonymous) =
        some (0xffff800040000000, h') := by
  obtain ⟨a, hinit, hslots⟩ := init_static (fun _ => false) 0xffff800040000000 0x4000 2047
  obtain ⟨a', halloc⟩ := allocPages_first hinit (by rw [hslots]; decide)
    (by decide : (1 : Word) ≠ 0) (by decide)
  obtain ⟨p, hinv, hwindow, htotal⟩ := VAddrAllocator.init_spec hinit
  have hcount : Kernel.alignUp 0x1000 pageSize / pageSize = 1 := by decide
  have hcall : (usedHeap a).allocateVirtualMemory usedEnv (Kernel.alignUp 0x1000 pageSize) =
      some (some 0xffff800040000000, { usedHeap a with allocator := a' }) := by
    refine HeapState.allocateVirtualMemory_eq (by decide) ?_
    rw [hcount]
    exact halloc
  obtain ⟨m, hm⟩ : ∃ m, mapPages usedEnv 0xffff800040000000 1 0 (usedHeap a).machine =
      (none, m) := by
    rcases hloop : mapPages usedEnv 0xffff800040000000 1 0 (usedHeap a).machine with ⟨code, m⟩
    have hnone := mapPages_usedHeap a
    rw [hloop] at hnone
    exact ⟨m, by rw [show code = none from hnone]⟩
  have hloop : mapPages usedEnv 0xffff800040000000
      (Kernel.alignUp 0x1000 pageSize / pageSize).toNat 0 (usedHeap a).machine = (none, m) := by
    rw [hcount]
    exact hm
  have hflags : isFlagSet (mapPrivate ||| mapAnonymous) mapPrivate = true ∧
      isFlagSet (mapPrivate ||| mapAnonymous) mapAnonymous = true := by decide
  have hmmap := mmap_of_done hflags (by decide) hcall hloop
  have hpages : (0x4000 : Word).toNat / 4096 = 4 := by decide
  have hstart : (0xffff800040000000 : Word).toNat = 0xffff800040000000 := by decide
  rw [hpages] at htotal
  refine ⟨a, _, _, hinit, hinv, ⟨?_, ?_⟩, hmmap⟩
  · show a.base.toNat + a.totalPages.toNat * 4096 ≤ 2 ^ 64
    rw [hwindow, htotal, hstart]
    norm_num
  · show a.totalPages.toNat ≤ 2 ^ 36
    rw [htotal]
    norm_num

/-- What a frame held before is read in a new region. -/
theorem mmap_shows_used_frame :
    ∃ (a : VAddrAllocator 2048) (h' : HeapState) (cells : List Cell),
      VAddrAllocator.init (fun _ => false) 0xffff800040000000 0x4000 = some a ∧
      Inv a cells ∧ WindowFits (usedHeap a) ∧ FreshFrames usedEnv.frames ∧
      WellFormed usedEnv.frames usedEnv.slide (frameOf 0x1000) (usedHeap a).machine ∧
      (usedHeap a).mmap usedEnv 0x1000 (mapPrivate ||| mapAnonymous) =
        some (0xffff800040000000, h') ∧
      (0xffff800040000000 : Word) ∈
        (⟨0xffff800040000000, Kernel.alignUp 0x1000 pageSize⟩ : Range) ∧
      readByte h'.machine.mem usedEnv.slide (frameOf 0x1000) 0xffff800040000000 ≠ some 0 := by
  obtain ⟨a, h', cells, hinit, hinv, hw, hmmap⟩ := usedHeap_mmap
  have hwf := wellFormed_usedHeap a
  have hfirst : (0xffff800040000000 : Word) ∈
      (⟨0xffff800040000000, Kernel.alignUp 0x1000 pageSize⟩ : Range) := by
    rw [Range.mem_iff]
    decide
  refine ⟨a, h', cells, hinit, hinv, hw, freshFrames_usedEnv, hwf, hmmap, hfirst, ?_⟩
  rw [mmap_readByte rfl freshFrames_usedEnv hinv hw hwf.tree hwf.visible
    (fun q j t hlen hp _ _ _ => hwf.small q j t hlen hp) hmmap (by decide) hfirst]
  have hframe : dataFrame usedEnv (frameOf 0x1000) (usedHeap a).machine 0xffff800040000000
      (((0xffff800040000000 : Word) - 0xffff800040000000).toNat / 4096) + usedEnv.slide +
        (0xffff800040000000 &&& (pageSize - 1)) = 0xffff800000002000 := by
    have hfront : ((0xffff800040000000 : Word) - 0xffff800040000000).toNat / 4096 = 0 := by decide
    rw [hfront, dataFrame, dataIndex, pagesFrom, framesNeeded]
    show frameRow 4 0 + 0xffff800000000000 + _ = _
    decide
  rw [hframe]
  simp [usedHeap]

theorem mmap_clears_iff_used_frame :
    ∃ (a : VAddrAllocator 2048) (h' : HeapState),
      VAddrAllocator.init (fun _ => false) 0xffff800040000000 0x4000 = some a ∧
      (usedHeap a).mmap usedEnv 0x1000 (mapPrivate ||| mapAnonymous) =
        some (0xffff800040000000, h') ∧
      ((∀ x ∈ (⟨0xffff800040000000, Kernel.alignUp 0x1000 pageSize⟩ : Range),
          readByte h'.machine.mem usedEnv.slide (frameOf 0x1000) x = some 0) ↔
        ZeroFrames usedEnv (frameOf 0x1000) (usedHeap a) 0x1000) := by
  obtain ⟨a, h', cells, hinit, hinv, hw, hmmap⟩ := usedHeap_mmap
  have hwf := wellFormed_usedHeap a
  exact ⟨a, h', hinit, hmmap, mmap_clears_iff rfl freshFrames_usedEnv hinv hw hwf.tree
    hwf.visible (fun q j t hlen hp _ _ _ => hwf.small q j t hlen hp) hmmap (by decide)⟩

end UnnamedKernel.Mm.Heap
