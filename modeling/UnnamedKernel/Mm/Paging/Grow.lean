import UnnamedKernel.Mm.Paging.Shared

/-!
# The pagemap grows out of the free list

A missing table is a page off the free list, cleared and linked. Free blocks, tables and the pages
of callers still lie apart then, no translation has changed, and no page of a caller.
-/

namespace UnnamedKernel.Mm.Paging

open UnnamedKernel.Lib UnnamedKernel.Kernel RadixTree Pma Vmm FreeListAllocator

/-- Where the memory map is one that the allocator can work with. -/
structure Booted (slide : Word) (entries : List MemmapEntry) : Prop where
  slide : Aligned slide
  map : LegalMap entries
  /-- usable memory ends below `2 ^ 52` -/
  phys : ∀ u ∈ usableRanges entries, u.addr.toNat + u.size.toNat ≤ 2 ^ 52

/-- From `s` to `s'`, empty tables in pages off the free list may have been linked. -/
structure Deepens (slide : Word) (entries : List MemmapEntry) (root : Frame) (held : List Range)
    (s s' : State) : Prop where
  shared : ∃ blocks tables, Shared slide entries root held s' blocks tables
  keeps : ∀ p x, p.length ≤ 3 → tableAt s.mem slide root p = some x →
    tableAt s'.mem slide root p = some x
  upper : ∀ ok, Linkable ok → UpperAll tableOf (entry s.mem slide) root 3 ok →
    UpperAll tableOf (entry s'.mem slide) root 3 ok
  walks : ∀ va, walk s'.mem slide root va = walk s.mem slide root va
  bytes : ∀ r ∈ held, ∀ y ∈ r.shift slide, s'.mem y = s.mem y

namespace Deepens

variable {slide : Word} {entries : List MemmapEntry} {root : Frame} {held : List Range}
  {s s₁ s₂ : State}

theorem refl {blocks tables : List Range} (h : Shared slide entries root held s blocks tables) :
    Deepens slide entries root held s s :=
  ⟨⟨blocks, tables, h⟩, fun _ _ _ hp => hp, fun _ _ hok => hok, fun _ => rfl, fun _ _ _ _ => rfl⟩

theorem trans (h₁ : Deepens slide entries root held s s₁)
    (h₂ : Deepens slide entries root held s₁ s₂) : Deepens slide entries root held s s₂ where
  shared := h₂.shared
  keeps p x hlen hp := h₂.keeps p x hlen (h₁.keeps p x hlen hp)
  upper ok hok hup := h₂.upper ok hok (h₁.upper ok hok hup)
  walks va := (h₂.walks va).trans (h₁.walks va)
  bytes r hr y hy := (h₂.bytes r hr y hy).trans (h₁.bytes r hr y hy)

theorem of_sameTables {blocks tables : List Range}
    (h : Shared slide entries root held s₁ blocks tables)
    (hsame : SameTables tableOf (entry s.mem slide) (entry s₁.mem slide) root 3)
    (hbytes : ∀ r ∈ held, ∀ y ∈ r.shift slide, s₁.mem y = s.mem y) :
    Deepens slide entries root held s s₁ where
  shared := ⟨blocks, tables, h⟩
  keeps _ _ hlen hp := (hsame.descend hlen).trans hp
  upper _ _ hup := hsame.upperAll hup
  walks := walk_of_sameTables hsame
  bytes := hbytes

end Deepens

/-- One page, for the first call of `alloc_page`. -/
def onlyPage (q : Word) : FrameAnswers := fun k => if k = 0 then q else 0

/-- The tables of a state, with `q` still to be taken. -/
abbrev State.machine (s : State) : Machine := { mem := s.mem }

section EnsureTable

variable {slide : Word} {entries : List MemmapEntry} {root t : Frame} {held : List Range}
  {s : State} {blocks tables : List Range} {q : Word} {p : List (Fin 512)} {i : Fin 512}

theorem ensureTable_present {entry : Word}
    (h : s.mem.read64 entry &&& PageBits.present ≠ 0) :
    ensureTable slide entry s = some ((s.mem.read64 entry &&& ppnMask) + slide, s) := if_neg h

theorem ensureTable_absent {entry : Word} {a : FreeListAllocator}
    (h : s.mem.read64 entry &&& PageBits.present = 0)
    (hres : Pma.allocPage slide s.pma = some (q, a)) :
    ensureTable slide entry s = some
      (if q = 0 ∨ q + slide = 0 then (0, { s with pma := a })
      else (q + slide, ({ s with pma := a } : State).setMem
        ((memset a.mem (q + slide) 0 0x1000).write64 entry
          ((q &&& ppnMask) ||| PageBits.present ||| PageBits.readWrite ||| PageBits.user)))) := by
  have hcall : s.allocPage slide = some (q, { s with pma := a }) := by
    rw [State.allocPage, hres]
    rfl
  rw [ensureTable, if_pos h, allocTable, hcall]
  simp only [bind, Option.bind]
  by_cases hzero : q = 0
  · simp only [if_pos hzero, if_true, if_pos (Or.inl hzero)]
  by_cases hvirt : q + slide = 0
  · have hmem : memset a.mem (q + slide) 0 0x1000 = a.mem := by simp [memset, hvirt]
    simp only [if_neg hzero, if_pos hvirt, if_pos (Or.inr hvirt), State.mem, State.setMem, hmem]
  · have hneither : ¬ (q = 0 ∨ q + slide = 0) := not_or.2 ⟨hzero, hvirt⟩
    simp only [if_neg hzero, if_neg hvirt, if_neg hneither, State.mem, State.setMem]

theorem Shared.tree (h : Shared slide entries root (pageAt q :: held) s blocks tables) :
    Tree (onlyPage q) slide root s.machine := by
  refine ⟨h.noSharing, fun k u _ hu hu0 p hlen hp => ?_⟩
  have hk : onlyPage q k = q := by
    unfold onlyPage at hu0 ⊢
    split_ifs at hu0 ⊢ with hk
    · rfl
    · exact absurd rfl hu0
  have hmem : (pageAt u.val).shift slide = (pageAt q).shift slide := by rw [← hu, hk]
  have hin : slide + q ∈ (pageAt q).shift slide :=
    Range.addr_mem (show 0 < pageSize.toNat by decide)
  exact (h.table_apart hlen hp (hmem ▸ hin)).2 (pageAt q) (List.mem_cons_self ..) hin

theorem Shared.page_apart (h : Shared slide entries root (pageAt q :: held) s blocks tables)
    {y : Word} (hy : y ∈ (pageAt q).shift slide) :
    (∀ b ∈ blocks, y ∉ b) ∧ ∀ r ∈ held, y ∉ r.shift slide := by
  have hall := List.pairwise_append.1 (h.apportioned.perm List.perm_middle).layout.apart
  refine ⟨fun b hb hyb => hall.2.2 b hb _ (List.mem_cons_self ..) y hyb hy, fun r hr => ?_⟩
  exact (List.pairwise_cons.1 hall.2.1).1 _
    (List.mem_map_of_mem (List.mem_append_right _ hr)) y hy

/-- The page of `u` is cleared, and linked by entry `i` of the table `t`. -/
def linkPage (slide : Word) (t u : Frame) (i : Fin 512) (m : Mem) : Mem :=
  (memset m (u.val + slide) 0 0x1000).write64 (entryPtr (t.val + slide) (BitVec.ofNat 64 i))
    (tableEntry u)

theorem linkPage_mem (m : Mem) {u : Frame} {y : Word} (hu : y ∉ (pageAt u.val).shift slide)
    (ht : y ∉ (pageAt t.val).shift slide) : linkPage slide t u i m y = m y := by
  rw [mem_pageAt_shift] at hu ht
  rw [linkPage, Mem.write64_of_not_inRange _ _ fun hin => ht (mem_entryPtr hin)]
  by_cases hnull : u.val + slide = 0
  · simp [memset, hnull]
  · rw [memset_eq_fill m 0 0x1000 hnull, Mem.fill_of_not_inRange _ _ hu]

theorem link_deepens {u : Frame}
    (h : Shared slide entries root (pageAt u.val :: held) s blocks tables)
    (hzero : u.val ≠ 0) (hvirt : u.val + slide ≠ 0)
    (hp : tableAt s.mem slide root p = some t) (hlen : p.length < 3)
    (habsent : isFlagSet (entry s.mem slide t i) PageBits.present = false) :
    Deepens slide entries root held s (s.setMem (linkPage slide t u i s.mem)) ∧
      tableAt (linkPage slide t u i s.mem) slide root (p ++ [i]) = some u := by
  have hframes : FreshFrames (onlyPage u.val) := FreshFrames.single u.toNat_mod u.toNat_lt
  have hut : u ≠ t := fun he => h.tree.unused 0 u (Nat.le_refl 0) rfl hzero p (by omega) (he ▸ hp)
  obtain ⟨hgrows, hnew⟩ := grows_link (i := i) ⟨linkPage slide t u i s.mem, 1, none⟩ hframes h.tree
    hp hlen habsent rfl rfl hzero rfl (linksFresh_store s.mem slide i hut hvirt)
  have hbelow := Nat.le_of_lt hlen
  refine ⟨⟨⟨blocks, _, h.adopt.setMem (fun y b hb hy => ?_) (fun p x hlen hx => ?_)
    hgrows.tree.noSharing⟩, hgrows.keeps, hgrows.upper, hgrows.walks, fun r hr y hy => ?_⟩, hnew⟩
  · exact linkPage_mem s.mem (fun hyu => (h.page_apart hyu).1 b hb hy)
      fun hyt => (h.table_apart hbelow hp hyt).1 b hb hy
  · rcases hgrows.new p x hlen hx with hold | ⟨k, -, hk, hkx, -⟩
    · exact h.adopt.placed p x hlen hold
    · obtain rfl : k = 0 := Nat.lt_one_iff.1 hk
      have hx : u.val = x.val := hkx
      exact Or.inr (by rw [← hx]; exact List.mem_cons_self ..)
  · exact linkPage_mem s.mem (fun hyu => (h.page_apart hyu).2 r hr hy)
      fun hyt => (h.table_apart hbelow hp hyt).2 r (List.mem_cons_of_mem _ hr) hy

/-- `ensure_table` on an entry of a reachable table: null, or the next table of the path. -/
theorem ensureTable_deepens (hbooted : Booted slide entries)
    (h : Shared slide entries root held s blocks tables)
    (hp : tableAt s.mem slide root p = some t) (hlen : p.length < 3)
    (hclear : isFlagSet (entry s.mem slide t i) PageBits.present = true →
      isFlagSet (entry s.mem slide t i) largePage = false) :
    ∃ ptr s', ensureTable slide (entryPtr (t.val + slide) (BitVec.ofNat 64 i)) s =
        some (ptr, s') ∧ Deepens slide entries root held s s' ∧
      (ptr ≠ 0 → ∃ u : Frame, ptr = u.val + slide ∧
        tableAt s'.mem slide root (p ++ [i]) = some u) := by
  have hread : s.mem.read64 (entryPtr (t.val + slide) (BitVec.ofNat 64 i)) =
      entry s.mem slide t i := rfl
  by_cases hpresent : isFlagSet (entry s.mem slide t i) PageBits.present = true
  · have hne : s.mem.read64 (entryPtr (t.val + slide) (BitVec.ofNat 64 i)) &&& PageBits.present ≠
        0 := by
      rw [hread, Ne, and_present_eq_zero_iff]
      simp [hpresent]
    refine ⟨_, s, ensureTable_present hne, .refl h, fun _ =>
      ⟨frameOf (entry s.mem slide t i), rfl, ?_⟩⟩
    rw [tableAt, descend_concat hp, tableOf, if_pos ⟨hpresent, by simp [hclear hpresent]⟩]
  have habsent : isFlagSet (entry s.mem slide t i) PageBits.present = false := by
    simpa using hpresent
  obtain ⟨q, a, hres, hmem, hnone, hsome⟩ := h.alloc hbooted.map
  have hzeroed : s.mem.read64 (entryPtr (t.val + slide) (BitVec.ofNat 64 i)) &&&
      PageBits.present = 0 := by
    rw [hread, and_present_eq_zero_iff]
    exact habsent
  have hcall := ensureTable_absent hzeroed hres
  -- no table and no page of a caller changes with the free list
  have hsame : SameTables tableOf (entry s.mem slide) (entry a.mem slide) root 3 :=
    h.sameTables fun y hy _ => hmem y hy
  have hbytes : ∀ r ∈ held, ∀ y ∈ r.shift slide, a.mem y = s.mem y := fun r hr y hy =>
    hmem y fun b hb hyb => (List.pairwise_append.1 h.apportioned.layout.apart).2.2 b hb _
      (List.mem_map_of_mem (List.mem_append_right _ hr)) y hyb hy
  by_cases hzero : q = 0
  · rw [if_pos (Or.inl hzero), hnone hzero] at hcall
    exact ⟨0, _, hcall, .refl h, fun hne => absurd rfl hne⟩
  obtain ⟨blocks', hshared⟩ := hsome hzero
  have hdeepens : Deepens slide entries root held s { s with pma := a } :=
    .of_sameTables hshared.adopt hsame hbytes
  by_cases hvirt : q + slide = 0
  · rw [if_pos (Or.inr hvirt)] at hcall
    exact ⟨0, _, hcall, hdeepens, fun hne => absurd rfl hne⟩
  rw [if_neg (not_or.2 ⟨hzero, hvirt⟩)] at hcall
  obtain ⟨-, hmod, hlt⟩ := Apportioned.frame hbooted.slide hbooted.map hbooted.phys
    hshared.apportioned (q := q) (by simp)
  have hp' : tableAt a.mem slide root p = some t := (hsame.descend (Nat.le_of_lt hlen)).trans hp
  have habsent' : isFlagSet (entry a.mem slide t i) PageBits.present = false := by
    rw [hsame p t i (Nat.le_of_lt hlen) hp]
    exact habsent
  obtain ⟨hlink, hnew⟩ := link_deepens (u := ⟨q, and_ppnMask_of_aligned hmod hlt⟩) hshared hzero
    hvirt hp' hlen habsent'
  exact ⟨_, _, hcall, hdeepens.trans hlink, fun _ => ⟨_, rfl, hnew⟩⟩

theorem ensureTable_step (hbooted : Booted slide entries)
    (h : ∃ blocks tables, Shared slide entries root held s blocks tables) {virt : Word}
    (hclear : UpperAll tableOf (entry s.mem slide) root 3 (ClearOn virt))
    (hp : tableAt s.mem slide root p = some t) (hpre : (p ++ [i]) <+: tablePath virt) :
    ∃ ptr s', ensureTable slide (entryPtr (t.val + slide) (BitVec.ofNat 64 i)) s =
        some (ptr, s') ∧ Deepens slide entries root held s s' ∧
      UpperAll tableOf (entry s'.mem slide) root 3 (ClearOn virt) ∧
      (ptr ≠ 0 → ∃ u : Frame, ptr = u.val + slide ∧
        tableAt s'.mem slide root (p ++ [i]) = some u) := by
  obtain ⟨blocks, tables, h⟩ := h
  have hlen : p.length < 3 := by
    have := hpre.length_le
    simp only [List.length_append, List.length_cons, List.length_nil, tablePath] at this
    omega
  obtain ⟨ptr, s', hres, hdeepens, hnext⟩ :=
    ensureTable_deepens hbooted h hp hlen (hclear p i t hlen hp hpre)
  exact ⟨ptr, s', hres, hdeepens, hdeepens.upper _ (linkable_clearOn virt) hclear, hnext⟩

end EnsureTable

/-! ## `map_virtual` -/

/-- The state after the final entry of `virt` has been written. -/
def State.setLeaf (s : State) (slide : Word) (pt : Frame) (virt e : Word) : State :=
  s.setMem (s.mem.write64 (entryPtr (pt.val + slide) (BitVec.ofNat 64 (levelIndex 0 virt))) e)

section MapVirtual

variable {slide : Word} {entries : List MemmapEntry} {root pt : Frame} {held : List Range}
  {s : State} {virt : Word}

/-- `map_virtual` deepens the pagemap, then either gives up or writes the final entry. -/
theorem mapVirtual_deepens (hbooted : Booted slide entries)
    (h : ∃ blocks tables, Shared slide entries root held s blocks tables) (phys : Word)
    (flags : MapFlags) (hclear : UpperAll tableOf (entry s.mem slide) root 3 (ClearOn virt)) :
    ∃ s₁, Deepens slide entries root held s s₁ ∧
      ((∃ s', mapVirtual slide (root.val + slide) virt phys flags s = some (false, s') ∧
          s'.pma = s₁.pma) ∨
        ∃ pt : Frame, tableAt s₁.mem slide root (tablePath virt) = some pt ∧
          mapVirtual slide (root.val + slide) virt phys flags s =
            some (true, s₁.setLeaf slide pt virt (leafEntry phys flags))) := by
  have h3 := index_eq virt 3
  have h2 := index_eq virt 2
  have h1 := index_eq virt 1
  have h0 := index_eq virt 0
  simp only [Nat.mul_zero, Nat.add_zero, Nat.mul_one, Nat.reduceMul, Nat.reduceAdd] at h3 h2 h1 h0
  have hrefl : Deepens slide entries root held s s := by
    obtain ⟨blocks, tables, h⟩ := h
    exact .refl h
  unfold mapVirtual
  simp only [h3, h2, h1, h0]
  by_cases hv : virt = 0 ∨ ¬ checkAligned virt pageSize = true
  · rw [if_pos hv]
    exact ⟨s, hrefl, Or.inl ⟨_, rfl, rfl⟩⟩
  rw [if_neg hv]
  by_cases hph : phys = 0 ∨ ¬ checkAligned phys pageSize = true
  · rw [if_pos hph]
    exact ⟨s, hrefl, Or.inl ⟨_, rfl, rfl⟩⟩
  rw [if_neg hph]
  by_cases hr : root.val + slide = 0
  · rw [if_pos hr]
    exact ⟨s, hrefl, Or.inl ⟨_, rfl, rfl⟩⟩
  rw [if_neg hr]
  obtain ⟨pdpt, s₁, hres₁, hd₁, hc₁, hn₁⟩ :=
    ensureTable_step (p := []) (i := levelIndex 3 virt) hbooted h hclear rfl ⟨_, rfl⟩
  rw [hres₁]
  simp only [bind, Option.bind]
  by_cases hz₁ : pdpt = 0
  · exact ⟨s₁, hd₁, Or.inl ⟨s₁, by simp [hz₁], rfl⟩⟩
  obtain ⟨u₁, rfl, hu₁⟩ := hn₁ hz₁
  obtain ⟨pd, s₂, hres₂, hd₂, hc₂, hn₂⟩ :=
    ensureTable_step (i := levelIndex 2 virt) hbooted hd₁.shared hc₁ hu₁ ⟨_, rfl⟩
  simp only [if_neg hz₁, hres₂]
  by_cases hz₂ : pd = 0
  · exact ⟨s₂, hd₁.trans hd₂, Or.inl ⟨s₂, by simp [hz₂], rfl⟩⟩
  obtain ⟨u₂, rfl, hu₂⟩ := hn₂ hz₂
  obtain ⟨pt, s₃, hres₃, hd₃, -, hn₃⟩ :=
    ensureTable_step (i := levelIndex 1 virt) hbooted hd₂.shared hc₂ hu₂ ⟨_, rfl⟩
  simp only [if_neg hz₂, hres₃]
  by_cases hz₃ : pt = 0
  · exact ⟨s₃, (hd₁.trans hd₂).trans hd₃, Or.inl ⟨s₃, by simp [hz₃], rfl⟩⟩
  obtain ⟨u₃, rfl, hu₃⟩ := hn₃ hz₃
  refine ⟨s₃, (hd₁.trans hd₂).trans hd₃, Or.inr ⟨u₃, hu₃, ?_⟩⟩
  simp only [if_neg hz₃, leafEntry]
  rfl

theorem Shared.noPageTree {blocks tables : List Range}
    (h : Shared slide entries root held s blocks tables) :
    Tree (fun _ => 0) slide root s.machine :=
  ⟨h.noSharing, fun _ _ _ _ hne => absurd rfl hne⟩

theorem Shared.setLeaf {blocks tables : List Range}
    (h : Shared slide entries root held s blocks tables)
    (hpt : tableAt s.mem slide root (tablePath virt) = some pt) (e : Word) :
    Shared slide entries root held (s.setLeaf slide pt virt e) blocks tables ∧
      ∀ r ∈ held, ∀ y ∈ r.shift slide, (s.setLeaf slide pt virt e).mem y = s.mem y := by
  have hwrite : ∀ y, y ∉ (pageAt pt.val).shift slide →
      (s.setLeaf slide pt virt e).mem y = s.mem y := fun y hy =>
    Mem.write64_of_not_inRange _ _ fun hin => hy (mem_pageAt_shift.2 (mem_entryPtr hin))
  have hlen : (tablePath virt).length ≤ 3 := Nat.le_refl 3
  refine ⟨h.setMem (fun y b hb hy => hwrite y fun hyt => (h.table_apart hlen hpt hyt).1 b hb hy)
    (fun p x hplen hx => h.placed p x hplen ?_) (setLeaf_tree h.noPageTree hpt).noSharing,
    fun r hr y hy => hwrite y fun hyt => (h.table_apart hlen hpt hyt).2 r hr hy⟩
  exact (setLeaf_tableAt h.noPageTree hpt hplen).symm.trans hx

end MapVirtual

end UnnamedKernel.Mm.Paging
