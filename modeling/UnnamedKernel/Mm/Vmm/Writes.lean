import UnnamedKernel.Lib.Ranges
import UnnamedKernel.Mm.Vmm.Demand

/-!
# Where `map_virtual` writes

The stores of one call, in order. They stay in page tables as long as no present entry
on the way is a large page: `ensure_table` follows such an entry like any other, and the
stores land in the page that it maps.
-/

namespace UnnamedKernel.Mm.Vmm

open UnnamedKernel.Lib UnnamedKernel.Kernel RadixTree

/-- The bytes that `ensure_table` stores to. -/
def ensureTableWrites (frames : FrameAnswers) (slide entry : Word) (s : Machine) : List Range :=
  if s.mem.read64 entry &&& PageBits.present = 0 then
    let virtTable := (allocTable frames slide s).1.1
    if virtTable = 0 then [] else [⟨virtTable, 0x1000⟩, ⟨entry, 8⟩]
  else []

/-- The calls of `ensure_table` along some indices: the bytes stored to, and the last table. -/
def ensureTables (frames : FrameAnswers) (slide : Word) :
    Word → List (Fin 512) → Machine → List Range × Word × Machine
  | table, [], s => ([], table, s)
  | table, i :: is, s =>
      let ptr := entryPtr table (BitVec.ofNat 64 i)
      let (next, s') := ensureTable frames slide ptr s
      if next = 0 then (ensureTableWrites frames slide ptr s, 0, s')
      else
        let (writes, last) := ensureTables frames slide next is s'
        (ensureTableWrites frames slide ptr s ++ writes, last)

/-- `map_virtual` refuses its arguments. -/
def Refused (pagemapVirtual virt phys : Word) : Prop :=
  (virt = 0 ∨ ¬ checkAligned virt pageSize) ∨ (phys = 0 ∨ ¬ checkAligned phys pageSize) ∨
    pagemapVirtual = 0

instance (pagemapVirtual virt phys : Word) : Decidable (Refused pagemapVirtual virt phys) :=
  inferInstanceAs (Decidable (_ ∨ _ ∨ _))

/-- The bytes that `map_virtual` stores to. -/
def mapVirtualWrites (frames : FrameAnswers) (slide pagemapVirtual virt phys : Word)
    (s : Machine) : List Range :=
  if Refused pagemapVirtual virt phys then []
  else
    let (writes, pt, _) := ensureTables frames slide pagemapVirtual (tablePath virt) s
    if pt = 0 then writes
    else writes ++ [⟨entryPtr pt (BitVec.ofNat 64 (levelIndex 0 virt)), 8⟩]

section Trace

variable {frames : FrameAnswers} {slide pagemapVirtual virt phys : Word} {s : Machine}

theorem mapVirtual_eq (flags : MapFlags) (hargs : ¬ Refused pagemapVirtual virt phys) :
    mapVirtual frames slide pagemapVirtual virt phys flags s =
      let (_, pt, s') := ensureTables frames slide pagemapVirtual (tablePath virt) s
      if pt = 0 then (false, s')
      else (true, { s' with
        mem := s'.mem.write64 (entryPtr pt (BitVec.ofNat 64 (levelIndex 0 virt)))
          (leafEntry phys flags) }) := by
  have h3 := index_eq virt 3
  have h2 := index_eq virt 2
  have h1 := index_eq virt 1
  have h0 := index_eq virt 0
  simp only [Nat.mul_zero, Nat.add_zero, Nat.mul_one, Nat.reduceMul, Nat.reduceAdd] at h3 h2 h1 h0
  simp only [Refused, not_or] at hargs
  obtain ⟨hv, hph, hr⟩ := hargs
  unfold mapVirtual
  simp only [h3, h2, h1, h0]
  rw [if_neg (not_or.2 hv), if_neg (not_or.2 hph), if_neg hr]
  simp only [tablePath, ensureTables, leafEntry]
  split_ifs <;> simp_all

theorem mapVirtual_refused (flags : MapFlags) (hargs : Refused pagemapVirtual virt phys) :
    mapVirtual frames slide pagemapVirtual virt phys flags s =
      (false, s.setError .incorrectParameter) := by
  unfold mapVirtual
  by_cases hv : virt = 0 ∨ ¬ checkAligned virt pageSize = true
  · rw [if_pos hv]
  by_cases hph : phys = 0 ∨ ¬ checkAligned phys pageSize = true
  · rw [if_neg hv, if_pos hph]
  · rw [if_neg hv, if_neg hph, if_pos ((hargs.resolve_left hv).resolve_left hph)]

theorem not_refused (hargs : ¬ Refused pagemapVirtual virt phys) :
    virt ≠ 0 ∧ virt.toNat % 4096 = 0 ∧ phys ≠ 0 ∧ phys.toNat % 4096 = 0 := by
  simp only [Refused, not_or, not_not] at hargs
  obtain ⟨⟨hv, hva⟩, ⟨hph, hpha⟩, -⟩ := hargs
  exact ⟨hv, (checkAligned_pageSize virt).1 hva, hph, (checkAligned_pageSize phys).1 hpha⟩

theorem allocTable_mem (frames : FrameAnswers) (slide : Word) (s : Machine) :
    (allocTable frames slide s).2.mem =
      if (allocTable frames slide s).1.1 = 0 then s.mem
      else s.mem.fill (allocTable frames slide s).1.1 0x1000 0 := by
  unfold allocTable Machine.allocPage
  by_cases hphys : frames s.taken = 0
  · simp [hphys]
  · by_cases hvirt : frames s.taken + slide = 0
    · simp only [if_neg hphys, hvirt, memset, true_or, if_true]
    · simp only [if_neg hphys, if_neg hvirt, memset_eq_fill s.mem 0 0x1000 hvirt]

theorem ensureTable_frame {entry x : Word}
    (hx : ∀ r ∈ ensureTableWrites frames slide entry s, x ∉ r) :
    (ensureTable frames slide entry s).2.mem x = s.mem x := by
  unfold ensureTableWrites at hx
  unfold ensureTable
  have hmem := allocTable_mem frames slide s
  by_cases hp : s.mem.read64 entry &&& PageBits.present = 0
  · by_cases hvirt : (allocTable frames slide s).1.1 = 0
    · rw [if_pos hvirt] at hmem
      simp only [if_pos hp, if_pos hvirt, hmem]
    · rw [if_neg hvirt] at hmem
      simp only [if_pos hp, if_neg hvirt, List.mem_cons, List.not_mem_nil, or_false,
        forall_eq_or_imp, forall_eq] at hx
      simp only [if_pos hp, if_neg hvirt, hmem]
      rw [Mem.write64_of_not_inRange _ _ hx.2, Mem.fill_of_not_inRange _ _ hx.1]
  · simp only [if_neg hp]

theorem ensureTables_frame {table x : Word} {is : List (Fin 512)}
    (hx : ∀ r ∈ (ensureTables frames slide table is s).1, x ∉ r) :
    (ensureTables frames slide table is s).2.2.mem x = s.mem x := by
  induction is generalizing table s with
  | nil => rfl
  | cons i is ih =>
      simp only [ensureTables] at hx ⊢
      split_ifs at hx ⊢ with hnext
      · exact ensureTable_frame hx
      · rw [ih fun r hr => hx r (List.mem_append_right _ hr),
          ensureTable_frame fun r hr => hx r (List.mem_append_left _ hr)]

/-- Bytes that the trace does not name keep their contents. -/
theorem mapVirtual_frame (flags : MapFlags) {x : Word}
    (hx : ∀ r ∈ mapVirtualWrites frames slide pagemapVirtual virt phys s, x ∉ r) :
    (mapVirtual frames slide pagemapVirtual virt phys flags s).2.mem x = s.mem x := by
  unfold mapVirtualWrites at hx
  by_cases hargs : Refused pagemapVirtual virt phys
  · rw [mapVirtual_refused flags hargs]
    rfl
  · rw [mapVirtual_eq flags hargs]
    rw [if_neg hargs] at hx
    simp only at hx ⊢
    split_ifs at hx ⊢
    · exact ensureTables_frame hx
    · have hleaf := hx _ (List.mem_append_right _ (List.mem_singleton.2 rfl))
      refine (Mem.write64_of_not_inRange _ _ hleaf).trans ?_
      exact ensureTables_frame fun r hr => hx r (List.mem_append_left _ hr)

end Trace

/-! ## Stores that land in tables -/

/-- Frame `u` is a table of the pagemap in `s`, or was taken on the way to `s'`. -/
def OwnPage (frames : FrameAnswers) (slide : Word) (root : Frame) (s s' : Machine) (u : Frame) :
    Prop :=
  (∃ p, p.length ≤ 3 ∧ tableAt s.mem slide root p = some u) ∨
    ∃ k, s.taken ≤ k ∧ k < s'.taken ∧ frames k = u.val ∧ frames k ≠ 0

/-- The bytes `r` lie in one such page. -/
def Lands (frames : FrameAnswers) (slide : Word) (root : Frame) (s s' : Machine) (r : Range) :
    Prop :=
  ∃ u, OwnPage frames slide root s s' u ∧ ∀ x ∈ r, Mem.InRange (u.val + slide) 0x1000 x

section Lands

variable {frames : FrameAnswers} {slide : Word} {root t u : Frame} {s s₁ s₂ : Machine}
  {i : Fin 512} {x : Word}

theorem mem_entryPtr (hx : x ∈ (⟨entryPtr (t.val + slide) (BitVec.ofNat 64 i), 8⟩ : Range)) :
    Mem.InRange (t.val + slide) 0x1000 x := by
  have hi := toNat_index i
  have hlt := i.isLt
  change Mem.InRange _ _ _ at hx
  unfold Mem.InRange entryPtr at *
  bv_omega

theorem eq_of_mem_entryPtr
    (h : Mem.InRange (u.val + slide) 0x1000 (entryPtr (t.val + slide) (BitVec.ofNat 64 i))) :
    t = u := by
  by_contra hne
  have hval : t.val.toNat ≠ u.val.toNat := fun he => hne (Subtype.ext (BitVec.eq_of_toNat_eq he))
  have ht := t.toNat_lt
  have hu := u.toNat_lt
  have htm := t.toNat_mod
  have hum := u.toNat_mod
  have hi := toNat_index i
  have hlt := i.isLt
  unfold Mem.InRange entryPtr at h
  bv_omega

theorem OwnPage.mono (h : OwnPage frames slide root s s₁ u) (hle : s₁.taken ≤ s₂.taken) :
    OwnPage frames slide root s s₂ u := by
  rcases h with h | ⟨k, hk, hk', hu⟩
  · exact Or.inl h
  · exact Or.inr ⟨k, hk, hk'.trans_le hle, hu⟩

theorem Lands.mono {r : Range} (h : Lands frames slide root s s₁ r) (hle : s₁.taken ≤ s₂.taken) :
    Lands frames slide root s s₂ r := by
  obtain ⟨u, hu, hr⟩ := h
  exact ⟨u, hu.mono hle, hr⟩

theorem Grows.ownPage (h : Grows frames slide root s s₁) {p : List (Fin 512)} (hlen : p.length ≤ 3)
    (hp : tableAt s₁.mem slide root p = some u) : OwnPage frames slide root s s₁ u := by
  rcases h.new p u hlen hp with hold | hnew
  · exact Or.inl ⟨p, hlen, hold⟩
  · exact Or.inr hnew

theorem mem_ensureTableWrites {entry : Word} {r : Range}
    (hr : r ∈ ensureTableWrites frames slide entry s) :
    frames s.taken ≠ 0 ∧ (ensureTable frames slide entry s).2.taken = s.taken + 1 ∧
      (r = ⟨frames s.taken + slide, 0x1000⟩ ∨ r = ⟨entry, 8⟩) := by
  unfold ensureTableWrites allocTable Machine.allocPage at hr
  unfold ensureTable allocTable Machine.allocPage
  by_cases hp : s.mem.read64 entry &&& PageBits.present = 0
  swap
  · rw [if_neg hp] at hr
    simp at hr
  by_cases hphys : frames s.taken = 0
  · simp [hphys] at hr
  by_cases hvirt : frames s.taken + slide = 0
  · simp only [if_pos hp, if_neg hphys, hvirt, if_true, List.not_mem_nil] at hr
  · simp only [if_pos hp, if_neg hphys, if_neg hvirt, List.mem_cons, List.not_mem_nil,
      or_false] at hr ⊢
    exact ⟨hphys, trivial, hr⟩

/-- Below a table of the pagemap, the calls of `ensure_table` store to tables and new pages. -/
theorem ensureTables_lands (hframes : FreshFrames frames) {virt : Word} {is p : List (Fin 512)}
    (hgrows : Grows frames slide root s s₁)
    (hclear : UpperAll tableOf (entry s₁.mem slide) root 3 (ClearOn virt))
    (hp : tableAt s₁.mem slide root p = some t) (hpath : p ++ is = tablePath virt) :
    Grows frames slide root s₁ (ensureTables frames slide (t.val + slide) is s₁).2.2 ∧
      (∀ r ∈ (ensureTables frames slide (t.val + slide) is s₁).1,
        Lands frames slide root s (ensureTables frames slide (t.val + slide) is s₁).2.2 r) ∧
      ((ensureTables frames slide (t.val + slide) is s₁).2.1 ≠ 0 → ∃ pt : Frame,
        (ensureTables frames slide (t.val + slide) is s₁).2.1 = pt.val + slide ∧
        tableAt (ensureTables frames slide (t.val + slide) is s₁).2.2.mem slide root
          (tablePath virt) = some pt) := by
  induction is generalizing p t s₁ with
  | nil =>
      rw [List.append_nil] at hpath
      exact ⟨.refl hgrows.tree, by simp [ensureTables], fun _ => ⟨t, rfl, hpath ▸ hp⟩⟩
  | cons i is ih =>
      have hpre : (p ++ [i]) <+: tablePath virt := ⟨is, by simpa using hpath⟩
      have hlen : p.length ≤ 3 := by
        have := congrArg List.length hpath
        simp only [List.length_append, List.length_cons, tablePath, List.length_nil] at this
        omega
      obtain ⟨next, s₂, hres, hg, -, hclear₂, hnext⟩ :=
        ensureTable_step hframes hgrows.tree hclear hp hpre
      have hstep : ∀ r ∈ ensureTableWrites frames slide
          (entryPtr (t.val + slide) (BitVec.ofNat 64 i)) s₁, Lands frames slide root s s₂ r := by
        intro r hr
        obtain ⟨hphys, htaken, hr⟩ := mem_ensureTableWrites hr
        have htaken' : s₂.taken = s₁.taken + 1 := by simpa only [hres] using htaken
        rcases hr with rfl | rfl
        · let v : Frame :=
            ⟨frames s₁.taken, and_ppnMask_of_aligned (hframes.aligned _) (hframes.bound _)⟩
          exact ⟨v, Or.inr ⟨s₁.taken, hgrows.taken, by omega, rfl, hphys⟩, fun x hx => hx⟩
        · exact ⟨t, (hgrows.ownPage hlen hp).mono hg.taken, fun x hx => mem_entryPtr hx⟩
      simp only [ensureTables, hres]
      by_cases hz : next = 0
      · simp only [if_pos hz]
        exact ⟨hg, hstep, fun h => absurd rfl h⟩
      obtain ⟨v, rfl, hv⟩ := hnext hz
      obtain ⟨hg', hlands, hlast⟩ := ih (hgrows.trans hg) hclear₂ hv (by simpa using hpath)
      simp only [if_neg hz]
      refine ⟨hg.trans hg', fun r hr => ?_, hlast⟩
      rcases List.mem_append.1 hr with hr | hr
      · exact (hstep r hr).mono hg'.taken
      · exact hlands r hr

end Lands

end UnnamedKernel.Mm.Vmm
