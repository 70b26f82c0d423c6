import UnnamedKernel.Mm.Vmm.Refine

/-!
# What calls of `map_virtual` leave alone

`Advances` says what any calls for some pages may do to a pagemap: link tables in
frames taken meanwhile, and change the translations of those pages. A frame that
was taken for data is never used as a table.
-/

namespace UnnamedKernel.Mm.Vmm

open UnnamedKernel.Lib UnnamedKernel.Kernel RadixTree

structure Advances (frames : FrameAnswers) (slide : Word) (root : Frame) (pages : Set Word)
    (s s' : Machine) : Prop where
  tree : Tree frames slide root s'
  taken : s.taken ≤ s'.taken
  new : ∀ p x, p.length ≤ 3 → tableAt s'.mem slide root p = some x →
    tableAt s.mem slide root p = some x ∨
      ∃ k, s.taken ≤ k ∧ k < s'.taken ∧ frames k = x.val ∧ frames k ≠ 0
  upper : ∀ ok, Linkable ok → UpperAll tableOf (entry s.mem slide) root 3 ok →
    UpperAll tableOf (entry s'.mem slide) root 3 ok
  walks : ∀ va, (∀ v ∈ pages, path va ≠ path v) →
    walk s'.mem slide root va = walk s.mem slide root va

/-- Frame `k` was not made a page-table page. -/
def NotTable (frames : FrameAnswers) (slide : Word) (root : Frame) (s : Machine) (k : Nat) : Prop :=
  ∀ p x, p.length ≤ 3 → tableAt s.mem slide root p = some x → frames k ≠ x.val

/-- Upper entries on the way to pages of `W` that are present are no large pages. -/
def ClearFor (W : Set Word) (q : List (Fin 512)) (e : Word) : Prop := ∀ v ∈ W, ClearOn v q e

/-- Upper entries on the way to pages of `W` that are present are writable. -/
def WritableFor (W : Set Word) (q : List (Fin 512)) (e : Word) : Prop :=
  ∀ v ∈ W, q <+: tablePath v → isFlagSet e PageBits.present = true →
    isFlagSet e PageBits.readWrite = true

theorem linkable_clearFor (W : Set Word) : Linkable (ClearFor W) :=
  ⟨fun q v _ => (linkable_clearOn v).blank q, fun q u v _ => (linkable_clearOn v).linked q u⟩

theorem linkable_writableFor (W : Set Word) : Linkable (WritableFor W) := by
  refine ⟨fun _ _ _ _ h => absurd h (by decide), fun _ u _ _ _ _ => ?_⟩
  rw [isFlagSet_readWrite, tableEntry_getLsbD u (by decide)]
  decide

theorem UpperAll.clearOn {store : Frame → Fin 512 → Word} {root : Frame} {W : Set Word}
    (h : UpperAll tableOf store root 3 (ClearFor W)) {v : Word} (hv : v ∈ W) :
    UpperAll tableOf store root 3 (ClearOn v) := fun p i t hlen hp => h p i t hlen hp v hv

theorem UpperAll.clearFor_mono {store : Frame → Fin 512 → Word} {root : Frame} {V W : Set Word}
    (h : UpperAll tableOf store root 3 (ClearFor W)) (hsub : V ⊆ W) :
    UpperAll tableOf store root 3 (ClearFor V) :=
  fun p i t hlen hp v hv => h p i t hlen hp v (hsub hv)

theorem UpperAll.writableFor_mono {store : Frame → Fin 512 → Word} {root : Frame} {V W : Set Word}
    (h : UpperAll tableOf store root 3 (WritableFor W)) (hsub : V ⊆ W) :
    UpperAll tableOf store root 3 (WritableFor V) :=
  fun p i t hlen hp v hv => h p i t hlen hp v (hsub hv)

theorem Tree.notTable {frames : FrameAnswers} {slide : Word} {root : Frame} {s : Machine}
    (h : Tree frames slide root s) {k : Nat} (hk : s.taken ≤ k)
    (hk0 : frames k ≠ 0) : NotTable frames slide root s k := by
  intro p x hlen hp he
  exact h.unused k x hk he hk0 p hlen hp

namespace Advances

variable {frames : FrameAnswers} {slide : Word} {root : Frame} {pages pages' : Set Word}
  {s s₁ s₂ : Machine}

theorem of_grows (h : Grows frames slide root s s₁) : Advances frames slide root pages s s₁ :=
  ⟨h.tree, h.taken, h.new, h.upper, fun va _ => h.walks va⟩

theorem refl (h : Tree frames slide root s) : Advances frames slide root pages s s :=
  of_grows (.refl h)

theorem trans (h₁ : Advances frames slide root pages s s₁)
    (h₂ : Advances frames slide root pages s₁ s₂) : Advances frames slide root pages s s₂ where
  tree := h₂.tree
  taken := h₁.taken.trans h₂.taken
  new p x hlen hp := by
    rcases h₂.new p x hlen hp with hp | ⟨k, hk, hk', hx⟩
    · rcases h₁.new p x hlen hp with hp | ⟨k, hk, hk', hx⟩
      · exact Or.inl hp
      · exact Or.inr ⟨k, hk, hk'.trans_le h₂.taken, hx⟩
    · exact Or.inr ⟨k, h₁.taken.trans hk, hk', hx⟩
  upper ok hok hup := h₂.upper ok hok (h₁.upper ok hok hup)
  walks va hva := (h₂.walks va hva).trans (h₁.walks va hva)

theorem mono (h : Advances frames slide root pages s s₁) (hsub : pages ⊆ pages') :
    Advances frames slide root pages' s s₁ :=
  ⟨h.tree, h.taken, h.new, h.upper, fun va hva => h.walks va fun v hv => hva v (hsub hv)⟩

/-- Frames taken before are used as tables only if they were. -/
theorem notTable (hframes : FreshFrames frames) (h : Advances frames slide root pages s s₁)
    {k : Nat} (hk : k < s.taken) (hk0 : frames k ≠ 0) (hn : NotTable frames slide root s k) :
    NotTable frames slide root s₁ k := by
  intro p x hlen hp he
  rcases h.new p x hlen hp with hp | ⟨j, hj, -, hjx, -⟩
  · exact hn p x hlen hp he
  · have := hframes.distinct k j hk0 (he.trans hjx.symm)
    omega

end Advances

section MapVirtual

variable {frames : FrameAnswers} {slide : Word} {root : Frame} {s : Machine} {virt : Word}
  (phys : Word) (flags : MapFlags)

theorem mapVirtual_advances (hframes : FreshFrames frames) (h : Tree frames slide root s)
    (hclear : UpperAll tableOf (entry s.mem slide) root 3 (ClearOn virt)) :
    Advances frames slide root {virt} s
      (mapVirtual frames slide (root.val + slide) virt phys flags s).2 := by
  obtain ⟨s₁, hgrows, ⟨s', hres, hmem, htaken⟩ | ⟨-, -, -, -, pt, hpt, hres⟩⟩ :=
    mapVirtual_spec hframes h phys flags hclear
  · rw [hres]
    exact .of_grows (hgrows.trans (.of_taken hgrows.tree hmem htaken.ge))
  · rw [hres]
    refine (Advances.of_grows hgrows).trans ⟨setLeaf_tree hgrows.tree hpt, Nat.le_refl _,
      fun p x hlen hp => Or.inl ?_, fun ok _ hup => setLeaf_upper hgrows.tree hpt hup,
      fun va hva => setLeaf_walk_other hgrows.tree hpt (hva virt rfl)⟩
    exact (setLeaf_tableAt hgrows.tree hpt hlen).symm.trans hp

theorem foldl_restrict_writable {links : List Word} {a : Access} (ha : a.writable = true)
    (h : ∀ e ∈ links, isFlagSet e PageBits.readWrite = true) :
    (links.foldl Access.restrict a).writable = true := by
  induction links generalizing a with
  | nil => exact ha
  | cons e links ih =>
      exact ih (by simp [Access.restrict, ha, h e]) fun x hx => h x (by simp [hx])

/-- A call that succeeds maps its page to `phys`, without execute permission unless asked for,
and writable if the tables above and the flags allow it. -/
theorem mapVirtual_mapped (hframes : FreshFrames frames) (h : Tree frames slide root s)
    (hclear : UpperAll tableOf (entry s.mem slide) root 3 (ClearOn virt))
    (hphys : phys.toNat % 4096 = 0) (hbound : phys.toNat < 2 ^ 52)
    (hexec : isFlagSet flags MapFlags.execute = false)
    (hok : (mapVirtual frames slide (root.val + slide) virt phys flags s).1 = true) :
    ∃ mp, walk (mapVirtual frames slide (root.val + slide) virt phys flags s).2.mem slide root
        virt = some mp ∧ mp.phys = phys ∧ mp.access.noExecute = true ∧
      (UpperAll tableOf (entry s.mem slide) root 3 (WritableFor {virt}) →
        isFlagSet flags MapFlags.write = true → mp.access.writable = true) := by
  obtain ⟨s₁, hgrows, ⟨s', hres, hmem, htaken⟩ | ⟨-, -, -, -, pt, hpt, hres⟩⟩ :=
    mapVirtual_spec hframes h phys flags hclear
  · rw [hres] at hok
    simp at hok
  obtain ⟨hpresent, hw, -, hx, -, -⟩ := leafEntry_flags phys flags
  rw [hres]
  refine ⟨_, setLeaf_walk_self hgrows.tree hpt hpresent, ?_, ?_, fun hup hwrite => ?_⟩
  · show leafEntry phys flags &&& ppnMask = phys
    rw [leafEntry_frame, and_ppnMask_of_aligned hphys hbound]
  · simp [Mapping.of, Access.restrict, hx, hexec]
  · have hlinks : ∀ e ∈ trail tableOf (entry s₁.mem slide) root (tablePath virt),
        isFlagSet e PageBits.readWrite = true := by
      intro e he
      obtain ⟨q, hq, hqe⟩ := (hgrows.upper _ (linkable_writableFor _) hup).trail hpt
        (Nat.le_refl 3) e he
      have hlink := links_of_mem_trail hpt e he
      exact hqe virt rfl hq ((tableOf_isSome_iff e).1 hlink).1
    have hchain := foldl_restrict_writable (a := .all) rfl hlinks
    simp [Mapping.of, Access.restrict, hchain, hw, hwrite]

end MapVirtual

end UnnamedKernel.Mm.Vmm
