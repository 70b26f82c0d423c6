import UnnamedKernel.Mm.Vmm.Entries

/-!
# The pagemap stays a tree

`Tree` says that no table of the pagemap is shared and that the frames still to be
handed out are not tables. Linking a missing table only grows the pagemap and
changes no translation; the final store changes the translation of one page.
-/

namespace UnnamedKernel.Mm.Vmm

open UnnamedKernel.Lib UnnamedKernel.Kernel RadixTree

/-- `alloc_page` returns page-aligned frames below `2 ^ 52`, none of them twice. -/
structure FreshFrames (frames : FrameAnswers) : Prop where
  aligned : ∀ k, (frames k).toNat % 4096 = 0
  bound : ∀ k, (frames k).toNat < 2 ^ 52
  distinct : ∀ j k, frames j ≠ 0 → frames j = frames k → j = k

theorem FreshFrames.single {f : Word} (hmod : f.toNat % 4096 = 0) (hlt : f.toNat < 2 ^ 52) :
    FreshFrames fun k => if k = 0 then f else 0 := by
  refine ⟨fun k => ?_, fun k => ?_, fun j k hj hjk => ?_⟩
  · split_ifs
    · exact hmod
    · rfl
  · split_ifs
    · exact hlt
    · decide
  · by_cases hj0 : j = 0
    · by_cases hk0 : k = 0
      · exact hj0.trans hk0.symm
      · rw [hjk, if_neg hk0] at hj
        exact absurd rfl hj
    · rw [if_neg hj0] at hj
      exact absurd rfl hj

/-- The table that a path of indices leads to. -/
abbrev tableAt (m : Mem) (slide : Word) (root : Frame) (p : List (Fin 512)) : Option Frame :=
  descend tableOf (entry m slide) root p

structure Tree (frames : FrameAnswers) (slide : Word) (root : Frame) (s : Machine) : Prop where
  noSharing : NoSharing tableOf (entry s.mem slide) root 3
  unused : ∀ k u, s.taken ≤ k → frames k = u.val → frames k ≠ 0 →
    Fresh tableOf (entry s.mem slide) root 3 u

/-- An invariant of upper entries that links to new tables satisfy. -/
structure Linkable (ok : List (Fin 512) → Word → Prop) : Prop where
  blank : ∀ path, ok path 0
  linked : ∀ path u, ok path (tableEntry u)

/-- From `s` to `s'`, empty tables in frames taken meanwhile may have been linked. -/
structure Grows (frames : FrameAnswers) (slide : Word) (root : Frame) (s s' : Machine) : Prop where
  tree : Tree frames slide root s'
  taken : s.taken ≤ s'.taken
  keeps : ∀ p x, p.length ≤ 3 → tableAt s.mem slide root p = some x →
    tableAt s'.mem slide root p = some x
  new : ∀ p x, p.length ≤ 3 → tableAt s'.mem slide root p = some x →
    tableAt s.mem slide root p = some x ∨
      ∃ k, s.taken ≤ k ∧ k < s'.taken ∧ frames k = x.val ∧ frames k ≠ 0
  upper : ∀ ok, Linkable ok → UpperAll tableOf (entry s.mem slide) root 3 ok →
    UpperAll tableOf (entry s'.mem slide) root 3 ok
  walks : ∀ va, walk s'.mem slide root va = walk s.mem slide root va

section Translate

variable {va : Word}

theorem tableOf_isSome_iff (e : Word) :
    (tableOf e).isSome ↔
      isFlagSet e PageBits.present = true ∧ isFlagSet e largePage = false := by
  unfold tableOf
  split_ifs with h
  · simpa using h
  · simpa using h

theorem translate_links {links : List Word} (hlinks : ∀ e ∈ links, (tableOf e).isSome)
    {level : Nat} (hlen : links.length ≤ level) (a : Access) (es : List Word) :
    translate va level a (links ++ es) =
      translate va (level - links.length) (links.foldl Access.restrict a) es := by
  induction links generalizing level a with
  | nil => simp
  | cons e links ih =>
      obtain ⟨level, rfl⟩ : ∃ n, level = n + 1 := ⟨level - 1, by simp at hlen; omega⟩
      obtain ⟨hpresent, hlarge⟩ := (tableOf_isSome_iff e).1 (hlinks e (by simp))
      have hrest := ih (fun x hx => hlinks x (by simp [hx]))
        (by simpa using hlen : links.length ≤ level) (a.restrict e)
      simp [translate, hpresent, hlarge, hrest]

theorem translate_absent {e : Word} (he : isFlagSet e PageBits.present = false) (level : Nat)
    (a : Access) (es : List Word) : translate va level a (e :: es) = none := by
  cases level <;> simp [translate, he]

end Translate

namespace Grows

variable {frames : FrameAnswers} {slide : Word} {root : Frame} {s s₁ s₂ : Machine}

theorem refl (h : Tree frames slide root s) : Grows frames slide root s s :=
  ⟨h, Nat.le_refl _, fun _ _ _ hp => hp, fun _ _ _ hp => Or.inl hp, fun _ _ hok => hok,
    fun _ => rfl⟩

theorem trans (h₁ : Grows frames slide root s s₁) (h₂ : Grows frames slide root s₁ s₂) :
    Grows frames slide root s s₂ where
  tree := h₂.tree
  taken := h₁.taken.trans h₂.taken
  keeps p x hlen hp := h₂.keeps p x hlen (h₁.keeps p x hlen hp)
  new p x hlen hp := by
    rcases h₂.new p x hlen hp with hp | ⟨k, hk, hk', hx⟩
    · rcases h₁.new p x hlen hp with hp | ⟨k, hk, hk', hx⟩
      · exact Or.inl hp
      · exact Or.inr ⟨k, hk, hk'.trans_le h₂.taken, hx⟩
    · exact Or.inr ⟨k, h₁.taken.trans hk, hk', hx⟩
  upper ok hok hup := h₂.upper ok hok (h₁.upper ok hok hup)
  walks va := (h₂.walks va).trans (h₁.walks va)

theorem of_taken (h : Tree frames slide root s) (hmem : s₁.mem = s.mem)
    (hle : s.taken ≤ s₁.taken) : Grows frames slide root s s₁ := by
  refine ⟨⟨hmem ▸ h.noSharing, fun k u hk => ?_⟩, hle, ?_, ?_, ?_, ?_⟩
  · rw [hmem]
    exact h.unused k u (hle.trans hk)
  all_goals rw [hmem]
  · exact fun _ _ _ hp => hp
  · exact fun _ _ _ hp => Or.inl hp
  · exact fun _ _ hok => hok
  · exact fun _ => rfl

end Grows

section EnsureTable

variable {frames : FrameAnswers} {slide : Word} {root t u : Frame} {s : Machine}
  {p : List (Fin 512)} {i : Fin 512}

/-- Clearing the page of a fresh frame and linking it, as one step on entries. -/
theorem linksFresh_store (m : Mem) (slide : Word) {t u : Frame} (i : Fin 512) (hut : u ≠ t)
    (hvirt : u.val + slide ≠ 0) :
    LinksFresh (entry m slide)
      (entry ((memset m (u.val + slide) 0 0x1000).write64
        (entryPtr (t.val + slide) (BitVec.ofNat 64 i)) (tableEntry u)) slide)
      t i u (tableEntry u) 0 := by
  rw [memset_eq_fill m 0 0x1000 hvirt]
  have hw := entry_write64 (m.fill (u.val + slide) 0x1000 0) slide t i (tableEntry u)
  refine ⟨hw.here, fun j => ?_, fun x j hx hxi => ?_⟩
  · rw [hw.other u j fun h => hut h.1, entry_fill_same]
  · rw [hw.other x j hxi, entry_fill_other hx]

theorem grows_link (s' : Machine) {k : Nat} (hframes : FreshFrames frames)
    (h : Tree frames slide root s) (hp : tableAt s.mem slide root p = some t)
    (hlen : p.length < 3) (habsent : isFlagSet (entry s.mem slide t i) PageBits.present = false)
    (hk : s.taken = k) (hu : frames k = u.val) (hu0 : frames k ≠ 0) (hk' : s'.taken = k + 1)
    (hl : LinksFresh (entry s.mem slide) (entry s'.mem slide) t i u (tableEntry u) 0) :
    Grows frames slide root s s' ∧ tableAt s'.mem slide root (p ++ [i]) = some u := by
  subst hk
  have hfresh := h.unused s.taken u (Nat.le_refl _) hu hu0
  have hnone : tableOf (entry s.mem slide t i) = none := by
    simp [tableOf, habsent]
  have he := tableOf_tableEntry u
  have hiff : ∀ {q}, q.length ≤ 3 → ∀ x, tableAt s'.mem slide root q = some x ↔
      (q = p ++ [i] ∧ x = u) ∨ tableAt s.mem slide root q = some x := fun hq x =>
    hl.descend_iff h.noSharing hfresh hp hlen he tableOf_zero hnone hq x
  refine ⟨⟨⟨hl.noSharing h.noSharing hfresh hp hlen he tableOf_zero hnone, ?_⟩, by omega,
    fun q x hq hx => (hiff hq x).2 (Or.inr hx), fun q x hq hx => ?_, fun ok hok hup => ?_,
    fun va => ?_⟩, hl.descend_new h.noSharing hfresh hp hlen he⟩
  · intro j v hj hv hv0 q hq hx
    rcases (hiff hq v).1 hx with ⟨-, rfl⟩ | hold
    · have := hframes.distinct j s.taken hv0 (hv.trans hu.symm)
      omega
    · exact h.unused j v (by omega) hv hv0 q hq hold
  · rcases (hiff hq x).1 hx with ⟨-, rfl⟩ | hold
    · exact Or.inr ⟨s.taken, Nat.le_refl _, by omega, hu, hu0⟩
    · exact Or.inl hold
  · exact hl.upperAll h.noSharing hfresh hp hlen he tableOf_zero hnone hup
      (hok.linked _ u) fun path => hok.blank path
  · -- a walk through the new link finds an entry that is not present, before and after
    unfold walk
    by_cases hpre : (p ++ [i]) <+: path va
    · obtain ⟨r, hr⟩ := hpre
      have hrlen : (p ++ [i] ++ r).length = 4 := by
        rw [hr]
        rfl
      simp only [List.length_append, List.length_cons, List.length_nil] at hrlen
      obtain ⟨j, r, rfl⟩ := List.exists_cons_of_length_pos (by omega : 0 < r.length)
      have hpath : path va = p ++ i :: j :: r := by simpa using hr.symm
      obtain ⟨hold, hnew⟩ :=
        hl.trail_through h.noSharing hfresh hp hlen he tableOf_zero hnone j r
      have hlinks := links_of_mem_trail hp
      have hTlen := trail_length hp
      have hzero : isFlagSet (0 : Word) PageBits.present = false := by decide
      rw [hpath, hold, hnew, translate_links hlinks (by omega),
        translate_links hlinks (by omega), translate_absent habsent]
      have hlinks' : ∀ e ∈ [tableEntry u], (tableOf e).isSome := by simp [he]
      exact (translate_links hlinks' (by simp; omega) _ [0]).trans (translate_absent hzero _ _ _)
    · rw [(hl.off_path h.noSharing hfresh hp hlen (by simp [path, tablePath]) hpre).2]

/-- What one call of `ensure_table` does: follow the entry, find no frame, or link a new one. -/
theorem ensureTable_cases (hframes : FreshFrames frames) (slide : Word) (t : Frame) (i : Fin 512)
    (s : Machine) :
    isFlagSet (entry s.mem slide t i) PageBits.present = true ∧
      ensureTable frames slide (entryPtr (t.val + slide) (BitVec.ofNat 64 i)) s =
        ((frameOf (entry s.mem slide t i)).val + slide, s) ∨
    isFlagSet (entry s.mem slide t i) PageBits.present = false ∧
      ((frames s.taken = 0 ∨ frames s.taken + slide = 0) ∧
        ensureTable frames slide (entryPtr (t.val + slide) (BitVec.ofNat 64 i)) s =
          (0, { s with taken := s.taken + 1 }) ∨
      frames s.taken ≠ 0 ∧ frames s.taken + slide ≠ 0 ∧ ∃ u : Frame, frames s.taken = u.val ∧
        ensureTable frames slide (entryPtr (t.val + slide) (BitVec.ofNat 64 i)) s =
          (u.val + slide, { s with
            mem := (memset s.mem (u.val + slide) 0 0x1000).write64
              (entryPtr (t.val + slide) (BitVec.ofNat 64 i)) (tableEntry u)
            taken := s.taken + 1 })) := by
  have hread : s.mem.read64 (entryPtr (t.val + slide) (BitVec.ofNat 64 i)) =
      entry s.mem slide t i := rfl
  unfold ensureTable
  simp only [hread, and_present_eq_zero_iff]
  by_cases hpresent : isFlagSet (entry s.mem slide t i) PageBits.present = true
  · exact Or.inl ⟨hpresent, if_neg (by simp [hpresent])⟩
  have habsent : isFlagSet (entry s.mem slide t i) PageBits.present = false := by
    simpa using hpresent
  refine Or.inr ⟨habsent, ?_⟩
  rw [if_pos habsent]
  unfold allocTable Machine.allocPage
  by_cases hzero : frames s.taken = 0
  · simp only [if_pos hzero, if_true]
    exact Or.inl ⟨Or.inl hzero, trivial⟩
  simp only [if_neg hzero]
  by_cases hvirt : frames s.taken + slide = 0
  · have hmem : memset s.mem (frames s.taken + slide) 0 0x1000 = s.mem := by simp [memset, hvirt]
    simp only [if_pos hvirt, hmem]
    exact Or.inl ⟨Or.inr hvirt, trivial⟩
  simp only [if_neg hvirt]
  exact Or.inr ⟨hzero, hvirt,
    ⟨frames s.taken, and_ppnMask_of_aligned (hframes.aligned _) (hframes.bound _)⟩, rfl, rfl⟩

/-- `ensure_table` on an entry of a reachable table: null, or the next table of the path. -/
theorem ensureTable_spec (hframes : FreshFrames frames) (h : Tree frames slide root s)
    (hp : tableAt s.mem slide root p = some t) (hlen : p.length < 3)
    (hclear : isFlagSet (entry s.mem slide t i) PageBits.present = true →
      isFlagSet (entry s.mem slide t i) largePage = false) :
    ∃ ptr s', ensureTable frames slide (entryPtr (t.val + slide) (BitVec.ofNat 64 i)) s =
        (ptr, s') ∧ Grows frames slide root s s' ∧ s'.error = s.error ∧
      (ptr ≠ 0 → ∃ u : Frame, ptr = u.val + slide ∧
        tableAt s'.mem slide root (p ++ [i]) = some u) := by
  rcases ensureTable_cases hframes slide t i s with
    ⟨hpresent, hres⟩ | ⟨habsent, ⟨-, hres⟩ | ⟨hzero, hvirt, u, hu, hres⟩⟩
  · refine ⟨_, s, hres, .refl h, rfl, fun _ => ⟨frameOf (entry s.mem slide t i), rfl, ?_⟩⟩
    rw [tableAt, descend_concat hp, tableOf, if_pos ⟨hpresent, by simp [hclear hpresent]⟩]
  · exact ⟨0, _, hres, .of_taken h rfl (Nat.le_succ _), rfl, fun hne => absurd rfl hne⟩
  · have hut : u ≠ t := fun he =>
      h.unused s.taken u (Nat.le_refl _) hu hzero p (by omega) (he ▸ hp)
    have hl := linksFresh_store s.mem slide i hut (hu ▸ hvirt)
    obtain ⟨hgrows, hnew⟩ :=
      grows_link ⟨_, s.taken + 1, s.error⟩ hframes h hp hlen habsent rfl hu hzero rfl hl
    exact ⟨_, _, hres, hgrows, rfl, fun _ => ⟨u, rfl, hnew⟩⟩

/-- No entry on the way to the bottom table of `virt` is a large page. -/
def ClearOn (virt : Word) (q : List (Fin 512)) (e : Word) : Prop :=
  q <+: tablePath virt → isFlagSet e PageBits.present = true → isFlagSet e largePage = false

theorem linkable_clearOn (virt : Word) : Linkable (ClearOn virt) := by
  refine ⟨fun _ _ h => absurd h (by decide), fun _ u _ _ => ?_⟩
  rw [isFlagSet_largePage, tableEntry_getLsbD u (by decide)]
  decide

theorem ensureTable_step (hframes : FreshFrames frames) (h : Tree frames slide root s)
    {virt : Word} (hclear : UpperAll tableOf (entry s.mem slide) root 3 (ClearOn virt))
    (hp : tableAt s.mem slide root p = some t) (hpre : (p ++ [i]) <+: tablePath virt) :
    ∃ ptr s', ensureTable frames slide (entryPtr (t.val + slide) (BitVec.ofNat 64 i)) s =
        (ptr, s') ∧ Grows frames slide root s s' ∧ s'.error = s.error ∧
      UpperAll tableOf (entry s'.mem slide) root 3 (ClearOn virt) ∧
      (ptr ≠ 0 → ∃ u : Frame, ptr = u.val + slide ∧
        tableAt s'.mem slide root (p ++ [i]) = some u) := by
  have hlen : p.length < 3 := by
    have := hpre.length_le
    simp only [List.length_append, List.length_cons, List.length_nil, tablePath] at this
    omega
  obtain ⟨ptr, s', hres, hgrows, herr, hnext⟩ :=
    ensureTable_spec hframes h hp hlen (hclear p i t hlen hp hpre)
  exact ⟨ptr, s', hres, hgrows, herr, hgrows.upper _ (linkable_clearOn virt) hclear, hnext⟩

theorem index_eq (va : Word) (level : Nat) :
    (va >>> (12 + 9 * level)) &&& 0x1ff = BitVec.ofNat 64 (levelIndex level va).val := by
  apply BitVec.eq_of_toNat_eq
  rw [BitVec.toNat_ofNat]
  exact (Nat.mod_eq_of_lt (BitVec.isLt _)).symm

/-- The machine after the final entry of `virt` has been written. -/
def Machine.setLeaf (s : Machine) (slide : Word) (pt : Frame) (virt e : Word) : Machine :=
  let ptr := entryPtr (pt.val + slide) (BitVec.ofNat 64 (levelIndex 0 virt))
  { s with mem := s.mem.write64 ptr e }

/-- `map_virtual` grows the pagemap, then either gives up or writes the final entry. -/
theorem mapVirtual_spec (hframes : FreshFrames frames) (h : Tree frames slide root s)
    {virt : Word} (phys : Word) (flags : MapFlags)
    (hclear : UpperAll tableOf (entry s.mem slide) root 3 (ClearOn virt)) :
    ∃ s₁, Grows frames slide root s s₁ ∧
      ((∃ s', mapVirtual frames slide (root.val + slide) virt phys flags s = (false, s') ∧
          s'.mem = s₁.mem ∧ s'.taken = s₁.taken) ∨
        virt ≠ 0 ∧ virt.toNat % 4096 = 0 ∧ phys ≠ 0 ∧ phys.toNat % 4096 = 0 ∧
        ∃ pt : Frame, tableAt s₁.mem slide root (tablePath virt) = some pt ∧
          mapVirtual frames slide (root.val + slide) virt phys flags s =
            (true, s₁.setLeaf slide pt virt (leafEntry phys flags))) := by
  have h3 := index_eq virt 3
  have h2 := index_eq virt 2
  have h1 := index_eq virt 1
  have h0 := index_eq virt 0
  simp only [Nat.mul_zero, Nat.add_zero, Nat.mul_one, Nat.reduceMul, Nat.reduceAdd] at h3 h2 h1 h0
  unfold mapVirtual
  simp only [h3, h2, h1, h0]
  by_cases hv : virt = 0 ∨ ¬ checkAligned virt pageSize = true
  · rw [if_pos hv]
    exact ⟨s, .refl h, Or.inl ⟨_, rfl, rfl, rfl⟩⟩
  rw [if_neg hv]
  by_cases hph : phys = 0 ∨ ¬ checkAligned phys pageSize = true
  · rw [if_pos hph]
    exact ⟨s, .refl h, Or.inl ⟨_, rfl, rfl, rfl⟩⟩
  rw [if_neg hph]
  by_cases hr : root.val + slide = 0
  · rw [if_pos hr]
    exact ⟨s, .refl h, Or.inl ⟨_, rfl, rfl, rfl⟩⟩
  rw [if_neg hr]
  simp only [not_or, not_not] at hv hph
  obtain ⟨pdpt, s₁, hres₁, hg₁, -, hc₁, hn₁⟩ :=
    ensureTable_step (p := []) (i := levelIndex 3 virt) hframes h hclear rfl ⟨_, rfl⟩
  rw [hres₁]
  by_cases hz₁ : pdpt = 0
  · exact ⟨s₁, hg₁, Or.inl ⟨s₁, by simp [hz₁], rfl, rfl⟩⟩
  obtain ⟨u₁, rfl, hu₁⟩ := hn₁ hz₁
  obtain ⟨pd, s₂, hres₂, hg₂, -, hc₂, hn₂⟩ :=
    ensureTable_step (i := levelIndex 2 virt) hframes hg₁.tree hc₁ hu₁ ⟨_, rfl⟩
  simp only [if_neg hz₁, hres₂]
  by_cases hz₂ : pd = 0
  · exact ⟨s₂, hg₁.trans hg₂, Or.inl ⟨s₂, by simp [hz₂], rfl, rfl⟩⟩
  obtain ⟨u₂, rfl, hu₂⟩ := hn₂ hz₂
  obtain ⟨pt, s₃, hres₃, hg₃, -, -, hn₃⟩ :=
    ensureTable_step (i := levelIndex 1 virt) hframes hg₂.tree hc₂ hu₂ ⟨_, rfl⟩
  simp only [if_neg hz₂, hres₃]
  by_cases hz₃ : pt = 0
  · exact ⟨s₃, (hg₁.trans hg₂).trans hg₃, Or.inl ⟨s₃, by simp [hz₃], rfl, rfl⟩⟩
  obtain ⟨u₃, rfl, hu₃⟩ := hn₃ hz₃
  refine ⟨s₃, (hg₁.trans hg₂).trans hg₃, Or.inr ⟨hv.1, (checkAligned_pageSize virt).1 hv.2, hph.1,
    (checkAligned_pageSize phys).1 hph.2, u₃, hu₃, ?_⟩⟩
  simp only [if_neg hz₃, leafEntry]
  rfl

end EnsureTable

/-! ## The final store -/

section Leaf

variable {frames : FrameAnswers} {slide : Word} {root pt : Frame} {s : Machine} {virt : Word}
  {e : Word}

theorem setLeaf_writes (s : Machine) (slide : Word) (pt : Frame) (virt e : Word) :
    WritesEntry (entry s.mem slide) (entry (s.setLeaf slide pt virt e).mem slide) pt
      (levelIndex 0 virt) e :=
  entry_write64 s.mem slide pt (levelIndex 0 virt) e

variable (h : Tree frames slide root s)
  (hpt : tableAt s.mem slide root (tablePath virt) = some pt)

include h hpt

theorem setLeaf_tableAt {p : List (Fin 512)} (hlen : p.length ≤ 3) :
    tableAt (s.setLeaf slide pt virt e).mem slide root p = tableAt s.mem slide root p :=
  (setLeaf_writes s slide pt virt e).descend_bottom h.noSharing hpt rfl hlen

theorem setLeaf_tree : Tree frames slide root (s.setLeaf slide pt virt e) := by
  refine ⟨(setLeaf_writes s slide pt virt e).noSharing_bottom h.noSharing hpt rfl, ?_⟩
  intro k u hk hu hu0 p hlen
  show tableAt (s.setLeaf slide pt virt e).mem slide root p ≠ some u
  rw [setLeaf_tableAt h hpt hlen]
  exact h.unused k u hk hu hu0 p hlen

theorem setLeaf_upper {ok : List (Fin 512) → Word → Prop}
    (hok : UpperAll tableOf (entry s.mem slide) root 3 ok) :
    UpperAll tableOf (entry (s.setLeaf slide pt virt e).mem slide) root 3 ok :=
  (setLeaf_writes s slide pt virt e).upperAll_bottom h.noSharing hpt rfl hok

theorem setLeaf_walk_other {va : Word} (hva : path va ≠ path virt) :
    walk (s.setLeaf slide pt virt e).mem slide root va = walk s.mem slide root va := by
  have hoff : ¬ (tablePath virt ++ [levelIndex 0 virt]) <+: path va := fun hpre =>
    hva (hpre.eq_of_length rfl).symm
  have hlen : (path va).length ≤ 3 + 1 := Nat.le_refl 4
  unfold walk
  rw [((setLeaf_writes s slide pt virt e).off_path h.noSharing hpt (Nat.le_refl 3) hlen hoff).2]

theorem setLeaf_walk_self (he : isFlagSet e PageBits.present = true) :
    walk (s.setLeaf slide pt virt e).mem slide root virt = some (.of (e &&& ppnMask)
      ((trail tableOf (entry s.mem slide) root (tablePath virt)).foldl Access.restrict .all)
      e) := by
  have hlinks := links_of_mem_trail hpt
  have hTlen : (trail tableOf (entry s.mem slide) root (tablePath virt)).length = 3 :=
    trail_length hpt
  unfold walk path
  rw [(setLeaf_writes s slide pt virt e).trail_bottom h.noSharing hpt rfl,
    translate_links hlinks (Nat.le_of_eq hTlen), hTlen]
  simp [translate, he]

end Leaf

end UnnamedKernel.Mm.Vmm
