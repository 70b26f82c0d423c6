import UnnamedKernel.Mm.Paging.Grow

/-!
# `map_virtual` and `alloc_page` in one memory

Runs of both from `init`, in which callers write to the pages that they were given at any time.
The pagemap implements a finite map, and the pages of callers hold what was written to them.
-/

namespace UnnamedKernel.Mm.Paging

open UnnamedKernel.Lib UnnamedKernel.Kernel RadixTree Pma Vmm FreeListAllocator

structure Session where
  state : State
  /-- the pages that callers of `alloc_page` were given -/
  held : List Range := []
  /-- what these pages hold, for their owners -/
  contents : Mem
  /-- what the last successful call for each page asked for -/
  mapped : Word → Option Mapping

inductive Call where
  | map (c : Vmm.Call)
  | alloc
  /-- a store to the direct map by the owner of a page -/
  | write (x : Word) (b : BitVec 8)

namespace Session

/-- One call. Stores outside the pages of callers are no owner's and are ignored. -/
def step (slide : Word) (root : Frame) (s : Session) : Call → Option Session
  | .map c => do
      let (ok, state) ← mapVirtual slide (root.val + slide) c.virt c.phys c.flags s.state
      some { s with
        state := state
        mapped := if ok then Function.update s.mapped c.virt (some c.mapping) else s.mapped }
  | .alloc => do
      let (q, state) ← s.state.allocPage slide
      if q = 0 then some { s with state := state }
      else
        some { s with
          state := state
          held := pageAt q :: s.held
          contents := fun x =>
            if x ∈ (pageAt q).shift slide then state.mem x else s.contents x }
  | .write x b =>
      if ∃ r ∈ s.held, x ∈ r.shift slide then
        some { s with
          state := s.state.setMem (Function.update s.state.mem x b)
          contents := Function.update s.contents x b }
      else some s

end Session

/-- Upper entries on the way to `virt` that are present are no large pages and grant everything to
the entries below them. -/
def OpenOn (virt : Word) (q : List (Fin 512)) (e : Word) : Prop :=
  q <+: tablePath virt → Permissive q e

theorem linkable_openOn (virt : Word) : Linkable (OpenOn virt) :=
  ⟨fun q _ => linkable_permissive.blank q, fun q u _ => linkable_permissive.linked q u⟩

/-- The pagemap implements the finite map of the session, in which `m` is the memory before it. -/
structure Implements (slide : Word) (entries : List MemmapEntry) (root : Frame) (m : Mem)
    (s : Session) : Prop where
  shared : ∃ blocks tables, Shared slide entries root s.held s.state blocks tables
  sizes : ∀ r ∈ s.held, r.size = pageSize
  upper : ∀ ok, Linkable ok → UpperAll tableOf (entry m slide) root 3 ok →
    UpperAll tableOf (entry s.state.mem slide) root 3 ok
  walks : ∀ v, Canonical v → v.toNat % 4096 = 0 → walk s.state.mem slide root v = s.mapped v
  contents : ∀ r ∈ s.held, ∀ y ∈ r.shift slide, s.state.mem y = s.contents y

/-- A call maps a page below entries that are open in the memory `m`. -/
def Call.Legal (slide : Word) (root : Frame) (m : Mem) : Call → Prop
  | .map c => c.Legal ∧ UpperAll tableOf (entry m slide) root 3 (OpenOn c.virt)
  | .alloc => True
  | .write _ _ => True

namespace Implements

variable {slide : Word} {entries : List MemmapEntry} {root : Frame} {m : Mem} {s : Session}

theorem deepens (h : Implements slide entries root m s) {state : State}
    (hd : Deepens slide entries root s.held s.state state) :
    Implements slide entries root m { s with state := state } where
  shared := hd.shared
  sizes := h.sizes
  upper ok hok hup := hd.upper ok hok (h.upper ok hok hup)
  walks v hv hva := (hd.walks v).trans (h.walks v hv hva)
  contents r hr y hy := (hd.bytes r hr y hy).trans (h.contents r hr y hy)

theorem map (hbooted : Booted slide entries) (h : Implements slide entries root m s)
    {c : Vmm.Call} (hc : (Call.map c).Legal slide root m) :
    ∃ s', s.step slide root (.map c) = some s' ∧ Implements slide entries root m s' := by
  obtain ⟨hlegal, hopen⟩ := hc
  have hopen' := h.upper _ (linkable_openOn c.virt) hopen
  have hclear : UpperAll tableOf (entry s.state.mem slide) root 3 (ClearOn c.virt) :=
    fun p i t hlen hp hpre hpresent => (hopen' p i t hlen hp hpre hpresent).1
  obtain ⟨s₁, hd, ⟨s', hres, hpma⟩ | ⟨pt, hpt, hres⟩⟩ :=
    mapVirtual_deepens hbooted h.shared c.phys c.flags hclear
  · have h₁ := h.deepens hd
    refine ⟨{ s with state := s' }, by simp [Session.step, hres], ?_⟩
    have hmem : s'.mem = s₁.mem := congrArg FreeListAllocator.mem hpma
    obtain ⟨blocks, tables, hshared⟩ := h₁.shared
    refine ⟨⟨blocks, tables, ⟨by rw [hpma]; exact hshared.apportioned, hshared.pages, ?_, ?_⟩⟩,
      h₁.sizes, ?_, ?_, ?_⟩
    · rw [hmem]
      exact hshared.placed
    · rw [hmem]
      exact hshared.noSharing
    · simp only [hmem]
      exact h₁.upper
    · simp only [hmem]
      exact h₁.walks
    · simp only [hmem]
      exact h₁.contents
  · have h₁ := h.deepens hd
    obtain ⟨blocks, tables, hshared⟩ := h₁.shared
    obtain ⟨hleaf, hbytes⟩ := hshared.setLeaf hpt (leafEntry c.phys c.flags)
    have htree := hshared.noPageTree
    refine ⟨{ s with
      state := s₁.setLeaf slide pt c.virt (leafEntry c.phys c.flags)
      mapped := Function.update s.mapped c.virt (some c.mapping) }, by simp [Session.step, hres],
      ⟨blocks, tables, hleaf⟩, h.sizes, fun ok hok hup => setLeaf_upper htree hpt
        (h₁.upper ok hok hup), fun v hv hva => ?_, fun r hr y hy =>
        (hbytes r hr y hy).trans (h₁.contents r hr y hy)⟩
    show walk (s₁.machine.setLeaf slide pt c.virt (leafEntry c.phys c.flags)).mem slide root v = _
    by_cases hvv : v = c.virt
    · subst hvv
      have hflags := leafEntry_flags c.phys c.flags
      have hall : (trail tableOf (entry s₁.mem slide) root (tablePath c.virt)).foldl
          Access.restrict .all = .all := by
        refine foldl_restrict_permissive fun e he => ⟨links_of_mem_trail hpt e he, ?_⟩
        obtain ⟨q, hq, hqe⟩ := (hd.upper _ (linkable_openOn c.virt) hopen').trail hpt
          (Nat.le_refl 3) e he
        exact hqe hq
      rw [setLeaf_walk_self htree hpt hflags.1, hall, leafEntry_frame,
        and_ppnMask_of_aligned hlegal.physAligned hlegal.physBound]
      obtain ⟨-, hw, hu, hx, hwt, hcd⟩ := hflags
      simp [Mapping.of, Access.restrict, Access.all, Vmm.Call.mapping, hw, hu, hx, hwt, hcd]
    · have hpath : path v ≠ path c.virt := fun hp =>
        hvv (path_injective hv hlegal.canonical hva hlegal.virtAligned hp)
      rw [setLeaf_walk_other htree hpt hpath, h₁.walks v hv hva]
      simp [Function.update_of_ne hvv]

theorem block_apart {held blocks tables : List Range} {state : State}
    (h : Shared slide entries root held state blocks tables) {b r : Range} (hb : b ∈ blocks)
    (hr : r ∈ held) : Range.Apart b (r.shift slide) :=
  (List.pairwise_append.1 h.apportioned.layout.apart).2.2 b hb _
    (List.mem_map_of_mem (List.mem_append_right _ hr))

theorem alloc (hbooted : Booted slide entries) (h : Implements slide entries root m s) :
    ∃ s', s.step slide root .alloc = some s' ∧ Implements slide entries root m s' := by
  obtain ⟨blocks, tables, hshared⟩ := h.shared
  obtain ⟨q, a, hres, hmem, hnone, hsome⟩ := hshared.alloc hbooted.map
  have hcall : s.state.allocPage slide = some (q, { s.state with pma := a }) := by
    rw [State.allocPage, hres]
    rfl
  simp only [Session.step, hcall, bind, Option.bind]
  by_cases hzero : q = 0
  · rw [if_pos hzero, hnone hzero]
    exact ⟨_, rfl, h⟩
  rw [if_neg hzero]
  obtain ⟨blocks', hnext⟩ := hsome hzero
  have hsame : SameTables tableOf (entry s.state.mem slide) (entry a.mem slide) root 3 :=
    hshared.sameTables fun y hy _ => hmem y hy
  refine ⟨_, rfl, ⟨blocks', tables, hnext⟩, fun r hr => ?_, fun ok hok hup =>
    hsame.upperAll (h.upper ok hok hup), fun v hv hva =>
    (walk_of_sameTables hsame v).trans (h.walks v hv hva), fun r hr y hy => ?_⟩
  · rcases List.mem_cons.1 hr with rfl | hr
    · rfl
    · exact h.sizes r hr
  · simp only
    split_ifs with hpage
    · rfl
    · rcases List.mem_cons.1 hr with rfl | hr
      · exact absurd hy hpage
      · rw [← h.contents r hr y hy]
        exact hmem y fun b hb hyb => block_apart hshared hb hr y hyb hy

theorem write (h : Implements slide entries root m s) (x : Word) (b : BitVec 8) :
    ∃ s', s.step slide root (.write x b) = some s' ∧ Implements slide entries root m s' := by
  by_cases hx : ∃ r ∈ s.held, x ∈ r.shift slide
  swap
  · exact ⟨s, by simp only [Session.step, if_neg hx], h⟩
  refine ⟨_, by simp only [Session.step, if_pos hx]; rfl, ?_⟩
  obtain ⟨r, hr, hxr⟩ := hx
  obtain ⟨blocks, tables, hshared⟩ := h.shared
  have hsame : SameTables tableOf (entry s.state.mem slide)
      (entry (Function.update s.state.mem x b) slide) root 3 :=
    hshared.sameTables fun y _ hy => Function.update_of_ne
      (fun he => hy r hr (by rw [he]; exact hxr)) _ _
  refine ⟨⟨blocks, tables, hshared.setMem (fun y c hc hyc => ?_) (fun p t hlen hp => ?_)
    (hsame.noSharing hshared.noSharing)⟩, h.sizes, fun ok hok hup =>
    hsame.upperAll (h.upper ok hok hup), fun v hv hva =>
    (walk_of_sameTables hsame v).trans (h.walks v hv hva), fun q hq y hy => ?_⟩
  · refine Function.update_of_ne ?_ _ _
    rintro rfl
    exact block_apart hshared hc hr y hyc hxr
  · exact hshared.placed p t hlen ((hsame.descend hlen).symm.trans hp)
  · show Function.update s.state.mem x b y = Function.update s.contents x b y
    by_cases hyx : y = x
    · rw [hyx, Function.update_self, Function.update_self]
    · rw [Function.update_of_ne hyx, Function.update_of_ne hyx]
      exact h.contents q hq y hy

theorem step (hbooted : Booted slide entries) (h : Implements slide entries root m s) {c : Call}
    (hc : c.Legal slide root m) :
    ∃ s', s.step slide root c = some s' ∧ Implements slide entries root m s' := by
  cases c with
  | map c => exact h.map hbooted hc
  | alloc => exact h.alloc hbooted
  | write x b => exact h.write x b

end Implements

/-! ## Runs -/

/-- `init`, over the pagemap that the bootloader has left. -/
def Session.start (slide : Word) (entries : List MemmapEntry) (root : Frame) (m : Mem) :
    Session where
  state := { pma := init slide entries { mem := m } }
  contents := m
  mapped := fun v => walk m slide root v

end UnnamedKernel.Mm.Paging
