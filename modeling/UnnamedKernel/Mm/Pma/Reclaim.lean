import UnnamedKernel.Mm.Pma.Free

/-!
# Runs of `alloc` and `free`

The header page of a block that `alloc` cuts is neither handed out nor free again,
so from the first `alloc` on some byte is covered by nothing and joined blocks
cannot overflow their sizes. With a `slide` that is its own inverse the free bytes
and the bytes handed out then stay inside usable memory through any run.
-/

namespace UnnamedKernel.Mm.Pma

open UnnamedKernel.Lib UnnamedKernel.Kernel FreeListAllocator Relation

/-- The frees that do what they should: `slide` is its own inverse, and the block is not
at the null address. -/
def Returnable (slide : Word) (r : Range) : Prop := slide = 0x8000000000000000 ∧ slide + r.addr ≠ 0

instance (slide : Word) (r : Range) : Decidable (Returnable slide r) :=
  inferInstanceAs (Decidable (_ ∧ _))

theorem sub_eq_add_iff (slide x : Word) (hne : slide ≠ 0) :
    x - slide = slide + x ↔ slide = 0x8000000000000000 := by
  constructor <;> intro h <;> bv_omega

namespace Layout

variable {fits : Range → Prop} {M : Set Word} {slide : Word} {blocks blocks' held : List Range}
  {r : Range} {x : Word}

/-- All that is laid out: free blocks and ranges handed out. -/
def bytes (slide : Word) (blocks held : List Range) : Set Word :=
  Range.covered (blocks ++ held.map (Range.shift slide))

theorem bytes_eq (slide : Word) (blocks held : List Range) :
    bytes slide blocks held = Range.covered blocks ∪
      Range.covered (held.map (Range.shift slide)) := by
  ext x
  simp only [bytes, Range.mem_covered, Set.mem_union, List.mem_append, or_and_right, exists_or]

theorem perm_handBack (slide : Word) (blocks : List Range) (hr : r ∈ held) :
    (blocks ++ held.map (Range.shift slide)).Perm
      ((r.shift slide :: blocks) ++ (held.erase r).map (Range.shift slide)) :=
  (((List.perm_cons_erase hr).map _).append_left blocks).trans List.perm_middle

theorem handBack (h : Layout fits slide blocks held) (hr : r ∈ held) :
    Layout fits slide (r.shift slide :: blocks) (held.erase r) := by
  have hperm := perm_handBack slide blocks hr
  exact ⟨pairwise_perm h.apart hperm, fun q hq => h.whole q (hperm.mem_iff.2 hq),
    fun q hq => h.inside q (hperm.mem_iff.2 hq)⟩

theorem bytes_handBack (slide : Word) (blocks : List Range) (hr : r ∈ held) :
    bytes slide (r.shift slide :: blocks) (held.erase r) = bytes slide blocks held :=
  (Range.covered_perm (perm_handBack slide blocks hr)).symm

/-- Joining two blocks keeps the layout, as long as some byte is not laid out. -/
theorem join (h : Layout (fun r => ∀ x ∈ r, x ∈ M) slide blocks held)
    (hx : x ∉ bytes slide blocks held) (hj : Range.Join blocks blocks') :
    Layout (fun r => ∀ x ∈ r, x ∈ M) slide blocks' held ∧
      bytes slide blocks' held = bytes slide blocks held := by
  have hj' := hj.append (held.map (Range.shift slide))
  obtain ⟨a, r, rest, hadj, hp, hp'⟩ := hj'.perm
  have hlt := Range.join_lt hp h.apart hx
  have hmem : ∀ q ∈ blocks' ++ held.map (Range.shift slide),
      q = ⟨a.addr, a.size + r.size⟩ ∨ q ∈ blocks ++ held.map (Range.shift slide) := by
    intro q hq
    rcases List.mem_cons.1 (hp'.mem_iff.1 hq) with hq | hq
    · exact Or.inl hq
    · exact Or.inr (hp.mem_iff.2 (by simp [hq]))
  have ha := hp.mem_iff.2 (show a ∈ a :: r :: rest by simp)
  have hr := hp.mem_iff.2 (show r ∈ a :: r :: rest by simp)
  refine ⟨⟨hj'.pairwise h.apart hx, fun q hq => ?_, fun q hq => ?_⟩, hj'.covered_eq h.apart hx⟩
  · rcases hmem q hq with rfl | hq
    · have hwa := h.whole a ha
      have hwr := h.whole r hr
      have hsum : (a.size + r.size).toNat = a.size.toNat + r.size.toNat := by bv_omega
      exact ⟨hwa.1, by simp only [hsum]; omega, by simp only [hsum]; omega⟩
    · exact h.whole q hq
  · rcases hmem q hq with rfl | hq
    · intro y hy
      rcases (Range.mem_join hadj hlt y).1 hy with hy | hy
      · exact h.inside a ha y hy
      · exact h.inside r hr y hy
    · exact h.inside q hq

theorem joins (h : Layout (fun r => ∀ x ∈ r, x ∈ M) slide blocks held)
    (hx : x ∉ bytes slide blocks held) (hj : ReflTransGen Range.Join blocks blocks') :
    Layout (fun r => ∀ x ∈ r, x ∈ M) slide blocks' held ∧
      bytes slide blocks' held = bytes slide blocks held := by
  induction hj with
  | refl => exact ⟨h, rfl⟩
  | tail _ hstep ih =>
      obtain ⟨hl, hb⟩ := ih
      obtain ⟨hl', hb'⟩ := hl.join (hb ▸ hx) hstep
      exact ⟨hl', hb'.trans hb⟩

theorem covered_eq_diff (h : Layout fits slide blocks held) :
    Range.covered blocks =
      bytes slide blocks held \ Range.covered (held.map (Range.shift slide)) := by
  rw [bytes_eq, Set.union_sdiff_right, eq_comm, sdiff_eq_left, Set.disjoint_left]
  rintro x ⟨b, hb, hxb⟩ ⟨r, hr, hxr⟩
  exact (List.pairwise_append.1 h.apart).2.2 b hb r hr x hxb hxr

end Layout

theorem not_givesBack {fits : Range → Prop} {slide : Word} (hslide : Aligned slide)
    (hne : slide ≠ 0) {s : Session} {blocks : List Range}
    (h : Apportioned fits slide s blocks) {r : Range} (hr : r ∈ s.held)
    (hbad : ¬ Returnable slide r) : ¬ GivesBack slide s.pma r := by
  rintro ⟨s', hres, -, hbytes⟩
  have hmem : r.shift slide ∈ blocks ++ s.held.map (Range.shift slide) :=
    List.mem_append_right _ (List.mem_map_of_mem hr)
  obtain ⟨haligned, hsize, hpos⟩ := h.layout.whole _ hmem
  have hblock : Aligned (r.addr - slide) := by
    have hsub := (haligned.sub hslide).sub hslide
    rwa [Range.shift, show slide + r.addr - slide - slide = r.addr - slide by bv_omega] at hsub
  have hclear : ∀ x ∈ r.shift slide, x ∉ Range.covered blocks := by
    rintro x hx ⟨b, hb, hxb⟩
    exact (List.pairwise_append.1 h.layout.apart).2.2 b hb _ (List.mem_map_of_mem hr) x hxb hx
  by_cases hnull : r.addr - slide = 0
  · -- the header at the null address ends the list
    obtain ⟨s₁, blocks', hres', hlist, hjoin⟩ := free_joins h.list hsize hblock fun hm => by
      obtain ⟨b, hb, hba⟩ := List.mem_map.1 hm
      exact h.list.nonnull b hb (hba.trans hnull)
    obtain rfl : s₁ = s' := Option.some.inj (hres'.symm.trans hres)
    rw [if_pos hnull] at hjoin
    obtain rfl : blocks' = [] := by
      rcases ReflTransGen.cases_head hjoin with he | ⟨c, hc, -⟩
      · exact he.symm
      · exact absurd hc (Range.not_join_nil c)
    have hx : slide + r.addr ∈ freeBytes s₁ := by
      rw [hbytes]
      exact Or.inr (Range.addr_mem (r := r.shift slide) hpos)
    rw [hlist.freeBytes_eq] at hx
    simp at hx
  · have hself : slide + r.addr ≠ r.addr - slide := by
      intro he
      exact hbad ⟨(sub_eq_add_iff slide r.addr hne).1 he.symm, he ▸ hnull⟩
    obtain ⟨x, hx, hxb⟩ := Range.exists_mem_not_mem (r := r.shift slide)
      (s := ⟨r.addr - slide, r.size⟩) rfl hpos hself
    have hxs : x ∈ freeBytes s' := by
      rw [hbytes]
      exact Or.inr hx
    rcases free_subset h.list hblock hres hxs with hxc | hxc
    · exact hclear x hx hxc
    · exact hxb hxc

/-- The allocator of a session whose ranges lie in `M`; once something was handed out,
some byte is neither free nor held. -/
structure Circulating (M : Set Word) (slide : Word) (s : Session) (blocks : List Range) : Prop
    extends Apportioned (fun r => ∀ x ∈ r, x ∈ M) slide s blocks where
  spare : s.held ≠ [] → ∃ x, x ∉ Layout.bytes slide blocks s.held

namespace Circulating

variable {M : Set Word} {slide : Word} {s : Session} {blocks : List Range} {r : Range}

theorem downward (M : Set Word) : Downward fun r => ∀ x ∈ r, x ∈ M := fun _ _ hrs hs x hx =>
  hs x (hrs.mem hx)

/-- The header page of a block that is cut is laid out no more. -/
theorem take_spare {pre post : List Range} {size : Word}
    (h : Circulating M slide s (pre ++ r :: post)) (hle : 4096 + size.toNat ≤ r.size.toNat)
    {held' : List Range} (hsub : List.Sublist held' (⟨r.addr + 4096 - slide, size⟩ :: s.held)) :
    r.addr ∉ Layout.bytes slide (pre ++ takeBlock (4096 + size) r post) held' := by
  rintro ⟨q, hq, hrq⟩
  refine h.layout.take_not_mem hle (q := q) ?_ hrq
  exact (List.Sublist.append_left (hsub.map (Range.shift slide)) _).subset hq

/-- A block that is cut for nothing: what was taken off it is lost. -/
theorem lose {pre post : List Range} {size : Word} {a : FreeListAllocator}
    (h : Circulating M slide s (pre ++ r :: post)) (hsize : Aligned size)
    (hle : 4096 + size.toNat ≤ r.size.toNat)
    (hlist : FreeList a (pre ++ takeBlock (4096 + size) r post)) :
    Circulating M slide ⟨a, s.held⟩ (pre ++ takeBlock (4096 + size) r post) :=
  ⟨⟨hlist, h.layout.cut (downward M) ((by decide : Aligned 4096).add hsize), h.nonzero⟩,
    fun _ => ⟨r.addr, h.take_spare hle (List.sublist_cons_self _ _)⟩⟩

theorem alloc (h : Circulating M slide s blocks) {size : Word}
    (hlegal : (Call.alloc size).Legal s) :
    ∃ s', s.step slide (.alloc size) = some s' ∧ ∃ blocks', Circulating M slide s' blocks' := by
  obtain ⟨hsize, hne, hwrap⟩ := hlegal
  rcases alloc_spec (downward M) h.list h.layout hsize hne hwrap with
    ⟨hres, -⟩ | ⟨pre, r, post, a, rfl, -, hle, hres, hlist, hlayout, -⟩
  · exact ⟨s, by simp only [Session.step, hres]; rfl, blocks, h⟩
  refine ⟨_, by simp only [Session.step, hres]; rfl, pre ++ takeBlock (4096 + size) r post, ?_⟩
  by_cases hp : r.addr + 4096 - slide = 0
  · -- the null address is no success: the block is lost
    rw [if_pos hp]
    exact h.lose hsize hle hlist
  · rw [if_neg hp]
    refine ⟨⟨hlist, hlayout, fun q hq => ?_⟩, fun _ => ⟨r.addr, h.take_spare hle (.refl _)⟩⟩
    rcases List.mem_cons.1 hq with rfl | hq
    · exact hp
    · exact h.nonzero q hq

theorem write (h : Circulating M slide s blocks) (x : Word) (b : BitVec 8) :
    ∃ s', s.step slide (.write x b) = some s' ∧ ∃ blocks', Circulating M slide s' blocks' := by
  obtain ⟨s', hres, hheld, hnext⟩ := h.toApportioned.write x b
  exact ⟨s', hres, blocks, hnext, by rw [hheld]; exact h.spare⟩

theorem free (h : Circulating M slide s blocks) (hr : r ∈ s.held)
    (hret : Returnable slide r) :
    GivesBack slide s.pma r ∧ ∃ a, s.pma.free slide r.addr r.size = some a ∧
      ∃ blocks', Circulating M slide ⟨a, s.held.erase r⟩ blocks' := by
  have hmem : r.shift slide ∈ blocks ++ s.held.map (Range.shift slide) :=
    List.mem_append_right _ (List.mem_map_of_mem hr)
  obtain ⟨haligned, hsize, hpos⟩ := h.layout.whole _ hmem
  have hclear : ∀ b ∈ blocks, Range.Apart b (r.shift slide) := fun b hb =>
    (List.pairwise_append.1 h.layout.apart).2.2 b hb _ (List.mem_map_of_mem hr)
  have hslide' : slide ≠ 0 := by
    rw [hret.1]
    decide
  have haddr : r.addr - slide = slide + r.addr := (sub_eq_add_iff slide r.addr hslide').2 hret.1
  have hblock : Aligned (r.addr - slide) := haddr ▸ haligned
  obtain ⟨a, blocks', hres, hlist, hjoins⟩ := free_joins h.list hsize hblock fun hm => by
    obtain ⟨b, hb, hba⟩ := List.mem_map.1 hm
    have hbpos : 0 < b.size.toNat := (h.layout.whole b (List.mem_append_left _ hb)).2.2
    exact (hclear b hb).addr_ne hpos hbpos (hba.trans haddr)
  rw [haddr, if_neg hret.2] at hjoins
  obtain ⟨x, hx⟩ := h.spare (List.ne_nil_of_mem hr)
  have hback := h.layout.handBack hr
  have hbytes := Layout.bytes_handBack slide blocks hr
  obtain ⟨hlayout, hsame⟩ := hback.joins (hbytes ▸ hx) hjoins
  have hfree : Range.covered blocks' = {x | x ∈ r.shift slide} ∪ Range.covered blocks := by
    rw [hlayout.covered_eq_diff, hsame, ← hback.covered_eq_diff, Range.covered_cons]
  refine ⟨⟨a, hres, ?_, ?_⟩, a, hres, blocks', ⟨hlist, hlayout, fun q hq => ?_⟩, fun _ => ⟨x, ?_⟩⟩
  · rw [h.list.freeBytes_eq, Set.disjoint_left]
    rintro y ⟨b, hb, hyb⟩ hy
    exact hclear b hb y hyb hy
  · rw [hlist.freeBytes_eq, h.list.freeBytes_eq, hfree, Set.union_comm]
  · exact h.nonzero q (List.mem_of_mem_erase hq)
  · rw [hsame, hbytes]
    exact hx

end Circulating

/-- A call to the allocator. -/
inductive Event where
  | call (c : Call)
  /-- `free` of a range handed out -/
  | free (r : Range)

namespace Event

/-- Callers free what they hold; `Returnable` is what the code needs beside that. -/
def Legal (slide : Word) (s : Session) : Event → Prop
  | .call c => c.Legal s
  | .free r => r ∈ s.held ∧ Returnable slide r

def step (slide : Word) (s : Session) : Event → Option Session
  | .call c => s.step slide c
  | .free r => do
      let a ← s.pma.free slide r.addr r.size
      some ⟨a, s.held.erase r⟩

end Event

theorem Circulating.step {M : Set Word} {slide : Word} {s : Session}
    (h : ∃ blocks, Circulating M slide s blocks) {e : Event} (he : e.Legal slide s) :
    ∃ s', Event.step slide s e = some s' ∧ ∃ blocks, Circulating M slide s' blocks := by
  obtain ⟨blocks, h⟩ := h
  cases e with
  | call c =>
      cases c with
      | alloc size => exact h.alloc he
      | write x b => exact h.write x b
  | free r =>
      obtain ⟨-, a, hres, hnext⟩ := h.free he.1 he.2
      exact ⟨_, by simp only [Event.step, hres]; rfl, hnext⟩

/-- In every run of calls in which the frees are returnable, what is held is usable memory,
and `free` of a range held gives it back exactly when that range is returnable. -/
theorem free_givesBack_iff {slide : Word} (hslide : Aligned slide) (hne : slide ≠ 0)
    {entries : List MemmapEntry} (hmap : LegalMap entries) (mem : Mem) (events : List Event)
    (hlegal : LegalRun (Event.step slide) (fun s e => e.Legal slide s)
      ⟨init slide entries { mem := mem }, []⟩ events) :
    ∃ s, run (Event.step slide) ⟨init slide entries { mem := mem }, []⟩ events = some s ∧
      (∀ r ∈ s.held, ∀ x ∈ r, ∃ u ∈ usableRanges entries, x ∈ u) ∧
      ∀ r ∈ s.held, GivesBack slide s.pma r ↔ Returnable slide r := by
  set M : Set Word := {x | ∃ u ∈ usableRanges entries, x ∈ u.shift slide}
  obtain ⟨blocks₀, h₀, -⟩ := Apportioned.ofInit (fun r => ∀ x ∈ r, x ∈ M) hslide hmap mem
    fun u hu x hx => ⟨u, hu, hx⟩
  obtain ⟨s, hrun, blocks, h⟩ := legalRun_invariant
    (fun s e hs he => Circulating.step hs he)
    ⟨blocks₀, (⟨h₀, fun h => absurd rfl h⟩ : Circulating M slide _ blocks₀)⟩ events hlegal
  refine ⟨s, hrun, fun r hr x hx => ?_, fun r hr => ⟨fun hback => ?_, fun hret => ?_⟩⟩
  · have hmem : r.shift slide ∈ blocks ++ s.held.map (Range.shift slide) :=
      List.mem_append_right _ (List.mem_map_of_mem hr)
    have hslid : slide + x - slide = x := by bv_omega
    obtain ⟨u, hu, hxu⟩ := h.layout.inside _ hmem (slide + x)
      ((Range.mem_shift slide _).2 (hslid.symm ▸ hx))
    exact ⟨u, hu, hslid ▸ (Range.mem_shift slide _).1 hxu⟩
  · by_contra hbad
    exact not_givesBack hslide hne h.toApportioned hr hbad hback
  · exact (h.free hr hret).1

/-- A page is taken, freed and taken again, with the slide that is its own inverse. -/
theorem free_givesBack_iff_one_page :
    ∃ s, run (Event.step 0x8000000000000000)
        ⟨init 0x8000000000000000 [⟨0x1000, 0x5000, 0⟩] { mem := fun _ => 0 }, []⟩
        [.call (.alloc 0x1000), .free ⟨0x2000, 0x1000⟩, .call (.alloc 0x1000)] = some s ∧
      s.held = [⟨0x3000, 0x1000⟩] ∧
      (∀ r ∈ s.held, ∀ x ∈ r, ∃ u ∈ usableRanges [⟨0x1000, 0x5000, 0⟩], x ∈ u) ∧
      (GivesBack 0x8000000000000000 s.pma ⟨0x3000, 0x1000⟩ ↔
        Returnable 0x8000000000000000 ⟨0x3000, 0x1000⟩) := by
  have hfirst : (Event.step 0x8000000000000000
      ⟨init 0x8000000000000000 [⟨0x1000, 0x5000, 0⟩] { mem := fun _ => 0 }, []⟩
      (.call (.alloc 0x1000))).map Session.held = some [⟨0x2000, 0x1000⟩] := by decide
  have hlast : (run (Event.step 0x8000000000000000)
      ⟨init 0x8000000000000000 [⟨0x1000, 0x5000, 0⟩] { mem := fun _ => 0 }, []⟩
      [.call (.alloc 0x1000), .free ⟨0x2000, 0x1000⟩, .call (.alloc 0x1000)]).map Session.held =
        some [⟨0x3000, 0x1000⟩] := by decide
  have halloc : ∀ s, (Event.call (.alloc 0x1000)).Legal 0x8000000000000000 s :=
    fun s => ⟨by decide, by decide, fun _ => by decide⟩
  have hlegal : LegalRun (Event.step 0x8000000000000000)
      (fun s e => e.Legal 0x8000000000000000 s)
      ⟨init 0x8000000000000000 [⟨0x1000, 0x5000, 0⟩] { mem := fun _ => 0 }, []⟩
      [.call (.alloc 0x1000), .free ⟨0x2000, 0x1000⟩, .call (.alloc 0x1000)] := by
    refine ⟨halloc _, fun s hs => ⟨⟨?_, by decide⟩, fun s' _ => ⟨halloc s', fun _ _ => trivial⟩⟩⟩
    rw [hs] at hfirst
    rw [show s.held = [⟨0x2000, 0x1000⟩] from Option.some.inj hfirst]
    exact List.mem_singleton.2 rfl
  obtain ⟨s, hrun, hinside, hiff⟩ := free_givesBack_iff (by decide) (by decide)
    ⟨by decide, by decide, by decide, List.pairwise_singleton _ _⟩ _ _ hlegal
  rw [hrun] at hlast
  have hheld : s.held = [⟨0x3000, 0x1000⟩] := Option.some.inj hlast
  refine ⟨s, hrun, hheld, hinside, hiff _ ?_⟩
  rw [hheld]
  exact List.mem_singleton.2 rfl

/-- With a slide as boot loaders set it, two pages are handed out and freed, and the next
page handed out lies far outside of memory. -/
theorem alloc_outside_after_free :
    ∃ s, run (Event.step 0xffff900000000000)
        ⟨init 0xffff900000000000 [⟨0x1000, 0x3000, 0⟩] { mem := fun _ => 0 }, []⟩
        [.call (.alloc 0x2000)] = some s ∧
      s.held = [⟨0x2000, 0x2000⟩] ∧ ¬ GivesBack 0xffff900000000000 s.pma ⟨0x2000, 0x2000⟩ ∧
      (run (Event.step 0xffff900000000000) s
        [.free ⟨0x2000, 0x2000⟩, .call (.alloc 0x1000)]).map Session.held =
          some [⟨0xe00000003000, 0x1000⟩] ∧
      ∀ u ∈ usableRanges [⟨0x1000, 0x3000, 0⟩], (0xe00000003000 : Word) ∉ u := by
  obtain ⟨s, hs⟩ : ∃ s, run (Event.step 0xffff900000000000)
      ⟨init 0xffff900000000000 [⟨0x1000, 0x3000, 0⟩] { mem := fun _ => 0 }, []⟩
      [.call (.alloc 0x2000)] = some s := Option.isSome_iff_exists.1 (by decide)
  have hheld : (run (Event.step 0xffff900000000000)
      ⟨init 0xffff900000000000 [⟨0x1000, 0x3000, 0⟩] { mem := fun _ => 0 }, []⟩
      [.call (.alloc 0x2000)]).map (fun s => (s.held, s.pma.head)) =
        some ([⟨0x2000, 0x2000⟩], 0) := by decide
  have hfreed : (run (Event.step 0xffff900000000000)
      ⟨init 0xffff900000000000 [⟨0x1000, 0x3000, 0⟩] { mem := fun _ => 0 }, []⟩
      [.call (.alloc 0x2000)]).bind (fun s => (s.pma.free 0xffff900000000000 0x2000 0x2000).map
        fun a => (a.head, a.sizeOf a.head)) = some (0x700000002000, 0x2000) := by decide
  have hnext : (run (Event.step 0xffff900000000000)
      ⟨init 0xffff900000000000 [⟨0x1000, 0x3000, 0⟩] { mem := fun _ => 0 }, []⟩
      [.call (.alloc 0x2000)]).bind (fun s => (run (Event.step 0xffff900000000000) s
        [.free ⟨0x2000, 0x2000⟩, .call (.alloc 0x1000)]).map Session.held) =
          some [⟨0xe00000003000, 0x1000⟩] := by decide
  rw [hs] at hheld hfreed hnext
  obtain ⟨hheld, hhead⟩ := Prod.mk.inj (Option.some.inj hheld)
  refine ⟨s, hs, hheld, ?_, hnext, by decide⟩
  rintro ⟨a, hres, -, hbytes⟩
  rw [Option.bind_some, hres] at hfreed
  obtain ⟨hahead, hasize⟩ := Prod.mk.inj (Option.some.inj hfreed)
  have hx : (0x700000002000 : Word) ∈ freeBytes a := by
    refine ⟨a.head, .head (by rw [hahead]; decide), ?_⟩
    rw [hasize, hahead]
    decide
  rw [hbytes] at hx
  rcases hx with ⟨b, hb, -⟩ | hx
  · -- nothing was free before
    induction hb with
    | head hne => exact hne hhead
    | next _ _ ih => exact ih
  · exact absurd (show (0x700000002000 : Word) ∈
      Range.shift 0xffff900000000000 ⟨0x2000, 0x2000⟩ from hx) (by decide)

end UnnamedKernel.Mm.Pma
