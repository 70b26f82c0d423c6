import Mathlib.Tactic.IntervalCases
import UnnamedKernel.Lib.Run
import UnnamedKernel.Mm.Vmm.Tree

/-!
# `map_virtual` refines a finite map

From a zeroed root table, the page-table walk always yields what the last
successful call for a page asked for, and nothing for the other pages.
-/

namespace UnnamedKernel.Mm.Vmm

open UnnamedKernel.Lib UnnamedKernel.Kernel RadixTree

/-- Bits 48 to 63 repeat bit 47. -/
def Canonical (va : Word) : Prop := (va.setWidth 48).signExtend 64 = va

instance (va : Word) : Decidable (Canonical va) := inferInstanceAs (Decidable (_ = _))

theorem getLsbD_of_levelIndex {v w : Word} {level : Nat}
    (h : levelIndex level v = levelIndex level w) {b : Nat} (hb : b < 9) :
    v.getLsbD (12 + 9 * level + b) = w.getLsbD (12 + 9 * level + b) := by
  have hval : (levelIndex level v).val = (levelIndex level w).val := congrArg Fin.val h
  have heq : (v >>> (12 + 9 * level)) &&& 0x1ff = (w >>> (12 + 9 * level)) &&& (0x1ff : Word) :=
    BitVec.eq_of_toNat_eq hval
  have hmask : (0x1ff : Word).getLsbD b = true := by
    interval_cases b <;> decide
  have hbit := congrArg (BitVec.getLsbD · b) heq
  simp only [BitVec.getLsbD_and, BitVec.getLsbD_ushiftRight, hmask, Bool.and_true] at hbit
  exact hbit

theorem getLsbD_of_aligned {v : Word} (hv : v.toNat % 4096 = 0) {b : Nat} (hb : b < 12) :
    v.getLsbD b = false := by
  have hzero : v &&& (pageSize - 1) = 0 := (and_sub_one_eq_zero_iff v isPow2_pageSize).2 hv
  have hmask : (pageSize - 1).getLsbD b = true := by
    interval_cases b <;> decide
  have hbit := congrArg (BitVec.getLsbD · b) hzero
  simp only [BitVec.getLsbD_and, hmask, Bool.and_true] at hbit
  simpa using hbit

/-- Bits 12 to 47 agree, so the processor finds both addresses in one page. -/
def SamePage (v w : Word) : Prop := ∀ b, 12 ≤ b → b < 48 → v.getLsbD b = w.getLsbD b

theorem samePage_of_path {v w : Word} (h : path v = path w) : SamePage v w := by
  simp only [path, tablePath, List.cons_append, List.nil_append, List.cons.injEq, and_true] at h
  obtain ⟨h3, h2, h1, h0⟩ := h
  intro b hlow hhigh
  have hlevel : ∀ level, levelIndex level v = levelIndex level w →
      12 + 9 * level ≤ b → b < 12 + 9 * level + 9 → v.getLsbD b = w.getLsbD b := by
    intro level hl hlo hhi
    have hbit := getLsbD_of_levelIndex hl (b := b - (12 + 9 * level)) (by omega)
    rwa [Nat.add_sub_of_le hlo] at hbit
  rcases Nat.lt_or_ge b 21 with h21 | h21
  · exact hlevel 0 h0 (by omega) (by omega)
  rcases Nat.lt_or_ge b 30 with h30 | h30
  · exact hlevel 1 h1 (by omega) (by omega)
  rcases Nat.lt_or_ge b 39 with h39 | h39
  · exact hlevel 2 h2 (by omega) (by omega)
  · exact hlevel 3 h3 (by omega) (by omega)

/-- Canonical page addresses are told apart by their four indices. -/
theorem path_injective {v w : Word} (hv : Canonical v) (hw : Canonical w)
    (hva : v.toNat % 4096 = 0) (hwa : w.toNat % 4096 = 0) (h : path v = path w) : v = w := by
  have hlow : v.setWidth 48 = w.setWidth 48 := by
    apply BitVec.eq_of_getLsbD_eq
    intro b hb
    simp only [BitVec.getLsbD_setWidth, hb, decide_true, Bool.true_and]
    rcases Nat.lt_or_ge b 12 with hb12 | hb12
    · rw [getLsbD_of_aligned hva hb12, getLsbD_of_aligned hwa hb12]
    · exact samePage_of_path h b hb12 hb
  rw [← hv, ← hw, hlow]

/-- A call of `map_virtual` on one pagemap. -/
structure Call where
  virt : Word
  phys : Word
  flags : MapFlags

structure Call.Legal (c : Call) : Prop where
  canonical : Canonical c.virt
  virtAligned : c.virt.toNat % 4096 = 0
  virtNonzero : c.virt ≠ 0
  physAligned : c.phys.toNat % 4096 = 0
  physNonzero : c.phys ≠ 0
  physBound : c.phys.toNat < 2 ^ 52

/-- The mapping a call asks for. -/
def Call.mapping (c : Call) : Mapping :=
  ⟨c.phys, ⟨isFlagSet c.flags MapFlags.write, isFlagSet c.flags MapFlags.user,
    !isFlagSet c.flags MapFlags.execute⟩, isFlagSet c.flags MapFlags.writeThrough,
    isFlagSet c.flags MapFlags.cacheDisable⟩

structure Session where
  machine : Machine
  /-- what the last successful call for each page asked for -/
  mapped : Word → Option Mapping

def Session.step (frames : FrameAnswers) (slide : Word) (root : Frame) (s : Session) (c : Call) :
    Option Session :=
  let (ok, m) := mapVirtual frames slide (root.val + slide) c.virt c.phys c.flags s.machine
  some ⟨m, if ok then Function.update s.mapped c.virt (some c.mapping) else s.mapped⟩

/-- An upper entry that is present grants everything to the entries below it. -/
def Permissive (_ : List (Fin 512)) (e : Word) : Prop :=
  isFlagSet e PageBits.present = true → isFlagSet e largePage = false ∧
    isFlagSet e PageBits.readWrite = true ∧ isFlagSet e PageBits.user = true ∧
    isFlagSet e PageBits.noExecute = false

theorem linkable_permissive : Linkable Permissive := by
  refine ⟨fun _ h => absurd h (by decide), fun _ u _ => ?_⟩
  rw [isFlagSet_largePage, isFlagSet_readWrite, isFlagSet_user, isFlagSet_noExecute,
    tableEntry_getLsbD u (by decide), tableEntry_getLsbD u (by decide),
    tableEntry_getLsbD u (by decide), tableEntry_getLsbD u (by decide)]
  decide

theorem foldl_restrict_permissive {links : List Word}
    (h : ∀ e ∈ links, (tableOf e).isSome ∧ Permissive [] e) :
    links.foldl Access.restrict .all = .all := by
  induction links with
  | nil => rfl
  | cons e links ih =>
      obtain ⟨hlink, hperm⟩ := h e (by simp)
      obtain ⟨-, hw, hu, hx⟩ := hperm ((tableOf_isSome_iff e).1 hlink).1
      have hall : Access.all.restrict e = .all := by simp [Access.restrict, Access.all, hw, hu, hx]
      rw [List.foldl_cons, hall]
      exact ih fun x hx => h x (by simp [hx])

section Zeroed

variable {frames : FrameAnswers} {slide : Word} {root : Frame} {m : Machine}
  (hzero : ∀ x, Mem.InRange (root.val + slide) 0x1000 x → m.mem x = 0)

include hzero

theorem entry_zeroed (i : Fin 512) : entry m.mem slide root i = 0 := by
  have hfill : entry (m.mem.fill (root.val + slide) 0x1000 0) slide root i = 0 :=
    entry_fill_same root i
  rw [← hfill]
  refine Mem.read64_congr fun x _ => ?_
  by_cases hx : Mem.InRange (root.val + slide) 0x1000 x
  · rw [hzero x hx, Mem.fill_of_inRange _ _ hx]
  · rw [Mem.fill_of_not_inRange _ _ hx]

theorem tableAt_zeroed {p : List (Fin 512)} {x : Frame}
    (hp : tableAt m.mem slide root p = some x) : p = [] ∧ x = root := by
  cases p with
  | nil => exact ⟨rfl, by simpa using hp.symm⟩
  | cons i p =>
      rw [tableAt, descend_cons, entry_zeroed hzero, tableOf_zero] at hp
      simp at hp

theorem Tree.ofZeroed (hroot : ∀ k, frames k ≠ 0 → frames k ≠ root.val) :
    Tree frames slide root m := by
  refine ⟨fun p q x _ _ hp hq => ?_, fun k u _ hu hu0 p _ hp => ?_⟩
  · rw [(tableAt_zeroed hzero hp).1, (tableAt_zeroed hzero hq).1]
  · exact hroot k hu0 (hu.trans (congrArg Subtype.val (tableAt_zeroed hzero hp).2))

end Zeroed

/-- The pagemap implements the finite map of the session. -/
structure Implements (frames : FrameAnswers) (slide : Word) (root : Frame)
    (s : Session) : Prop where
  tree : Tree frames slide root s.machine
  permissive : UpperAll tableOf (entry s.machine.mem slide) root 3 Permissive
  walks : ∀ v, Canonical v → v.toNat % 4096 = 0 → walk s.machine.mem slide root v = s.mapped v

namespace Implements

variable {frames : FrameAnswers} {slide : Word} {root : Frame} {s : Session}

theorem ofZeroed {m : Machine} (hroot : ∀ k, frames k ≠ 0 → frames k ≠ root.val)
    (hzero : ∀ x, Mem.InRange (root.val + slide) 0x1000 x → m.mem x = 0) :
    Implements frames slide root ⟨m, fun _ => none⟩ := by
  have hentry := entry_zeroed hzero
  refine ⟨.ofZeroed hzero hroot, fun p i x _ hx => ?_, fun v _ _ => ?_⟩
  · rw [(tableAt_zeroed hzero hx).2, hentry]
    exact linkable_permissive.blank _
  · unfold walk path tablePath
    have htrail : ∀ q, trail tableOf (entry m.mem slide) root (levelIndex 3 v :: q) =
        [entry m.mem slide root (levelIndex 3 v)] :=
      trail_cons_of_none (by rw [hentry, tableOf_zero])
    simp only [List.cons_append, htrail, hentry]
    exact translate_absent (by decide) _ _ _

/-- One call keeps the pagemap and the map in step. -/
theorem step (hframes : FreshFrames frames) (h : Implements frames slide root s) {c : Call}
    (hc : c.Legal) :
    ∃ s', s.step frames slide root c = some s' ∧ Implements frames slide root s' := by
  have hclear : UpperAll tableOf (entry s.machine.mem slide) root 3 (ClearOn c.virt) :=
    fun p i t hlen hp _ hpresent => (h.permissive p i t hlen hp hpresent).1
  obtain ⟨m₁, hgrows, hcase⟩ := mapVirtual_spec hframes h.tree c.phys c.flags hclear
  have hperm := hgrows.upper _ linkable_permissive h.permissive
  have hwalk₁ : ∀ v, Canonical v → v.toNat % 4096 = 0 →
      walk m₁.mem slide root v = s.mapped v := fun v hv hva =>
    (hgrows.walks v).trans (h.walks v hv hva)
  rcases hcase with ⟨m', hres, hmem, htaken⟩ | ⟨-, -, -, -, pt, hpt, hres⟩
  · refine ⟨⟨m', s.mapped⟩, by simp [Session.step, hres], ?_, ?_, ?_⟩
    · exact (Grows.of_taken hgrows.tree hmem htaken.ge).tree
    · simpa only [hmem] using hperm
    · simpa only [hmem] using hwalk₁
  · refine ⟨⟨m₁.setLeaf slide pt c.virt (leafEntry c.phys c.flags),
      Function.update s.mapped c.virt (some c.mapping)⟩, by simp [Session.step, hres],
      setLeaf_tree hgrows.tree hpt, setLeaf_upper hgrows.tree hpt hperm, fun v hv hva => ?_⟩
    show walk (m₁.setLeaf slide pt c.virt (leafEntry c.phys c.flags)).mem slide root v = _
    by_cases hvv : v = c.virt
    · subst hvv
      have hflags := leafEntry_flags c.phys c.flags
      have hall : (trail tableOf (entry m₁.mem slide) root (tablePath c.virt)).foldl
          Access.restrict .all = .all := by
        refine foldl_restrict_permissive fun e he => ⟨links_of_mem_trail hpt e he, ?_⟩
        obtain ⟨q, -, hq⟩ := hperm.trail hpt (Nat.le_refl 3) e he
        exact hq
      rw [setLeaf_walk_self hgrows.tree hpt hflags.1, hall, leafEntry_frame,
        and_ppnMask_of_aligned hc.physAligned hc.physBound]
      obtain ⟨-, hw, hu, hx, hwt, hcd⟩ := hflags
      simp [Mapping.of, Access.restrict, Access.all, Call.mapping, hw, hu, hx, hwt, hcd]
    · have hpath : path v ≠ path c.virt := fun hp =>
        hvv (path_injective hv hc.canonical hva hc.virtAligned hp)
      rw [setLeaf_walk_other hgrows.tree hpt hpath, hwalk₁ v hv hva]
      simp [Function.update_of_ne hvv]

end Implements

/-- After any run of `map_virtual` calls on a zeroed root table, every canonical page
translates to what the last successful call for it asked for. -/
theorem mapVirtual_run_refines {frames : FrameAnswers} (hframes : FreshFrames frames)
    (slide : Word) {root : Frame} (hroot : ∀ k, frames k ≠ 0 → frames k ≠ root.val)
    {m : Machine} (hzero : ∀ x, Mem.InRange (root.val + slide) 0x1000 x → m.mem x = 0)
    (calls : List Call) (hlegal : ∀ c ∈ calls, c.Legal) :
    ∃ s, run (Session.step frames slide root) ⟨m, fun _ => none⟩ calls = some s ∧
      ∀ v, Canonical v → v.toNat % 4096 = 0 → walk s.machine.mem slide root v = s.mapped v := by
  have hstep : ∀ (s : Session) (c : Call), Implements frames slide root s → c.Legal →
      ∃ s', s.step frames slide root c = some s' ∧ Implements frames slide root s' :=
    fun _ _ h hc => h.step hframes hc
  obtain ⟨s, hrun, h⟩ := run_invariant hstep (Implements.ofZeroed hroot hzero) calls hlegal
  exact ⟨s, hrun, h.walks⟩

/-- Three frames above the root table, then none. -/
def threeFrames : FrameAnswers
  | 0 => 0x2000
  | 1 => 0x4000
  | 2 => 0x6000
  | _ => 0

theorem freshFrames_threeFrames : FreshFrames threeFrames := by
  have hcases : ∀ k, threeFrames k = 0x2000 ∧ k = 0 ∨ threeFrames k = 0x4000 ∧ k = 1 ∨
      threeFrames k = 0x6000 ∧ k = 2 ∨ threeFrames k = 0 := by
    intro k
    match k with
    | 0 => simp [threeFrames]
    | 1 => simp [threeFrames]
    | 2 => simp [threeFrames]
    | _ + 3 => simp [threeFrames]
  refine ⟨fun k => ?_, fun k => ?_, fun j k hj hjk => ?_⟩
  · rcases hcases k with ⟨h, -⟩ | ⟨h, -⟩ | ⟨h, -⟩ | h <;> rw [h] <;> decide
  · rcases hcases k with ⟨h, -⟩ | ⟨h, -⟩ | ⟨h, -⟩ | h <;> rw [h] <;> decide
  · rcases hcases j with ⟨h, rfl⟩ | ⟨h, rfl⟩ | ⟨h, rfl⟩ | h <;>
      rcases hcases k with ⟨h', rfl⟩ | ⟨h', rfl⟩ | ⟨h', rfl⟩ | h' <;>
      simp_all

/-- Two pages of one table, the first one mapped again, and a page for which no table is left. -/
def fourCalls : List Call :=
  [⟨0xffffffff80000000, 0x8000, MapFlags.write⟩, ⟨0xffffffff80001000, 0x9000, 0⟩,
    ⟨0xffffffff80000000, 0xa000, MapFlags.user⟩, ⟨0x400000, 0xb000, MapFlags.write⟩]

theorem mapVirtual_run_refines_one_page :
    ∃ s, run (Session.step threeFrames 0xffff800000000000 (frameOf 0x1000))
        ⟨{ mem := fun _ => 0 }, fun _ => none⟩ fourCalls = some s ∧
      ∀ v, Canonical v → v.toNat % 4096 = 0 →
        walk s.machine.mem 0xffff800000000000 (frameOf 0x1000) v = s.mapped v := by
  have hroot : ∀ k, threeFrames k ≠ 0 → threeFrames k ≠ (frameOf 0x1000).val := by
    intro k _
    match k with
    | 0 | 1 | 2 => decide
    | _ + 3 => simp [threeFrames, frameOf, ppnMask]
  have hlegal : ∀ c ∈ fourCalls, c.Legal := by
    simp only [fourCalls, List.forall_mem_cons, List.not_mem_nil, false_imp_iff, implies_true,
      and_true]
    refine ⟨?_, ?_, ?_, ?_⟩ <;>
      exact ⟨by decide, by decide, by decide, by decide, by decide, by decide⟩
  exact mapVirtual_run_refines freshFrames_threeFrames 0xffff800000000000 hroot
    (fun _ _ => rfl) fourCalls hlegal

end UnnamedKernel.Mm.Vmm
