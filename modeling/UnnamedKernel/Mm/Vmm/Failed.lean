import UnnamedKernel.Mm.Vmm.Writes

/-!
# What a failed `map_virtual` leaves behind

The tables it made before it ran out of frames. They are linked where the next call for the
page looks for them, and are empty otherwise.
-/

namespace UnnamedKernel.Mm.Vmm

open UnnamedKernel.Lib UnnamedKernel.Kernel RadixTree

variable {frames : FrameAnswers} {slide : Word} {root t : Frame} {virt phys : Word}
  {flags : MapFlags} {s s' s₁ s₂ : Machine} {p : List (Fin 512)} {i : Fin 512}

/-! ## The tables on the way -/

/-- Entry `j` of table `x` at path `p` has become a link on the way to `virt`, to a frame taken
meanwhile. -/
def NewLink (frames : FrameAnswers) (slide : Word) (root : Frame) (virt : Word) (s s' : Machine)
    (p : List (Fin 512)) (x : Frame) (j : Fin 512) : Prop :=
  (p ++ [j]) <+: tablePath virt ∧ tableAt s.mem slide root (p ++ [j]) = none ∧
    ∃ v k, s.taken ≤ k ∧ k < s'.taken ∧ frames k = v.val ∧ frames k ≠ 0 ∧
      entry s'.mem slide x j = tableEntry v ∧ tableAt s'.mem slide root (p ++ [j]) = some v

/-- Frame `k` has become a table on the way to `virt` that holds nothing but such links. -/
def LinkedFrame (frames : FrameAnswers) (slide : Word) (root : Frame) (virt : Word)
    (s s' : Machine) (k : Nat) : Prop :=
  ∃ p i u, (p ++ [i]) <+: tablePath virt ∧ frames k = u.val ∧
    tableAt s.mem slide root (p ++ [i]) = none ∧
    tableAt s'.mem slide root (p ++ [i]) = some u ∧
    ∀ j, entry s'.mem slide u j = 0 ∨ NewLink frames slide root virt s s' (p ++ [i]) u j

/-- From `s` to `s'`, nothing but missing tables on the way to `virt` has been linked, and all
frames taken have been used for them. -/
structure Extends (frames : FrameAnswers) (slide : Word) (root : Frame) (virt : Word)
    (s s' : Machine) : Prop where
  grows : Grows frames slide root s s'
  rows : ∀ p x j, p.length ≤ 3 → tableAt s.mem slide root p = some x →
    entry s'.mem slide x j = entry s.mem slide x j ∨ NewLink frames slide root virt s s' p x j
  linked : ∀ k, s.taken ≤ k → k < s'.taken → frames k ≠ 0 →
    LinkedFrame frames slide root virt s s' k

section Ways

theorem length_of_way (hway : (p ++ [i]) <+: tablePath virt) : p.length < 3 := by
  have := hway.length_le
  simp only [List.length_append, List.length_cons, List.length_nil, tablePath] at this
  omega

theorem Grows.none_of_none (h : Grows frames slide root s s₁) (hlen : p.length ≤ 3)
    (hnone : tableAt s₁.mem slide root p = none) : tableAt s.mem slide root p = none := by
  rw [Option.eq_none_iff_forall_ne_some]
  intro x hx
  rw [h.keeps p x hlen hx] at hnone
  simp at hnone

theorem NewLink.before {x : Frame} {j : Fin 512} (h : NewLink frames slide root virt s₁ s₂ p x j)
    (hg : Grows frames slide root s s₁) : NewLink frames slide root virt s s₂ p x j := by
  obtain ⟨hway, hnone, v, k, hk, hk', hv⟩ := h
  refine ⟨hway, hg.none_of_none ?_ hnone, v, k, hg.taken.trans hk, hk', hv⟩
  exact hway.length_le

theorem NewLink.after {x : Frame} {j : Fin 512} (h : NewLink frames slide root virt s s₁ p x j)
    (hg : Grows frames slide root s₁ s₂)
    (hsame : entry s₂.mem slide x j = entry s₁.mem slide x j) :
    NewLink frames slide root virt s s₂ p x j := by
  obtain ⟨hway, hnone, v, k, hk, hk', hv, hv0, hentry, hat⟩ := h
  exact ⟨hway, hnone, v, k, hk, hk'.trans_le hg.taken, hv, hv0, hsame.trans hentry,
    hg.keeps _ v hway.length_le hat⟩

end Ways

namespace Extends

theorem of_taken (h : Tree frames slide root s) (hmem : s₁.mem = s.mem)
    (htaken : s.taken ≤ s₁.taken) (hzero : ∀ k, s.taken ≤ k → k < s₁.taken → frames k = 0) :
    Extends frames slide root virt s s₁ :=
  ⟨.of_taken h hmem htaken, fun _ _ _ _ _ => Or.inl (by rw [hmem]),
    fun k hk hk' hne => absurd (hzero k hk hk') hne⟩

theorem setError (h : Tree frames slide root s) (code : ErrorCode) :
    Extends frames slide root virt s (s.setError code) :=
  of_taken h rfl (Nat.le_refl _) fun _ hk hk' => absurd hk (Nat.not_le.2 hk')

theorem refl (h : Tree frames slide root s) : Extends frames slide root virt s s :=
  of_taken h rfl (Nat.le_refl _) fun _ hk hk' => absurd hk (Nat.not_le.2 hk')

theorem trans (h₁ : Extends frames slide root virt s s₁)
    (h₂ : Extends frames slide root virt s₁ s₂) : Extends frames slide root virt s s₂ where
  grows := h₁.grows.trans h₂.grows
  rows p x j hlen hx := by
    rcases h₂.rows p x j hlen (h₁.grows.keeps p x hlen hx) with hsame | hnew
    · rcases h₁.rows p x j hlen hx with hold | hnew
      · exact Or.inl (hsame.trans hold)
      · exact Or.inr (hnew.after h₂.grows hsame)
    · exact Or.inr (hnew.before h₁.grows)
  linked k hk hk' hne := by
    rcases Nat.lt_or_ge k s₁.taken with hlt | hge
    · obtain ⟨p, i, u, hway, hu, hnone, hat, hrow⟩ := h₁.linked k hk hlt hne
      refine ⟨p, i, u, hway, hu, hnone, h₂.grows.keeps _ u hway.length_le hat, fun j => ?_⟩
      rcases h₂.rows _ u j hway.length_le hat with hsame | hnew
      · rcases hrow j with hzero | hnew
        · exact Or.inl (hsame.trans hzero)
        · exact Or.inr (hnew.after h₂.grows hsame)
      · exact Or.inr (hnew.before h₁.grows)
    · obtain ⟨p, i, u, hway, hu, hnone, hat, hrow⟩ := h₂.linked k hge hk' hne
      exact ⟨p, i, u, hway, hu, h₁.grows.none_of_none hway.length_le hnone, hat, fun j =>
        (hrow j).imp_right fun hnew => hnew.before h₁.grows⟩

end Extends

/-! ## One table, and all of them -/

section Calls

theorem ensureTable_extends (hframes : FreshFrames frames) (h : Tree frames slide root s)
    (hvisible : Visible frames slide root s)
    (hp : tableAt s.mem slide root p = some t) (hway : (p ++ [i]) <+: tablePath virt) :
    Extends frames slide root virt s
      (ensureTable frames slide (entryPtr (t.val + slide) (BitVec.ofNat 64 i)) s).2 := by
  have hlen := length_of_way hway
  rcases ensureTable_cases hframes slide t i s with
    ⟨-, hres⟩ | ⟨habsent, ⟨hnone, hres⟩ | ⟨hzero, hvirt, u, hu, hres⟩⟩
  · rw [hres]
    exact .refl h
  · rw [hres]
    refine .of_taken h rfl (Nat.le_succ _) fun k hk hk' => ?_
    obtain rfl : k = s.taken := by
      have hlt : k < s.taken + 1 := hk'
      omega
    rcases hnone with hzero | hvirt
    · exact hzero
    · by_contra hne
      exact hvisible.frames s.taken (Nat.le_refl _) hne hvirt
  · rw [hres]
    have hut : u ≠ t := fun he =>
      h.unused s.taken u (Nat.le_refl _) hu hzero p (by omega) (he ▸ hp)
    have hl := linksFresh_store s.mem slide i hut (hu ▸ hvirt)
    obtain ⟨hgrows, hnew⟩ :=
      grows_link ⟨_, s.taken + 1, s.error⟩ hframes h hp hlen habsent rfl hu hzero rfl hl
    have hmissing : tableAt s.mem slide root (p ++ [i]) = none := by
      rw [tableAt, descend_concat hp, tableOf, if_neg (by simp [habsent])]
    refine ⟨hgrows, fun q x j hq hx => ?_, fun k hk hk' _ => ?_⟩
    · by_cases hhere : x = t ∧ j = i
      · obtain ⟨rfl, rfl⟩ := hhere
        obtain rfl := h.noSharing q p x hq (by omega) hx hp
        exact Or.inr ⟨hway, hmissing, u, s.taken, Nat.le_refl _, Nat.lt_succ_self _, hu, hzero,
          hl.here, hnew⟩
      · have hxu : x ≠ u := fun he =>
          h.unused s.taken u (Nat.le_refl _) hu hzero q hq (he ▸ hx)
        exact Or.inl (hl.other x j hxu hhere)
    · obtain rfl : k = s.taken := by
        have hlt : k < s.taken + 1 := hk'
        omega
      exact ⟨p, i, u, hway, hu, hmissing, hnew, fun j => Or.inl (hl.blank j)⟩

theorem ensureTables_extends (hframes : FreshFrames frames) {is : List (Fin 512)}
    (h : Tree frames slide root s) (hvisible : Visible frames slide root s)
    (hclear : UpperAll tableOf (entry s.mem slide) root 3 (ClearOn virt))
    (hp : tableAt s.mem slide root p = some t) (hpath : p ++ is = tablePath virt) :
    Extends frames slide root virt s (ensureTables frames slide (t.val + slide) is s).2.2 := by
  induction is generalizing p t s with
  | nil => exact .refl h
  | cons i is ih =>
      have hway : (p ++ [i]) <+: tablePath virt := ⟨is, by simpa using hpath⟩
      obtain ⟨next, s₁, hres, hgrows, -, hclear₁, hnext⟩ :=
        ensureTable_step hframes h hclear hp hway
      have hfirst := ensureTable_extends hframes h hvisible hp hway
      have hadv : Advances frames slide root ∅ s s₁ := .of_grows hgrows
      rw [hres] at hfirst
      simp only [ensureTables, hres]
      by_cases hz : next = 0
      · simpa only [if_pos hz] using hfirst
      obtain ⟨u, rfl, hu⟩ := hnext hz
      simp only [if_neg hz]
      exact hfirst.trans
        (ih hgrows.tree (hvisible.advances hadv) hclear₁ hu (by simpa using hpath))

end Calls

/-! ## Well-formed pagemaps -/

section WellFormed

/-- A present entry above the bottom is no large page. -/
def NoLarge (_ : List (Fin 512)) (e : Word) : Prop :=
  isFlagSet e PageBits.present = true → isFlagSet e largePage = false

theorem linkable_noLarge : Linkable NoLarge := by
  refine ⟨fun _ h => absurd h (by decide), fun _ u _ => ?_⟩
  rw [isFlagSet_largePage, tableEntry_getLsbD u (by decide)]
  decide

/-- A tree of four levels without large pages, in memory that the direct map reaches. -/
structure WellFormed (frames : FrameAnswers) (slide : Word) (root : Frame) (s : Machine) :
    Prop where
  tree : Tree frames slide root s
  visible : Visible frames slide root s
  small : UpperAll tableOf (entry s.mem slide) root 3 NoLarge

theorem WellFormed.clear (h : WellFormed frames slide root s) (virt : Word) :
    UpperAll tableOf (entry s.mem slide) root 3 (ClearOn virt) :=
  fun p i t hlen hp _ => h.small p i t hlen hp

theorem WellFormed.advances {pages : Set Word} (h : WellFormed frames slide root s)
    (ha : Advances frames slide root pages s s') : WellFormed frames slide root s' :=
  ⟨ha.tree, h.visible.advances ha, ha.upper _ linkable_noLarge h.small⟩

theorem WellFormed.ofZeroed (hzero : ∀ x, Mem.InRange (root.val + slide) 0x1000 x → s.mem x = 0)
    (hroot : ∀ k, frames k ≠ 0 → frames k ≠ root.val) (hnull : root.val + slide ≠ 0)
    (hframe : ∀ k, frames k ≠ 0 → frames k + slide ≠ 0) : WellFormed frames slide root s := by
  refine ⟨.ofZeroed hzero hroot, ⟨fun p u _ hp => ?_, fun k _ => hframe k⟩, fun p i x _ hx => ?_⟩
  · rw [(tableAt_zeroed hzero hp).2]
    exact hnull
  · rw [(tableAt_zeroed hzero hx).2, entry_zeroed hzero]
    exact linkable_noLarge.blank _

/-- `count` frames above the root table, then none. Every second frame has gone to a header of
the free list. -/
def frameRow (count : Nat) : FrameAnswers := fun k =>
  if k < count then BitVec.ofNat 64 (0x2000 + k * 0x2000) else 0

section FrameRow

variable {count : Nat} (hcount : count ≤ 1000)

include hcount

theorem toNat_frameRow (k : Nat) :
    (frameRow count k).toNat = if k < count then 0x2000 + k * 0x2000 else 0 := by
  unfold frameRow
  split_ifs
  · rw [BitVec.toNat_ofNat]
    omega
  · rfl

theorem freshFrames_frameRow : FreshFrames (frameRow count) := by
  have hval := toNat_frameRow hcount
  refine ⟨fun k => ?_, fun k => ?_, fun j k hj hjk => ?_⟩
  · rw [hval]
    split_ifs <;> omega
  · rw [hval]
    split_ifs <;> omega
  · have hnat := congrArg BitVec.toNat hjk
    have hj' : (frameRow count j).toNat ≠ 0 := fun h0 => hj (BitVec.eq_of_toNat_eq h0)
    rw [hval] at hj'
    rw [hval, hval] at hnat
    split_ifs at hj' hnat <;> omega

theorem wellFormed_frameRow
    (hzero : ∀ x, Mem.InRange ((frameOf 0x1000).val + 0xffff800000000000) 0x1000 x → s.mem x = 0) :
    WellFormed (frameRow count) 0xffff800000000000 (frameOf 0x1000) s := by
  have hval := toNat_frameRow hcount
  have hroot : (frameOf 0x1000).val = 0x1000#64 := by decide
  refine .ofZeroed hzero (fun k _ he => ?_) (by decide) fun k _ he => ?_
  · have hnat := congrArg BitVec.toNat he
    rw [hval, hroot, BitVec.toNat_ofNat] at hnat
    split_ifs at hnat
    omega
  · have hnat := congrArg BitVec.toNat he
    have hslide : (0xffff800000000000 : Word).toNat = 0xffff800000000000 := rfl
    have hzero : (0 : Word).toNat = 0 := rfl
    rw [BitVec.toNat_add, hval, hslide, hzero] at hnat
    split_ifs at hnat
    omega

theorem supplied_frameRow : Supplied (frameRow count) 0 count := by
  intro j hj he
  have hnat := congrArg BitVec.toNat he
  have hzero : (0 : Word).toNat = 0 := rfl
  rw [toNat_frameRow hcount, hzero, if_pos (by omega)] at hnat
  omega

end FrameRow

/-- The machine after a call. -/
def mapCall (frames : FrameAnswers) (slide : Word) (root : Frame) (s : Machine) (c : Call) :
    Machine :=
  (mapVirtual frames slide (root.val + slide) c.virt c.phys c.flags s).2

theorem WellFormed.mapCall (hframes : FreshFrames frames) (h : WellFormed frames slide root s)
    (c : Call) : WellFormed frames slide root (mapCall frames slide root s c) ∧
      ∀ p x, p.length ≤ 3 → tableAt s.mem slide root p = some x →
        tableAt (Vmm.mapCall frames slide root s c).mem slide root p = some x := by
  refine ⟨h.advances (mapVirtual_advances c.phys c.flags hframes h.tree (h.clear c.virt)), ?_⟩
  obtain ⟨s₁, hgrows, ⟨s', hres, hmem, -⟩ | ⟨-, -, -, -, pt, hpt, hres⟩⟩ :=
    mapVirtual_spec hframes h.tree c.phys c.flags (h.clear c.virt)
  · intro p x hlen hp
    rw [Vmm.mapCall, hres, hmem]
    exact hgrows.keeps p x hlen hp
  · intro p x hlen hp
    rw [Vmm.mapCall, hres, setLeaf_tableAt hgrows.tree hpt hlen]
    exact hgrows.keeps p x hlen hp

theorem WellFormed.mapCalls (hframes : FreshFrames frames) (h : WellFormed frames slide root s)
    (calls : List Call) :
    WellFormed frames slide root (calls.foldl (Vmm.mapCall frames slide root) s) ∧
      ∀ p x, p.length ≤ 3 → tableAt s.mem slide root p = some x →
        tableAt (calls.foldl (Vmm.mapCall frames slide root) s).mem slide root p = some x := by
  induction calls generalizing s with
  | nil => exact ⟨h, fun _ _ _ hp => hp⟩
  | cons c calls ih =>
      obtain ⟨hc, hkeeps⟩ := h.mapCall hframes c
      obtain ⟨hall, hkeeps'⟩ := ih hc
      exact ⟨hall, fun p x hlen hp => hkeeps' p x hlen (hkeeps p x hlen hp)⟩

end WellFormed

/-! ## A failed call -/

section Failed

/-- A later call for the page finds the tables of `s` and asks for no more frames than tables
are missing by then. -/
def Resumes (frames : FrameAnswers) (slide : Word) (root : Frame) (virt : Word) (s : Machine) :
    Prop :=
  ∀ (calls : List Call) (phys : Word) (flags : MapFlags), ¬ Refused (root.val + slide) virt phys →
    let s₁ := calls.foldl (mapCall frames slide root) s
    let missing := tablesNeeded (hasTable slide root s₁) virt
    ∃ ok s₂, mapVirtual frames slide (root.val + slide) virt phys flags s₁ = (ok, s₂) ∧
      (∀ p x, p.length ≤ 3 → tableAt s.mem slide root p = some x →
        tableAt s₂.mem slide root p = some x) ∧
      s₂.taken ≤ s₁.taken + missing ∧
      (ok = true ↔ Supplied frames s₁.taken missing) ∧
      (ok = true → s₂.taken = s₁.taken + missing)

theorem WellFormed.resumes (hframes : FreshFrames frames) (h : WellFormed frames slide root s)
    (virt : Word) : Resumes frames slide root virt s := by
  intro calls phys flags hargs s₁ missing
  obtain ⟨h₁, hkeeps₁⟩ := h.mapCalls hframes calls
  obtain ⟨hv, hvAligned, hph, hphAligned⟩ := not_refused hargs
  obtain ⟨ok, s₂, hres, hsup, hle, -, htaken⟩ :=
    mapVirtual_demand h₁.visible hframes h₁.tree flags (h₁.clear virt) hv hvAligned hph hphAligned
  refine ⟨ok, s₂, hres, fun p x hlen hp => ?_, hle, hsup, fun hok => (htaken hok).1⟩
  have hkeeps₂ := (h₁.mapCall hframes ⟨virt, phys, flags⟩).2 p x hlen (hkeeps₁ p x hlen hp)
  rwa [Vmm.mapCall, hres] at hkeeps₂

/-- A failed call takes frames only to link missing tables on the way to its page. -/
theorem WellFormed.extends (hframes : FreshFrames frames) (h : WellFormed frames slide root s)
    (hfail : mapVirtual frames slide (root.val + slide) virt phys flags s = (false, s')) :
    Extends frames slide root virt s s' := by
  by_cases hargs : Refused (root.val + slide) virt phys
  · rw [mapVirtual_refused flags hargs] at hfail
    obtain rfl := (Prod.mk.inj hfail).2
    exact .setError h.tree _
  · have hall := ensureTables_extends (p := []) hframes h.tree h.visible (h.clear virt) rfl
      (List.nil_append (tablePath virt))
    rw [mapVirtual_eq flags hargs] at hfail
    generalize ensureTables frames slide (root.val + slide) (tablePath virt) s = res at hall hfail
    obtain ⟨writes, pt, s₁⟩ := res
    dsimp only at hall hfail
    split_ifs at hfail
    · obtain rfl := (Prod.mk.inj hfail).2
      exact hall
    · simp at hfail

/-- A failed call changes no translation and leaves a well-formed pagemap, in which each frame it
took is an otherwise empty table on the way to its page; the next call resumes from there. -/
theorem mapVirtual_failed (hframes : FreshFrames frames) (h : WellFormed frames slide root s)
    {pagemapVirtual : Word} (hpagemap : pagemapVirtual = root.val + slide ∨ pagemapVirtual = 0)
    (hfail : mapVirtual frames slide pagemapVirtual virt phys flags s = (false, s')) :
    (∀ va, walk s'.mem slide root va = walk s.mem slide root va) ∧
      (∀ k, s.taken ≤ k → k < s'.taken → frames k ≠ 0 →
        LinkedFrame frames slide root virt s s' k) ∧
      WellFormed frames slide root s' ∧ Resumes frames slide root virt s' := by
  have hext : Extends frames slide root virt s s' := by
    rcases hpagemap with rfl | rfl
    · exact h.extends hframes hfail
    · rw [mapVirtual_refused flags (Or.inr (Or.inr rfl))] at hfail
      obtain rfl := (Prod.mk.inj hfail).2
      exact .setError h.tree _
  have hadv : Advances frames slide root ∅ s s' := .of_grows hext.grows
  have hwf := h.advances hadv
  exact ⟨hext.grows.walks, hext.linked, hwf, hwf.resumes hframes virt⟩

private def lastFrame : FrameAnswers := fun k => if k = 0 then 0x2000 else 0

private theorem lastFrame_eq {k : Nat} (hk : lastFrame k ≠ 0) : lastFrame k = 0x2000 := by
  unfold lastFrame at hk ⊢
  split_ifs at hk ⊢
  · rfl
  · exact absurd rfl hk

private def zeroedMachine : Machine := { mem := fun _ => 0 }

private theorem wellFormed_zeroedMachine :
    WellFormed lastFrame 0xffff800000000000 (frameOf 0x1000) zeroedMachine := by
  refine .ofZeroed (fun _ _ => rfl) (fun k hk => ?_) (by decide) fun k hk => ?_
  · rw [lastFrame_eq hk]
    decide
  · rw [lastFrame_eq hk]
    decide

/-- Frames run out behind the first table: the root table links to it, and the call fails. -/
private def secondTableMissing : Bool × Machine :=
  mapVirtual lastFrame 0xffff800000000000 ((frameOf 0x1000).val + 0xffff800000000000) 0x1000
    0x5000 MapFlags.write zeroedMachine

theorem mapVirtual_failed_second_table :
    secondTableMissing.1 = false ∧
      (∀ va, walk secondTableMissing.2.mem 0xffff800000000000 (frameOf 0x1000) va =
        walk zeroedMachine.mem 0xffff800000000000 (frameOf 0x1000) va) ∧
      (∀ k, zeroedMachine.taken ≤ k → k < secondTableMissing.2.taken → lastFrame k ≠ 0 →
        LinkedFrame lastFrame 0xffff800000000000 (frameOf 0x1000) 0x1000 zeroedMachine
          secondTableMissing.2 k) ∧
      WellFormed lastFrame 0xffff800000000000 (frameOf 0x1000) secondTableMissing.2 ∧
      Resumes lastFrame 0xffff800000000000 (frameOf 0x1000) 0x1000 secondTableMissing.2 := by
  have hframes : FreshFrames lastFrame := .single (by decide) (by decide)
  have hwf := wellFormed_zeroedMachine
  obtain ⟨ok, s', hres, hok, -⟩ := mapVirtual_demand hwf.visible hframes hwf.tree MapFlags.write
    (hwf.clear 0x1000) (by decide) (by decide) (show (0x5000 : Word) ≠ 0 by decide) (by decide)
  have hshort : ok = false := by
    rw [tablesNeeded_zeroed fun _ _ => rfl] at hok
    simpa using mt hok.1 fun hsup => hsup 1 (by decide) (by decide)
  have hcall : secondTableMissing = (false, s') := hshort ▸ hres
  rw [hcall]
  exact ⟨rfl, mapVirtual_failed hframes hwf (Or.inl rfl) hcall⟩

end Failed

end UnnamedKernel.Mm.Vmm
