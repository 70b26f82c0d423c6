import UnnamedKernel.Mm.Vmm.Failed
import UnnamedKernel.Mm.Vmm.LargePages

/-!
# What `map_virtual` accepts

Any page-aligned addresses. The indices leave out the top bits of `virt`, and the entry those
of `phys`, so a successful call is seen at the canonical address with the same indices, maps
what is left of `phys`, and shares its entry with every address that differs in the top bits.
-/

namespace UnnamedKernel.Mm.Vmm

open UnnamedKernel.Lib UnnamedKernel.Kernel RadixTree

variable {frames : FrameAnswers} {slide : Word} {root : Frame} {virt virt' phys : Word}
  {flags : MapFlags} {s s' : Machine} {p : List (Fin 512)}

/-! ## Addresses and their entries -/

section Leaves

/-- The walk of the processor, which faults at an address that is not canonical. -/
def hardwareWalk (m : Mem) (slide : Word) (root : Frame) (va : Word) : Option Mapping :=
  if Canonical va then walk m slide root va else none

/-- The entry that maps the page at `va`. -/
def leafOf (slide : Word) (root : Frame) (s : Machine) (va : Word) : Option (Frame × Fin 512) :=
  (tableAt s.mem slide root (tablePath va)).map fun pt => (pt, levelIndex 0 va)

/-- In a tree, an entry belongs to the addresses with its indices. -/
theorem leafOf_eq_iff (h : Tree frames slide root s) {leaf : Frame × Fin 512}
    (hvirt : leafOf slide root s virt = some leaf) :
    leafOf slide root s virt' = leafOf slide root s virt ↔ SamePage virt' virt := by
  constructor
  · intro heq
    rw [hvirt] at heq
    obtain ⟨pt, hpt, hleaf⟩ := Option.map_eq_some_iff.1 hvirt
    obtain ⟨pt', hpt', hleaf'⟩ := Option.map_eq_some_iff.1 heq
    obtain ⟨rfl, hindex⟩ := Prod.mk.inj (hleaf'.trans hleaf.symm)
    have htables : tablePath virt' = tablePath virt :=
      h.noSharing _ _ pt' (Nat.le_refl 3) (Nat.le_refl 3) hpt' hpt
    exact samePage_of_path (by rw [path, path, htables, hindex])
  · intro hsame
    obtain ⟨htables, hindex⟩ := List.append_inj (path_congr hsame) rfl
    rw [leafOf, leafOf, htables, (List.cons.inj hindex).1]

theorem samePage_of_mod {v w : Word} (h : v.toNat % 2 ^ 48 = w.toNat % 2 ^ 48) : SamePage v w := by
  intro b _ hb
  have hbit := congrArg (Nat.testBit · b) h
  simp only [Nat.testBit_mod_two_pow, hb, decide_true, Bool.true_and] at hbit
  exact hbit

/-- There is always another page that differs in the top bits only. -/
theorem exists_twin (virt : Word) (haligned : virt.toNat % 4096 = 0) :
    ∃ virt', SamePage virt' virt ∧ virt' ≠ virt ∧ virt' ≠ 0 ∧ virt'.toNat % 4096 = 0 := by
  have hlt := virt.isLt
  by_cases htop : virt.toNat = 3 * 2 ^ 62
  · have hsum : (virt + 0x8000000000000000).toNat = 2 ^ 62 := by
      rw [BitVec.toNat_add, htop]
      rfl
    refine ⟨virt + 0x8000000000000000, samePage_of_mod (by omega), fun he => ?_, fun he => ?_,
      by omega⟩
    · rw [he] at hsum
      omega
    · rw [he] at hsum
      exact absurd hsum (by decide)
  · have hsum : (virt + 0x4000000000000000).toNat = (virt.toNat + 2 ^ 62) % 2 ^ 64 := by
      rw [BitVec.toNat_add]
      rfl
    refine ⟨virt + 0x4000000000000000, samePage_of_mod (by omega), fun he => ?_, fun he => ?_,
      by omega⟩
    · rw [he] at hsum
      omega
    · rw [he, show (0 : Word).toNat = 0 from rfl] at hsum
      omega

end Leaves

/-! ## What a call should do -/

section Calls

def Accepts (frames : FrameAnswers) (slide : Word) (root : Frame) (s : Machine) (virt : Word) :
    Prop :=
  ∃ phys flags, (mapVirtual frames slide (root.val + slide) virt phys flags s).1 = true

/-- In `s` the page at `virt` is mapped to `phys`, by an entry of its own. -/
structure Represents (frames : FrameAnswers) (slide : Word) (root : Frame) (virt phys : Word)
    (s : Machine) : Prop where
  canonical : Canonical virt
  exact : (hardwareWalk s.mem slide root virt).map Mapping.phys = some phys
  alone : ∀ virt', Accepts frames slide root s virt' →
    leafOf slide root s virt' = leafOf slide root s virt → virt' = virt

/-- No entry of a table at this depth or below it has changed. -/
def SameEntries (slide : Word) (root : Frame) (depth : Nat) (s s' : Machine) : Prop :=
  ∀ p x j, depth ≤ p.length → p.length ≤ 3 → tableAt s.mem slide root p = some x →
    entry s'.mem slide x j = entry s.mem slide x j

/-- The call accepts what can be represented, or it returns false and changes no such entry. -/
def Strict (frames : FrameAnswers) (slide : Word) (root : Frame) (virt phys : Word)
    (flags : MapFlags) (depth : Nat) (s : Machine) : Prop :=
  let s' := (mapVirtual frames slide (root.val + slide) virt phys flags s).2
  if (mapVirtual frames slide (root.val + slide) virt phys flags s).1 = true
  then Represents frames slide root virt phys s' else SameEntries slide root depth s s'

theorem mapVirtual_succeeds_iff (hframes : FreshFrames frames)
    (h : WellFormed frames slide root s) :
    (mapVirtual frames slide (root.val + slide) virt phys flags s).1 = true ↔
      ¬ Refused (root.val + slide) virt phys ∧
        Supplied frames s.taken (tablesNeeded (hasTable slide root s) virt) := by
  by_cases hargs : Refused (root.val + slide) virt phys
  · rw [mapVirtual_refused flags hargs]
    simp [hargs]
  · obtain ⟨hv, hvAligned, hph, hphAligned⟩ := not_refused hargs
    obtain ⟨ok, s', hres, hok, -⟩ :=
      mapVirtual_demand h.visible hframes h.tree flags (h.clear virt) hv hvAligned hph hphAligned
    rw [hres]
    simp [hargs, hok]

/-- What a successful call leaves: the bottom table, and what is left of `phys` in its entry. -/
theorem mapVirtual_succeeded (hframes : FreshFrames frames) (h : WellFormed frames slide root s)
    (hres : mapVirtual frames slide (root.val + slide) virt phys flags s = (true, s')) :
    WellFormed frames slide root s' ∧
      (∃ pt, tableAt s'.mem slide root (tablePath virt) = some pt) ∧
      (walk s'.mem slide root virt).map Mapping.phys = some (phys &&& ppnMask) := by
  have hwf := (h.mapCall hframes ⟨virt, phys, flags⟩).1
  rw [mapCall, hres] at hwf
  obtain ⟨s₁, hgrows, ⟨s'', hres', -, -⟩ | ⟨-, -, -, -, pt, hpt, hres'⟩⟩ :=
    mapVirtual_spec hframes h.tree phys flags (h.clear virt)
  · rw [hres'] at hres
    simp at hres
  · obtain ⟨-, rfl⟩ := Prod.mk.inj (hres.symm.trans hres')
    refine ⟨hwf, ⟨pt, ?_⟩, ?_⟩
    · rw [setLeaf_tableAt hgrows.tree hpt (show (tablePath virt).length ≤ 3 from Nat.le_refl 3)]
      exact hpt
    · rw [setLeaf_walk_self hgrows.tree hpt (leafEntry_flags phys flags).1, leafEntry_frame]
      rfl

theorem and_ppnMask_eq_iff (haligned : phys.toNat % 4096 = 0) :
    phys &&& ppnMask = phys ↔ phys.toNat < 2 ^ 52 := by
  constructor
  · intro h
    rw [← h]
    exact (frameOf phys).toNat_lt
  · exact and_ppnMask_of_aligned haligned

theorem hardwareWalk_eq_iff (hphys : phys.toNat % 4096 = 0)
    (hwalk : (walk s'.mem slide root virt).map Mapping.phys = some (phys &&& ppnMask)) :
    (hardwareWalk s'.mem slide root virt).map Mapping.phys = some phys ↔
      Canonical virt ∧ phys.toNat < 2 ^ 52 := by
  rw [hardwareWalk, ← and_ppnMask_eq_iff hphys]
  split_ifs with hcan
  · rw [hwalk, Option.some.injEq, and_iff_right hcan]
  · simp [hcan]

theorem not_represents (h : WellFormed frames slide root s')
    (hargs : ¬ Refused (root.val + slide) virt phys)
    (hpt : ∃ pt, tableAt s'.mem slide root (tablePath virt) = some pt) :
    ¬ Represents frames slide root virt phys s' := by
  intro hrep
  obtain ⟨pt, hpt⟩ := hpt
  obtain ⟨-, hvAligned, hph, hphAligned⟩ := not_refused hargs
  obtain ⟨virt', hsame, hne, hzero, haligned⟩ := exists_twin virt hvAligned
  have hleaf : leafOf slide root s' virt = some (pt, levelIndex 0 virt) := by
    rw [leafOf, hpt]
    rfl
  have hpt' : tableAt s'.mem slide root (tablePath virt') = some pt := by
    rw [(List.append_inj (path_congr hsame) rfl).1]
    exact hpt
  have hargs' : ¬ Refused (root.val + slide) virt' phys := by
    simp only [Refused, not_or, not_not]
    exact ⟨⟨hzero, (checkAligned_pageSize virt').2 haligned⟩,
      ⟨hph, (checkAligned_pageSize phys).2 hphAligned⟩,
      h.visible.tables [] root (Nat.zero_le 3) rfl⟩
  have haccepts : Accepts frames slide root s' virt' :=
    ⟨phys, 0, by rw [mapVirtual_of_tableAt h.visible hpt' hargs']⟩
  exact hne (hrep.alone virt' haccepts ((leafOf_eq_iff h.tree hleaf).2 hsame))

theorem not_strict_of_not_canonical {depth : Nat}
    (hok : (mapVirtual frames slide (root.val + slide) virt phys flags s).1 = true)
    (hcan : ¬ Canonical virt) : ¬ Strict frames slide root virt phys flags depth s := by
  intro hstrict
  unfold Strict at hstrict
  rw [if_pos hok] at hstrict
  exact hcan hstrict.canonical

/-! ### Calls that fail -/

theorem SameEntries.tableAt (h : SameEntries slide root 0 s s') (hlen : p.length ≤ 4) :
    tableAt s'.mem slide root p = tableAt s.mem slide root p := by
  induction p using List.reverseRecOn with
  | nil => rfl
  | append_singleton p i ih =>
      simp only [List.length_append, List.length_cons, List.length_nil] at hlen
      have hp := ih (by omega)
      cases hat : Vmm.tableAt s.mem slide root p with
      | none =>
          have hpre : p <+: p ++ [i] := List.prefix_append p [i]
          rw [Vmm.tableAt, Vmm.tableAt, descend_prefix_none hat hpre,
            descend_prefix_none (hp.trans hat) hpre]
      | some x =>
          rw [Vmm.tableAt, Vmm.tableAt, descend_concat hat, descend_concat (hp.trans hat),
            h p x i (Nat.zero_le _) (by omega) hat]

theorem WellFormed.sameLeaves (hframes : FreshFrames frames) (h : WellFormed frames slide root s)
    (hfail : mapVirtual frames slide (root.val + slide) virt phys flags s = (false, s')) :
    SameEntries slide root 3 s s' := by
  intro p x j hdeep hlen hx
  refine ((h.extends hframes hfail).rows p x j hlen hx).resolve_right fun hnew => ?_
  have hway := length_of_way hnew.1
  omega

/-- Where tables are missing, a failed call leaves all entries alone only if it found no frame. -/
theorem WellFormed.sameEntries_iff (hframes : FreshFrames frames)
    (h : WellFormed frames slide root s) (hargs : ¬ Refused (root.val + slide) virt phys)
    (hfail : mapVirtual frames slide (root.val + slide) virt phys flags s = (false, s')) :
    SameEntries slide root 0 s s' ↔
      tableAt s.mem slide root (tablePath virt) = none ∧ frames s.taken = 0 := by
  constructor
  · intro hsame
    constructor
    · by_contra hne
      obtain ⟨pt, hpt⟩ := Option.ne_none_iff_exists'.1 hne
      rw [mapVirtual_of_tableAt h.visible hpt hargs] at hfail
      simp at hfail
    · by_contra hframe
      obtain ⟨hv, hvAligned, hph, hphAligned⟩ := not_refused hargs
      obtain ⟨ok, s'', hres, -, -, hasked, -⟩ :=
        mapVirtual_demand h.visible hframes h.tree flags (h.clear virt) hv hvAligned hph hphAligned
      obtain ⟨rfl, rfl⟩ := Prod.mk.inj (hfail.symm.trans hres)
      obtain ⟨p, i, u, hway, -, hnone, hat, -⟩ :=
        (h.extends hframes hfail).linked s.taken (Nat.le_refl _) (hasked rfl) hframe
      rw [hsame.tableAt (Nat.le_succ_of_le hway.length_le), hnone] at hat
      simp at hat
  · rintro ⟨hnone, hframe⟩
    have hfollowed : followed s.mem slide root (tablePath virt) = none := by
      obtain ⟨q, i, r, t, hpath, ht, hstop⟩ := descend_eq_none hnone
      have hlen : q.length < 3 := by
        have := congrArg List.length hpath
        simp only [List.length_append, List.length_cons, tablePath, List.length_nil] at this
        omega
      have habsent : followedOf (entry s.mem slide t i) = none := by
        refine if_neg fun hpresent => ?_
        have hsmall := h.small q i t hlen ht hpresent
        rw [tableOf, if_pos ⟨hpresent, by simp [hsmall]⟩] at hstop
        simp at hstop
      refine descend_prefix_none (p := q ++ [i]) ?_ ⟨r, by simp [hpath]⟩
      rw [descend_concat (followed_of_tableAt ht), habsent]
    obtain ⟨-, hz, hmem⟩ := ensureTables_starved hframe hfollowed
    rw [mapVirtual_eq flags hargs] at hfail
    simp only [hz, if_true] at hfail
    obtain rfl := (Prod.mk.inj hfail).2
    intro p x j _ _ _
    rw [hmem]

/-! ### The whole call -/

/-- `map_virtual` is strict about what it accepts exactly when it does not accept: if no entry
at all may have changed, when its arguments are refused or the first frame it asks for is not
there; if no entry of a bottom table may have, when it fails. What it accepts is seen at `virt`
when both addresses can be represented, and shares its entry with the addresses of its page. -/
theorem mapVirtual_strict_iff (hframes : FreshFrames frames)
    (h : WellFormed frames slide root s) :
    (Strict frames slide root virt phys flags 0 s ↔ Refused (root.val + slide) virt phys ∨
      tableAt s.mem slide root (tablePath virt) = none ∧ frames s.taken = 0) ∧
    (Strict frames slide root virt phys flags 3 s ↔ Refused (root.val + slide) virt phys ∨
      ¬ Supplied frames s.taken (tablesNeeded (hasTable slide root s) virt)) ∧
    ∀ s', mapVirtual frames slide (root.val + slide) virt phys flags s = (true, s') →
      ((hardwareWalk s'.mem slide root virt).map Mapping.phys = some phys ↔
        Canonical virt ∧ phys.toNat < 2 ^ 52) ∧
      ∀ virt', leafOf slide root s' virt' = leafOf slide root s' virt ↔ SamePage virt' virt := by
  have hsucceeds : (mapVirtual frames slide (root.val + slide) virt phys flags s).1 = true ↔ _ :=
    mapVirtual_succeeds_iff hframes h
  unfold Strict
  generalize hcall : mapVirtual frames slide (root.val + slide) virt phys flags s = call
  rw [hcall] at hsucceeds
  obtain ⟨ok, s'⟩ := call
  cases ok with
  | true =>
      obtain ⟨hargs, hsup⟩ := hsucceeds.1 rfl
      obtain ⟨hwf, hpt, hwalk⟩ := mapVirtual_succeeded hframes h hcall
      have hnot : ¬ Represents frames slide root virt phys s' := not_represents hwf hargs hpt
      have hfed : ¬ (tableAt s.mem slide root (tablePath virt) = none ∧ frames s.taken = 0) := by
        rintro ⟨hnone, hframe⟩
        have hneed : 0 < tablesNeeded (hasTable slide root s) virt := by
          refine List.countP_pos_iff.2 ⟨tablePath virt, by simp [prefixes], ?_⟩
          rw [hasTable, hnone]
          rfl
        exact hsup 0 hneed hframe
      refine ⟨by simp only [if_true, hnot, hargs, hfed, or_self], by simp [hnot, hargs, hsup],
        fun s'' hres => ?_⟩
      obtain rfl := (Prod.mk.inj hres).2
      obtain ⟨pt, hpt⟩ := hpt
      have hleaf : leafOf slide root s' virt = some (pt, levelIndex 0 virt) := by
        rw [leafOf, hpt]
        rfl
      exact ⟨hardwareWalk_eq_iff (not_refused hargs).2.2.2 hwalk,
        fun virt' => leafOf_eq_iff hwf.tree hleaf⟩
  | false =>
      have hno : Refused (root.val + slide) virt phys ∨
          ¬ Supplied frames s.taken (tablesNeeded (hasTable slide root s) virt) := by
        rw [← not_not (a := Refused (root.val + slide) virt phys), ← not_and_or]
        exact fun hboth => absurd (hsucceeds.2 hboth) (by simp)
      refine ⟨?_, ?_, fun s'' hres => by simp at hres⟩
      · by_cases hargs : Refused (root.val + slide) virt phys
        · have hsame : SameEntries slide root 0 s s' := by
            rw [mapVirtual_refused flags hargs] at hcall
            obtain rfl := (Prod.mk.inj hcall).2
            exact fun _ _ _ _ _ _ => rfl
          simp [hargs, hsame]
        · simp [hargs, h.sameEntries_iff hframes hargs hcall]
      · simp [hno, h.sameLeaves hframes hcall]

private def blankMachine : Machine := { mem := fun _ => 0 }

private theorem wellFormed_blankMachine :
    WellFormed threeFrames 0xffff800000000000 (frameOf 0x1000) blankMachine := by
  refine .ofZeroed (fun _ _ => rfl) (fun k hk => ?_) (by decide) fun k hk => ?_
  · match k with
    | 0 | 1 | 2 => decide
    | _ + 3 => exact absurd rfl hk
  · match k with
    | 0 | 1 | 2 => decide
    | _ + 3 => exact absurd rfl hk

/-- An address that is not page-aligned is refused. -/
theorem mapVirtual_strict_iff_misaligned :
    Strict threeFrames 0xffff800000000000 (frameOf 0x1000) 0x1008 0x5000 MapFlags.write 0
      blankMachine :=
  (mapVirtual_strict_iff freshFrames_threeFrames wellFormed_blankMachine).1.2 (Or.inl (by decide))

/-- The first address above the lower half is accepted, and so is a frame above 2⁵². -/
theorem mapVirtual_accepts_noncanonical :
    WellFormed threeFrames 0xffff800000000000 (frameOf 0x1000) blankMachine ∧
      ¬ Canonical 0x800000000000 ∧
      (mapVirtual threeFrames 0xffff800000000000 ((frameOf 0x1000).val + 0xffff800000000000)
        0x800000000000 0x10000000005000 MapFlags.write blankMachine).1 = true ∧
      ¬ Strict threeFrames 0xffff800000000000 (frameOf 0x1000) 0x800000000000 0x10000000005000
        MapFlags.write 3 blankMachine := by
  have hok : (mapVirtual threeFrames 0xffff800000000000
      ((frameOf 0x1000).val + 0xffff800000000000) 0x800000000000 0x10000000005000 MapFlags.write
      blankMachine).1 = true := by
    refine (mapVirtual_succeeds_iff freshFrames_threeFrames wellFormed_blankMachine).2
      ⟨by decide, ?_⟩
    rw [tablesNeeded_zeroed fun _ _ => rfl]
    intro j hj
    obtain rfl | rfl | rfl : j = 0 ∨ j = 1 ∨ j = 2 := by omega
    all_goals decide
  have hcan : ¬ Canonical 0x800000000000 := by decide
  exact ⟨wellFormed_blankMachine, hcan, hok, not_strict_of_not_canonical hok hcan⟩

end Calls

end UnnamedKernel.Mm.Vmm
