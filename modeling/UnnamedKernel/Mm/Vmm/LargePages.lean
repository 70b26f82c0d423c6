import UnnamedKernel.Mm.Vmm.Writes

/-!
# Large pages on the way

A call of `map_virtual` stays in page tables and changes one translation when no entry
on its way is a large page. Behind a large page it stores to the memory that is mapped.
-/

namespace UnnamedKernel.Mm.Vmm

open UnnamedKernel.Lib UnnamedKernel.Kernel RadixTree

/-! ## Addresses of one page -/

section Pages

variable {v w : Word}

theorem levelIndex_congr (h : SamePage v w) {level : Nat} (hlevel : level ≤ 3) :
    levelIndex level v = levelIndex level w := by
  have hmask : ∀ b, (0x1ff : Word).getLsbD b = (decide (b < 64) && decide (b < 9)) := by
    intro b
    rw [show (0x1ff : Word) = BitVec.ofNat 64 (2 ^ 9 - 1) by decide, BitVec.getLsbD_ofNat,
      Nat.testBit_two_pow_sub_one]
  have hbits : (v >>> (12 + 9 * level)) &&& 0x1ff =
      (w >>> (12 + 9 * level)) &&& (0x1ff : Word) := by
    apply BitVec.eq_of_getLsbD_eq
    intro b _
    rw [BitVec.getLsbD_and, BitVec.getLsbD_and, BitVec.getLsbD_ushiftRight,
      BitVec.getLsbD_ushiftRight, hmask]
    by_cases hb : b < 9
    · rw [h (12 + 9 * level + b) (by omega) (by omega)]
    · simp [hb]
  have hnat := congrArg BitVec.toNat hbits
  exact Fin.ext hnat

theorem path_congr (h : SamePage v w) : path v = path w := by
  simp only [path, tablePath, levelIndex_congr h (show 3 ≤ 3 by omega),
    levelIndex_congr h (show 2 ≤ 3 by omega), levelIndex_congr h (show 1 ≤ 3 by omega),
    levelIndex_congr h (show 0 ≤ 3 by omega)]

theorem offset_congr (h : SamePage v w) (offset : Word)
    (hoffset : ∀ b < 64, (ppnMask &&& offset).getLsbD b = true → 12 ≤ b ∧ b < 48) :
    v &&& ppnMask &&& offset = w &&& ppnMask &&& offset := by
  rw [BitVec.and_assoc, BitVec.and_assoc]
  apply BitVec.eq_of_getLsbD_eq
  intro b hb
  rw [BitVec.getLsbD_and (x := v), BitVec.getLsbD_and (x := w)]
  cases hmask : (ppnMask &&& offset).getLsbD b with
  | true => rw [h b (hoffset b hb hmask).1 (hoffset b hb hmask).2]
  | false => rw [Bool.and_false, Bool.and_false]

theorem translate_congr (h : SamePage v w) {level : Nat} (hlevel : level ≤ 3) (a : Access)
    (es : List Word) : translate v level a es = translate w level a es := by
  induction es generalizing level a with
  | nil => cases level <;> rfl
  | cons e es ih =>
      match level, hlevel with
      | 0, _ => rfl
      | 1, _ =>
          have hoffset := offset_congr h ((1 <<< (12 + 9 * (0 + 1))) - 1) (by decide)
          simp only [translate, ih (Nat.zero_le 3), hoffset]
      | 2, _ =>
          have hoffset := offset_congr h ((1 <<< (12 + 9 * (1 + 1))) - 1) (by decide)
          simp only [translate, ih (show 1 ≤ 3 by omega), hoffset]
      | 3, _ => simp only [translate, ih (show 2 ≤ 3 by omega), if_true]

theorem walk_congr (h : SamePage v w) (m : Mem) (slide : Word) (root : Frame) :
    walk m slide root v = walk m slide root w := by
  rw [walk, walk, path_congr h, translate_congr h (Nat.le_refl 3)]

/-- The canonical address of the page that `v` is in. -/
def canonicalOf (v : Word) : Word := (v.setWidth 48).signExtend 64

theorem canonicalOf_getLsbD (v : Word) {b : Nat} (hb : b < 64) :
    (canonicalOf v).getLsbD b = v.getLsbD (min b 47) := by
  rw [canonicalOf, BitVec.getLsbD_signExtend]
  by_cases hlo : b < 48
  · rw [Nat.min_eq_left (by omega)]
    simp [hb, hlo]
  · rw [Nat.min_eq_right (by omega), BitVec.msb_eq_getLsbD_last]
    simp [hb, hlo]

theorem canonical_iff : Canonical v ↔ ∀ b < 64, v.getLsbD b = v.getLsbD (min b 47) := by
  constructor
  · intro h b hb
    rw [← canonicalOf_getLsbD v hb, show canonicalOf v = v from h]
  · intro h
    apply BitVec.eq_of_getLsbD_eq
    intro b hb
    exact (canonicalOf_getLsbD v hb).trans (h b hb).symm

theorem samePage_canonicalOf (v : Word) : SamePage (canonicalOf v) v := by
  intro b _ hb
  rw [canonicalOf_getLsbD v (by omega), Nat.min_eq_left (by omega)]

theorem canonical_canonicalOf (v : Word) : Canonical (canonicalOf v) := by
  rw [canonical_iff]
  intro b hb
  rw [canonicalOf_getLsbD v hb, canonicalOf_getLsbD v (by omega), Nat.min_assoc, Nat.min_self]

theorem alignDown_getLsbD (v : Word) {b : Nat} (hb : 12 ≤ b) :
    (alignDown v pageSize).getLsbD b = v.getLsbD b := by
  rcases Nat.lt_or_ge b 64 with hlt | hge
  · have hmask : (~~~(pageSize - 1)).getLsbD b = true := by
      rw [show pageSize - 1 = BitVec.ofNat 64 (2 ^ 12 - 1) by decide, BitVec.getLsbD_not,
        BitVec.getLsbD_ofNat, Nat.testBit_two_pow_sub_one]
      simp [hlt, Nat.not_lt.2 hb]
    rw [alignDown, roundDown, BitVec.getLsbD_and, hmask, Bool.and_true]
  · rw [BitVec.getLsbD_of_ge _ _ hge, BitVec.getLsbD_of_ge _ _ hge]

theorem samePage_alignDown (v : Word) : SamePage (alignDown v pageSize) v := fun _ hb _ =>
  alignDown_getLsbD v hb

theorem canonical_alignDown : Canonical (alignDown v pageSize) ↔ Canonical v := by
  rw [canonical_iff, canonical_iff]
  have hbit : ∀ b, (alignDown v pageSize).getLsbD b = (alignDown v pageSize).getLsbD (min b 47) ↔
      v.getLsbD b = v.getLsbD (min b 47) := by
    intro b
    rcases Nat.lt_or_ge b 12 with hlt | hge
    · rw [Nat.min_eq_left (by omega)]
      simp
    · rw [alignDown_getLsbD v hge, alignDown_getLsbD v (by omega)]
  simp only [hbit]

theorem toNat_alignDown_mod (v : Word) : (alignDown v pageSize).toNat % 4096 = 0 := by
  rw [alignDown, toNat_roundDown v isPow2_pageSize, toNat_pageSize]
  exact Nat.mul_mod_left _ _

/-- A canonical address has the indices of a canonical page only if it lies in that page. -/
theorem alignDown_eq_of_path (hv : Canonical v) (hw : Canonical w) (hwa : w.toNat % 4096 = 0)
    (h : path v = path w) : alignDown v pageSize = w :=
  path_injective (canonical_alignDown.2 hv) hw (toNat_alignDown_mod v) hwa
    ((path_congr (samePage_alignDown v)).trans h)

end Pages

/-! ## The walk of `map_virtual` -/

/-- The page that `ensure_table` takes for the next table. -/
def followedOf (e : Word) : Option Frame :=
  if isFlagSet e PageBits.present then some (frameOf e) else none

/-- Where the calls of `ensure_table` get along some indices without a new table. -/
abbrev followed (m : Mem) (slide : Word) (root : Frame) (p : List (Fin 512)) : Option Frame :=
  descend followedOf (entry m slide) root p

section Follow

variable {frames : FrameAnswers} {slide : Word} {root t u : Frame} {s : Machine}
  {p is : List (Fin 512)} {i : Fin 512}

theorem followedOf_of_tableOf (e : Word) (u : Frame) (h : tableOf e = some u) :
    followedOf e = some u := by
  unfold tableOf at h
  split_ifs at h with he
  rw [followedOf, if_pos he.1, h]

theorem followed_of_tableAt (h : tableAt s.mem slide root p = some t) :
    followed s.mem slide root p = some t := descend_mono followedOf_of_tableOf h

/-- An entry that is present is followed, whatever it maps. -/
theorem ensureTable_present (frames : FrameAnswers)
    (h : followedOf (entry s.mem slide t i) = some u) :
    ensureTable frames slide (entryPtr (t.val + slide) (BitVec.ofNat 64 i)) s =
        (u.val + slide, s) ∧
      ensureTableWrites frames slide (entryPtr (t.val + slide) (BitVec.ofNat 64 i)) s = [] := by
  unfold followedOf at h
  split_ifs at h with he
  have hpresent : ¬ s.mem.read64 (entryPtr (t.val + slide) (BitVec.ofNat 64 i)) &&&
      PageBits.present = 0 := by
    rw [and_present_eq_zero_iff]
    simpa [entry] using he
  obtain rfl := Option.some.inj h
  exact ⟨if_neg hpresent, if_neg hpresent⟩

theorem ensureTables_followed (frames : FrameAnswers) (h : followed s.mem slide t p = some u)
    (hnull : ∀ q v, q <+: p → q ≠ [] → followed s.mem slide t q = some v → v.val + slide ≠ 0)
    (is : List (Fin 512)) : ensureTables frames slide (t.val + slide) (p ++ is) s =
      ensureTables frames slide (u.val + slide) is s := by
  induction p generalizing t with
  | nil =>
      obtain rfl := Option.some.inj h
      rfl
  | cons i p ih =>
      obtain ⟨v, hv, hu⟩ := Option.bind_eq_some_iff.1 h
      obtain ⟨hres, hwrites⟩ := ensureTable_present frames hv
      have hone : followed s.mem slide t [i] = some v := by simp [hv]
      have hne := hnull [i] v (by simp) (by simp) hone
      have hrest := ih hu fun q w hq hq0 hw =>
        hnull (i :: q) w (by simpa using hq) (by simp) (by simpa [hv] using hw)
      simp only [List.cons_append, ensureTables, hres, hwrites, if_neg hne, List.nil_append, hrest]

theorem and_present_of_followedOf (h : followedOf (entry s.mem slide t i) = none) :
    s.mem.read64 (entryPtr (t.val + slide) (BitVec.ofNat 64 i)) &&& PageBits.present = 0 := by
  unfold followedOf at h
  split_ifs at h with he
  rw [and_present_eq_zero_iff]
  simpa [entry] using he

theorem mem_ensureTables_missing (h : followedOf (entry s.mem slide t i) = none)
    (hframe : frames s.taken ≠ 0) (hvirt : frames s.taken + slide ≠ 0) (is : List (Fin 512)) :
    (⟨entryPtr (t.val + slide) (BitVec.ofNat 64 i), 8⟩ : Range) ∈
      (ensureTables frames slide (t.val + slide) (i :: is) s).1 := by
  have hmem : (⟨entryPtr (t.val + slide) (BitVec.ofNat 64 i), 8⟩ : Range) ∈
      ensureTableWrites frames slide (entryPtr (t.val + slide) (BitVec.ofNat 64 i)) s := by
    unfold ensureTableWrites allocTable Machine.allocPage
    simp only [if_pos (and_present_of_followedOf h), if_neg hframe, if_neg hvirt]
    exact List.mem_cons_of_mem _ (List.mem_singleton.2 rfl)
  simp only [ensureTables]
  split_ifs
  · exact hmem
  · exact List.mem_append_left _ hmem

theorem ensureTables_starved (hframe : frames s.taken = 0)
    (h : followed s.mem slide t is = none) :
    (ensureTables frames slide (t.val + slide) is s).1 = [] ∧
      (ensureTables frames slide (t.val + slide) is s).2.1 = 0 ∧
      (ensureTables frames slide (t.val + slide) is s).2.2.mem = s.mem := by
  induction is generalizing t with
  | nil => simp at h
  | cons i is ih =>
      cases hv : followedOf (entry s.mem slide t i) with
      | some v =>
          obtain ⟨hres, hwrites⟩ := ensureTable_present frames hv
          simp only [ensureTables, hres, hwrites]
          split_ifs
          · exact ⟨rfl, rfl, rfl⟩
          · exact ih (by simpa [hv] using h)
      | none =>
          have habsent := and_present_of_followedOf hv
          simp [ensureTables, ensureTable, ensureTableWrites, allocTable, Machine.allocPage,
            habsent, hframe]

end Follow

/-! ## One call -/

/-- Every store lands in a table of the pagemap or in a page just taken, and no canonical
address outside the page at `virt` translates differently. -/
def Harmless (frames : FrameAnswers) (slide : Word) (root : Frame) (virt phys : Word)
    (flags : MapFlags) (s : Machine) : Prop :=
  let s' := (mapVirtual frames slide (root.val + slide) virt phys flags s).2
  (∀ r ∈ mapVirtualWrites frames slide (root.val + slide) virt phys s,
      Lands frames slide root s s' r) ∧
    ∀ va, Canonical va → alignDown va pageSize ≠ virt →
      walk s'.mem slide root va = walk s.mem slide root va

/-- No present entry on the way to the bottom table of `virt` is a large page. -/
def ClearWay (slide : Word) (root : Frame) (virt : Word) (s : Machine) : Prop :=
  UpperAll tableOf (entry s.mem slide) root 3 (ClearOn virt)

/-- What `map_virtual` asks for at a page whose tables are there. -/
def requested (slide : Word) (root : Frame) (virt phys : Word) (flags : MapFlags) (s : Machine) :
    Mapping :=
  .of (phys &&& ppnMask)
    ((trail tableOf (entry s.mem slide) root (tablePath virt)).foldl Access.restrict .all)
    (leafEntry phys flags)

/-- The call is refused, or a table is missing and there is no frame for it, or its way is
clear. A page that is not canonical must then fail for want of frames, or be mapped so already:
the store is seen at the canonical address with the same indices. -/
def Contained (frames : FrameAnswers) (slide : Word) (root : Frame) (virt phys : Word)
    (flags : MapFlags) (s : Machine) : Prop :=
  Refused (root.val + slide) virt phys ∨
    (followed s.mem slide root (tablePath virt) = none ∧ frames s.taken = 0) ∨
    (ClearWay slide root virt s ∧
      (Canonical virt ∨
        ¬ Supplied frames s.taken (tablesNeeded (hasTable slide root s) virt) ∨
        walk s.mem slide root virt = some (requested slide root virt phys flags s)))

/-- What is reached only through a large page is neither a table, nor a frame to come, nor at
the null address. -/
def DataBehind (frames : FrameAnswers) (slide : Word) (root : Frame) (virt : Word) (s : Machine) :
    Prop :=
  ∀ p f, p <+: tablePath virt → followed s.mem slide root p = some f →
    tableAt s.mem slide root p = none →
    f.val + slide ≠ 0 ∧ (∀ q, q.length ≤ 3 → tableAt s.mem slide root q ≠ some f) ∧
      ∀ k, s.taken ≤ k → frames k ≠ f.val

section Call

variable {frames : FrameAnswers} {slide : Word} {root : Frame} {virt phys : Word}
  {flags : MapFlags} {s : Machine}

theorem Harmless.of_unchanged
    (hwrites : mapVirtualWrites frames slide (root.val + slide) virt phys s = [])
    (hmem : (mapVirtual frames slide (root.val + slide) virt phys flags s).2.mem = s.mem) :
    Harmless frames slide root virt phys flags s := by
  refine ⟨by simp [hwrites], fun va _ _ => ?_⟩
  rw [hmem]

theorem ClearWay.lands (hclear : ClearWay slide root virt s) (hframes : FreshFrames frames)
    (h : Tree frames slide root s) (flags : MapFlags) :
    ∀ r ∈ mapVirtualWrites frames slide (root.val + slide) virt phys s, Lands frames slide root s
      (mapVirtual frames slide (root.val + slide) virt phys flags s).2 r := by
  unfold mapVirtualWrites
  by_cases hargs : Refused (root.val + slide) virt phys
  · simp [if_pos hargs]
  have hwalk := ensureTables_lands (p := []) (t := root) hframes (.refl h) hclear rfl
    (show [] ++ tablePath virt = tablePath virt from rfl)
  rw [if_neg hargs, mapVirtual_eq flags hargs]
  generalize ensureTables frames slide (root.val + slide) (tablePath virt) s = res at hwalk
  obtain ⟨writes, pt, s₁⟩ := res
  obtain ⟨hgrows, hlands, hlast⟩ := hwalk
  by_cases hz : pt = 0
  · simp only [if_pos hz]
    exact hlands
  obtain ⟨pt, rfl, hat⟩ := hlast hz
  simp only [if_neg hz]
  intro r hr
  rcases List.mem_append.1 hr with hr | hr
  · exact hlands r hr
  · rw [List.mem_singleton] at hr
    subst hr
    exact ⟨pt, hgrows.ownPage (p := tablePath virt) (Nat.le_refl 3) hat,
      fun x hx => mem_entryPtr hx⟩

theorem ClearWay.tableAt (hclear : ClearWay slide root virt s) {mp : Mapping}
    (hwalk : walk s.mem slide root virt = some mp) :
    ∃ pt, tableAt s.mem slide root (tablePath virt) = some pt := by
  rw [← Option.ne_none_iff_exists']
  intro hnone
  obtain ⟨q, i, r, t, hpath, ht, hstop⟩ := descend_eq_none hnone
  have hlen : q.length < 3 := by
    have := congrArg List.length hpath
    simp only [List.length_append, List.length_cons, tablePath, List.length_nil] at this
    omega
  have hpre : (q ++ [i]) <+: tablePath virt := ⟨r, by simp [hpath]⟩
  have habsent : isFlagSet (entry s.mem slide t i) PageBits.present = false := by
    by_contra hpresent
    have hpresent : isFlagSet (entry s.mem slide t i) PageBits.present = true := by
      simpa using hpresent
    have hlarge := hclear q i t hlen ht hpre hpresent
    rw [tableOf, if_pos ⟨hpresent, by simp [hlarge]⟩] at hstop
    simp at hstop
  have hlinks := links_of_mem_trail ht
  have hTlen := trail_length ht
  have hwhole : path virt = q ++ i :: (r ++ [levelIndex 0 virt]) := by
    rw [path, hpath]
    simp
  rw [walk, hwhole, trail_append ht, trail_cons_of_none hstop,
    translate_links hlinks (by omega), translate_absent habsent] at hwalk
  simp at hwalk

theorem mapVirtual_of_tableAt (hvisible : Visible frames slide root s) {pt : Frame}
    (hpt : tableAt s.mem slide root (tablePath virt) = some pt)
    (hargs : ¬ Refused (root.val + slide) virt phys) :
    mapVirtual frames slide (root.val + slide) virt phys flags s =
      (true, s.setLeaf slide pt virt (leafEntry phys flags)) := by
  have hnull : ∀ q v, q <+: tablePath virt → q ≠ [] → followed s.mem slide root q = some v →
      v.val + slide ≠ 0 := by
    intro q v hpre _ hv
    obtain ⟨t, ht⟩ : ∃ t, tableAt s.mem slide root q = some t := by
      rw [← Option.ne_none_iff_exists']
      intro hnone
      rw [tableAt, descend_prefix_none hnone hpre] at hpt
      simp at hpt
    obtain rfl := Option.some.inj ((followed_of_tableAt ht).symm.trans hv)
    exact hvisible.tables q t hpre.length_le ht
  have hall := ensureTables_followed frames (followed_of_tableAt hpt) hnull []
  rw [List.append_nil] at hall
  rw [mapVirtual_eq flags hargs, hall]
  exact if_neg (hvisible.tables (tablePath virt) pt (Nat.le_refl 3) hpt)

/-- However the call ends on a clear way, only the page at `virt` may translate differently. -/
theorem ClearWay.walk_eq (hclear : ClearWay slide root virt s) (hframes : FreshFrames frames)
    (h : Tree frames slide root s) (phys : Word) (flags : MapFlags) {va : Word}
    (hva : path va ≠ path virt) :
    walk (mapVirtual frames slide (root.val + slide) virt phys flags s).2.mem slide root va =
      walk s.mem slide root va :=
  (mapVirtual_advances phys flags hframes h hclear).walks va fun _ hv => hv ▸ hva

theorem ClearWay.walk_failed (hclear : ClearWay slide root virt s) (hframes : FreshFrames frames)
    (h : Tree frames slide root s)
    (hfail : (mapVirtual frames slide (root.val + slide) virt phys flags s).1 = false) (va : Word) :
    walk (mapVirtual frames slide (root.val + slide) virt phys flags s).2.mem slide root va =
      walk s.mem slide root va := by
  obtain ⟨s₁, hgrows, ⟨s', hres, hmem, -⟩ | ⟨-, -, -, -, pt, -, hres⟩⟩ :=
    mapVirtual_spec hframes h phys flags hclear
  · rw [hres, hmem]
    exact hgrows.walks va
  · rw [hres] at hfail
    simp at hfail

theorem ClearWay.walk_same (hclear : ClearWay slide root virt s) (h : Tree frames slide root s)
    (hvisible : Visible frames slide root s) (hargs : ¬ Refused (root.val + slide) virt phys)
    (hsame : walk s.mem slide root virt = some (requested slide root virt phys flags s)) :
    walk (mapVirtual frames slide (root.val + slide) virt phys flags s).2.mem slide root virt =
      walk s.mem slide root virt := by
  obtain ⟨pt, hpt⟩ := hclear.tableAt hsame
  rw [mapVirtual_of_tableAt hvisible hpt hargs,
    setLeaf_walk_self h hpt (leafEntry_flags phys flags).1, leafEntry_frame, hsame, requested]

theorem Contained.harmless (hc : Contained frames slide root virt phys flags s)
    (hframes : FreshFrames frames) (h : Tree frames slide root s)
    (hvisible : Visible frames slide root s) : Harmless frames slide root virt phys flags s := by
  by_cases hargs : Refused (root.val + slide) virt phys
  · exact .of_unchanged (if_pos hargs) (by rw [mapVirtual_refused flags hargs]; rfl)
  rcases hc with hrefused | ⟨hnone, hframe⟩ | ⟨hclear, hpage⟩
  · exact absurd hrefused hargs
  · obtain ⟨hwrites, hz, hmem⟩ := ensureTables_starved hframe hnone
    refine .of_unchanged ?_ ?_
    · rw [mapVirtualWrites, if_neg hargs]
      simp only [hz, if_true, hwrites]
    · rw [mapVirtual_eq flags hargs]
      simp only [hz, if_true, hmem]
  · refine ⟨hclear.lands hframes h flags, fun va hva hpage' => ?_⟩
    by_cases hpath : path va = path virt
    swap
    · exact hclear.walk_eq hframes h phys flags hpath
    obtain ⟨hv, hvAligned, hph, hphAligned⟩ := not_refused hargs
    rcases hpage with hcan | hshort | hsame
    · exact absurd (alignDown_eq_of_path hva hcan hvAligned hpath) hpage'
    · obtain ⟨ok, s', hres, hsup, -⟩ :=
        mapVirtual_demand hvisible hframes h flags hclear hv hvAligned hph hphAligned
      refine hclear.walk_failed hframes h ?_ va
      rw [hres]
      simpa using mt hsup.1 hshort
    · have hpages := samePage_of_path hpath
      rw [walk_congr hpages, walk_congr hpages]
      exact hclear.walk_same h hvisible hargs hsame

/-- Where the first store of a call is that gets its frame: at the end of the way, or at the
first entry that is missing. -/
theorem exists_store (frames : FrameAnswers) (hargs : ¬ Refused (root.val + slide) virt phys)
    (hnull : ∀ q v, q <+: tablePath virt → followed s.mem slide root q = some v →
      v.val + slide ≠ 0)
    (hfed : followed s.mem slide root (tablePath virt) = none →
      frames s.taken ≠ 0 ∧ frames s.taken + slide ≠ 0) :
    ∃ (q : List (Fin 512)) (f : Frame) (j : Fin 512), q <+: tablePath virt ∧
        followed s.mem slide root q = some f ∧
      (followed s.mem slide root (tablePath virt) = none →
        followed s.mem slide root (q ++ [j]) = none ∧ (q ++ [j]) <+: tablePath virt) ∧
      (followed s.mem slide root (tablePath virt) ≠ none → q = tablePath virt) ∧
      (⟨entryPtr (f.val + slide) (BitVec.ofNat 64 j), 8⟩ : Range) ∈
        mapVirtualWrites frames slide (root.val + slide) virt phys s := by
  rw [mapVirtualWrites, if_neg hargs]
  cases hlast : followed s.mem slide root (tablePath virt) with
  | some f =>
      have hall : ensureTables frames slide (root.val + slide) (tablePath virt) s =
          ([], f.val + slide, s) := by
        have hwhole := ensureTables_followed frames hlast
          (fun q v hq _ => hnull q v hq) []
        rwa [List.append_nil] at hwhole
      have hf := hnull _ f (List.prefix_refl _) hlast
      refine ⟨tablePath virt, f, levelIndex 0 virt, List.prefix_refl _, hlast, by simp, by simp, ?_⟩
      rw [hall]
      dsimp only
      rw [if_neg hf]
      exact List.mem_append_right _ (List.mem_singleton.2 rfl)
  | none =>
      obtain ⟨hframe, hvirt⟩ := hfed hlast
      obtain ⟨q, j, r, f, hpath, hf, hstop⟩ := descend_eq_none hlast
      have hq : q <+: tablePath virt := ⟨j :: r, hpath.symm⟩
      have hreach := ensureTables_followed frames hf
        (fun q' v hq' _ => hnull q' v (hq'.trans hq)) (j :: r)
      have hstore := mem_ensureTables_missing hstop hframe hvirt r
      refine ⟨q, f, j, hq, hf, fun _ => ⟨?_, r, by simp [hpath]⟩, by simp, ?_⟩
      · rw [followed, descend_concat hf, hstop]
      · rw [hpath, hreach]
        dsimp only
        split_ifs
        · exact hstore
        · exact List.mem_append_left _ hstore

/-- Behind a large page, a call stores to what the large page maps. -/
theorem not_harmless_of_large (hdata : DataBehind frames slide root virt s)
    (hvisible : Visible frames slide root s) (hargs : ¬ Refused (root.val + slide) virt phys)
    (hfed : followed s.mem slide root (tablePath virt) = none → frames s.taken ≠ 0)
    (hclear : ¬ ClearWay slide root virt s) : ¬ Harmless frames slide root virt phys flags s := by
  -- the first large page on the way, at `p ++ [i]`
  obtain ⟨p, i, t, hlen, ht, hlarge⟩ : ∃ p i t, p.length < 3 ∧
      tableAt s.mem slide root p = some t ∧ ¬ ClearOn virt (p ++ [i]) (entry s.mem slide t i) := by
    simpa only [ClearWay, UpperAll, not_forall, exists_prop] using hclear
  simp only [ClearOn, Classical.not_imp] at hlarge
  obtain ⟨hpre, hpresent, hbit⟩ := hlarge
  have hbehind : tableAt s.mem slide root (p ++ [i]) = none := by
    rw [tableAt, descend_concat ht, tableOf, if_neg fun h => hbit (by simpa using h.2)]
  have hlink : followed s.mem slide root (p ++ [i]) = some (frameOf (entry s.mem slide t i)) := by
    rw [followed, descend_concat (followed_of_tableAt ht), followedOf, if_pos hpresent]
  have hnull : ∀ q v, q <+: tablePath virt → followed s.mem slide root q = some v →
      v.val + slide ≠ 0 := by
    intro q v hq hv
    cases hat : tableAt s.mem slide root q with
    | some u =>
        obtain rfl := Option.some.inj ((followed_of_tableAt hat).symm.trans hv)
        exact hvisible.tables q u hq.length_le hat
    | none => exact (hdata q v hq hv hat).1
  obtain ⟨q, f, j, hq, hf, hnone, hsome, hstore⟩ := exists_store frames hargs hnull
    fun h => ⟨hfed h, hvisible.frames _ (Nat.le_refl _) (hfed h)⟩
  -- the call gets past the large page before it stores
  have hpast : (p ++ [i]) <+: q := by
    by_cases hlast : followed s.mem slide root (tablePath virt) = none
    · obtain ⟨hstop, hj⟩ := hnone hlast
      rcases List.prefix_or_prefix_of_prefix hpre hq with h | h
      · exact h
      · rcases List.prefix_or_prefix_of_prefix hpre hj with h' | h'
        · rcases List.prefix_concat_iff.1 h' with h'' | h''
          · rw [h'', hstop] at hlink
            simp at hlink
          · exact h''
        · rw [followed, descend_prefix_none hstop h'] at hlink
          simp at hlink
    · rw [hsome hlast]
      exact hpre
  obtain ⟨-, htables, htaken⟩ := hdata q f hq hf (descend_prefix_none hbehind hpast)
  rintro ⟨hwrites, -⟩
  obtain ⟨u, hu, hbytes⟩ := hwrites _ hstore
  have hfirst : Mem.InRange (u.val + slide) 0x1000
      (entryPtr (f.val + slide) (BitVec.ofNat 64 j)) := by
    apply hbytes
    show Mem.InRange _ _ _
    unfold Mem.InRange
    bv_omega
  obtain rfl := eq_of_mem_entryPtr hfirst
  rcases hu with ⟨q', hq', hat⟩ | ⟨k, hk, -, hkf, -⟩
  · exact htables q' hq' hat
  · exact htaken k hk hkf

/-- A store to a page that is not canonical shows at its canonical address. -/
theorem ClearWay.contained (hclear : ClearWay slide root virt s) (hframes : FreshFrames frames)
    (h : Tree frames slide root s) (hvisible : Visible frames slide root s)
    (hargs : ¬ Refused (root.val + slide) virt phys)
    (hharmless : Harmless frames slide root virt phys flags s) :
    Canonical virt ∨
      ¬ Supplied frames s.taken (tablesNeeded (hasTable slide root s) virt) ∨
      walk s.mem slide root virt = some (requested slide root virt phys flags s) := by
  by_cases hcan : Canonical virt
  · exact Or.inl hcan
  by_cases hsup : Supplied frames s.taken (tablesNeeded (hasTable slide root s) virt)
  swap
  · exact Or.inr (Or.inl hsup)
  refine Or.inr (Or.inr ?_)
  obtain ⟨hv, hvAligned, hph, hphAligned⟩ := not_refused hargs
  have hne : alignDown (canonicalOf virt) pageSize ≠ virt := fun he =>
    hcan (he ▸ canonical_alignDown.2 (canonical_canonicalOf virt))
  have hwalk := hharmless.2 _ (canonical_canonicalOf virt) hne
  rw [walk_congr (samePage_canonicalOf virt), walk_congr (samePage_canonicalOf virt)] at hwalk
  obtain ⟨ok, s', hres, hok, -⟩ :=
    mapVirtual_demand hvisible hframes h flags hclear hv hvAligned hph hphAligned
  obtain ⟨s₁, hgrows, ⟨s'', hres', -, -⟩ | ⟨-, -, -, -, pt, hpt, hres'⟩⟩ :=
    mapVirtual_spec hframes h phys flags hclear
  · rw [hres'] at hres
    obtain ⟨rfl, -⟩ := Prod.mk.inj hres
    exact absurd (hok.2 hsup) (by simp)
  -- the page is mapped afterwards, so it was mapped before, and no table was missing
  have hmapped := hwalk
  rw [hres', setLeaf_walk_self hgrows.tree hpt (leafEntry_flags phys flags).1] at hmapped
  obtain ⟨pt', hpt'⟩ := hclear.tableAt hmapped.symm
  rw [mapVirtual_of_tableAt hvisible hpt' hargs,
    setLeaf_walk_self h hpt' (leafEntry_flags phys flags).1, leafEntry_frame] at hwalk
  exact hwalk.symm

/-- A call of `map_virtual` is contained, or it harms what is not a page table. -/
theorem mapVirtual_harmless_iff (hframes : FreshFrames frames) (h : Tree frames slide root s)
    (hvisible : Visible frames slide root s) :
    (Contained frames slide root virt phys flags s → Harmless frames slide root virt phys flags s) ∧
      (DataBehind frames slide root virt s → Harmless frames slide root virt phys flags s →
        Contained frames slide root virt phys flags s) := by
  refine ⟨fun hc => hc.harmless hframes h hvisible, fun hdata hharmless => ?_⟩
  by_cases hargs : Refused (root.val + slide) virt phys
  · exact Or.inl hargs
  by_cases hfed : followed s.mem slide root (tablePath virt) = none ∧ frames s.taken = 0
  · exact Or.inr (Or.inl hfed)
  by_cases hclear : ClearWay slide root virt s
  · exact Or.inr (Or.inr ⟨hclear, hclear.contained hframes h hvisible hargs hharmless⟩)
  · refine absurd hharmless (not_harmless_of_large hdata hvisible hargs (fun hnone => ?_) hclear)
    exact fun hz => hfed ⟨hnone, hz⟩

end Call

/-! ## A pagemap with a large page -/

private def oneFrame : FrameAnswers := fun k => if k = 0 then 0x3000 else 0

private theorem freshFrames_oneFrame : FreshFrames oneFrame := .single (by decide) (by decide)

private def directMap : Word := 0xffff800000000000

section LargeMachine

local instance entries_ne_zero : NeZero 512 := ⟨by decide⟩

/-- The root table links to one table, whose first entry maps the gigabyte at 0x40000000. -/
private def largeMachine : Machine where
  mem := Mem.write64
    (Mem.write64 (fun _ => 0)
      (entryPtr ((frameOf 0x1000).val + directMap) (BitVec.ofNat 64 (0 : Fin 512).val))
      (tableEntry (frameOf 0x2000)))
    (entryPtr ((frameOf 0x2000).val + directMap) (BitVec.ofNat 64 (0 : Fin 512).val))
    (0x40000000 ||| PageBits.present ||| PageBits.readWrite ||| largePage)

end LargeMachine

private theorem entry_largeMachine (x : Frame) (j : Fin 512) :
    entry largeMachine.mem directMap x j =
      if x = frameOf 0x2000 ∧ j = 0 then
        0x40000000 ||| PageBits.present ||| PageBits.readWrite ||| largePage
      else if x = frameOf 0x1000 ∧ j = 0 then tableEntry (frameOf 0x2000) else 0 := by
  have hzero : entry (fun _ => 0) directMap x j = 0 := by simp [entry, Mem.read64]
  rw [largeMachine]
  split_ifs with h2 h1
  · obtain ⟨rfl, rfl⟩ := h2
    exact (entry_write64 _ _ _ _ _).here
  · obtain ⟨rfl, rfl⟩ := h1
    rw [(entry_write64 _ _ _ _ _).other _ _ h2]
    exact (entry_write64 _ _ _ _ _).here
  · rw [(entry_write64 _ _ _ _ _).other _ _ h2, (entry_write64 _ _ _ _ _).other _ _ h1, hzero]

private theorem tableOf_largeMachine_root (i : Fin 512) :
    tableOf (entry largeMachine.mem directMap (frameOf 0x1000) i) =
      if i = 0 then some (frameOf 0x2000) else none := by
  have hne : frameOf 0x1000 ≠ frameOf 0x2000 := by decide
  rw [entry_largeMachine, if_neg fun h => hne h.1]
  by_cases hi : i = 0
  · rw [if_pos ⟨rfl, hi⟩, tableOf_tableEntry, if_pos hi]
  · rw [if_neg fun h => hi h.2, tableOf_zero, if_neg hi]

private theorem largeMachine_tableAt {p : List (Fin 512)} {u : Frame}
    (h : tableAt largeMachine.mem directMap (frameOf 0x1000) p = some u) :
    (p = [] ∧ u = frameOf 0x1000) ∨ (p = [0] ∧ u = frameOf 0x2000) := by
  have hroot := tableOf_largeMachine_root
  have hleaf : ∀ i, tableOf (entry largeMachine.mem directMap (frameOf 0x2000) i) = none := by
    intro i
    rw [entry_largeMachine]
    by_cases hi : i = 0
    · rw [if_pos ⟨rfl, hi⟩]
      decide
    · rw [if_neg fun h => hi h.2, if_neg fun h => hi h.2, tableOf_zero]
  rcases descend_only (hroot 0) (fun i hi => (hroot i).trans (if_neg hi)) h with
    htop | ⟨q, rfl, hbelow⟩
  · exact Or.inl htop
  · obtain ⟨rfl, hu⟩ := descend_leaf hleaf hbelow
    exact Or.inr ⟨rfl, hu⟩

private theorem oneFrame_eq {k : Nat} (hk : oneFrame k ≠ 0) : oneFrame k = 0x3000 := by
  unfold oneFrame at hk ⊢
  split_ifs at hk ⊢
  · rfl
  · exact absurd rfl hk

private theorem tree_largeMachine :
    Tree oneFrame directMap (frameOf 0x1000) largeMachine := by
  refine ⟨fun p q t _ _ hp hq => ?_, fun k u _ hu hu0 p _ hp => ?_⟩
  · rcases largeMachine_tableAt hp with ⟨rfl, rfl⟩ | ⟨rfl, rfl⟩ <;>
      rcases largeMachine_tableAt hq with ⟨rfl, h⟩ | ⟨rfl, h⟩
    · rfl
    · exact absurd h (by decide)
    · exact absurd h (by decide)
    · rfl
  · have hk := (oneFrame_eq hu0).symm.trans hu
    rcases largeMachine_tableAt hp with ⟨-, rfl⟩ | ⟨-, rfl⟩ <;> exact absurd hk (by decide)

private theorem visible_largeMachine :
    Visible oneFrame directMap (frameOf 0x1000) largeMachine := by
  refine ⟨fun p u _ hp => ?_, fun k _ hk0 => ?_⟩
  · rcases largeMachine_tableAt hp with ⟨-, rfl⟩ | ⟨-, rfl⟩ <;> decide
  · rw [oneFrame_eq hk0]
    decide

/-- Mapping a page in that gigabyte stores to its first bytes. -/
theorem mapVirtual_stores_to_large_page :
    FreshFrames oneFrame ∧ Tree oneFrame directMap (frameOf 0x1000) largeMachine ∧
      Visible oneFrame directMap (frameOf 0x1000) largeMachine ∧
      ¬ Harmless oneFrame directMap (frameOf 0x1000) 0x1000 0x5000 MapFlags.write largeMachine := by
  refine ⟨freshFrames_oneFrame, tree_largeMachine, visible_largeMachine, fun h => ?_⟩
  have hstore : (⟨entryPtr ((frameOf 0x40000000).val + directMap)
      (BitVec.ofNat 64 (0 : Fin 512).val), 8⟩ : Range) ∈ mapVirtualWrites oneFrame directMap
        ((frameOf 0x1000).val + directMap) 0x1000 0x5000 largeMachine := by
    decide +kernel
  obtain ⟨u, hu, hbytes⟩ := h.1 _ hstore
  have hfirst := hbytes (entryPtr ((frameOf 0x40000000).val + directMap)
    (BitVec.ofNat 64 (0 : Fin 512).val)) (by
      show Mem.InRange _ _ _
      decide)
  obtain rfl := eq_of_mem_entryPtr hfirst
  rcases hu with ⟨p, -, hp⟩ | ⟨k, -, -, hk, hk0⟩
  · rcases largeMachine_tableAt hp with ⟨-, hp⟩ | ⟨-, hp⟩ <;> exact absurd hp (by decide)
  · exact absurd ((oneFrame_eq hk0).symm.trans hk) (by decide)

/-- `ensure_table` gets from the root through the large page to its first frame, no further. -/
private theorem largeMachine_followed {p : List (Fin 512)} {f : Frame}
    (h : followed largeMachine.mem directMap (frameOf 0x1000) p = some f) :
    p = [] ∨ p = [0] ∨ f = frameOf 0x40000000 := by
  have hroot : ∀ i, followedOf (entry largeMachine.mem directMap (frameOf 0x1000) i) =
      if i = 0 then some (frameOf 0x2000) else none := by
    intro i
    rw [entry_largeMachine, if_neg fun h => absurd h.1 (by decide)]
    by_cases hi : i = 0
    · rw [if_pos ⟨rfl, hi⟩, if_pos hi]
      exact followedOf_of_tableOf _ _ (tableOf_tableEntry _)
    · rw [if_neg fun h => hi h.2, if_neg hi]
      decide
  have hsecond : ∀ i, followedOf (entry largeMachine.mem directMap (frameOf 0x2000) i) =
      if i = 0 then some (frameOf 0x40000000) else none := by
    intro i
    rw [entry_largeMachine]
    by_cases hi : i = 0
    · rw [if_pos ⟨rfl, hi⟩, if_pos hi]
      decide
    · rw [if_neg fun h => hi h.2, if_neg fun h => hi h.2, if_neg hi]
      decide
  have hdata : ∀ i,
      followedOf (entry largeMachine.mem directMap (frameOf 0x40000000) i) = none := by
    intro i
    rw [entry_largeMachine, if_neg fun h => absurd h.1 (by decide),
      if_neg fun h => absurd h.1 (by decide)]
    decide
  rcases descend_only (hroot 0) (fun i hi => (hroot i).trans (if_neg hi)) h with
    ⟨rfl, -⟩ | ⟨q, rfl, hbelow⟩
  · exact Or.inl rfl
  rcases descend_only (hsecond 0) (fun i hi => (hsecond i).trans (if_neg hi)) hbelow with
    ⟨rfl, -⟩ | ⟨q, rfl, hbelow⟩
  · exact Or.inr (Or.inl rfl)
  · exact Or.inr (Or.inr (descend_leaf hdata hbelow).2)

private theorem dataBehind_largeMachine :
    DataBehind oneFrame directMap (frameOf 0x1000) 0x1000 largeMachine := by
  intro p f _ hf hnone
  rcases largeMachine_followed hf with rfl | rfl | rfl
  · exact absurd hnone (by simp)
  · rw [tableAt, descend_cons, tableOf_largeMachine_root] at hnone
    exact absurd hnone (by simp)
  · refine ⟨by decide, fun q _ hq => ?_, fun k _ hk => ?_⟩
    · rcases largeMachine_tableAt hq with ⟨-, h⟩ | ⟨-, h⟩ <;> exact absurd h (by decide)
    · by_cases hk0 : oneFrame k = 0
      · exact absurd (hk0.symm.trans hk) (by decide)
      · exact absurd ((oneFrame_eq hk0).symm.trans hk) (by decide)

theorem mapVirtual_harmless_iff_large_page :
    Harmless oneFrame directMap (frameOf 0x1000) 0x1000 0x5000 MapFlags.write largeMachine ↔
      Contained oneFrame directMap (frameOf 0x1000) 0x1000 0x5000 MapFlags.write largeMachine := by
  exact ⟨(mapVirtual_harmless_iff freshFrames_oneFrame tree_largeMachine
      visible_largeMachine).2 dataBehind_largeMachine,
    (mapVirtual_harmless_iff freshFrames_oneFrame tree_largeMachine visible_largeMachine).1⟩

end UnnamedKernel.Mm.Vmm
