import UnnamedKernel.Kernel.Irqs.Cursor

/-!
# What loading reads

`load_entries` looks at the first byte of an entry's range only, so an entry that is cut off, or
shorter than its struct, takes it out of the table.
-/

namespace UnnamedKernel.Kernel.Irqs

open UnnamedKernel.Lib UnnamedKernel.Containers

variable {acpi : AcpiHeader} {mem mem' : Mem} {virtAddr size r e a : Word} {tables : Tables}
  {fuel : Nat}

/-! ## The bytes -/

section Footprint

/-- The struct that an entry of this type is copied as. -/
def AcpiHeader.kindOf (acpi : AcpiHeader) (type : BitVec 8) : Option EntryKind :=
  if type = acpi.lapic.type then some acpi.lapic
  else if type = acpi.lapicNmi.type then some acpi.lapicNmi
  else if type = acpi.interruptSourceOverride.type then some acpi.interruptSourceOverride
  else if type = acpi.ioapic.type then some acpi.ioapic
  else none

/-- The bytes of `n` from `e` on. -/
def span (e : Word) (n : Nat) : List Word := (List.range n).map fun i => e + BitVec.ofNat 64 i

/-- The bytes of the struct that is copied from the entry at `e`. -/
def structReads (acpi : AcpiHeader) (mem : Mem) (e : Word) : List Word :=
  match acpi.kindOf (mem e) with
  | some kind => span e kind.size
  | none => []

/-- The type, the struct and the length of the entry at `e`. -/
def entryReads (acpi : AcpiHeader) (mem : Mem) (e : Word) : List Word :=
  e :: structReads acpi mem e ++ [e + 1]

def loopReads (acpi : AcpiHeader) (mem : Mem) (virtAddr size : Word) : Nat → Word → List Word
  | 0, _ => []
  | fuel + 1, read =>
      if size > read then
        entryReads acpi mem (entryAt acpi virtAddr read) ++
          loopReads acpi mem virtAddr size fuel
            (read + (entryLength mem (entryAt acpi virtAddr read)).setWidth 64)
      else []

/-- What `load_entries` reads: `hdr->length`, and the entries. -/
def loadReads (acpi : AcpiHeader) (mem : Mem) (virtAddr : Word) (fuel : Nat) : List Word :=
  span (virtAddr + acpi.lengthOffset) 4 ++
    loopReads acpi mem virtAddr (tableEntriesSize acpi mem virtAddr) fuel 0

theorem mem_span {n : Nat} : a ∈ span e n ↔ ∃ i < n, e + BitVec.ofNat 64 i = a := by
  simp [span]

theorem handle_congr {kind : EntryKind} {table : Nat} (h : ∀ a ∈ span e kind.size, mem' a = mem a) :
    handle mem' kind table e tables = handle mem kind table e tables := by
  rw [handle, handle, Mem.bytes_congr fun i hi => h _ (mem_span.2 ⟨i, hi, rfl⟩)]

theorem handleEntry_congr (h : ∀ a ∈ entryReads acpi mem e, mem' a = mem a) :
    handleEntry acpi mem' e tables = handleEntry acpi mem e tables := by
  have htype : mem' e = mem e := h e (by simp [entryReads])
  have hstruct : ∀ kind, acpi.kindOf (mem e) = some kind →
      ∀ a ∈ span e kind.size, mem' a = mem a := by
    intro kind hkind a ha
    exact h a (by simp [entryReads, structReads, hkind, ha])
  simp only [handleEntry, htype]
  unfold AcpiHeader.kindOf at hstruct
  split_ifs with hl hn ho hi
  · exact handle_congr (hstruct _ (if_pos hl))
  · exact handle_congr (hstruct _ (by rw [if_neg hl, if_pos hn]))
  · exact handle_congr (hstruct _ (by rw [if_neg hl, if_neg hn, if_pos ho]))
  · exact handle_congr (hstruct _ (by rw [if_neg hl, if_neg hn, if_neg ho, if_pos hi]))
  · rfl

theorem loadLoop_congr (h : ∀ a ∈ loopReads acpi mem virtAddr size fuel r, mem' a = mem a) :
    loadLoop acpi mem' virtAddr size fuel r tables =
      loadLoop acpi mem virtAddr size fuel r tables := by
  induction fuel generalizing r tables with
  | zero => rfl
  | succ fuel ih =>
      by_cases hlt : r < size
      · rw [loopReads, if_pos hlt] at h
        have hentry : ∀ a ∈ entryReads acpi mem (entryAt acpi virtAddr r), mem' a = mem a :=
          fun a ha => h a (List.mem_append_left _ ha)
        have hlen : entryLength mem' (entryAt acpi virtAddr r) =
            entryLength mem (entryAt acpi virtAddr r) :=
          hentry _ (by simp [entryReads])
        rw [loadLoop_succ hlt, loadLoop_succ hlt, handleEntry_congr hentry, hlen]
        exact congrArg _ (funext fun tables' => ih fun a ha => h a (List.mem_append_right _ ha))
      · rw [loadLoop_done hlt, loadLoop_done hlt]

/-- Nothing but these bytes matters to `load_entries`. -/
theorem loadEntries_congr (h : ∀ a ∈ loadReads acpi mem virtAddr fuel, mem' a = mem a) :
    loadEntries acpi mem' virtAddr fuel tables = loadEntries acpi mem virtAddr fuel tables := by
  have hlength : mem'.read32 (virtAddr + acpi.lengthOffset) =
      mem.read32 (virtAddr + acpi.lengthOffset) := by
    have hbyte : ∀ i < 4, mem' (virtAddr + acpi.lengthOffset + BitVec.ofNat 64 i) =
        mem (virtAddr + acpi.lengthOffset + BitVec.ofNat 64 i) := fun i hi =>
      h _ (List.mem_append_left _ (mem_span.2 ⟨i, hi, rfl⟩))
    have hfirst := hbyte 0 (by decide)
    rw [BitVec.add_zero] at hfirst
    rw [Mem.read32, Mem.read32, hfirst]
    congr 2
    · exact congrArg₂ _ (hbyte 3 (by decide)) (hbyte 2 (by decide))
    · exact hbyte 1 (by decide)
  rw [loadEntries, loadEntries, hlength]
  exact loadLoop_congr fun a ha => h a (List.mem_append_right _ ha)

end Footprint

/-! ## The table -/

section Inside

/-- `a` is one of the bytes of the table. -/
def InTable (acpi : AcpiHeader) (mem : Mem) (virtAddr a : Word) : Prop :=
  (a - virtAddr).toNat < (hdrLength acpi mem virtAddr).toNat

/-- Nothing is read outside the table, and no struct is longer than its entry. -/
structure ReadsInside (acpi : AcpiHeader) (mem : Mem) (virtAddr : Word) : Prop where
  table : ∀ fuel, ∀ a ∈ loadReads acpi mem virtAddr fuel, InTable acpi mem virtAddr a
  entry : ∀ r, Reached acpi mem virtAddr (tableEntriesSize acpi mem virtAddr) r →
    r < tableEntriesSize acpi mem virtAddr →
    ∀ kind, acpi.kindOf (mem (entryAt acpi virtAddr r)) = some kind →
      kind.size ≤ (entryLength mem (entryAt acpi virtAddr r)).toNat

/-- No entry header is cut off, and an entry of a known type has a length byte no less than its
struct, which is not cut off either. -/
def Complete (acpi : AcpiHeader) (mem : Mem) (virtAddr size : Word) : Prop :=
  ∀ r, Reached acpi mem virtAddr size r → r < size → r.toNat + 2 ≤ size.toNat ∧
    ∀ kind, acpi.kindOf (mem (entryAt acpi virtAddr r)) = some kind →
      kind.size ≤ (entryLength mem (entryAt acpi virtAddr r)).toNat ∧
      r.toNat + kind.size ≤ size.toNat

theorem exists_mem_loopReads :
    (∃ fuel, a ∈ loopReads acpi mem virtAddr size fuel 0) ↔
      ∃ r, Reached acpi mem virtAddr size r ∧ r < size ∧
        a ∈ entryReads acpi mem (entryAt acpi virtAddr r) := by
  constructor
  · rintro ⟨fuel, ha⟩
    have hmem : ∀ r, Reached acpi mem virtAddr size r →
        a ∈ loopReads acpi mem virtAddr size fuel r → ∃ r, Reached acpi mem virtAddr size r ∧
          r < size ∧ a ∈ entryReads acpi mem (entryAt acpi virtAddr r) := by
      clear ha
      induction fuel with
      | zero => exact fun r _ ha => absurd ha (List.not_mem_nil)
      | succ fuel ih =>
          intro r hr ha
          rw [loopReads] at ha
          split_ifs at ha with hlt
          · rcases List.mem_append.1 ha with hentry | hrest
            · exact ⟨r, hr, hlt, hentry⟩
            · exact ih _ (.next hr hlt) hrest
          · exact absurd ha (List.not_mem_nil)
    exact hmem 0 .start ha
  · rintro ⟨r, hr, hlt, ha⟩
    have hfrom : ∃ fuel, a ∈ loopReads acpi mem virtAddr size fuel r := by
      refine ⟨1, ?_⟩
      rw [loopReads, if_pos hlt]
      exact List.mem_append_left _ ha
    -- back to the start
    clear hlt ha
    induction hr with
    | start => exact hfrom
    | next _ hlt ih =>
        obtain ⟨fuel, ha⟩ := hfrom
        refine ih ⟨fuel + 1, ?_⟩
        rw [loopReads, if_pos hlt]
        exact List.mem_append_right _ ha

theorem inTable_entryAt_iff (hmadt : acpi.madtSize = 44)
    (hlong : 44 ≤ (hdrLength acpi mem virtAddr).toNat)
    (hlt : r < tableEntriesSize acpi mem virtAddr)
    {i : Nat} (hi : r.toNat + i ≤ (tableEntriesSize acpi mem virtAddr).toNat) :
    InTable acpi mem virtAddr (entryAt acpi virtAddr r + BitVec.ofNat 64 i) ↔
      r.toNat + i < (tableEntriesSize acpi mem virtAddr).toNat := by
  have hsize := toNat_tableEntriesSize mem virtAddr hmadt
  have hbound := (hdrLength acpi mem virtAddr).isLt
  have hoffset : (entryAt acpi virtAddr r + BitVec.ofNat 64 i - virtAddr).toNat =
      44 + r.toNat + i := by
    rw [entryAt, hmadt]
    bv_omega
  rw [InTable, hoffset]
  omega

theorem mem_entryReads : a ∈ entryReads acpi mem e ↔ a = e ∨ a = e + 1 ∨
    ∃ kind, acpi.kindOf (mem e) = some kind ∧ ∃ i < kind.size, e + BitVec.ofNat 64 i = a := by
  have hstruct : a ∈ structReads acpi mem e ↔
      ∃ kind, acpi.kindOf (mem e) = some kind ∧ ∃ i < kind.size, e + BitVec.ofNat 64 i = a := by
    unfold structReads
    cases hkind : acpi.kindOf (mem e) with
    | none => simp
    | some kind => simp [mem_span]
  simp only [entryReads, List.cons_append, List.mem_cons, List.mem_append, hstruct,
    List.not_mem_nil, or_false]
  exact or_congr_right or_comm

/-- Reading stays inside the table exactly when every entry that the cursor gets to is complete. -/
theorem readsInside_iff (hmadt : acpi.madtSize = 44) (hoffset : acpi.lengthOffset = 4)
    (hlong : 44 ≤ (hdrLength acpi mem virtAddr).toNat) :
    ReadsInside acpi mem virtAddr ↔
      Complete acpi mem virtAddr (tableEntriesSize acpi mem virtAddr) := by
  constructor
  · intro h r hr hlt
    have hlt' := BitVec.lt_def.1 hlt
    have hread : ∀ a ∈ entryReads acpi mem (entryAt acpi virtAddr r),
        InTable acpi mem virtAddr a := by
      intro a ha
      obtain ⟨fuel, hmem⟩ := exists_mem_loopReads.2 ⟨r, hr, hlt, ha⟩
      exact h.table fuel a (List.mem_append_right _ hmem)
    refine ⟨?_, fun kind hkind => ⟨h.entry r hr hlt kind hkind, ?_⟩⟩
    · have hlength := hread _ (mem_entryReads.2 (Or.inr (Or.inl rfl)))
      exact (inTable_entryAt_iff hmadt hlong hlt (by omega)).1 hlength
    · by_contra hover
      -- the first byte behind the table
      let i := (tableEntriesSize acpi mem virtAddr).toNat - r.toNat
      have hbyte := hread _ (mem_entryReads.2 (Or.inr (Or.inr
        ⟨kind, hkind, i, by omega, rfl⟩)))
      have hin := (inTable_entryAt_iff hmadt hlong hlt (by omega)).1 hbyte
      omega
  · intro h
    refine ⟨fun fuel a ha => ?_, fun r hr hlt kind hkind => ((h r hr hlt).2 kind hkind).1⟩
    rcases List.mem_append.1 ha with hheader | hloop
    · obtain ⟨i, hi, rfl⟩ := mem_span.1 hheader
      rw [InTable, hoffset]
      bv_omega
    · obtain ⟨r, hr, hlt, hentry⟩ := exists_mem_loopReads.1 ⟨fuel, hloop⟩
      have hlt' := BitVec.lt_def.1 hlt
      obtain ⟨htwo, hkinds⟩ := h r hr hlt
      have hin : ∀ i, r.toNat + i < (tableEntriesSize acpi mem virtAddr).toNat →
          InTable acpi mem virtAddr (entryAt acpi virtAddr r + BitVec.ofNat 64 i) := fun i hi =>
        (inTable_entryAt_iff hmadt hlong hlt (Nat.le_of_lt hi)).2 hi
      rcases mem_entryReads.1 hentry with rfl | rfl | ⟨kind, hkind, i, hi, rfl⟩
      · exact BitVec.add_zero (entryAt acpi virtAddr r) ▸ hin 0 (by omega)
      · exact hin 1 (by omega)
      · have hfits := (hkinds kind hkind).2
        exact hin i (by omega)

/-- A LAPIC of eight bytes. -/
theorem readsInside_iff_one_lapic : ReadsInside acpiHeader (oneEntry 52 0 8) 0x1000 := by
  refine (readsInside_iff rfl rfl (by decide +kernel)).2 fun r hr hlt => ?_
  rw [hr.eq_zero hlt (by decide +kernel)]
  refine ⟨by decide +kernel, fun kind hkind => ?_⟩
  have hlapic : acpiHeader.kindOf (oneEntry 52 0 8 (entryAt acpiHeader 0x1000 0)) =
      some acpiHeader.lapic := if_pos (by decide +kernel)
  obtain rfl := Option.some.inj (hlapic.symm.trans hkind)
  decide +kernel

/-- A last entry that says it is a LAPIC and has a header only: the six bytes behind the table
are copied with it. -/
theorem lapic_read_behind_table :
    44 ≤ (hdrLength acpiHeader (oneEntry 46 0 2) 0x1000).toNat ∧
      Advances acpiHeader (oneEntry 46 0 2) 0x1000
        (tableEntriesSize acpiHeader (oneEntry 46 0 2) 0x1000) ∧
      ¬ ReadsInside acpiHeader (oneEntry 46 0 2) 0x1000 := by
  refine ⟨by decide +kernel, fun r hr hlt => ?_, fun h => ?_⟩
  · rw [hr.eq_zero hlt (by decide +kernel)]
    decide +kernel
  · have hlast := h.table 1 0x1033 (by decide +kernel)
    revert hlast
    unfold InTable
    decide +kernel

end Inside

end UnnamedKernel.Kernel.Irqs
