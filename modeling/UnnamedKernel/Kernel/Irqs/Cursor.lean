import UnnamedKernel.Kernel.Irqs.RoundTrip

/-!
# Loading ends unless an entry has no length

The cursor moves on by the length byte of each entry. A length of zero keeps it where it is,
and a table shorter than its header has no end.
-/

namespace UnnamedKernel.Kernel.Irqs

open UnnamedKernel.Lib UnnamedKernel.Containers

variable {acpi : AcpiHeader} {mem : Mem} {virtAddr size r : Word} {tables : Tables} {fuel : Nat}

def entryAt (acpi : AcpiHeader) (virtAddr read : Word) : Word := virtAddr + acpi.madtSize + read

/-- The length byte of the entry at `e`. -/
def entryLength (mem : Mem) (e : Word) : BitVec 8 := mem (e + 1)

def hdrLength (acpi : AcpiHeader) (mem : Mem) (virtAddr : Word) : BitVec 32 :=
  mem.read32 (virtAddr + acpi.lengthOffset)

def tableEntriesSize (acpi : AcpiHeader) (mem : Mem) (virtAddr : Word) : Word :=
  (hdrLength acpi mem virtAddr).setWidth 64 - acpi.sdtHdrSize - 8

/-- The values that `read` takes. -/
inductive Reached (acpi : AcpiHeader) (mem : Mem) (virtAddr size : Word) : Word → Prop
  | start : Reached acpi mem virtAddr size 0
  | next {r : Word} : Reached acpi mem virtAddr size r → r < size →
      Reached acpi mem virtAddr size
        (r + (entryLength mem (entryAt acpi virtAddr r)).setWidth 64)

theorem Reached.eq_zero (h : Reached acpi mem virtAddr size r) (hlt : r < size)
    (hend : ¬ (entryLength mem (entryAt acpi virtAddr 0)).setWidth 64 < size) : r = 0 := by
  induction h with
  | start => rfl
  | next _ hmore ih =>
      rw [ih hmore, show (0 : Word) + _ = _ from BitVec.zero_add _] at hlt
      exact absurd hlt hend

/-! ## The vectors can take every entry -/

section Ready

/-- The four vectors exist. -/
def Ready (tables : Tables) : Prop :=
  ∃ s, Refines tables s ∧ ∀ n < 4, ∃ structs, s.get n = some structs

theorem ready_emptyTables : Ready emptyTables := by
  refine ⟨_, @refines_emptyTables acpiHeader, fun n hn => ?_⟩
  match n with
  | 0 | 1 | 2 | 3 => exact ⟨_, rfl⟩

theorem Ready.handle (h : Ready tables) (kind : EntryKind) {table : Nat} (htable : table < 4)
    (e : Word) : ∃ tables', Irqs.handle mem kind table e tables = some tables' ∧ Ready tables' := by
  obtain ⟨s, hR, hs⟩ := h
  obtain ⟨structs, hget⟩ := hs table htable
  have hstep : s.step (.pushBack table (.value (mem.bytes e kind.size))) =
      some (s.set table (some (structs ++ [mem.bytes e kind.size]))) := by
    simp [ListProgram.step, ListProgram.eval, hget]
  obtain ⟨tables', hres, hR'⟩ := hR.step _ hstep
  refine ⟨tables', hres, _, hR', fun n hn => ?_⟩
  obtain ⟨structs', hget'⟩ := hs n hn
  rw [ListProgram.get, join_getElem?_set hget]
  split_ifs
  · exact ⟨_, rfl⟩
  · exact ⟨structs', hget'⟩

theorem Ready.handleEntry (h : Ready tables) (acpi : AcpiHeader) (mem : Mem) (e : Word) :
    ∃ tables', Irqs.handleEntry acpi mem e tables = some tables' ∧ Ready tables' := by
  simp only [Irqs.handleEntry]
  split_ifs
  · exact h.handle acpi.lapic (by decide) e
  · exact h.handle acpi.lapicNmi (by decide) e
  · exact h.handle acpi.interruptSourceOverride (by decide) e
  · exact h.handle acpi.ioapic (by decide) e
  · exact ⟨tables, rfl, h⟩

end Ready

/-! ## The loop -/

section Loop

theorem loadLoop_succ (hlt : r < size) :
    loadLoop acpi mem virtAddr size (fuel + 1) r tables =
      (handleEntry acpi mem (entryAt acpi virtAddr r) tables).bind
        (loadLoop acpi mem virtAddr size fuel
          (r + (entryLength mem (entryAt acpi virtAddr r)).setWidth 64)) := by
  rw [loadLoop, if_pos hlt]
  rfl

theorem loadLoop_done (hge : ¬ r < size) :
    loadLoop acpi mem virtAddr size (fuel + 1) r tables = some tables := by
  rw [loadLoop, if_neg hge]

/-- In the middle of a table with 255 bytes for every turn the fuel runs out. -/
theorem loadLoop_eq_none_of_far (hfar : r.toNat + 255 * fuel ≤ size.toNat) :
    loadLoop acpi mem virtAddr size fuel r tables = none := by
  induction fuel generalizing r tables with
  | zero => rfl
  | succ fuel ih =>
      have hlen := (entryLength mem (entryAt acpi virtAddr r)).isLt
      have hwide : ((entryLength mem (entryAt acpi virtAddr r)).setWidth 64).toNat =
          (entryLength mem (entryAt acpi virtAddr r)).toNat :=
        BitVec.toNat_setWidth_of_le (by decide)
      have hsize := size.isLt
      rw [loadLoop_succ (BitVec.lt_def.2 (by omega))]
      refine Option.bind_eq_none_iff.2 fun tables' _ => ih ?_
      rw [BitVec.toNat_add, hwide, Nat.mod_eq_of_lt (by omega)]
      omega

theorem loadLoop_eq_none_of_stuck (hlt : r < size)
    (hzero : entryLength mem (entryAt acpi virtAddr r) = 0) :
    loadLoop acpi mem virtAddr size fuel r tables = none := by
  induction fuel generalizing tables with
  | zero => rfl
  | succ fuel ih =>
      rw [loadLoop_succ hlt, hzero]
      refine Option.bind_eq_none_iff.2 fun tables' _ => ?_
      exact (BitVec.add_zero r).symm ▸ ih

/-- A loop that would not end from where the cursor gets to does not end from the start. -/
theorem Reached.loadLoop_eq_none (h : Reached acpi mem virtAddr size r)
    (hnone : ∀ fuel tables, loadLoop acpi mem virtAddr size fuel r tables = none) :
    loadLoop acpi mem virtAddr size fuel 0 tables = none := by
  induction h with
  | start => exact hnone fuel tables
  | next h hlt ih =>
      refine ih fun fuel tables => ?_
      cases fuel with
      | zero => rfl
      | succ fuel =>
          rw [loadLoop_succ hlt]
          exact Option.bind_eq_none_iff.2 fun tables' _ => hnone fuel tables'

/-- Every entry that is reached has a length. -/
def Advances (acpi : AcpiHeader) (mem : Mem) (virtAddr size : Word) : Prop :=
  ∀ r, Reached acpi mem virtAddr size r → r < size → entryLength mem (entryAt acpi virtAddr r) ≠ 0

theorem Advances.lt_add (h : Advances acpi mem virtAddr size) (hsmall : size.toNat < 2 ^ 32)
    (hr : Reached acpi mem virtAddr size r) (hlt : r < size) :
    (r + (entryLength mem (entryAt acpi virtAddr r)).setWidth 64).toNat =
        r.toNat + (entryLength mem (entryAt acpi virtAddr r)).toNat ∧
      0 < (entryLength mem (entryAt acpi virtAddr r)).toNat := by
  have hlen := (entryLength mem (entryAt acpi virtAddr r)).isLt
  have hpos := h r hr hlt
  generalize entryLength mem (entryAt acpi virtAddr r) = len at *
  bv_omega

/-- With a unit of fuel for each byte to go, and one for the end, the loop returns. -/
theorem Advances.loadLoop (h : Advances acpi mem virtAddr size) (hsmall : size.toNat < 2 ^ 32)
    (hr : Reached acpi mem virtAddr size r) (hready : Ready tables)
    (hfuel : size.toNat < r.toNat + fuel) (hpos : 0 < fuel) :
    ∃ tables', Irqs.loadLoop acpi mem virtAddr size fuel r tables = some tables' := by
  induction fuel generalizing r tables with
  | zero => exact absurd hpos (Nat.lt_irrefl 0)
  | succ fuel ih =>
      by_cases hlt : r < size
      · obtain ⟨tables', hres, hready'⟩ :=
          hready.handleEntry acpi mem (entryAt acpi virtAddr r)
        obtain ⟨hnext, hlen⟩ := h.lt_add hsmall hr hlt
        have hlt' := BitVec.lt_def.1 hlt
        rw [loadLoop_succ hlt, hres]
        exact ih (.next hr hlt) hready' (by omega) (by omega)
      · exact ⟨tables, loadLoop_done hlt⟩

end Loop

/-! ## The whole table -/

theorem toNat_tableEntriesSize (mem : Mem) (virtAddr : Word) (hmadt : acpi.madtSize = 44) :
    (tableEntriesSize acpi mem virtAddr).toNat =
      (2 ^ 64 - 44 + (hdrLength acpi mem virtAddr).toNat) % 2 ^ 64 := by
  have hheader := acpi.madtSize_eq
  have hwide : ((hdrLength acpi mem virtAddr).setWidth 64).toNat =
      (hdrLength acpi mem virtAddr).toNat := BitVec.toNat_setWidth_of_le (by decide)
  have hlt := (hdrLength acpi mem virtAddr).isLt
  rw [tableEntriesSize]
  bv_omega

/-- The loop ends within `hdr->length` turns exactly when the table is no shorter than its
header and every entry that the cursor gets to has a length. -/
theorem loadEntries_ends_iff (hmadt : acpi.madtSize = 44) :
    (∃ tables, loadEntries acpi mem virtAddr ((hdrLength acpi mem virtAddr).toNat + 1)
      emptyTables = some tables) ↔
    44 ≤ (hdrLength acpi mem virtAddr).toNat ∧
      Advances acpi mem virtAddr (tableEntriesSize acpi mem virtAddr) := by
  have hsize := toNat_tableEntriesSize mem virtAddr hmadt
  have hlt := (hdrLength acpi mem virtAddr).isLt
  have hloop : ∀ fuel, loadEntries acpi mem virtAddr fuel emptyTables =
      loadLoop acpi mem virtAddr (tableEntriesSize acpi mem virtAddr) fuel 0 emptyTables :=
    fun _ => rfl
  have hzero : (0 : Word).toNat = 0 := rfl
  rw [hloop]
  constructor
  · rintro ⟨tables, hres⟩
    constructor
    · by_contra hshort
      rw [loadLoop_eq_none_of_far (by omega)] at hres
      exact absurd hres (by simp)
    · intro r hr hmore hstuck
      rw [hr.loadLoop_eq_none fun _ _ => loadLoop_eq_none_of_stuck hmore hstuck] at hres
      exact absurd hres (by simp)
  · rintro ⟨hlong, hadv⟩
    exact hadv.loadLoop (by omega) .start ready_emptyTables (by omega) (by omega)

/-- A table of `length` bytes whose first entry has this type and this length byte. -/
def oneEntry (length type entryLength : BitVec 8) : Mem := fun a =>
  if a = 0x1004 then length else if a = 0x102c then type
  else if a = 0x102d then entryLength else 0

theorem loadEntries_ends_iff_one_entry :
    ∃ tables, loadEntries acpiHeader (oneEntry 52 9 8) 0x1000 53 emptyTables = some tables := by
  refine (loadEntries_ends_iff rfl).2 ⟨by decide +kernel, fun r hr hmore => ?_⟩
  rw [hr.eq_zero hmore (by decide +kernel)]
  decide +kernel

/-- An entry without a length, and a table that is shorter than its header. -/
theorem loadEntries_hangs :
    (∀ fuel, loadEntries acpiHeader (oneEntry 52 9 0) 0x1000 fuel emptyTables = none) ∧
      loadEntries acpiHeader (oneEntry 43 9 8) 0x1000 44 emptyTables = none :=
  ⟨fun _ => loadLoop_eq_none_of_stuck (by decide +kernel) (by decide +kernel),
    loadLoop_eq_none_of_far (by decide +kernel)⟩

end UnnamedKernel.Kernel.Irqs
