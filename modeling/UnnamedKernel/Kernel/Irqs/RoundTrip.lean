import UnnamedKernel.Containers.Programs
import UnnamedKernel.Kernel.Irqs.Model

/-!
# Loading undoes laying out

A MADT laid out from a list of entries is loaded back entry by entry: the cursor stays at the
end of the entries read so far, and the tables hold what these select.
-/

namespace UnnamedKernel.Kernel.Irqs

open UnnamedKernel.Lib UnnamedKernel.Containers

variable {acpi : AcpiHeader} {mem : Mem} {virtAddr : Word}

/-- An entry: its type and what follows its header. The length byte says how long it is. -/
structure MadtEntry (acpi : AcpiHeader) where
  type : BitVec 8
  body : List (BitVec 8)
  length_lt : body.length + 2 < 256
  size : ∀ kind ∈ [acpi.lapic, acpi.ioapic, acpi.interruptSourceOverride, acpi.lapicNmi],
    type = kind.type → body.length + 2 = kind.size

namespace MadtEntry

def bytes (x : MadtEntry acpi) : List (BitVec 8) :=
  x.type :: BitVec.ofNat 8 (x.body.length + 2) :: x.body

@[simp] theorem length_bytes (x : MadtEntry acpi) : x.bytes.length = x.body.length + 2 := rfl

end MadtEntry

/-- The entries, back to back. -/
def encode (entries : List (MadtEntry acpi)) : List (BitVec 8) := entries.flatMap MadtEntry.bytes

/-- The entries of one kind, in order. -/
def select (kind : EntryKind) (entries : List (MadtEntry acpi)) : List (List (BitVec 8)) :=
  (entries.filter fun x => x.type = kind.type).map MadtEntry.bytes

def tablesOf (entries : List (MadtEntry acpi)) : ListProgram (List (BitVec 8)) :=
  [some (select acpi.lapicNmi entries), some (select acpi.ioapic entries),
    some (select acpi.lapic entries), some (select acpi.interruptSourceOverride entries)]

/-- The MADT at `virtAddr` has these entries. -/
structure HoldsMadt (mem : Mem) (virtAddr : Word) (entries : List (MadtEntry acpi)) : Prop where
  length : (mem.read32 (virtAddr + acpi.lengthOffset)).toNat =
    acpi.madtSize.toNat + (encode entries).length
  entries : mem.bytes (virtAddr + acpi.madtSize) (encode entries).length = encode entries

section Entries

variable {x : MadtEntry acpi} {pre suf : List (MadtEntry acpi)} {e : Word}

theorem encode_append (pre suf : List (MadtEntry acpi)) :
    encode (pre ++ suf) = encode pre ++ encode suf := List.flatMap_append

theorem encode_cons (x : MadtEntry acpi) (suf : List (MadtEntry acpi)) :
    encode (x :: suf) = x.bytes ++ encode suf := List.flatMap_cons

theorem length_encode_concat (pre : List (MadtEntry acpi)) (x : MadtEntry acpi) :
    (encode (pre ++ [x])).length = (encode pre).length + (x.body.length + 2) := by
  simp [encode]

theorem select_concat (kind : EntryKind) (pre : List (MadtEntry acpi)) (x : MadtEntry acpi) :
    select kind (pre ++ [x]) =
      if x.type = kind.type then select kind pre ++ [x.bytes] else select kind pre := by
  unfold select
  split_ifs with h <;> simp [h]

theorem read_entry (hx : mem.bytes e x.bytes.length = x.bytes) :
    mem e = x.type ∧ mem (e + 1) = BitVec.ofNat 8 (x.body.length + 2) := by
  obtain ⟨htype, htail⟩ := List.cons_eq_cons.1 hx
  exact ⟨htype, (List.cons_eq_cons.1 htail).1⟩

end Entries

/-! ## One entry -/

section Step

variable {x : MadtEntry acpi} {pre : List (MadtEntry acpi)} {e : Word} {tables : Tables}

theorem refines_emptyTables : Refines emptyTables (tablesOf ([] : List (MadtEntry acpi))) := by
  have hlists : run ListProgram.step [] [.construct, .construct, .construct, .construct] =
      some (tablesOf ([] : List (MadtEntry acpi))) := rfl
  obtain ⟨tables, hrun, hR⟩ := run_simulates (Program.step id) ListProgram.step
    (fun _ _ call _ hR hstep => hR.step call hstep) Refines.empty hlists
  obtain rfl : emptyTables = tables := Option.some.inj hrun
  exact hR

theorem handle_spec {kind : EntryKind} {table : Nat} {s : ListProgram (List (BitVec 8))}
    (hR : Refines tables (tablesOf pre)) (hx : mem.bytes e x.bytes.length = x.bytes)
    (hsize : x.body.length + 2 = kind.size)
    (hstep : ListProgram.step (tablesOf pre) (.pushBack table (.value x.bytes)) = some s) :
    ∃ tables', handle mem kind table e tables = some tables' ∧ Refines tables' s := by
  rw [handle, ← hsize, ← x.length_bytes, hx]
  exact hR.step _ hstep

/-- The entry goes into the table of its kind, and into no other. -/
theorem handleEntry_spec (hR : Refines tables (tablesOf pre))
    (hx : mem.bytes e x.bytes.length = x.bytes) :
    ∃ tables', handleEntry acpi mem e tables = some tables' ∧
      Refines tables' (tablesOf (pre ++ [x])) := by
  have hdistinct := acpi.distinct
  simp only [List.nodup_cons, List.mem_cons, List.not_mem_nil, or_false, not_or] at hdistinct
  obtain ⟨⟨hli, hlo, hln⟩, ⟨hio, hin⟩, hon, -⟩ := hdistinct
  simp only [handleEntry, (read_entry hx).1]
  split_ifs with hl hn ho hi
  · refine handle_spec hR hx (x.size _ (by simp) hl) ?_
    simp [tablesOf, select_concat, hl, hli, hlo, hln, ListProgram.step, ListProgram.eval,
      ListProgram.get, lapicTable]
  · refine handle_spec hR hx (x.size _ (by simp) hn) ?_
    simp [tablesOf, select_concat, hn, Ne.symm hin, Ne.symm hon, Ne.symm hln, ListProgram.step,
      ListProgram.eval, ListProgram.get, lapicNmiTable]
  · refine handle_spec hR hx (x.size _ (by simp) ho) ?_
    simp [tablesOf, select_concat, ho, hon, Ne.symm hio, Ne.symm hlo, ListProgram.step,
      ListProgram.eval, ListProgram.get, interruptSourceOverrideTable]
  · refine handle_spec hR hx (x.size _ (by simp) hi) ?_
    simp [tablesOf, select_concat, hi, hin, hio, Ne.symm hli, ListProgram.step, ListProgram.eval,
      ListProgram.get, ioapicTable]
  · refine ⟨tables, rfl, ?_⟩
    simpa [tablesOf, select_concat, hl, hn, ho, hi] using hR

end Step

/-! ## The whole table -/

/-- With `pre` read and `suf` to go, the loop returns with all of them in the tables. -/
theorem loadLoop_spec (pre : List (MadtEntry acpi)) {suf : List (MadtEntry acpi)} {tables : Tables}
    {size : Word} {fuel : Nat}
    (hsize : size.toNat = (encode (pre ++ suf)).length)
    (hmem : mem.bytes (virtAddr + acpi.madtSize) (encode (pre ++ suf)).length = encode (pre ++ suf))
    (hR : Refines tables (tablesOf pre)) (hfuel : suf.length < fuel) :
    ∃ tables', loadLoop acpi mem virtAddr size fuel (BitVec.ofNat 64 (encode pre).length) tables =
      some tables' ∧ Refines tables' (tablesOf (pre ++ suf)) := by
  induction suf generalizing pre tables fuel with
  | nil =>
      obtain ⟨fuel, rfl⟩ : ∃ k, fuel = k + 1 := ⟨fuel - 1, by omega⟩
      rw [List.append_nil] at hsize ⊢
      refine ⟨tables, ?_, hR⟩
      rw [loadLoop, if_neg]
      rw [← hsize, BitVec.ofNat_toNat, BitVec.setWidth_eq]
      exact BitVec.lt_irrefl size
  | cons x suf ih =>
      obtain ⟨fuel, rfl⟩ : ∃ k, fuel = k + 1 := ⟨fuel - 1, by omega⟩
      have hlt := size.isLt
      have hx : mem.bytes (virtAddr + acpi.madtSize + BitVec.ofNat 64 (encode pre).length)
          x.bytes.length = x.bytes := by
        rw [encode_append, encode_cons] at hmem
        exact (Mem.bytes_append.1 (Mem.bytes_append.1 hmem).2).1
      have hmore : size > BitVec.ofNat 64 (encode pre).length := by
        rw [encode_append, encode_cons, List.length_append, List.length_append,
          x.length_bytes] at hsize
        rw [gt_iff_lt, BitVec.lt_def, BitVec.toNat_ofNat, Nat.mod_eq_of_lt (by omega)]
        omega
      -- the cursor moves to the end of `x`
      have hnext : BitVec.ofNat 64 (encode pre).length +
          (BitVec.ofNat 8 (x.body.length + 2)).setWidth 64 =
            BitVec.ofNat 64 (encode (pre ++ [x])).length := by
        have hbyte : (BitVec.ofNat 8 (x.body.length + 2)).setWidth 64 =
            BitVec.ofNat 64 (x.body.length + 2) := by
          apply BitVec.eq_of_toNat_eq
          rw [BitVec.toNat_setWidth, BitVec.toNat_ofNat, BitVec.toNat_ofNat,
            Nat.mod_eq_of_lt x.length_lt]
        rw [length_encode_concat, hbyte, ← BitVec.ofNat_add]
      obtain ⟨tables₁, hres₁, hR₁⟩ := handleEntry_spec hR hx
      rw [List.append_cons] at hsize hmem ⊢
      have hfuel' : suf.length < fuel := by simpa using hfuel
      obtain ⟨tables', hres, hR'⟩ := ih (pre ++ [x]) hsize hmem hR₁ hfuel'
      refine ⟨tables', ?_, hR'⟩
      rw [loadLoop, if_pos hmore]
      simp only [hres₁, Option.bind_eq_bind, Option.bind_some, (read_entry hx).2, hnext]
      exact hres

/-- The table `table` holds exactly these structs, in order. -/
def Tables.Has (tables : Tables) (table : Nat) (structs : List (List (BitVec 8))) : Prop :=
  ∃ v, tables.get table = some v ∧ Owns tables.heap v structs

/-- `load_entries` leaves in each table the entries of its kind, byte for byte and in order. -/
theorem loadEntries_encode {entries : List (MadtEntry acpi)}
    (hmadt : HoldsMadt mem virtAddr entries)
    {fuel : Nat} (hfuel : entries.length < fuel) :
    ∃ tables, loadEntries acpi mem virtAddr fuel emptyTables = some tables ∧
      tables.Has lapicTable (select acpi.lapic entries) ∧
      tables.Has ioapicTable (select acpi.ioapic entries) ∧
      tables.Has interruptSourceOverrideTable (select acpi.interruptSourceOverride entries) ∧
      tables.Has lapicNmiTable (select acpi.lapicNmi entries) := by
  let length := mem.read32 (virtAddr + acpi.lengthOffset)
  have hsize : (length.setWidth 64 - acpi.sdtHdrSize - 8).toNat = (encode entries).length := by
    have hlength : length.toNat = acpi.madtSize.toNat + (encode entries).length := hmadt.length
    have hheader := acpi.madtSize_eq
    have hlt := length.isLt
    have hwide : (length.setWidth 64).toNat = length.toNat :=
      BitVec.toNat_setWidth_of_le (by decide)
    bv_omega
  obtain ⟨tables, hres, hR⟩ := loadLoop_spec [] hsize hmadt.entries refines_emptyTables hfuel
  exact ⟨tables, hres, hR.exists_vec rfl, hR.exists_vec rfl, hR.exists_vec rfl, hR.exists_vec rfl⟩

/-- A LAPIC, an entry of an unknown type and a LAPIC NMI, behind a header of which only the
length matters. -/
def sampleEntries : List (MadtEntry acpiHeader) :=
  [⟨0, [5, 2, 1, 0, 0, 0], by decide, by decide⟩, ⟨9, [7], by decide, by decide⟩,
    ⟨4, [255, 0, 0, 1], by decide, by decide⟩]

def sampleMem : Mem := fun a =>
  (List.replicate 4 0 ++ [61, 0, 0, 0] ++ List.replicate 36 0 ++ encode sampleEntries).getD
    (a - 0x1000).toNat 0

theorem loadEntries_encode_sample :
    ∃ tables, loadEntries acpiHeader sampleMem 0x1000 4 emptyTables = some tables ∧
      tables.Has lapicTable [[0, 8, 5, 2, 1, 0, 0, 0]] ∧ tables.Has ioapicTable [] ∧
      tables.Has interruptSourceOverrideTable [] ∧
      tables.Has lapicNmiTable [[4, 6, 255, 0, 0, 1]] := by
  have hmadt : HoldsMadt sampleMem 0x1000 sampleEntries :=
    ⟨by decide +kernel, by decide +kernel⟩
  exact loadEntries_encode hmadt (by decide)

end UnnamedKernel.Kernel.Irqs
