import UnnamedKernel.Containers.Vector
import UnnamedKernel.Lib.Bytes

/-!
# Interrupt sources (`kernel/irqs/irqs.cpp`)

`load_entries` copies the entries of the MADT into four vectors. What `uacpi/acpi.h` defines
is a parameter. An entry is copied as the bytes of its struct, so moving one leaves it as it
is. The messages of the logger are left out.
-/

namespace UnnamedKernel.Kernel.Irqs

open UnnamedKernel.Lib UnnamedKernel.Containers

/-- A type code of the MADT, and the size of the struct for it. -/
structure EntryKind where
  type : BitVec 8
  size : Nat

/-- What `uacpi/acpi.h` says of the MADT: the sizes of `acpi_sdt_hdr` and `acpi_madt`, which
adds two 32-bit fields to it, the offset of `length`, and the entries. -/
structure AcpiHeader where
  sdtHdrSize : Word
  madtSize : Word
  lengthOffset : Word
  lapic : EntryKind
  ioapic : EntryKind
  interruptSourceOverride : EntryKind
  lapicNmi : EntryKind
  madtSize_eq : madtSize = sdtHdrSize + 8
  distinct : [lapic.type, ioapic.type, interruptSourceOverride.type, lapicNmi.type].Nodup

/-- The table and its entries as the ACPI specification lays them out. -/
def acpiHeader : AcpiHeader where
  sdtHdrSize := 36
  madtSize := 44
  lengthOffset := 4
  lapic := ⟨0, 8⟩
  ioapic := ⟨1, 12⟩
  interruptSourceOverride := ⟨2, 10⟩
  lapicNmi := ⟨4, 6⟩
  madtSize_eq := by decide
  distinct := by decide

/-! The vectors, in the order of their definitions. -/

abbrev Tables := Program (List (BitVec 8))

def lapicNmiTable : Nat := 0
def ioapicTable : Nat := 1
def lapicTable : Nat := 2
def interruptSourceOverrideTable : Nat := 3

def emptyTables : Tables := ⟨{}, [some {}, some {}, some {}, some {}]⟩

section Handlers

variable (acpi : AcpiHeader) (mem : Mem)

/-- `push_back` of the struct at `e`. -/
def handle (kind : EntryKind) (table : Nat) (e : Word) (tables : Tables) : Option Tables :=
  tables.step id (.pushBack table (.value (mem.bytes e kind.size)))

def handleLapic (e : Word) (tables : Tables) : Option Tables :=
  handle mem acpi.lapic lapicTable e tables

def handleLapicNmi (e : Word) (tables : Tables) : Option Tables :=
  handle mem acpi.lapicNmi lapicNmiTable e tables

def handleInterruptSourceOverride (e : Word) (tables : Tables) : Option Tables :=
  handle mem acpi.interruptSourceOverride interruptSourceOverrideTable e tables

def handleIoapic (e : Word) (tables : Tables) : Option Tables :=
  handle mem acpi.ioapic ioapicTable e tables

def handleUnknown (tables : Tables) : Option Tables := some tables

/-- The `switch` on the type of the entry at `e`. -/
def handleEntry (e : Word) (tables : Tables) : Option Tables :=
  let type := mem e
  if type = acpi.lapic.type then handleLapic acpi mem e tables
  else if type = acpi.lapicNmi.type then handleLapicNmi acpi mem e tables
  else if type = acpi.interruptSourceOverride.type then
    handleInterruptSourceOverride acpi mem e tables
  else if type = acpi.ioapic.type then handleIoapic acpi mem e tables
  else handleUnknown tables

/-- The loop of `load_entries`; `none` when the fuel runs out. -/
def loadLoop (virtAddr tableEntriesSize : Word) : Nat → Word → Tables → Option Tables
  | 0, _, _ => none
  | fuel + 1, read, tables =>
      if tableEntriesSize > read then do
        let e := virtAddr + acpi.madtSize + read
        let tables ← handleEntry acpi mem e tables
        let length := mem (e + 1)
        loadLoop virtAddr tableEntriesSize fuel (read + length.setWidth 64) tables
      else some tables

def loadEntries (virtAddr : Word) (fuel : Nat) (tables : Tables) : Option Tables :=
  let length := mem.read32 (virtAddr + acpi.lengthOffset)
  let tableEntriesSize := length.setWidth 64 - acpi.sdtHdrSize - 8
  loadLoop acpi mem virtAddr tableEntriesSize fuel 0 tables

end Handlers

end UnnamedKernel.Kernel.Irqs
