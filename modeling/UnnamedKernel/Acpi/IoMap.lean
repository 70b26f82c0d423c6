import UnnamedKernel.Lib.Word

/-!
# Port access for uACPI (`arch/x86_64/io.hpp`, `acpi/uacpi_io.cpp`, `acpi/glue.cpp`)

An `IoMap` is a window of ports. Each of its accessors tests the offset and then makes one
access; `uacpi_kernel_io_read*` and `uacpi_kernel_io_write*` hand the result on.
-/

namespace UnnamedKernel.Acpi

open UnnamedKernel.Lib

/-! ## Ports -/

/-- The widths that there are instructions for. -/
inductive PortWidth
  | byte
  | word
  | dword
deriving DecidableEq

def PortWidth.bytes : PortWidth → Nat
  | byte => 1
  | word => 2
  | dword => 4

def PortWidth.bits (w : PortWidth) : Nat := 8 * w.bytes

/-- One access to the ports, and what it writes. -/
structure PortAccess where
  port : BitVec 16
  width : PortWidth
  output : Option (BitVec width.bits)

/-- The ports that it touches. -/
def PortAccess.ports (access : PortAccess) : List (BitVec 16) :=
  (List.range access.width.bytes).map fun i => access.port + BitVec.ofNat 16 i

/-- The accesses so far. -/
abbrev Bus := List PortAccess

/-- What a read returns after these accesses. -/
abbrev Device := Bus → BitVec 16 → (w : PortWidth) → BitVec w.bits

def portIn (dev : Device) (w : PortWidth) (port : BitVec 16) (bus : Bus) : BitVec w.bits × Bus :=
  (dev bus port w, bus ++ [⟨port, w, none⟩])

def portOut (w : PortWidth) (port : BitVec 16) (val : BitVec w.bits) (bus : Bus) : Bus :=
  bus ++ [⟨port, w, some val⟩]

def inb (dev : Device) := portIn dev .byte

def inw (dev : Device) := portIn dev .word

def inl (dev : Device) := portIn dev .dword

def outb := portOut .byte

def outw := portOut .word

def outl := portOut .dword

/-! ## The window -/

inductive UacpiStatus
  | ok
  | invalidArgument
deriving DecidableEq

structure IoMap where
  base : Word
  len : Word

namespace IoMap

/-- A read that is refused when `offset + last` is outside. The port is what a `uint16_t` keeps
of the address. -/
def readWith {w : PortWidth} (input : BitVec 16 → Bus → BitVec w.bits × Bus) (last : Word)
    (m : IoMap) (offset : Word) (bus : Bus) : Option (BitVec w.bits) × Bus :=
  if offset + last ≥ m.len then (none, bus)
  else
    let (value, bus) := input ((m.base + offset).setWidth 16) bus
    (some value, bus)

def writeWith {w : PortWidth} (output : BitVec 16 → BitVec w.bits → Bus → Bus) (last : Word)
    (m : IoMap) (offset : Word) (value : BitVec w.bits) (bus : Bus) : UacpiStatus × Bus :=
  if offset + last ≥ m.len then (.invalidArgument, bus)
  else (.ok, output ((m.base + offset).setWidth 16) value bus)

def read8 (dev : Device) := readWith (inb dev) 0

def read16 (dev : Device) := readWith (inw dev) 1

def read32 (dev : Device) := readWith (inl dev) 3

def write8 := writeWith outb 0

def write16 := writeWith outw 1

def write32 := writeWith outl 3

/-- The reading accessor of this width. -/
def read (dev : Device) : (w : PortWidth) → IoMap → Word → Bus → Option (BitVec w.bits) × Bus
  | .byte => read8 dev
  | .word => read16 dev
  | .dword => read32 dev

def write : (w : PortWidth) → IoMap → Word → BitVec w.bits → Bus → UacpiStatus × Bus
  | .byte => write8
  | .word => write16
  | .dword => write32

end IoMap

/-! ## The glue

A handle is the `IoMap` it points to, and a pointer to a result is the value there; `none` is
the null pointer. -/

abbrev Handle := Option IoMap

def uacpiKernelIoMap (base len : Word) (outHandle : Option Handle) : UacpiStatus × Option Handle :=
  if outHandle.isNone then (.invalidArgument, outHandle) else (.ok, some (some ⟨base, len⟩))

/-- A read through a handle. -/
def ioRead {w : PortWidth} (read : IoMap → Word → Bus → Option (BitVec w.bits) × Bus)
    (handle : Handle) (offset : Word) (outValue : Option (BitVec w.bits)) (bus : Bus) :
    UacpiStatus × Option (BitVec w.bits) × Bus :=
  match handle, outValue with
  | some map, some _ =>
      match read map offset bus with
      | (none, bus) => (.invalidArgument, outValue, bus)
      | (some val, bus) => (.ok, some val, bus)
  | _, _ => (.invalidArgument, outValue, bus)

def ioWrite {w : PortWidth} (write : IoMap → Word → BitVec w.bits → Bus → UacpiStatus × Bus)
    (handle : Handle) (offset : Word) (inValue : BitVec w.bits) (bus : Bus) : UacpiStatus × Bus :=
  match handle with
  | none => (.invalidArgument, bus)
  | some map => write map offset inValue bus

def uacpiKernelIoRead8 (dev : Device) := ioRead (IoMap.read8 dev)

def uacpiKernelIoRead16 (dev : Device) := ioRead (IoMap.read16 dev)

def uacpiKernelIoRead32 (dev : Device) := ioRead (IoMap.read32 dev)

def uacpiKernelIoWrite8 := ioWrite IoMap.write8

def uacpiKernelIoWrite16 := ioWrite IoMap.write16

def uacpiKernelIoWrite32 := ioWrite IoMap.write32

def uacpiKernelIoRead (dev : Device) : (w : PortWidth) → Handle → Word →
    Option (BitVec w.bits) → Bus → UacpiStatus × Option (BitVec w.bits) × Bus
  | .byte => uacpiKernelIoRead8 dev
  | .word => uacpiKernelIoRead16 dev
  | .dword => uacpiKernelIoRead32 dev

def uacpiKernelIoWrite : (w : PortWidth) → Handle → Word → BitVec w.bits → Bus →
    UacpiStatus × Bus
  | .byte => uacpiKernelIoWrite8
  | .word => uacpiKernelIoWrite16
  | .dword => uacpiKernelIoWrite32

/-! ## What an access should do -/

section Window

variable {m : IoMap} {offset : Word} {w : PortWidth} {bus bus' : Bus} {dev : Device}

/-- The access lies in the window. -/
def IoMap.Fits (m : IoMap) (w : PortWidth) (offset : Word) : Prop :=
  offset.toNat + w.bytes ≤ m.len.toNat

instance : Decidable (m.Fits w offset) := inferInstanceAs (Decidable (_ ≤ _))

/-- One access, to the ports of the window from `offset` on. -/
def IoMap.Touches (m : IoMap) (w : PortWidth) (offset : Word) (bus bus' : Bus) : Prop :=
  ∃ access, bus' = bus ++ [access] ∧
    access.ports.map BitVec.toNat =
      (List.range w.bytes).map (m.base.toNat + offset.toNat + ·) ∧
    ∀ port ∈ access.ports, m.base.toNat ≤ port.toNat ∧ port.toNat < m.base.toNat + m.len.toNat

/-- `uacpi_kernel_io_map` has returned `handle` for the window. -/
def IoMap.Mapped (m : IoMap) (handle : Handle) : Prop :=
  ∃ before, uacpiKernelIoMap m.base m.len (some before) = (.ok, some handle)

/-- Accesses of this width at this offset are made when they are in the window, and refused when
they are not. -/
structure IoMap.Guards (m : IoMap) (w : PortWidth) (offset : Word) : Prop where
  read : ∀ dev bus, if m.Fits w offset
    then (m.read dev w offset bus).1.isSome ∧ m.Touches w offset bus (m.read dev w offset bus).2
    else m.read dev w offset bus = (none, bus)
  write : ∀ value bus, if m.Fits w offset
    then (m.write w offset value bus).1 = .ok ∧
      m.Touches w offset bus (m.write w offset value bus).2
    else m.write w offset value bus = (.invalidArgument, bus)
  kernelRead : ∀ dev handle value bus, m.Mapped handle → ¬ m.Fits w offset →
    uacpiKernelIoRead dev w handle offset (some value) bus = (.invalidArgument, some value, bus)
  kernelWrite : ∀ handle value bus, m.Mapped handle → ¬ m.Fits w offset →
    uacpiKernelIoWrite w handle offset value bus = (.invalidArgument, bus)

/-! The members of each family, as one. -/

theorem PortWidth.bytes_bounds (w : PortWidth) : 1 ≤ w.bytes ∧ w.bytes ≤ 4 := by
  cases w <;> decide

def PortWidth.last (w : PortWidth) : Word := BitVec.ofNat 64 (w.bytes - 1)

theorem IoMap.read_eq : m.read dev w offset bus = readWith (portIn dev w) w.last m offset bus := by
  cases w <;> rfl

theorem IoMap.write_eq {value : BitVec w.bits} :
    m.write w offset value bus = writeWith (portOut w) w.last m offset value bus := by
  cases w <;> rfl

theorem uacpiKernelIoRead_eq {handle : Handle} {out : Option (BitVec w.bits)} :
    uacpiKernelIoRead dev w handle offset out bus =
      ioRead (fun m => m.read dev w) handle offset out bus := by
  cases w <;> rfl

theorem uacpiKernelIoWrite_eq {handle : Handle} {value : BitVec w.bits} :
    uacpiKernelIoWrite w handle offset value bus =
      ioWrite (fun m => m.write w) handle offset value bus := by
  cases w <;> rfl

/-- The test of the accessors lets through what fits, and offsets whose last byte wraps into
the window. -/
theorem IoMap.test_iff : ¬ offset + w.last ≥ m.len ↔
    m.Fits w offset ∨ 2 ^ 64 < offset.toNat + w.bytes ∧
      offset.toNat + w.bytes ≤ m.len.toNat + 2 ^ 64 := by
  have hbytes := w.bytes_bounds
  have hlen := m.len.isLt
  rw [ge_iff_le, BitVec.not_le, BitVec.lt_def, Fits, PortWidth.last]
  generalize w.bytes = n at *
  bv_omega

theorem IoMap.touches_iff (hfits : m.Fits w offset) {out : Option (BitVec w.bits)} :
    m.Touches w offset bus (bus ++ [⟨(m.base + offset).setWidth 16, w, out⟩]) ↔
      m.base.toNat + offset.toNat + w.bytes ≤ 2 ^ 16 := by
  have hbytes := w.bytes_bounds
  have hbase := m.base.isLt
  have hoffset := offset.isLt
  have hport : ∀ i < w.bytes, ((m.base + offset).setWidth 16 + BitVec.ofNat 16 i).toNat =
      (m.base.toNat + offset.toNat + i) % 2 ^ 16 := by
    intro i hi
    rw [BitVec.toNat_add, BitVec.toNat_setWidth, BitVec.toNat_add, BitVec.toNat_ofNat]
    omega
  constructor
  · rintro ⟨access, hbus, hports, -⟩
    obtain rfl := List.cons.inj (List.append_cancel_left hbus) |>.1
    have hlast := congrArg (fun ports => ports[w.bytes - 1]?) hports
    have hlt : w.bytes - 1 < w.bytes := by omega
    simp only [PortAccess.ports, List.map_map, List.getElem?_map, List.getElem?_range hlt,
      Option.map_some, Function.comp_apply, hport _ hlt, Option.some.injEq] at hlast
    omega
  · intro hle
    have heq : ∀ i < w.bytes, ((m.base + offset).setWidth 16 + BitVec.ofNat 16 i).toNat =
        m.base.toNat + offset.toNat + i := fun i hi => by
      rw [hport i hi, Nat.mod_eq_of_lt (by omega)]
    refine ⟨_, rfl, ?_, ?_⟩
    · rw [PortAccess.ports, List.map_map]
      exact List.map_congr_left fun i hi => heq i (List.mem_range.1 hi)
    · intro port hmem
      obtain ⟨i, hi, rfl⟩ := List.mem_map.1 hmem
      have hlt : i < w.bytes := List.mem_range.1 hi
      rw [heq i hlt]
      unfold Fits at hfits
      omega

theorem IoMap.Mapped.eq {handle : Handle} (h : m.Mapped handle) : handle = some m := by
  obtain ⟨before, h⟩ := h
  exact (Option.some.inj (congrArg Prod.snd h)).symm

theorem IoMap.read_refused (h : offset + w.last ≥ m.len) :
    m.read dev w offset bus = (none, bus) := by
  rw [read_eq, readWith, if_pos h]

theorem IoMap.read_made (dev : Device) (bus : Bus) (h : ¬ offset + w.last ≥ m.len) :
    ∃ value, m.read dev w offset bus =
      (some value, bus ++ [⟨(m.base + offset).setWidth 16, w, none⟩]) := by
  rw [read_eq, readWith, if_neg h]
  exact ⟨_, rfl⟩

theorem IoMap.write_refused {value : BitVec w.bits} (h : offset + w.last ≥ m.len) :
    m.write w offset value bus = (.invalidArgument, bus) := by
  rw [write_eq, writeWith, if_pos h]

theorem IoMap.write_made {value : BitVec w.bits} (h : ¬ offset + w.last ≥ m.len) :
    m.write w offset value bus =
      (.ok, bus ++ [⟨(m.base + offset).setWidth 16, w, some value⟩]) := by
  rw [write_eq, writeWith, if_neg h]
  rfl

/-- Accesses stay in the window exactly when those in it are to ports that exist, and the last
byte of one outside does not wrap into it. -/
theorem IoMap.guards_iff (m : IoMap) (w : PortWidth) (offset : Word) :
    m.Guards w offset ↔
      m.Fits w offset ∧ m.base.toNat + offset.toNat + w.bytes ≤ 2 ^ 16 ∨
      ¬ m.Fits w offset ∧ (offset.toNat + w.bytes ≤ 2 ^ 64 ∨
        m.len.toNat + 2 ^ 64 < offset.toNat + w.bytes) := by
  by_cases hfits : m.Fits w offset
  · have hmade : ¬ offset + w.last ≥ m.len := test_iff.2 (Or.inl hfits)
    simp only [hfits, true_and, not_true, false_and, or_false]
    constructor
    · intro h
      have hread := h.write 0 []
      rw [if_pos hfits, write_made hmade] at hread
      exact (touches_iff hfits).1 hread.2
    · intro hports
      refine ⟨fun dev bus => ?_, fun value bus => ?_, fun _ _ _ _ _ hnot =>
        absurd hfits hnot, fun _ _ _ _ hnot => absurd hfits hnot⟩
      · obtain ⟨value, hread⟩ := read_made dev bus hmade
        rw [if_pos hfits, hread]
        exact ⟨rfl, (touches_iff hfits).2 hports⟩
      · rw [if_pos hfits, write_made hmade]
        exact ⟨rfl, (touches_iff hfits).2 hports⟩
  · simp only [hfits, false_and, not_false_eq_true, true_and, false_or]
    constructor
    · intro h
      by_contra hwrap
      obtain ⟨hlong, hlen⟩ := not_or.1 hwrap
      have hmade : ¬ offset + w.last ≥ m.len :=
        test_iff.2 (Or.inr ⟨Nat.lt_of_not_le hlong, Nat.le_of_not_lt hlen⟩)
      have hwrite := h.write 0 []
      rw [if_neg hfits, write_made hmade] at hwrite
      exact absurd hwrite (by simp)
    · intro hout
      have hrefused : offset + w.last ≥ m.len := by
        by_contra hmade
        rcases test_iff.1 hmade with hin | ⟨hlong, hlen⟩
        · exact hfits hin
        · omega
      refine ⟨fun dev bus => ?_, fun value bus => ?_, fun dev handle value bus hmap _ => ?_,
        fun handle value bus hmap _ => ?_⟩
      · rw [if_neg hfits, read_refused hrefused]
      · rw [if_neg hfits, write_refused hrefused]
      · rw [uacpiKernelIoRead_eq, hmap.eq]
        simp only [ioRead, read_refused hrefused]
      · rw [uacpiKernelIoWrite_eq, hmap.eq]
        exact write_refused hrefused

/-- At offset 2⁶⁴ - 1 the last byte of a word is at offset 0. -/
theorem word_below_window :
    ¬ IoMap.Guards ⟨0x60, 4⟩ .word 0xFFFFFFFFFFFFFFFF := by
  intro h
  have hread := h.write 0 []
  rw [if_neg (by decide)] at hread
  exact absurd (congrArg Prod.fst hread) (by decide)

end Window

end UnnamedKernel.Acpi
