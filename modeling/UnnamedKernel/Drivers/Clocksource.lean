import UnnamedKernel.Lib.Word

/-!
# Clock sources (`drivers/clocksource.cpp`, `tsc.cpp`, `hpet.cpp`, `acpi_pm.cpp`, `ktime.hpp`)

Each driver registers a clock source, the best rated one is chosen, and `ktime::now` reads it.
The hardware is a count of ticks, of which a source reads the low bits; how many is up to the
hardware, and no driver asks. The messages of the logger and the flags of a source are left
out.
-/

namespace UnnamedKernel.Drivers

open UnnamedKernel.Lib

structure MultShift where
  mult : BitVec 32
  shift : BitVec 32
deriving DecidableEq

structure Clocksource where
  name : String
  rating : Nat
  mask : Word
  mult : BitVec 32
  shift : BitVec 32
  cycleLast : Word := 0
  /-- the width of the hardware counter -/
  counterBits : Nat
  /-- what `read()` returns after so many ticks -/
  read : Nat → Word

/-- `clocksource::cycles_to_ns`. -/
def cyclesToNs (cycles : Word) (mult shift : BitVec 32) : Word :=
  (cycles * mult.setWidth 64) >>> shift.toNat

def computeShift : BitVec 32 := 32

/-- `compute_ms`; a division by zero does not return. -/
def computeMs (freqHz : BitVec 32) (shift : BitVec 32) : Option MultShift :=
  let shift := if shift = 0 then computeShift else shift
  let sec := (1 : Word) <<< shift.toNat
  if freqHz = 0 then none
  else
    let mult := sec * 1000000000 / freqHz.setWidth 64
    some ⟨mult.setWidth 32, shift⟩

namespace Clocksource

def updateCycleLast (cs : Clocksource) (cycles : Word) : Clocksource :=
  { cs with cycleLast := cycles }

def readDelta (cs : Clocksource) (ticks : Nat) : Word := (cs.read ticks - cs.cycleLast) &&& cs.mask

end Clocksource

/-- The FADT. `tmrValExt` is the flag `TMR_VAL_EXT`: the PM timer has 32 bits and not 24. -/
structure Fadt where
  pmTmrBlk : BitVec 32
  pmTmrLen : BitVec 8
  tmrValExt : Bool

/-- What the drivers find. -/
structure Firmware where
  /-- the frequency in the answer of the bootloader, if there is one -/
  tscFrequency : Option Word
  /-- the HPET table: whether it is in system memory, and the period in the capabilities -/
  hpet : Option (Bool × BitVec 32)
  fadt : Option Fadt

/-! ## The drivers -/

namespace Tsc

/-- `rdtsc`, in two halves. -/
def read (ticks : Nat) : Word :=
  let tsc : Word := BitVec.ofNat 64 ticks
  let lo := tsc.setWidth 32
  let hi := (tsc >>> 32).setWidth 32
  (hi.setWidth 64 <<< 32) ||| lo.setWidth 64

def source (freqHz : BitVec 32) : Option Clocksource := do
  let ms ← computeMs freqHz 0
  some { name := "tsc", rating := 300, mask := 0xFFFFFFFFFFFFFFFF, mult := ms.mult,
         shift := ms.shift, counterBits := 64, read }

/-- `tsc::init`: the sources it registers. -/
def init (fw : Firmware) : Option (List Clocksource) :=
  match fw.tscFrequency with
  | none => some []
  | some frequency =>
      let freqHz := frequency.setWidth 32
      if freqHz = 0 then some [] else (source freqHz).map fun cs => [cs]

end Tsc

namespace Hpet

def femtosecPerSec : Word := 1000000000000000

/-- The low half of the main counter. -/
def read (ticks : Nat) : Word := (BitVec.ofNat 32 ticks).setWidth 64

def source (freqHz : BitVec 32) : Option Clocksource := do
  let ms ← computeMs freqHz 0
  some { name := "hpet", rating := 200, mask := 0xFFFFFFFF, mult := ms.mult, shift := ms.shift,
         counterBits := 32, read }

def init (fw : Firmware) : Option (List Clocksource) :=
  match fw.hpet with
  | none => some []
  | some (systemMemory, periodFs) =>
      if ¬ systemMemory then some []
      else if periodFs = 0 then some []
      else
        let freqHz := (femtosecPerSec / periodFs.setWidth 64).setWidth 32
        (source freqHz).map fun cs => [cs]

end Hpet

namespace AcpiPm

def freqHz : BitVec 32 := 3579545

def counterBits (tmrValExt : Bool) : Nat := if tmrValExt then 32 else 24

/-- `inl` from the timer, whose upper bits are zero. -/
def read (tmrValExt : Bool) (ticks : Nat) : Word :=
  (BitVec.ofNat 32 (ticks % 2 ^ counterBits tmrValExt)).setWidth 64

def source (mask : Word) (tmrValExt : Bool) : Option Clocksource := do
  let ms ← computeMs freqHz 0
  some { name := "acpi_pm", rating := 100, mask, mult := ms.mult, shift := ms.shift,
         counterBits := counterBits tmrValExt, read := read tmrValExt }

def init (fw : Firmware) : Option (List Clocksource) :=
  match fw.fadt with
  | none => some []
  | some fadt =>
      let port : BitVec 16 := fadt.pmTmrBlk.setWidth 16
      if port = 0 then some []
      else
        let mask := if fadt.pmTmrLen = 4 then 0xFFFFFFFF else 0xFFFFFF
        (source mask fadt.tmrValExt).map fun cs => [cs]

end AcpiPm

/-- The loop of `clocksource::init`. -/
def pickWinner (winner : Clocksource) : List Clocksource → Clocksource
  | [] => winner
  | cs :: sources => pickWinner (if cs.rating > winner.rating then cs else winner) sources

/-- `clocksource::init`: the source that `get_best` returns afterwards, if there is one. -/
def init (fw : Firmware) : Option (Option Clocksource) := do
  let tsc ← Tsc.init fw
  let hpet ← Hpet.init fw
  let acpiPm ← AcpiPm.init fw
  match tsc ++ hpet ++ acpiPm with
  | [] => some none
  | winner :: sources => some (some (pickWinner winner sources))

/-! ## `ktime` -/

structure Ktime where
  ns : Word

namespace Ktime

/-- `operator<=`; `ns` is signed. -/
def Le (a b : Ktime) : Prop := a.ns.sle b.ns = true

instance (a b : Ktime) : Decidable (a.Le b) := inferInstanceAs (Decidable (_ = true))

def fromCycles (cycles : Word) (cs : Clocksource) : Ktime := ⟨cyclesToNs cycles cs.mult cs.shift⟩

/-- `ktime::now` with the source `cs`, after so many ticks. -/
def now (cs : Clocksource) (ticks : Nat) : Ktime := fromCycles (cs.read ticks) cs

end Ktime

end UnnamedKernel.Drivers
