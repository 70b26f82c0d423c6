import UnnamedKernel.Lib.RadixTree
import UnnamedKernel.Mm.Vmm.Model

/-!
# The page-table walk of the processor

Four levels of tables with 512 entries, level 3 at the root. The walk reads
entries along the path of an address; an entry that is present and not large
leads to the next table. Permissions combine over all entries read.
-/

namespace UnnamedKernel.Mm.Vmm

open UnnamedKernel.Lib UnnamedKernel.Kernel RadixTree

/-- The address of a page frame below `2 ^ 52`. -/
abbrev Frame := { w : Word // w &&& ppnMask = w }

/-- The frame number field of an entry. -/
def frameOf (e : Word) : Frame := ⟨e &&& ppnMask, by rw [BitVec.and_assoc, BitVec.and_self]⟩

/-- The index that `va` selects in a table of a level, 0 being the bottom. -/
def levelIndex (level : Nat) (va : Word) : Fin 512 :=
  ⟨((va >>> (12 + 9 * level)) &&& 0x1ff).toNat, by
    rw [BitVec.toNat_and]
    exact Nat.lt_of_le_of_lt Nat.and_le_right (by decide)⟩

/-- The indices that lead to the bottom table of `va`. -/
def tablePath (va : Word) : List (Fin 512) := [levelIndex 3 va, levelIndex 2 va, levelIndex 1 va]

def path (va : Word) : List (Fin 512) := tablePath va ++ [levelIndex 0 va]

/-- Entry `i` of the table in frame `t`. -/
def entry (m : Mem) (slide : Word) (t : Frame) (i : Fin 512) : Word :=
  m.read64 (entryPtr (t.val + slide) (BitVec.ofNat 64 i))

/-- The large-page bit of an entry above the bottom. -/
def largePage : Word := PageBits.pat

/-- The table that an entry above the bottom points to. -/
def tableOf (e : Word) : Option Frame :=
  if isFlagSet e PageBits.present ∧ ¬ isFlagSet e largePage then some (frameOf e) else none

structure Access where
  writable : Bool
  user : Bool
  noExecute : Bool
  deriving DecidableEq, Repr

namespace Access

def all : Access := ⟨true, true, false⟩

/-- The access that is left after an entry has been passed. -/
def restrict (a : Access) (e : Word) : Access :=
  ⟨a.writable && isFlagSet e PageBits.readWrite, a.user && isFlagSet e PageBits.user,
    a.noExecute || isFlagSet e PageBits.noExecute⟩

end Access

/-- What a virtual page translates to. -/
structure Mapping where
  phys : Word
  access : Access
  writeThrough : Bool
  cacheDisable : Bool
  deriving DecidableEq, Repr

/-- The mapping that a final entry makes, below entries that leave `a`. -/
def Mapping.of (phys : Word) (a : Access) (e : Word) : Mapping :=
  ⟨phys, a.restrict e, isFlagSet e PageBits.writeThrough, isFlagSet e PageBits.cacheDisable⟩

/-- What the entries read from a level down translate the page at `va` to. There
are large pages at levels 2 and 1. -/
def translate (va : Word) : Nat → Access → List Word → Option Mapping
  | _, _, [] => none
  | 0, a, e :: _ =>
      if isFlagSet e PageBits.present then some (.of (e &&& ppnMask) a e) else none
  | level + 1, a, e :: es =>
      if ¬ isFlagSet e PageBits.present then none
      else if isFlagSet e largePage then
        if level + 1 = 3 then none
        else
          let offset : Word := (1 <<< (12 + 9 * (level + 1))) - 1
          some (.of ((e &&& ppnMask &&& ~~~offset) ||| (va &&& ppnMask &&& offset)) a e)
      else translate va level (a.restrict e) es

/-- The translation of the page at `va`, `none` when it is not present. -/
def walk (m : Mem) (slide : Word) (root : Frame) (va : Word) : Option Mapping :=
  translate va 3 .all (trail tableOf (entry m slide) root (path va))

end UnnamedKernel.Mm.Vmm
