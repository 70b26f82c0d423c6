import UnnamedKernel.Lib.Objects

/-!
# `Vector` (`lib/vector.hpp`)

The growable array over a heap of objects. `operator new` succeeds and byte sizes do not
wrap, so sizes are natural numbers. `moved` is what a moved-from object is left with. An
operation that touches an object it must not touch does not return.
-/

namespace UnnamedKernel.Containers

open UnnamedKernel.Lib

variable {T : Type}

structure Vec where
  data : Option Nat := none
  size : Nat := 0
  capacity : Nat := 0
  deriving DecidableEq, Repr

/-- `::operator delete`, which ignores a null pointer. -/
def operatorDelete (h : ObjHeap T) : Option Nat → Option (ObjHeap T)
  | none => some h
  | some b => h.release b

/-- The loop of `reserve`, at element `i` with `count` elements to go. -/
def relocate (moved : T → T) (old : Option Nat) (new : Nat) :
    Nat → Nat → ObjHeap T → Option (ObjHeap T)
  | 0, _, h => some h
  | count + 1, i, h => do
      let old' ← old
      let x ← h.load old' i
      let h ← h.construct new i x
      let h ← h.store old' i (moved x)
      let h ← h.destroy old' i
      relocate moved old new count (i + 1) h

/-- `std::swap` of two elements. -/
def swapElements (moved : T → T) (b i j : Nat) (h : ObjHeap T) : Option (ObjHeap T) := do
  let x ← h.load b i
  let (tmp, h) := h.constructTemp
  let h ← h.store b i (moved x)
  let y ← h.load b j
  let h ← h.store b i y
  let h ← h.store b j (moved y)
  let h ← h.store b j x
  some (h.destroyTemp tmp)

/-- The loop of `insert`, at element `i` with `count` swaps to go. -/
def bubble (moved : T → T) (b : Nat) : Nat → Nat → ObjHeap T → Option (ObjHeap T)
  | 0, _, h => some h
  | count + 1, i, h => do
      let h ← swapElements moved b i (i - 1) h
      bubble moved b count (i - 1) h

/-- The loop of `erase`, at element `i` with `count` assignments to go. -/
def shiftLeft (moved : T → T) (b : Nat) : Nat → Nat → ObjHeap T → Option (ObjHeap T)
  | 0, _, h => some h
  | count + 1, i, h => do
      let x ← h.load b (i + 1)
      let h ← h.store b i x
      let h ← h.store b (i + 1) (moved x)
      shiftLeft moved b count (i + 1) h

namespace Vec

def reserve (moved : T → T) (newCap : Nat) (v : Vec) (h : ObjHeap T) : Option (Vec × ObjHeap T) :=
  if newCap ≤ v.capacity then some (v, h)
  else do
    let (newData, h) := h.alloc newCap
    let h ← relocate moved v.data newData v.size 0 h
    let h ← operatorDelete h v.data
    some ({ v with data := some newData, capacity := newCap }, h)

/-- `push_back`. The parameter is an object of its own, constructed from `x`. -/
def pushBack (moved : T → T) (x : T) (v : Vec) (h : ObjHeap T) : Option (Vec × ObjHeap T) := do
  let (value, h) := h.constructTemp
  let (v, h) ← if v.size = v.capacity then
      v.reserve moved (if v.capacity ≠ 0 then v.capacity * 2 else 4) h
    else some (v, h)
  let b ← v.data
  let h ← h.construct b v.size x
  some ({ v with size := v.size + 1 }, h.destroyTemp value)

def popBack (v : Vec) (h : ObjHeap T) : Option (Vec × ObjHeap T) :=
  if v.size = 0 then some (v, h)
  else do
    let b ← v.data
    let h ← h.destroy b (v.size - 1)
    some ({ v with size := v.size - 1 }, h)

/-- The loop of `clear`, with `count` elements to go. -/
def clearLoop : Nat → Vec → ObjHeap T → Option (Vec × ObjHeap T)
  | 0, v, h => some (v, h)
  | count + 1, v, h => do
      let (v, h) ← v.popBack h
      clearLoop count v h

def clear (v : Vec) (h : ObjHeap T) : Option (Vec × ObjHeap T) := clearLoop v.size v h

/-- `insert` at index `pos`; the index of the new element is returned too. -/
def insert (moved : T → T) (pos : Nat) (x : T) (v : Vec) (h : ObjHeap T) :
    Option (Nat × Vec × ObjHeap T) := do
  let (value, h) := h.constructTemp
  let (v, h) ← v.pushBack moved x h
  let b ← v.data
  let h ← bubble moved b (v.size - 1 - pos) (v.size - 1) h
  some (pos, v, h.destroyTemp value)

/-- `erase` at index `pos`; the index of the element behind is returned too. -/
def erase (moved : T → T) (pos : Nat) (v : Vec) (h : ObjHeap T) :
    Option (Nat × Vec × ObjHeap T) := do
  let b ← v.data
  let h ← shiftLeft moved b (v.size - 1 - pos) pos h
  let (v, h) ← v.popBack h
  some (pos, v, h)

/-- The loop of the copy constructor, at element `i` with `count` elements to go. -/
def copyLoop (moved : T → T) (other : Option Nat) :
    Nat → Nat → Vec → ObjHeap T → Option (Vec × ObjHeap T)
  | 0, _, v, h => some (v, h)
  | count + 1, i, v, h => do
      let other' ← other
      let x ← h.load other' i
      let (v, h) ← v.pushBack moved x h
      copyLoop moved other count (i + 1) v h

/-- The copy constructor. -/
def copy (moved : T → T) (other : Vec) (h : ObjHeap T) : Option (Vec × ObjHeap T) := do
  let (v, h) ← ({} : Vec).reserve moved other.size h
  copyLoop moved other.data other.size 0 v h

/-- The destructor. -/
def destruct (v : Vec) (h : ObjHeap T) : Option (ObjHeap T) := do
  let (v, h) ← v.clear h
  operatorDelete h v.data

end Vec

/-! ## Programs with vectors -/

/-- The argument of a by-value parameter: a value, or an element of a vector. -/
inductive Arg (T : Type) where
  | value (x : T)
  | element (n i : Nat)

/-- One operation; vectors are named by the order of their construction. -/
inductive Call (T : Type) where
  | construct
  | copyConstruct (n : Nat)
  | moveConstruct (n : Nat)
  | destroy (n : Nat)
  /-- `n = m` and `n = std::move(m)` -/
  | copyAssign (n m : Nat)
  | moveAssign (n m : Nat)
  | swap (n m : Nat)
  | reserve (n newCap : Nat)
  | pushBack (n : Nat) (arg : Arg T)
  | popBack (n : Nat)
  | insert (n pos : Nat) (arg : Arg T)
  | erase (n pos : Nat)
  | clear (n : Nat)

/-- The heap and the vectors; a vector that has been destroyed is `none`. -/
structure Program (T : Type) where
  heap : ObjHeap T := {}
  vectors : List (Option Vec) := []

namespace Program

def get (p : Program T) (n : Nat) : Option Vec := p.vectors[n]?.join

def set (p : Program T) (n : Nat) (v : Option Vec) (h : ObjHeap T) : Program T :=
  ⟨h, p.vectors.set n v⟩

def add (p : Program T) (v : Vec) (h : ObjHeap T) : Program T := ⟨h, p.vectors ++ [some v]⟩

def eval (p : Program T) : Arg T → Option T
  | .value x => some x
  | .element n i => do
      let v ← p.get n
      let b ← v.data
      p.heap.load b i

/-- `operator=`, once its parameter `other` has been constructed. -/
def assign (p : Program T) (n : Nat) (other : Vec) : Option (Program T) := do
  let v ← p.get n
  let h ← v.destruct p.heap
  some (p.set n (some other) h)

def step (moved : T → T) (p : Program T) : Call T → Option (Program T)
  | .construct => some (p.add {} p.heap)
  | .copyConstruct n => do
      let other ← p.get n
      let (v, h) ← Vec.copy moved other p.heap
      some (p.add v h)
  | .moveConstruct n => do
      let other ← p.get n
      some ((p.set n (some {}) p.heap).add other p.heap)
  | .destroy n => do
      let v ← p.get n
      let h ← v.destruct p.heap
      some (p.set n none h)
  | .copyAssign n m => do
      let other ← p.get m
      let (other, h) ← Vec.copy moved other p.heap
      { p with heap := h }.assign n other
  | .moveAssign n m => do
      let other ← p.get m
      (p.set m (some {}) p.heap).assign n other
  | .swap n m => do
      let v ← p.get n
      let other ← p.get m
      some ((p.set n (some other) p.heap).set m (some v) p.heap)
  | .reserve n newCap => do
      let v ← p.get n
      let (v, h) ← v.reserve moved newCap p.heap
      some (p.set n (some v) h)
  | .pushBack n arg => do
      let x ← p.eval arg
      let v ← p.get n
      let (v, h) ← v.pushBack moved x p.heap
      some (p.set n (some v) h)
  | .popBack n => do
      let v ← p.get n
      let (v, h) ← v.popBack p.heap
      some (p.set n (some v) h)
  | .insert n pos arg => do
      let x ← p.eval arg
      let v ← p.get n
      let (_, v, h) ← v.insert moved pos x p.heap
      some (p.set n (some v) h)
  | .erase n pos => do
      let v ← p.get n
      let (_, v, h) ← v.erase moved pos p.heap
      some (p.set n (some v) h)
  | .clear n => do
      let v ← p.get n
      let (v, h) ← v.clear p.heap
      some (p.set n (some v) h)

end Program

end UnnamedKernel.Containers
