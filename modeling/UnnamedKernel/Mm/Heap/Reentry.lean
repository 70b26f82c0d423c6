import UnnamedKernel.Mm.Heap.Sysmalloc
import UnnamedKernel.Mm.Vma.Accounts
import UnnamedKernel.Mm.Vma.Locking

/-!
# The heap under the lock of the range allocator (`mm/heap.cpp`, `mm/vma.cpp`)

`alloc_pages` may ask `new` for a node while it holds `lock_`; `new` is `malloc`, which may call
`mmap`, and `mmap` calls `alloc_pages`. Here these calls are nested as the code nests them, around
dlmalloc as any program that keeps to its use of `mmap`.
-/

namespace UnnamedKernel.Mm.Heap

open UnnamedKernel.Lib UnnamedKernel.Kernel Vma Vmm

variable {τ α : Type}

/-- A function of dlmalloc: what it does with its own data, `τ`, and which functions of the kernel
it calls. -/
inductive Dlmalloc (τ α : Type) where
  | done (result : α)
  | load (next : τ → Dlmalloc τ α)
  | store (contents : τ) (next : Dlmalloc τ α)
  | sbrk (increment : Word) (next : Word → Dlmalloc τ α)
  /-- private and anonymous -/
  | mmap (length : Word) (next : Word → Dlmalloc τ α)
  /-- does not return -/
  | munmap

structure Malloc (τ : Type) where
  malloc : Word → Dlmalloc τ Word
  free : Word → Dlmalloc τ Unit

/-- The kernel around the range allocator. -/
structure Outside (τ : Type) where
  machine : Machine
  isInitialized : Bool := false
  heapBase : Word := 0
  heapSize : Word := 0
  heapTop : Option Word := none
  /-- the data of dlmalloc -/
  contents : τ
  /-- where a node from `new` lies -/
  address : NodePtr → Word := fun _ => 0

abbrev World (τ : Type) := Guarded 2048 (Outside τ)

namespace World

/-- What `sbrk` works on. -/
def heapState (w : World τ) : HeapState :=
  { allocator := w.allocator, machine := w.rest.machine, isInitialized := w.rest.isInitialized,
    heapBase := w.rest.heapBase, heapSize := w.rest.heapSize, heapTop := w.rest.heapTop }

def setHeapState (w : World τ) (h : HeapState) : World τ :=
  { w with
    allocator := h.allocator
    rest := { w.rest with
      machine := h.machine, isInitialized := h.isInitialized, heapBase := h.heapBase,
      heapSize := h.heapSize, heapTop := h.heapTop } }

def setMachine (w : World τ) (m : Machine) : World τ :=
  { w with rest := { w.rest with machine := m } }

def setContents (w : World τ) (t : τ) : World τ :=
  { w with rest := { w.rest with contents := t } }

def setAddress (w : World τ) (p : NodePtr) (address : Word) : World τ :=
  { w with rest := { w.rest with address := Function.update w.rest.address p address } }

/-- `sbrk`, which does not call the range allocator. -/
def sbrk (env : Env) (w : World τ) (increment : Word) : Except Stop (Word × World τ) :=
  match w.heapState.sbrk env increment with
  | none => .error .halted
  | some (r, h) => .ok (r, w.setHeapState h)

variable (heap : NodeHeap 2048 (Outside τ))

def allocateVirtualMemory (w : World τ) (length : Word) :
    Except Stop (Option Word × World τ) :=
  if ¬ checkAligned length pageSize then
    .ok (none, w.setMachine (w.rest.machine.setError .memoryMisaligned))
  else w.allocPages heap (length / pageSize) 1

def deallocateVirtualMemory (w : World τ) (address length : Word) : Except Stop (World τ) := do
  let (_, w) ← w.free heap address (length / pageSize)
  .ok w

/-- `mmap` for `MAP_PRIVATE | MAP_ANONYMOUS`. -/
def mmap (env : Env) (w : World τ) (length : Word) : Except Stop (Word × World τ) :=
  if length = 0 then .ok (mapFailed, w)
  else do
    let length := Kernel.alignUp length pageSize
    match ← w.allocateVirtualMemory heap length with
    | (none, w) => .ok (mapFailed, w)
    | (some base, w) =>
        match mapPages env base (length / pageSize).toNat 0 w.rest.machine with
        | (none, m) => .ok (base, w.setMachine m)
        | (some .outOfMemory, m) => do
            let w ← (w.setMachine m).deallocateVirtualMemory heap base length
            .ok (mapFailed, w)
        -- the range stays allocated
        | (some _, m) => .ok (mapFailed, w.setMachine m)

def initHeap (w : World τ) : Except Stop (World τ) := do
  let w : World τ := { w with rest := { w.rest with heapSize := 32 * 1024 * 1024 } }
  match ← w.allocateVirtualMemory heap w.rest.heapSize with
  | (none, _) => .error .halted
  | (some address, w) =>
      .ok { w with rest := { w.rest with heapBase := address, isInitialized := true } }

end World

namespace Dlmalloc

def run (env : Env) (heap : NodeHeap 2048 (Outside τ)) :
    Dlmalloc τ α → World τ → Except Stop (α × World τ)
  | .done result, w => .ok (result, w)
  | .load next, w => (next w.rest.contents).run env heap w
  | .store contents next, w => next.run env heap (World.setContents w contents)
  | .sbrk increment next, w => do
      let (r, w) ← World.sbrk env w increment
      (next r).run env heap w
  | .mmap length next, w => do
      let (r, w) ← World.mmap heap env w length
      (next r).run env heap w
  | .munmap, _ => .error .halted

/-- `mmap` is called only if `may` holds, or after `sbrk` has returned `MORECORE_FAILURE`. -/
def MapsOnly : Prop → Dlmalloc τ α → Prop
  | _, .done _ => True
  | may, .load next => ∀ contents, (next contents).MapsOnly may
  | may, .store _ next => next.MapsOnly may
  | may, .sbrk _ next => ∀ r, (next r).MapsOnly (may ∨ r = morecoreFailure)
  | may, .mmap _ next => may ∧ ∀ r, (next r).MapsOnly may
  | _, .munmap => True

end Dlmalloc

/-- `DEFAULT_MMAP_THRESHOLD`. -/
def mmapThreshold : Word := 256 * 1024

/-- `request2size`. -/
def request2size (req : Word) : Word :=
  if req + 8 + mallocAlignMask < minsize then minsize
  else (req + 8 + mallocAlignMask) &&& ~~~mallocAlignMask

/-- `malloc` calls `mmap` for large requests; else, like `free`, only when `sbrk` has failed. -/
structure MapsRarely (dl : Malloc τ) : Prop where
  malloc : ∀ bytes, (dl.malloc bytes).MapsOnly (mmapThreshold ≤ request2size bytes)
  free : ∀ mem, (dl.free mem).MapsOnly False

/-- `sizeof(Node)`. -/
def sizeofNode : Word := 40

/-- `operator new` and `operator delete`, followed into `depth` calls of themselves. -/
def nodeHeap (env : Env) (dl : Malloc τ) : Nat → NodeHeap 2048 (Outside τ)
  | 0 => { new := fun _ => .error .tooDeep, delete := fun _ _ => .error .tooDeep }
  | depth + 1 =>
      { new := fun w => do
          let (p, w) ← (dl.malloc sizeofNode).run env (nodeHeap env dl depth) w
          .ok (p ≠ 0, World.setAddress w (.heap w.allocator.newCount) p)
        delete := fun n w => do
          let (_, w) ← (dl.free (w.rest.address n)).run env (nodeHeap env dl depth) w
          .ok w }

/-- What the kernel does with its memory. -/
inductive Event (τ : Type) where
  | range (call : Vma.Call)
  | initHeap
  | malloc (bytes : Word)
  | free (mem : Word)
  /-- anything that is done to the machine and to the data of dlmalloc -/
  | other (machine : Machine) (contents : τ)

namespace World

/-- `init_kernel_virtual_allocator`. -/
def boot (env : Env) (heap : NodeHeap 2048 (Outside τ)) (entries : List Pma.MemmapEntry)
    (kernelBase : Word) (machine : Machine) (contents : τ) : Except Stop (World τ) :=
  let rangeStart := alignDown (env.slide + Pma.getHighestPhysicalAddress entries) pageSize
  let rangeEnd := alignDown kernelBase pageSize
  Guarded.init heap rangeStart (rangeEnd - rangeStart) { machine := machine, contents := contents }

def step (env : Env) (dl : Malloc τ) (heap : NodeHeap 2048 (Outside τ)) (w : World τ) :
    Event τ → Except Stop (World τ)
  | .range call => Guarded.step heap w call
  | .initHeap => initHeap heap w
  | .malloc bytes => do
      let (_, w) ← (dl.malloc bytes).run env heap w
      .ok w
  | .free mem => do
      let (_, w) ← (dl.free mem).run env heap w
      .ok w
  | .other machine contents => .ok (setContents (setMachine w machine) contents)

end World

/-! ## `sbrk` -/

theorem sbrk_result {env : Env} {h h' : HeapState} {increment r : Word}
    (hres : h.sbrk env increment = some (r, h')) :
    h'.allocator = h.allocator ∧ (r = 0 ∨ r = h.top) := by
  unfold HeapState.sbrk at hres
  simp only at hres
  split_ifs at hres
  · obtain ⟨rfl, rfl⟩ := Prod.mk.inj (Option.some.inj hres)
    exact ⟨rfl, Or.inr rfl⟩
  · obtain ⟨rfl, rfl⟩ := Prod.mk.inj (Option.some.inj hres)
    exact ⟨rfl, Or.inl rfl⟩
  · split at hres
    · obtain ⟨rfl, rfl⟩ := Prod.mk.inj (Option.some.inj hres)
      exact ⟨rfl, Or.inl rfl⟩
    · obtain ⟨rfl, rfl⟩ := Prod.mk.inj (Option.some.inj hres)
      exact ⟨rfl, Or.inr rfl⟩
  · obtain ⟨rfl, rfl⟩ := Prod.mk.inj (Option.some.inj hres)
    exact ⟨rfl, Or.inl rfl⟩

/-- The break as `sbrk` finds it. -/
def Outside.top (out : Outside τ) : Word := out.heapTop.getD out.heapBase

/-- The window and the break lie at pages. -/
structure Paged (base : Word) (out : Outside τ) : Prop where
  window : base.toNat % 4096 = 0
  top : out.top.toNat % 4096 = 0

theorem add_page_mod {x y : Word} (hx : x.toNat % 4096 = 0) (hy : y.toNat % 4096 = 0) :
    (x + y).toNat % 4096 = 0 := by
  rw [BitVec.toNat_add]
  omega

theorem ne_morecoreFailure {x : Word} (h : x.toNat % 4096 = 0) : x ≠ morecoreFailure := by
  rintro rfl
  exact absurd h (by decide)

namespace World

variable {env : Env} {heap : NodeHeap 2048 (Outside τ)} {b : Bool} {w : World τ}

theorem setMachine_lock (h : LockIs Paged b w) (m : Machine) :
    LockIs Paged b (setMachine w m) :=
  ⟨h.1, h.2.window, h.2.top⟩

theorem setContents_lock (h : LockIs Paged b w) (contents : τ) :
    LockIs Paged b (setContents w contents) :=
  ⟨h.1, h.2.window, h.2.top⟩

theorem setAddress_lock (h : LockIs Paged b w) (p : NodePtr) (address : Word) :
    LockIs Paged b (setAddress w p address) :=
  ⟨h.1, h.2.window, h.2.top⟩

theorem sbrk_ends (h : LockIs Paged b w) (increment : Word) :
    Ends Reentry (fun x => LockIs Paged b x.2 ∧ x.1 ≠ morecoreFailure)
      (sbrk env w increment) := by
  have hpage : (heapState w).top.toNat % 4096 = 0 := h.2.top
  unfold sbrk
  rcases hres : (heapState w).sbrk env increment with - | ⟨r, h'⟩
  · exact .error (by decide)
  obtain ⟨halloc, hr⟩ := sbrk_result hres
  have hlock : (setHeapState w h').allocator = w.allocator := halloc
  have htop : h'.top.toNat % 4096 = 0 := by
    obtain ⟨-, hkept | ⟨-, -, hmoved, -⟩⟩ := sbrk_cases hres
    · rw [hkept]
      exact hpage
    · rw [hmoved]
      exact add_page_mod hpage (alignUp_pageSize_mod increment)
  refine .ok ⟨⟨by rw [hlock]; exact h.1, by rw [hlock]; exact h.2.window, htop⟩, ?_⟩
  rcases hr with rfl | rfl
  · exact ne_morecoreFailure rfl
  · exact ne_morecoreFailure hpage

/-! ## The calls of the range allocator -/

theorem allocateVirtualMemory_ends (hheap : Quiet Paged heap) (h : LockIs Paged false w)
    (length : Word) :
    Ends Reentry (fun x => Guarded.Returned Paged x.1 x.2)
      (allocateVirtualMemory heap w length) := by
  unfold allocateVirtualMemory
  split_ifs
  · exact Guarded.allocPages_ends hheap h _ 1
  · exact .ok ⟨setMachine_lock h _, by simp⟩

theorem deallocateVirtualMemory_ends (hheap : Quiet Paged heap) (h : LockIs Paged false w)
    (address length : Word) :
    Ends Reentry (LockIs Paged false) (deallocateVirtualMemory heap w address length) :=
  (Guarded.free_ends hheap h address _).bind fun _ h₁ => .ok h₁

theorem mmap_ends (hheap : Quiet Paged heap) (h : LockIs Paged false w) (length : Word) :
    Ends Reentry (fun x => LockIs Paged false x.2) (mmap heap env w length) := by
  unfold mmap
  split_ifs
  · exact .ok h
  refine (allocateVirtualMemory_ends hheap h _).bind fun ⟨base, w₁⟩ h₁ => ?_
  cases base with
  | none => exact .ok h₁.1
  | some base =>
      simp only
      split
      · exact .ok (setMachine_lock h₁.1 _)
      · exact (deallocateVirtualMemory_ends hheap (setMachine_lock h₁.1 _) base _).bind
          fun w₂ h₂ => .ok h₂
      · exact .ok (setMachine_lock h₁.1 _)

theorem initHeap_ends (hheap : Quiet Paged heap) (h : LockIs Paged false w) :
    Ends Reentry (LockIs Paged false) (initHeap heap w) := by
  have hsize : LockIs Paged false
      ({ w with rest := { w.rest with heapSize := 32 * 1024 * 1024 } } : World τ) :=
    ⟨h.1, h.2.window, h.2.top⟩
  refine (allocateVirtualMemory_ends hheap hsize _).bind fun ⟨address, w₁⟩ h₁ => ?_
  cases address with
  | none => exact .error (by decide)
  | some address =>
      obtain ⟨page, hpage⟩ := h₁.2 address rfl
      have hoffset : (page * pageSize).toNat % 4096 = 0 := by
        rw [BitVec.toNat_mul, toNat_pageSize]
        omega
      have haddress : address.toNat % 4096 = 0 := hpage ▸ add_page_mod h₁.1.2.window hoffset
      refine .ok ⟨h₁.1.1, h₁.1.2.window, ?_⟩
      rcases hbreak : w₁.rest.heapTop with - | top
      · simp [Outside.top, hbreak, haddress]
      · have htop := h₁.1.2.top
        simpa [Outside.top, hbreak] using htop

end World

/-! ## dlmalloc -/

section Programs

variable {env : Env} {heap : NodeHeap 2048 (Outside τ)} {b : Bool} {w : World τ}

/-- A program that has no reason to call `mmap` leaves the lock alone, whoever holds it. -/
theorem Dlmalloc.run_quiet {p : Dlmalloc τ α} {may : Prop} (hp : p.MapsOnly may) (hmay : ¬ may)
    (h : LockIs Paged b w) : Ends Reentry (fun x => LockIs Paged b x.2) (p.run env heap w) := by
  induction p generalizing may w with
  | done result => exact .ok h
  | load next ih => exact ih _ (hp w.rest.contents) hmay h
  | store contents next ih => exact ih hp hmay (World.setContents_lock h contents)
  | sbrk increment next ih =>
      refine (World.sbrk_ends h increment).bind fun ⟨r, w₁⟩ h₁ => ?_
      exact ih r (hp r) (not_or.2 ⟨hmay, h₁.2⟩) h₁.1
  | mmap length next ih => exact absurd hp.1 hmay
  | munmap => exact .error (by decide)

theorem Dlmalloc.run_ends (hheap : Quiet Paged heap) (p : Dlmalloc τ α)
    (h : LockIs Paged false w) :
    Ends Reentry (fun x => LockIs Paged false x.2) (p.run env heap w) := by
  induction p generalizing w with
  | done result => exact .ok h
  | load next ih => exact ih _ h
  | store contents next ih => exact ih (World.setContents_lock h contents)
  | sbrk increment next ih =>
      exact (World.sbrk_ends h increment).bind fun ⟨r, w₁⟩ h₁ => ih r h₁.1
  | mmap length next ih =>
      exact (World.mmap_ends hheap h length).bind fun ⟨r, w₁⟩ h₁ => ih r h₁
  | munmap => exact .error (by decide)

/-- A node is too small a request for `mmap`. -/
theorem not_mmapThreshold_le_node : ¬ mmapThreshold ≤ request2size sizeofNode := by decide

theorem nodeHeap_quiet {dl : Malloc τ} (hdl : MapsRarely dl) (env : Env) (depth : Nat) :
    Quiet Paged (nodeHeap env dl (depth + 1)) where
  new := fun _ _ hs =>
    (Dlmalloc.run_quiet (hdl.malloc sizeofNode) not_mmapThreshold_le_node hs).bind
      fun x h₁ => .ok (World.setAddress_lock h₁ _ x.1)
  delete := fun _ _ _ hs =>
    (Dlmalloc.run_quiet (hdl.free _) not_false hs).bind fun _ h₁ => .ok h₁

end Programs

/-! ## Runs -/

namespace World

variable {heap : NodeHeap 2048 (Outside τ)} {w : World τ}

theorem boot_ends (env : Env) (hheap : Quiet Paged heap) (entries : List Pma.MemmapEntry)
    (kernelBase : Word) (machine : Machine) (contents : τ) :
    Ends Reentry (LockIs Paged false) (boot env heap entries kernelBase machine contents) := by
  have hpaged : Paged (alignDown (env.slide + Pma.getHighestPhysicalAddress entries) pageSize)
      ({ machine := machine, contents := contents } : Outside τ) := by
    refine ⟨?_, rfl⟩
    rw [alignDown, toNat_roundDown _ isPow2_pageSize, toNat_pageSize]
    omega
  simp only [boot]
  exact Guarded.init_ends hheap hpaged _

theorem step_ends (env : Env) (dl : Malloc τ) (hheap : Quiet Paged heap)
    (h : LockIs Paged false w) (e : Event τ) :
    Ends Reentry (LockIs Paged false) (step env dl heap w e) := by
  cases e with
  | range call =>
      cases call with
      | allocPages npages alignPages =>
          exact (Guarded.allocPages_ends hheap h npages alignPages).bind fun _ h₁ => .ok h₁.1
      | free vaddr npages =>
          exact (Guarded.free_ends hheap h vaddr npages).bind fun _ h₁ => .ok h₁
  | initHeap => exact initHeap_ends hheap h
  | malloc bytes => exact (Dlmalloc.run_ends hheap _ h).bind fun _ h₁ => .ok h₁
  | free mem => exact (Dlmalloc.run_ends hheap _ h).bind fun _ h₁ => .ok h₁
  | other machine contents => exact .ok (setContents_lock (setMachine_lock h machine) contents)

end World

/-- In no run from the start of the kernel does a chain of calls take `lock_` when it holds it,
and each call of `alloc_pages` and `free` that returns has released it. Calls of `new` and `delete`
inside each other are followed to any depth, and one is enough. -/
theorem lock_never_reentered {dl : Malloc τ} (hdl : MapsRarely dl) (env : Env) (depth : Nat)
    (entries : List Pma.MemmapEntry) (kernelBase : Word) (machine : Machine) (contents : τ)
    (events : List (Event τ)) :
    Ends Reentry
      (fun w : World τ => w.allocator.locked = false ∧
        (∀ npages alignPages, Ends Reentry (fun x => x.2.allocator.locked = false)
          (w.allocPages (nodeHeap env dl (depth + 1)) npages alignPages)) ∧
        ∀ vaddr npages, Ends Reentry (fun x => x.2.allocator.locked = false)
          (w.free (nodeHeap env dl (depth + 1)) vaddr npages))
      (do
        let w ← World.boot env (nodeHeap env dl (depth + 1)) entries kernelBase machine contents
        events.foldlM (World.step env dl (nodeHeap env dl (depth + 1))) w) := by
  have hheap := nodeHeap_quiet hdl env depth
  have hrun := (World.boot_ends env hheap entries kernelBase machine contents).bind fun w h =>
    Ends.foldlM (fun w e h => World.step_ends env dl hheap h e) events h
  refine hrun.mono fun w h => ⟨h.1, fun npages alignPages => ?_, fun vaddr npages => ?_⟩
  · exact (Guarded.allocPages_ends hheap h npages alignPages).mono fun _ h₁ => h₁.1.1
  · exact (Guarded.free_ends hheap h vaddr npages).mono fun _ h₁ => h₁.1

/-- The calls of the kernel that `malloc` makes when it has nothing to hand out. -/
def emptyMalloc : Malloc Unit where
  malloc := fun bytes =>
    let nb := request2size bytes
    let extend : Dlmalloc Unit Word := .sbrk (pageUp (nb + minsize)) fun brk =>
      if brk = morecoreFailure then
        .mmap mmapAsMorecoreSize fun brk => .done (if brk = mapFailed then 0 else chunk2mem brk)
      else .sbrk 0 fun _ => .done (chunk2mem brk)
    if mmapThreshold ≤ nb then
      .mmap (pageUp (nb + 8 + mallocAlignMask)) fun mm =>
        if mm = mapFailed then extend else .done (chunk2mem mm)
    else extend
  free := fun _ => .done ()

theorem mapsRarely_emptyMalloc : MapsRarely emptyMalloc where
  malloc := fun bytes => by
    by_cases hlarge : mmapThreshold ≤ request2size bytes
    · simp only [emptyMalloc, if_pos hlarge]
      refine ⟨hlarge, fun mm => ?_⟩
      simp only
      split_ifs
      · intro brk
        simp only
        split_ifs <;> simp [Dlmalloc.MapsOnly, hlarge]
      · trivial
    · simp only [emptyMalloc, if_neg hlarge]
      intro brk
      simp only
      split_ifs with hfailed
      · exact ⟨Or.inr hfailed, fun _ => trivial⟩
      · exact fun _ => trivial
  free := fun _ => trivial

/-- The heap is used, and then the range allocator until its pool of nodes has run out. -/
def drainingEvents : List (Event Unit) :=
  [.initHeap, .malloc 40] ++ List.replicate 2048 (.range (.allocPages 1 1))

theorem lock_never_reentered_one_malloc :
    Ends Reentry
      (fun w : World Unit => w.allocator.locked = false ∧
        (∀ npages alignPages, Ends Reentry (fun x => x.2.allocator.locked = false)
          (w.allocPages (nodeHeap openEnv emptyMalloc 1) npages alignPages)) ∧
        ∀ vaddr npages, Ends Reentry (fun x => x.2.allocator.locked = false)
          (w.free (nodeHeap openEnv emptyMalloc 1) vaddr npages))
      (do
        let w ← World.boot openEnv (nodeHeap openEnv emptyMalloc 1) [] 0x8000000
          { mem := fun _ => 0xff } ()
        drainingEvents.foldlM
          (World.step openEnv emptyMalloc (nodeHeap openEnv emptyMalloc 1)) w) :=
  lock_never_reentered mapsRarely_emptyMalloc openEnv 0 [] 0x8000000 { mem := fun _ => 0xff } ()
    drainingEvents

end UnnamedKernel.Mm.Heap
