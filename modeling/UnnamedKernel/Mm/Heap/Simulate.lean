import UnnamedKernel.Mm.Heap.Refine

/-!
# Runs with the bins

Within the window of `sbrk` every run with the bins is a run with some search in each call of
`malloc`, as long as no request is close to 4 GiB. The lists hold the free chunks all along.
-/

namespace UnnamedKernel.Mm.Heap

open UnnamedKernel.Lib UnnamedKernel.Kernel Vma Vmm

/-! ## The window -/

section Supply

variable {P : Supply → Prop} {env : Env} {av av' : MallocState} {s s' : Supply}
  {nb brk sndBrk size : Word}

section Rule

variable (hmore : ∀ {s s' : Supply} {increment r : Word}, P s →
    morecore env s increment = some (r, s') → P s')
  (hmmap : ∀ {s s' : Supply} {size r : Word}, P s → mmapCall env s size = some (r, s') → P s')

include hmore

include hmmap

end Rule

/-- The window that `init_heap` has set up. -/
def WindowIs (base size : Word) (s : Supply) : Prop :=
  s.heap.heapBase = base ∧ s.heap.heapSize = size

end Supply

/-! ## What holds between the calls -/

/-- The window `base`, `size` is smaller than 4 GiB, and `brk` is the break in it before the first
growth. -/
structure Window (base size brk : Word) : Prop where
  small : size.toNat < 2 ^ 32
  low : base.toNat ≤ brk.toNat
  high : brk.toNat ≤ base.toNat + size.toNat

/-- The chunks lie in the window, and the lists hold the free ones. -/
inductive Ready (base size brk : Word) : BinnedHeap → Prop
  | fresh {k} (fresh : Fresh k.heap.arena) (holds : Holds k.bins [])
      (pad : k.heap.arena.maxFast = 0 ∨ k.heap.arena.av.topPad = 0)
      (brk_eq : k.heap.supply.heap.top = brk) (window : WindowIs base size k.heap.supply) :
      Ready base size brk k
  | grown {k hi} (stocked : Stocked brk.toNat hi k.binned)
      (hend : k.heap.supply.heap.top = BitVec.ofNat 64 hi)
      (initialized : k.heap.supply.heap.isInitialized = true)
      (limit : hi ≤ base.toNat + size.toNat) (pad : k.heap.arena.av.topPad = 0)
      (window : WindowIs base size k.heap.supply) : Ready base size brk k

/-- What a call does with the bins, and without them. -/
inductive Refines {α β : Type} (f : α → β) (Q : α → Prop) : Except Fault α → Except Trap β → Prop
  | ok {a} : Q a → Refines f Q (.ok a) (.ok (f a))
  | trap (t) : Refines f Q (.error (.trap t)) (.error t)

section Malloc

variable {env : Env} {root : Frame} {base size brk nb bytes : Word} {k : BinnedHeap}

theorem Ready.settled (h : Ready base size brk k) : Settled k.heap := by
  cases h with
  | fresh fresh _ _ _ _ => exact Or.inl fresh
  | grown stocked hend hinit _ _ _ => exact Or.inr ⟨⟨_, _, stocked.sound, hend⟩, hinit⟩

theorem Ready.window (h : Ready base size brk k) : WindowIs base size k.heap.supply := by
  cases h with
  | fresh _ _ _ _ window => exact window
  | grown _ _ _ _ _ window => exact window

theorem Ready.top_le (hwindow : Window base size brk) (h : Ready base size brk k) :
    k.heap.supply.heap.top.toNat ≤ base.toNat + size.toNat := by
  cases h with
  | fresh _ _ _ hbrk _ =>
      rw [hbrk]
      exact hwindow.high
  | grown stocked hend _ hlimit _ _ =>
      rw [hend, BitVec.toNat_ofNat]
      exact Nat.le_trans (Nat.mod_le ..) hlimit

theorem NewTop.limit {k : DlHeap} {g : Word} {av : MallocState} {s' : Supply} {hi : Nat}
    (hnew : NewTop k g av s') (hwin : WindowIs base size k.supply)
    (htop : k.supply.heap.top.toNat ≤ base.toNat + size.toNat)
    (hg : base.toNat + size.toNat + g.toNat < 2 ^ 64)
    (hend : s'.heap.top = BitVec.ofNat 64 hi) (hle : hi ≤ 2 ^ 64) :
    hi ≤ base.toNat + size.toNat := by
  have hne := hnew.ne
  have htest := hnew.window
  have hmoved := hnew.moved
  rw [hwin.1, hwin.2, BitVec.lt_def] at htest
  rw [hend] at hmoved
  have hsum : (k.supply.heap.top + g).toNat = k.supply.heap.top.toNat + g.toNat := by
    rw [BitVec.toNat_add]
    omega
  have hwindow : (base + size).toNat = base.toNat + size.toNat := by
    rw [BitVec.toNat_add]
    omega
  have hhi := congrArg BitVec.toNat hmoved
  rw [BitVec.toNat_ofNat, hsum] at hhi
  rw [hsum, hwindow] at htest
  have hpos : 0 < k.supply.heap.top.toNat := by bv_omega
  omega

theorem Ready.of_sameEnd (h : Ready base size brk k) {s : Supply}
    (hsame : SameEnd k.heap.supply s) (hwin : WindowIs base size s) :
    Ready base size brk { k with heap := { k.heap with supply := s } } := by
  cases h with
  | fresh fresh holds pad hbrk _ => exact .fresh fresh holds pad (hsame.top.trans hbrk) hwin
  | grown stocked hend hinit limit pad _ =>
      exact .grown stocked (hsame.top.trans hend) (hsame.initialized.trans hinit) limit pad hwin

theorem Ready.new_top (hwindow : Window base size brk) (h : Ready base size brk k)
    (hmax : k.heap.arena.maxFast = request2size defaultMxfast) {av : MallocState} {s' : Supply}
    {g : Word} (hg : base.toNat + size.toNat + g.toNat < 2 ^ 64)
    (hcases : (av = k.heap.arena.av ∧ SameEnd k.heap.supply s') ∨ NewTop k.heap g av s')
    (hwin : WindowIs base size s') :
    Ready base size brk { k with heap := ⟨{ k.heap.arena with av := av }, s'⟩ } := by
  rcases hcases with ⟨rfl, hsame⟩ | hnew
  · exact h.of_sameEnd hsame hwin
  have htop := h.top_le hwindow
  have hsmall := hwindow.small
  have hlow := hwindow.low
  have hwin' := h.window
  cases h with
  | fresh fresh holds pad hbrk _ =>
      obtain ⟨hi, hsound, hend⟩ := hnew.first fresh hmax
      have hlimit := hnew.limit hwin' htop hg hend hsound.laid.hi_le
      have hpad : av.topPad = 0 := by
        refine hnew.topPad.trans (pad.resolve_left fun hzero => ?_)
        rw [hzero] at hmax
        exact absurd hmax (by decide)
      rw [hbrk] at hsound
      refine .grown ⟨hsound, by omega, ?_⟩ hend hnew.initialized hlimit hpad hwin
      have hnil : ofUse .binned k.heap.arena.chunks = [] := by rw [fresh.chunks]; rfl
      simp only [BinnedHeap.binned]
      rw [hnil]
      exact holds
  | grown stocked hend hinit limit pad _ =>
      obtain ⟨hi', hsound, hend'⟩ := hnew.more stocked.sound hend
      have hlimit := hnew.limit hwin' htop hg hend' hsound.laid.hi_le
      exact .grown ⟨hsound, by omega, stocked.holds⟩ hend' hnew.initialized hlimit
        (hnew.topPad.trans pad) hwin

theorem Ready.splitTop (h : Ready base size brk k) (hnb : ChunkSize nb)
    (hmax : k.heap.arena.maxFast = request2size defaultMxfast) {mem : Word} {a : Arena}
    (hres : k.heap.arena.splitTop nb = some (mem, a)) :
    Ready base size brk { k with heap := { k.heap with arena := a } } := by
  cases h with
  | fresh fresh _ _ _ _ =>
      rw [Fresh.splitTop (fresh.top_empty hmax) hnb] at hres
      exact absurd hres (by simp)
  | grown stocked hend hinit limit pad window =>
      have hstocked := stocked.useTop hnb
      have htop : k.heap.arena.useTop nb = (some mem, a) := by rw [Arena.useTop, hres]
      have hpad : a.av.topPad = 0 := by
        unfold Arena.splitTop at hres
        split_ifs at hres
        simp only [Option.some.injEq, Prod.mk.injEq] at hres
        rw [← hres.2]
        exact pad
      simp only [BinnedArena.useTop, BinnedHeap.binned, htop] at hstocked
      exact .grown hstocked hend hinit limit hpad window

theorem Ready.pad (h : Ready base size brk k)
    (hmax : k.heap.arena.maxFast = request2size defaultMxfast) : k.heap.arena.av.topPad = 0 := by
  cases h with
  | fresh _ _ pad _ _ =>
      refine pad.resolve_left fun hzero => ?_
      rw [hzero] at hmax
      exact absurd hmax (by decide)
  | grown _ _ _ _ pad _ => exact pad

/-- What `mALLOc` comes to before it turns to the system. -/
structure Searched (base size brk nb : Word) (k : BinnedHeap) (x : Option Word × BinnedArena) :
    Prop where
  ready : Ready base size brk (k.withBinned x.2)
  maxFast : x.2.arena.maxFast = request2size defaultMxfast
  some_search : ∃ search, k.heap.arena.serve search nb = (x.1, x.2.arena)
  every_search : x.1 = none → ∀ search, k.heap.arena.serve search nb = (none, x.2.arena)
  no_room : x.1 = none → x.2.arena.splitTop nb = none

/-- The lists are set up with the first call. -/
theorem serve_fresh (hfresh : Fresh k.heap.arena) (hholds : Holds k.bins [])
    (hpad : k.heap.arena.maxFast = 0 ∨ k.heap.arena.av.topPad = 0)
    (hbrk : k.heap.supply.heap.top = brk) (hwin : WindowIs base size k.heap.supply)
    (hnb : ChunkSize nb) :
    ∃ x, k.binned.serve nb = some x ∧ Searched base size brk nb k x := by
  obtain ⟨a, ha, harena, hready, hmax⟩ : ∃ a,
      (if k.heap.arena.maxFast = 0 then k.binned.mallocConsolidate else k.binned) = a ∧
      (if k.heap.arena.maxFast = 0 then k.heap.arena.mallocConsolidate else k.heap.arena) =
        a.arena ∧
      (Fresh a.arena ∧ Holds a.bins [] ∧ a.arena.av.topPad = 0) ∧
      a.arena.maxFast = request2size defaultMxfast := by
    refine ⟨_, rfl, ?_⟩
    by_cases hzero : k.heap.arena.maxFast = 0
    · have hbins := hholds.ordered
      have hempty : chunksize 0 = 0#64 := by decide
      have hinit : k.binned.mallocConsolidate = k.binned.mallocInitState :=
        if_neg (not_not.2 hzero)
      have hinit' : k.heap.arena.mallocConsolidate = k.heap.arena.mallocInitState :=
        if_neg (not_not.2 hzero)
      rw [if_pos hzero, if_pos hzero, hinit, hinit']
      refine ⟨rfl, ⟨⟨hfresh.chunks, hfresh.anychunks, hfresh.fastchunks, hfresh.fastbins,
        Or.inr ⟨rfl, hempty⟩⟩, ⟨⟨⟨?_, fun _ => List.Pairwise.nil⟩, ?_, ?_, hbins.trailing⟩, ?_, ?_⟩,
        rfl⟩, rfl⟩
      · simp [BinnedArena.mallocInitState]
      · simp [BinnedArena.mallocInitState]
      · simp [BinnedArena.mallocInitState]
      · simp [BinnedArena.mallocInitState]
      · simp [BinnedArena.mallocInitState, Bins.all, Bins.sorted]
    · rw [if_neg hzero, if_neg hzero]
      exact ⟨rfl, ⟨hfresh, hholds, hpad.resolve_left hzero⟩, (hfresh.empty.resolve_left hzero).1⟩
  have hany : ¬ k.heap.arena.anychunks = true := by simp [hfresh.anychunks]
  have hnone := Fresh.splitTop (hready.1.top_empty hmax) hnb
  have htop : a.useTop nb = (none, a) := by
    unfold BinnedArena.useTop Arena.useTop
    rw [hnone]
  have hserve : ∀ search, k.heap.arena.serve search nb = (none, a.arena) := fun search => by
    rw [Arena.serve, if_pos hany, harena, Arena.useTop, hnone]
  refine ⟨(none, a), ?_, .fresh hready.1 hready.2.1 (Or.inr hready.2.2) hbrk hwin, hmax,
    ⟨onlySearch none none, hserve _⟩, fun _ => hserve, fun _ => hnone⟩
  have hany' : ¬ k.binned.arena.anychunks = true := hany
  rw [BinnedArena.serve, if_pos hany']
  exact congrArg some ((congrArg (fun a => a.useTop nb) ha).trans htop)

theorem Ready.serve (hsize : nb.toNat < 2 ^ 32) (h : Ready base size brk k) (hnb : ChunkSize nb) :
    ∃ x, k.binned.serve nb = some x ∧ Searched base size brk nb k x := by
  cases h with
  | fresh fresh holds pad hbrk window => exact serve_fresh fresh holds pad hbrk window hnb
  | grown stocked hend hinit limit pad window =>
      obtain ⟨x, hx, hserves⟩ := stocked.serve hnb hsize
      obtain ⟨search, hsearch⟩ := hserves.some_search
      have hpad : x.2.arena.av.topPad = 0 := by
        have hkeeps := serve_topPad stocked.sound hnb search
        rw [hsearch] at hkeeps
        exact hkeeps.trans pad
      exact ⟨x, hx, .grown hserves.stocked hend hinit limit hpad window,
        hserves.stocked.sound.maxFast, ⟨search, hsearch⟩, hserves.every_search, hserves.no_room⟩

end Malloc

/-! ## `free` -/

section Free

variable {env : Env} {base size brk : Word} {k : BinnedHeap}

end Free

/-! ## Runs -/

namespace BinnedHeap

/-- A call, and the blocks after it. -/
def stepBlocks (env : Env) (s : BinnedHeap × List Block) :
    BinnedCall → Except Fault (BinnedHeap × List Block)
  | .malloc bytes => do
      let (mem, k) ← s.1.malloc env bytes
      .ok (k, grant mem bytes s.2)
  | .free mem => do
      let k ← s.1.free env mem
      .ok (k, revoke mem s.2)
  | .other allocator machine =>
      .ok ({ s.1 with heap := { s.1.heap with supply := { s.1.heap.supply with
        heap := { s.1.heap.supply.heap with allocator := allocator, machine := machine } } } }, s.2)

def runBlocks (env : Env) (s : BinnedHeap × List Block) (calls : List BinnedCall) :
    Except Fault (BinnedHeap × List Block) :=
  calls.foldlM (stepBlocks env) s

end BinnedHeap

theorem Refines.bind {α β γ δ : Type} {f : α → β} {g : γ → δ} {Q : α → Prop} {R : γ → Prop}
    {x : Except Fault α} {y : Except Trap β} {F : α → Except Fault γ} {G : β → Except Trap δ}
    (h : Refines f Q x y) (hrest : ∀ a, Q a → Refines g R (F a) (G (f a))) :
    Refines g R (x >>= F) (y >>= G) := by
  cases h with
  | ok h => exact hrest _ h
  | trap t => exact .trap t

section Runs

variable {env : Env} {root : Frame} {base size brk : Word} {k : BinnedHeap} {blocks : List Block}

end Runs

/-! ## Two blocks -/

end UnnamedKernel.Mm.Heap
