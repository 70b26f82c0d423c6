import UnnamedKernel.Mm.Vma.Accesses
import UnnamedKernel.Mm.Vma.Safety

/-!
# Several processors at one range allocator

Any number of processors call `alloc_pages` and `free`, access by access and in any order.
`lock_` keeps them apart, so what they get is what they would get one after the other. As before
`new` either answers null or returns a node; it does not come back to the allocator.
-/

namespace UnnamedKernel.Mm.Vma

open UnnamedKernel.Lib UnnamedKernel.Lib.Critical UnnamedKernel.Kernel

variable {maxNodes : Nat} {κ : Type}

/-- What a call returns. -/
inductive Answer where
  | pages (vaddr : Option Word)
  | released (ok : Bool)
  deriving DecidableEq

namespace VAddrAllocator

/-- A call without anyone in between. -/
def serve (heap : HeapAnswers) :
    Call → VAddrAllocator maxNodes → Option (Answer × VAddrAllocator maxNodes)
  | .allocPages npages alignPages, a =>
      (a.allocPages heap npages alignPages).map fun x => (.pages x.1, x.2)
  | .free vaddr npages, a => (a.free heap vaddr npages).map fun x => (.released x.1, x.2)

/-- `alloc_pages` and `free` of the allocator that started as `a₀`. Its `base_` and `total_pages_`
stay as they are, and are read before the lock is taken. -/
def routine (heap : HeapAnswers) (a₀ : VAddrAllocator maxNodes) :
    Routine Call Answer (VAddrAllocator maxNodes) where
  entry
    | .allocPages npages alignPages =>
        if npages = 0 then .returns (.pages none)
        -- ASSERT((align_pages & (align_pages - 1)) == 0 && align_pages >= 1)
        else if alignPages &&& (alignPages - 1) = 0 ∧ 1 ≤ alignPages then .locks
        else .stops
    | .free vaddr npages =>
        if npages = 0 then .returns (.released true)
        else if a₀.totalPages ≤ a₀.pageFromVaddr vaddr then .returns (.released false)
        else .locks
  body
    | .allocPages npages alignPages => do
        let head ← Section.load VAddrAllocator.head
        return .pages (← Accesses.allocLoop heap npages alignPages walkLimit head)
    | .free vaddr npages => do
        let head ← Section.load VAddrAllocator.head
        return .released
          (← Accesses.freeLoop heap (a₀.pageFromVaddr vaddr) npages walkLimit head)

variable {heap : HeapAnswers} {a₀ a : VAddrAllocator maxNodes}

theorem eq_relock (hfree : a.locked = false) : a = (a.relock true).relock false := by
  rw [relock, relock, ← hfree]

/-- Access by access, a call comes to what it comes to in the model. -/
theorem serve_routine (hfree : a.locked = false) (hwin : a.base = a₀.base)
    (htotal : a.totalPages = a₀.totalPages) (c : Call) :
    (routine heap a₀).serve c a = a.serve heap c := by
  cases c with
  | allocPages npages alignPages =>
      simp only [Routine.serve, routine, serve, allocPages, lock, hfree, Bool.false_eq_true,
        if_false]
      split_ifs with hn halign
      · rfl
      · have hloop := Accesses.run_allocLoop heap false npages alignPages walkLimit a.head
          (a.relock true)
        rw [← eq_relock hfree] at hloop
        rw [Section.run_bind, Section.run_load, Option.bind_some, Section.run_bind, hloop]
        change _ = Option.map _ ((allocLoop heap npages alignPages walkLimit a.head
          (a.relock true)).bind fun x => some (x.1, x.2.unlock))
        cases allocLoop heap npages alignPages walkLimit a.head (a.relock true) <;> rfl
      · rfl
  | free vaddr npages =>
      have hpage : a.pageFromVaddr vaddr = a₀.pageFromVaddr vaddr := by
        rw [pageFromVaddr, pageFromVaddr, hwin]
      simp only [Routine.serve, routine, serve, free, lock, hfree, hpage, ← htotal,
        Bool.false_eq_true, if_false]
      split_ifs with hn hout
      · rfl
      · rfl
      · have hloop := Accesses.run_freeLoop heap (a.relock true) false (a₀.pageFromVaddr vaddr)
          npages walkLimit a.head
        rw [← eq_relock hfree] at hloop
        rw [Section.run_bind, Section.run_load, Option.bind_some, Section.run_bind, hloop]
        change _ = Option.map _ ((freeLoop heap (a₀.pageFromVaddr vaddr) npages walkLimit a.head
          (a.relock true)).bind fun x => some (x.1, x.2.unlock))
        cases freeLoop heap (a₀.pageFromVaddr vaddr) npages walkLimit a.head (a.relock true) <;> rfl

/-! ## The ledger of a log -/

/-- The pages that an answer hands out. -/
def granted (a₀ : VAddrAllocator maxNodes) : Call → Answer → Finset Nat
  | .allocPages npages _, .pages (some vaddr) => a₀.pageRun vaddr npages
  | _, _ => ∅

/-- The pages that an answer takes back. -/
def released (a₀ : VAddrAllocator maxNodes) : Call → Answer → Finset Nat
  | .free vaddr npages, .released true => a₀.pageRun vaddr npages
  | _, _ => ∅

/-- What a call does to the ledger can be read off its answer. -/
theorem serve_step {s s' : Session maxNodes} {c : Call} (hbase : s'.allocator.base = a₀.base)
    (h : s.step heap c = some s') :
    ∃ r, s.allocator.serve heap c = some (r, s'.allocator) ∧
      s'.held = (s.held \ a₀.released c r) ∪ a₀.granted c r := by
  cases c with
  | allocPages npages alignPages =>
      rcases hres : s.allocator.allocPages heap npages alignPages with - | ⟨- | vaddr, a'⟩
      · simp [Session.step, hres] at h
      · obtain rfl : ⟨a', s.held⟩ = s' := by simpa [Session.step, hres] using h
        exact ⟨.pages none, by simp [serve, hres], by simp [granted, released]⟩
      · obtain rfl : ⟨a', s.held ∪ a'.pageRun vaddr npages⟩ = s' := by
          simpa [Session.step, hres] using h
        refine ⟨.pages (some vaddr), by simp [serve, hres], ?_⟩
        simp only [granted, released, Finset.sdiff_empty]
        rw [pageRun_congr hbase]
  | free vaddr npages =>
      rcases hres : s.allocator.free heap vaddr npages with - | ⟨b, a'⟩
      · simp [Session.step, hres] at h
      · obtain rfl : ⟨a', if b then s.held \ a'.pageRun vaddr npages else s.held⟩ = s' := by
          simpa [Session.step, hres] using h
        refine ⟨.released b, by simp [serve, hres], ?_⟩
        cases b with
        | false => simp [granted, released]
        | true =>
            simp only [granted, released, Finset.union_empty, if_true]
            rw [pageRun_congr hbase]

end VAddrAllocator

open VAddrAllocator

namespace Booked

variable {heap : HeapAnswers} {a₀ : VAddrAllocator maxNodes} {s s' : Session maxNodes}

theorem routine_step (h : ∃ cells, Booked heap a₀ s cells) {c : Call} (hc : c.Legal)
    (hfree₀ : a₀.locked = false) :
    ∃ r s', (routine heap a₀).serve c s.allocator = some (r, s'.allocator) ∧
      s.allocator.serve heap c = some (r, s'.allocator) ∧ s.step heap c = some s' ∧
      s'.held = (s.held \ a₀.released c r) ∪ a₀.granted c r ∧
      ∃ cells, Booked heap a₀ s' cells := by
  obtain ⟨s', hstep, hbooked'⟩ := step h hc
  obtain ⟨cells, hbooked⟩ := h
  obtain ⟨cells', hbooked''⟩ := hbooked'
  obtain ⟨r, hserve, hheld⟩ := serve_step hbooked''.window.base hstep
  refine ⟨r, s', ?_, hserve, hstep, hheld, cells', hbooked''⟩
  rw [serve_routine (hbooked.window.locked.trans hfree₀) hbooked.window.base
    hbooked.window.totalPages]
  exact hserve

/-- The calls of a log can be replayed on a ledger, and only what they take back leaves it. -/
theorem replays (hfree₀ : a₀.locked = false) {log : List (κ × Call × Answer)}
    {d : VAddrAllocator maxNodes} (h : ∃ cells, Booked heap a₀ s cells)
    (hlegal : ∀ e ∈ log, e.2.1.Legal)
    (hlog : Replays (routine heap a₀).serve s.allocator log d) :
    ∃ s', s'.allocator = d ∧ Replays (VAddrAllocator.serve heap) s.allocator log d ∧
      Lib.run (Session.step heap) s (log.map fun e => e.2.1) = some s' ∧
      (∃ cells, Booked heap a₀ s' cells) ∧
      ∀ page ∈ s.held, (∀ e ∈ log, page ∉ a₀.released e.2.1 e.2.2) → page ∈ s'.held := by
  induction log generalizing s with
  | nil => exact ⟨s, hlog, hlog, rfl, h, fun page hpage _ => hpage⟩
  | cons e log ih =>
      obtain ⟨d₁, hfirst, hrest⟩ := hlog
      have hc := hlegal e (List.mem_cons_self ..)
      obtain ⟨r, s₁, hroutine, hserve, hstep, hheld, hbooked⟩ := routine_step h hc hfree₀
      -- the answer of the log is the only one
      rw [hfirst, Option.some.injEq, Prod.mk.injEq] at hroutine
      obtain ⟨rfl, rfl⟩ := hroutine
      obtain ⟨s', hs', hlog', hrun, hbooked', hkept⟩ :=
        ih hbooked (fun e' he' => hlegal e' (List.mem_cons_of_mem _ he')) hrest
      refine ⟨s', hs', ⟨s₁.allocator, hserve, hlog'⟩, by simp [hstep, hrun], hbooked',
        fun page hpage hnot => ?_⟩
      apply hkept page _ fun e' he' => hnot e' (List.mem_cons_of_mem _ he')
      rw [hheld, Finset.mem_union, Finset.mem_sdiff]
      exact .inl ⟨hpage, hnot e (List.mem_cons_self ..)⟩

end Booked

/-- Two processors ask for a page at once, and one of them gets it while the other one waits. -/
private def twoAtOnce : List (Event Bool Call) :=
  [.call false (.allocPages 1 1), .call true (.allocPages 1 1), .turn false, .turn true] ++
    List.replicate 33 (.turn false)

private theorem twoAtOnce_legal : ∀ p c, Event.call p c ∈ twoAtOnce → c.Legal := by
  intro p c h
  simp only [twoAtOnce, List.mem_append, List.mem_cons, List.mem_replicate, List.not_mem_nil,
    or_false, reduceCtorEq, and_false, Event.call.injEq] at h
  rcases h with ⟨-, rfl⟩ | ⟨-, rfl⟩ <;> exact ⟨0, rfl⟩

private theorem twoAtOnce_run :
    ∃ (a₀ : VAddrAllocator 2) (s : Machine Bool Call Answer (VAddrAllocator 2)),
      init (fun _ => false) 0xffff800000000000 0x4000 = some a₀ ∧
      Lib.run (Machine.step (routine (fun _ => false) a₀)) { data := a₀ } twoAtOnce = some s :=
  ⟨_, _, rfl, rfl⟩

section Processors

variable [DecidableEq κ] {heap : HeapAnswers} {base size : Word} {a₀ : VAddrAllocator maxNodes}
  {events : List (Event κ Call)} {s : Machine κ Call Answer (VAddrAllocator maxNodes)}

theorem unlocked_of_init (hinit : init heap base size = some a₀) : a₀.locked = false := by
  obtain ⟨p, hinv, -, -⟩ := init_spec hinit
  exact hinv.unlocked

/-- Whatever the order of their accesses, one processor at most is between `lock_.lock()` and
`lock_.unlock()`, and all the calls that have returned came to what they come to one after the other
in the order of their returns, so that they leave a safe allocator. -/
theorem processors_serial (hfit : base.toNat + size.toNat ≤ 2 ^ 64)
    (hinit : init heap base size = some a₀)
    (hlegal : ∀ p c, Event.call p c ∈ events → c.Legal)
    (hrun : Lib.run (Machine.step (routine heap a₀)) { data := a₀ } events = some s) :
    (∀ p c rest p' c' rest', s.cpu p = .inside c rest → s.cpu p' = .inside c' rest' → p = p') ∧
    ∃ s' : Session maxNodes, Replays (VAddrAllocator.serve heap) a₀ s.log s'.allocator ∧
      Lib.run (Session.step heap) ⟨a₀, ∅⟩ (s.log.map fun e => e.2.1) = some s' ∧
      Safe heap base size s' ∧ (s.flag = false → s.data = s'.allocator) := by
  have hserial := serial_of_run hrun
  have hall := (AllLegal.start Call.Legal a₀).run hlegal hrun
  obtain ⟨-, -, hbase, htotal⟩ := init_spec hinit
  obtain ⟨d, hlog, hdata, -⟩ := hserial.replays
  obtain ⟨s', rfl, hlog', hrun', ⟨cells, hbooked⟩, -⟩ :=
    Booked.replays (unlocked_of_init hinit) (Booked.ofInit hinit) hall.log hlog
  exact ⟨hserial.exclusive, s', hlog', hrun', hbooked.safe hbase htotal hfit, hdata⟩

theorem processors_serial_two_at_once :
    ∃ (a₀ : VAddrAllocator 2) (s : Machine Bool Call Answer (VAddrAllocator 2)),
      Lib.run (Machine.step (routine (fun _ => false) a₀)) { data := a₀ } twoAtOnce = some s ∧
      ∃ s' : Session 2, Replays (VAddrAllocator.serve fun _ => false) a₀ s.log s'.allocator ∧
        Safe (fun _ => false) 0xffff800000000000 0x4000 s' := by
  obtain ⟨a₀, s, hinit, hrun⟩ := twoAtOnce_run
  obtain ⟨-, s', hlog, -, hsafe, -⟩ :=
    processors_serial (by decide) hinit twoAtOnce_legal hrun
  exact ⟨a₀, s, hrun, s', hlog, hsafe⟩

/-- The processors do not block each other for ever: in every state that they can reach, each of
them can be brought to the end of its call. -/
theorem processors_finish (hinit : init heap base size = some a₀)
    (hlegal : ∀ p c, Event.call p c ∈ events → c.Legal)
    (hrun : Lib.run (Machine.step (routine heap a₀)) { data := a₀ } events = some s) (p : κ) :
    ∃ (turns : List κ) (s' : Machine κ Call Answer (VAddrAllocator maxNodes)),
      Lib.run (Machine.step (routine heap a₀)) s (turns.map .turn) = some s' ∧
      s'.cpu p = .idle := by
  have hfree₀ := unlocked_of_init hinit
  refine can_finish (P := fun d => ∃ held cells, Booked heap a₀ ⟨d, held⟩ cells) ?_ ⟨∅, ?_⟩ hlegal
    hrun p
  · intro c d hc hd
    obtain ⟨held, hbooked⟩ := hd
    obtain ⟨r, s', hserve, -, -, -, hbooked'⟩ := Booked.routine_step hbooked hc hfree₀
    exact ⟨r, s'.allocator, hserve, s'.held, hbooked'⟩
  · exact Booked.ofInit hinit

theorem processors_finish_two_at_once :
    ∃ (a₀ : VAddrAllocator 2) (turns : List Bool)
      (s s' : Machine Bool Call Answer (VAddrAllocator 2)),
      Lib.run (Machine.step (routine (fun _ => false) a₀)) { data := a₀ } twoAtOnce = some s ∧
      Lib.run (Machine.step (routine (fun _ => false) a₀)) s (turns.map .turn) = some s' ∧
      s'.cpu true = .idle := by
  obtain ⟨a₀, s, hinit, hrun⟩ := twoAtOnce_run
  obtain ⟨turns, s', hturns, hidle⟩ := processors_finish hinit twoAtOnce_legal hrun true
  exact ⟨a₀, turns, s, s', hrun, hturns, hidle⟩

end Processors

end UnnamedKernel.Mm.Vma
