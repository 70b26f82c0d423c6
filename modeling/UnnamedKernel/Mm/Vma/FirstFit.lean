import UnnamedKernel.Mm.Vma.Safety

/-!
# The allocator is a complete first-fit search

As long as no node allocation fails, no two neighbouring ranges are both free, and
the test on single nodes agrees with a search over all page indices.
-/

namespace UnnamedKernel.Mm.Vma

open UnnamedKernel.Lib UnnamedKernel.Kernel VAddrAllocator

variable {maxNodes : Nat}

/-- `p` is an aligned page index, and the `n` pages from it on are free. -/
def FreeRunAt (a : VAddrAllocator maxNodes) (n al p : Nat) : Prop :=
  al ∣ p ∧ ∀ i, p ≤ i → i < p + n → a.FreePage i

/-- What a first-fit search for `n` pages returns, and the pages it marks. -/
inductive IsFirstFit (a : VAddrAllocator maxNodes) (n al : Nat) :
    Option Word → VAddrAllocator maxNodes → Prop
  | found {p : Nat} {a' : VAddrAllocator maxNodes} (hfree : FreeRunAt a n al p)
      (hleast : ∀ q, FreeRunAt a n al q → p ≤ q)
      (hfreed : ∀ i, a'.FreePage i ↔ a.FreePage i ∧ ¬ (p ≤ i ∧ i < p + n))
      (hused : ∀ i, a'.UsedPage i ↔ a.UsedPage i ∨ (p ≤ i ∧ i < p + n)) :
      IsFirstFit a n al (some (a.base + pageSize * BitVec.ofNat 64 p)) a'
  | missing {a' : VAddrAllocator maxNodes} (hnone : ∀ q, ¬ FreeRunAt a n al q)
      (hfreed : ∀ i, a'.FreePage i ↔ a.FreePage i) (hused : ∀ i, a'.UsedPage i ↔ a.UsedPage i) :
      IsFirstFit a n al none a'

namespace Booked

variable {heap : HeapAnswers} {a₀ : VAddrAllocator maxNodes} {s : Session maxNodes}
  {cells : List Cell}

theorem firstFit (h : Booked heap a₀ s cells) {npages alignPages : Word} (hn : npages ≠ 0)
    (hal : IsPow2 alignPages) :
    ∃ r a', s.allocator.allocPages heap npages alignPages = some (r, a') ∧
      (NoNull heap a₀ a' →
        IsFirstFit s.allocator npages.toNat alignPages.toNat r a') := by
  obtain ⟨r, a', cells', ok, hres, hinv', hwalk, hwin, hok⟩ := allocPages_spec h.inv heap hn hal
  have hnpos : 0 < npages.toNat := by bv_omega
  have hmark : ∀ i b, (∃ p, s.allocator.OnList p ∧ (s.allocator.nodes p).isFree = b ∧
      (s.allocator.nodes p).seg.Covers i) ↔ Tagged (segs cells) i b := h.inv.shape.marked_iff
  have hmark' : ∀ i b, (∃ p, a'.OnList p ∧ (a'.nodes p).isFree = b ∧
      (a'.nodes p).seg.Covers i) ↔ Tagged (segs cells') i b := hinv'.shape.marked_iff
  refine ⟨_, a', hres, fun hno => ?_⟩
  have htrue := hok (hno.right h.window)
  have hpair := h.noFreePair (hno.left hwin)
  have hleast : ∀ q, FreeRunAt s.allocator npages.toNat alignPages.toNat q →
      ∃ p, r = some p ∧ p ≤ q := by
    rintro q ⟨hdvd, hfree⟩
    have htagged : ∀ i, q ≤ i → i < q + npages.toNat → Tagged (segs cells) i true :=
      fun i hi hi' => (hmark i true).1 (hfree i hi hi')
    have hq := (h.inv.tiles.tagged_bounds (htagged q (Nat.le_refl q) (by omega))).2
    have hempty := h.inv.noEmpty_of_pos (by omega)
    exact hwalk.firstFit htrue hal.pos hnpos h.inv.tiles hpair hempty hdvd htagged
  cases r with
  | none =>
      refine .missing (fun q hq => ?_) (fun i => ?_) fun i => ?_
      · obtain ⟨p, hp, -⟩ := hleast q hq
        simp at hp
      · rw [FreePage, FreePage, hmark, hmark', hwalk.tagged_none rfl]
      · rw [UsedPage, UsedPage, hmark, hmark', hwalk.tagged_none rfl]
  | some p =>
      have hin := hwalk.some_aligned hal.pos h.inv.tiles rfl
      have htook := hwalk.tookRun hal.pos h.inv.tiles rfl
      rw [Option.map_some, vaddrFromPage, BitVec.mul_comm]
      refine .found ⟨hin.1, fun i hi hi' => (hmark i true).2 (htook.1 i hi hi')⟩
        (fun q hq => ?_) (fun i => ?_) fun i => ?_
      · obtain ⟨p', hp', hle⟩ := hleast q hq
        obtain rfl : p = p' := Option.some.inj hp'
        exact hle
      · rw [FreePage, FreePage, hmark, hmark', htook.2]
        split_ifs with hrun
        · simp [hrun]
        · simp [hrun]
      · rw [UsedPage, UsedPage, hmark, hmark', htook.2]
        split_ifs with hrun
        · simp [hrun]
        · simp [hrun]

end Booked

/-- In every run from `init` that ends with a call of `alloc_pages`, and in which `new`
never fails, that call returns the least aligned run of free pages, marks exactly
those pages used, and misses only when there is no such run. -/
theorem allocPages_firstFit (heap : HeapAnswers) {base size : Word}
    {a₀ : VAddrAllocator maxNodes} (hinit : init heap base size = some a₀) (calls : List Call)
    (hlegal : ∀ c ∈ calls, c.Legal) {npages alignPages : Word} (hn : npages ≠ 0)
    (hal : IsPow2 alignPages) :
    ∃ s, Lib.run (Session.step heap) ⟨a₀, ∅⟩ calls = some s ∧ s.allocator.base = base ∧
      ∃ r a', s.allocator.allocPages heap npages alignPages = some (r, a') ∧
        (NoNull heap a₀ a' →
          IsFirstFit s.allocator npages.toNat alignPages.toNat r a') := by
  obtain ⟨-, -, hbase, -⟩ := init_spec hinit
  obtain ⟨s, hrun, cells, h⟩ := Booked.run (Booked.ofInit hinit) calls hlegal
  exact ⟨s, hrun, h.window.base.trans hbase, h.firstFit hn hal⟩

theorem allocPages_firstFit_four_pages :
    ∃ (a₀ : VAddrAllocator 8) (s : Session 8),
      init (fun _ => true) 0xffff800000000000 0x4000 = some a₀ ∧
      Lib.run (Session.step fun _ => true) ⟨a₀, ∅⟩
        [.allocPages 3 1, .free 0xffff800000000000 1] = some s ∧
      s.allocator.base = 0xffff800000000000 ∧
      ∃ r a', s.allocator.allocPages (fun _ => true) 1 2 = some (r, a') ∧
        IsFirstFit s.allocator 1 2 r a' := by
  obtain ⟨a₀, hinit⟩ : ∃ a₀ : VAddrAllocator 8,
      init (fun _ => true) 0xffff800000000000 0x4000 = some a₀ := ⟨_, rfl⟩
  obtain ⟨s, hrun, hbase, r, a', hcall, hfit⟩ := allocPages_firstFit (fun _ => true) hinit
    [.allocPages 3 1, .free 0xffff800000000000 1] (by
      simp only [List.mem_cons, List.not_mem_nil, or_false, forall_eq_or_imp, forall_eq]
      exact ⟨⟨0, rfl⟩, trivial⟩) (by decide : (1 : Word) ≠ 0) (⟨1, rfl⟩ : IsPow2 2)
  exact ⟨a₀, s, hinit, hrun, hbase, r, a', hcall, hfit fun _ _ _ => rfl⟩

end UnnamedKernel.Mm.Vma
