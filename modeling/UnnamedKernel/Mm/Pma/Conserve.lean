import UnnamedKernel.Mm.Pma.Safety

/-!
# Where usable memory goes

Each `alloc` that succeeds uses up the header page of the block it cuts beside the
pages it returns, so a free block of `n` pages serves `n / 2` calls of `alloc_page`.
Nothing else is lost while no usable byte is at the null address of the direct map.
-/

namespace UnnamedKernel.Mm.Pma

open UnnamedKernel.Lib UnnamedKernel.Kernel FreeListAllocator

def totalSize (rs : List Range) : Nat := (rs.map fun r => r.size.toNat).sum

/-- The `alloc_page` calls that the blocks can serve. -/
def pagesServed (rs : List Range) : Nat := (rs.map fun r => r.size.toNat / 8192).sum

@[simp] theorem totalSize_cons (r : Range) (rs : List Range) :
    totalSize (r :: rs) = r.size.toNat + totalSize rs := rfl

@[simp] theorem totalSize_append (rs ss : List Range) :
    totalSize (rs ++ ss) = totalSize rs + totalSize ss := by
  simp [totalSize]

@[simp] theorem pagesServed_cons (r : Range) (rs : List Range) :
    pagesServed (r :: rs) = r.size.toNat / 8192 + pagesServed rs := rfl

@[simp] theorem pagesServed_append (rs ss : List Range) :
    pagesServed (rs ++ ss) = pagesServed rs + pagesServed ss := by
  simp [pagesServed]

theorem totalSize_init (slide : Word) (rs : List Range) :
    totalSize (rs.map (Range.shift slide)).reverse = totalSize rs := by
  simp [totalSize, Function.comp_def, Range.shift]

theorem pagesServed_init (slide : Word) (rs : List Range) :
    pagesServed (rs.map (Range.shift slide)).reverse = pagesServed rs := by
  simp [pagesServed, Function.comp_def, Range.shift]

theorem pagesServed_eq_zero_iff (rs : List Range) :
    pagesServed rs = 0 ↔ ∀ r ∈ rs, r.size.toNat < 8192 := by
  induction rs with
  | nil => simp [pagesServed]
  | cons r rs ih =>
      have hr : r.size.toNat / 8192 = 0 ↔ r.size.toNat < 8192 := by omega
      rw [pagesServed_cons, Nat.add_eq_zero_iff, ih, List.forall_mem_cons, hr]

theorem takeBlock_eq {total : Word} {r : Range} (ht : Aligned total)
    (hr : r.size.toNat % 4096 = 0) (hle : total.toNat ≤ r.size.toNat) (hnull : (0 : Word) ∉ r)
    (rest : List Range) :
    takeBlock total r rest = if total = r.size then rest
      else r.part total (r.size - total) :: rest := by
  unfold Aligned at ht
  unfold takeBlock
  by_cases hsplit : total.toNat + 16 < r.size.toNat
  · have hne : r.addr + total ≠ 0 := by
      intro h0
      apply hnull
      rw [Range.mem_iff]
      bv_omega
    rw [if_pos hsplit, if_neg hne, if_neg (by bv_omega)]
  · rw [if_neg hsplit, if_pos (by bv_omega)]

theorem totalSize_takeBlock {total : Word} {r : Range} (ht : Aligned total)
    (hr : r.size.toNat % 4096 = 0) (hle : total.toNat ≤ r.size.toNat) (hnull : (0 : Word) ∉ r)
    (rest : List Range) :
    totalSize (takeBlock total r rest) + total.toNat = r.size.toNat + totalSize rest := by
  rw [takeBlock_eq ht hr hle hnull]
  split_ifs with heq
  · rw [heq]
    omega
  · have hrest : (r.size - total).toNat = r.size.toNat - total.toNat := by bv_omega
    rw [totalSize_cons, Range.part, hrest]
    omega

theorem pagesServed_takeBlock {r : Range} (hr : r.size.toNat % 4096 = 0)
    (hle : 8192 ≤ r.size.toNat) (hnull : (0 : Word) ∉ r) (rest : List Range) :
    pagesServed (takeBlock 8192 r rest) + 1 = r.size.toNat / 8192 + pagesServed rest := by
  have h8192 : (8192 : Word).toNat ≤ r.size.toNat := hle
  rw [takeBlock_eq (by decide) hr h8192 hnull]
  split_ifs with heq
  · rw [← heq, show (8192 : Word).toNat / 8192 = 1 by decide]
    omega
  · have hrest : (r.size - 8192).toNat = r.size.toNat - 8192 := by bv_omega
    rw [pagesServed_cons, Range.part, hrest]
    omega

/-- One call of `alloc`, which has to succeed. -/
def Session.serve (slide : Word) (s : Session) (size : Word) : Option Session := do
  let (p, a) ← s.pma.alloc slide size
  if p = 0 then none else some ⟨a, ⟨p, size⟩ :: s.held⟩

theorem Session.serve_eq {slide size p : Word} {s : Session} {a : FreeListAllocator}
    (h : s.pma.alloc slide size = some (p, a)) :
    s.serve slide size = if p = 0 then none else some ⟨a, ⟨p, size⟩ :: s.held⟩ := by
  rw [Session.serve, h]
  rfl

theorem Session.aligned_of_serve {slide size : Word} {s s' : Session}
    (h : s.serve slide size = some s') : Aligned size := by
  rw [← umod_pageSize_eq_zero_iff]
  by_contra hne
  rw [Session.serve, FreeListAllocator.alloc, if_neg hne] at h
  exact absurd h (by simp)

theorem Session.length_serve {slide size : Word} {s s' : Session}
    (h : s.serve slide size = some s') : s'.held.length = s.held.length + 1 := by
  rw [Session.serve] at h
  obtain ⟨⟨p, a⟩, -, hres⟩ := Option.bind_eq_some_iff.1 h
  simp only at hres
  split_ifs at hres
  obtain rfl := Option.some.inj hres
  rfl

/-- The free blocks, with `total` bytes free, held or used up by header pages. -/
structure Stocked (slide : Word) (entries : List MemmapEntry) (total : Nat) (s : Session)
    (blocks : List Range) : Prop where
  list : FreeList s.pma blocks
  layout : Layout (InEntry slide entries) slide blocks []
  sum : totalSize blocks + totalSize s.held + 4096 * s.held.length = total

/-- No usable byte is at the null address of the direct map. -/
def NullFree (slide : Word) (entries : List MemmapEntry) : Prop :=
  ∀ u ∈ usableRanges entries, (0 : Word) ∉ u.shift slide

instance (slide : Word) (entries : List MemmapEntry) : Decidable (NullFree slide entries) :=
  inferInstanceAs (Decidable (∀ u ∈ usableRanges entries, _))

namespace Stocked

variable {slide : Word} {entries : List MemmapEntry} {total : Nat} {s : Session}
  {blocks : List Range}

theorem ofInit (hslide : Aligned slide) (hmap : LegalMap entries) (hnull : NullFree slide entries)
    (mem : Mem) :
    Stocked slide entries (totalSize (usableRanges entries))
      ⟨init slide entries { mem := mem }, []⟩
      ((usableRanges entries).map (Range.shift slide)).reverse := by
  obtain ⟨blocks, h, hblocks⟩ := Apportioned.ofInit (InEntry slide entries) hslide hmap mem
    fun u hu => ⟨u, hu, .refl _⟩
  obtain rfl := hblocks fun u hu h0 => hnull u hu (by
    rw [← h0]
    exact Range.addr_mem (r := u.shift slide) (hmap.nonempty u hu))
  refine ⟨h.list, h.layout, ?_⟩
  rw [totalSize_init]
  rfl

theorem not_mem_null (h : Stocked slide entries total s blocks) (hnull : NullFree slide entries)
    {b : Range} (hb : b ∈ blocks) : (0 : Word) ∉ b := by
  obtain ⟨u, hu, hw⟩ := h.layout.inside b (List.mem_append_left _ hb)
  exact fun h0 => hnull u hu (hw.mem h0)

/-- A call that succeeds cuts down one block, by what it returns and a page. -/
theorem serve (h : Stocked slide entries total s blocks) (hnull : NullFree slide entries)
    {size : Word} (hwrap : 4096 + size.toNat + 16 < 2 ^ 64) {s' : Session}
    (hres : s.serve slide size = some s') :
    ∃ pre r post, blocks = pre ++ r :: post ∧ 4096 + size.toNat ≤ r.size.toNat ∧
      Stocked slide entries total s' (pre ++ takeBlock (4096 + size) r post) := by
  have hsize := Session.aligned_of_serve hres
  rcases alloc_cases h.list h.layout hsize fun _ => hwrap with
    ⟨hnone, -⟩ | ⟨pre, r, post, rfl, -, hle, -, hsome, hlist⟩
  · rw [Session.serve_eq hnone, if_pos rfl] at hres
    simp at hres
  rw [Session.serve_eq hsome] at hres
  split_ifs at hres with hp
  obtain rfl := Option.some.inj hres
  have ht : Aligned (4096 + size) := (by decide : Aligned 4096).add hsize
  have htotal : (4096 + size).toNat = 4096 + size.toNat := by bv_omega
  have hr : r.size.toNat % 4096 = 0 := h.layout.block.2.1
  refine ⟨pre, r, post, rfl, hle, hlist, h.layout.cut (inEntry_downward slide entries) ht, ?_⟩
  have hcut := totalSize_takeBlock ht hr (by omega) (h.not_mem_null hnull (by simp)) post
  have hsum := h.sum
  simp only [totalSize_append, totalSize_cons, List.length_cons] at hsum ⊢
  omega

theorem serves (h : Stocked slide entries total s blocks) (hnull : NullFree slide entries)
    {sizes : List Word} (hwrap : ∀ size ∈ sizes, 4096 + size.toNat + 16 < 2 ^ 64) {s' : Session}
    (hrun : run (Session.serve slide) s sizes = some s') :
    ∃ blocks', Stocked slide entries total s' blocks' ∧
      s'.held.length = s.held.length + sizes.length := by
  induction sizes generalizing s blocks with
  | nil =>
      obtain rfl : s = s' := by simpa using hrun
      exact ⟨blocks, h, rfl⟩
  | cons size sizes ih =>
      obtain ⟨s₁, hres, hrest⟩ := Option.bind_eq_some_iff.1 (by simpa using hrun)
      obtain ⟨pre, r, post, -, -, h₁⟩ := h.serve hnull (hwrap size (by simp)) hres
      obtain ⟨blocks', h', hlen⟩ := ih h₁ (fun n hn => hwrap n (by simp [hn])) hrest
      refine ⟨blocks', h', ?_⟩
      rw [hlen, Session.length_serve hres, List.length_cons]
      omega

theorem allocPage (hmap : LegalMap entries) (h : Stocked slide entries total s blocks) :
    (pagesServed blocks = 0 ∧ allocPage slide s.pma = some (0, s.pma)) ∨
      (0 < pagesServed blocks ∧ ∃ p a, p ≠ 0 ∧ allocPage slide s.pma = some (p, a)) := by
  have h4096 : pageSize.toNat = 4096 := rfl
  rcases alloc_cases h.list h.layout (show Aligned pageSize by decide) fun _ => by decide with
    ⟨hnone, hall⟩ | ⟨pre, r, post, rfl, -, hle, -, hsome, -⟩
  · refine Or.inl ⟨(pagesServed_eq_zero_iff blocks).2 fun r hr => ?_, hnone⟩
    have := hall r hr
    omega
  · refine Or.inr ⟨?_, _, _, ?_, hsome⟩
    · rw [Nat.pos_iff_ne_zero, Ne, pagesServed_eq_zero_iff]
      intro hall
      have := hall r (by simp)
      omega
    · exact InEntry.taken_ne_zero hmap hle (by decide) h.layout.block.2.2.2

theorem serve_page (hmap : LegalMap entries) (hnull : NullFree slide entries)
    (h : Stocked slide entries total s blocks) (k : Nat) :
    (run (Session.serve slide) s (List.replicate k pageSize)).isSome ↔ k ≤ pagesServed blocks := by
  induction k generalizing s blocks with
  | zero => simp
  | succ k ih =>
      rw [List.replicate_succ, run_cons]
      rcases h.allocPage hmap with ⟨hzero, hres⟩ | ⟨hpos, p, a, hp, hres⟩
      · have hnone : s.serve slide pageSize = none := by rw [Session.serve_eq hres, if_pos rfl]
        rw [hnone, hzero]
        simp
      · have hsome : s.serve slide pageSize = some ⟨a, ⟨p, pageSize⟩ :: s.held⟩ := by
          rw [Session.serve_eq hres, if_neg hp]
        obtain ⟨pre, r, post, rfl, hle, hnext⟩ := h.serve hnull (by decide) hsome
        have h8192 : 4096 + pageSize = 8192 := by decide
        rw [h8192] at hnext
        have hcut := pagesServed_takeBlock h.layout.block.2.1 hle
          (h.not_mem_null hnull (by simp)) post
        rw [hsome, Option.bind_some, ih hnext]
        simp only [pagesServed_append, pagesServed_cons]
        omega

end Stocked

/-- Every run of calls that succeed keeps the books: free, handed out and one page for each
call. `alloc_page` fails when no free block has two pages, and a map serves as many
`alloc_page` calls as its entries have pairs of pages. -/
theorem alloc_run_conserves {slide : Word} (hslide : Aligned slide) {entries : List MemmapEntry}
    (hmap : LegalMap entries) (hnull : NullFree slide entries) (mem : Mem) :
    (∀ sizes s, (∀ size ∈ sizes, 4096 + size.toNat + 16 < 2 ^ 64) →
      run (Session.serve slide) ⟨init slide entries { mem := mem }, []⟩ sizes = some s →
      ∃ blocks, FreeList s.pma blocks ∧
        totalSize blocks + totalSize s.held + 4096 * sizes.length =
          totalSize (usableRanges entries) ∧
        ∃ p a, allocPage slide s.pma = some (p, a) ∧
          (p = 0 ↔ ∀ b ∈ blocks, b.size.toNat < 8192)) ∧
    ∀ k, (run (Session.serve slide) ⟨init slide entries { mem := mem }, []⟩
      (List.replicate k pageSize)).isSome ↔ k ≤ pagesServed (usableRanges entries) := by
  have hinit := Stocked.ofInit hslide hmap hnull mem
  refine ⟨fun sizes s hsizes hrun => ?_, fun k => ?_⟩
  · obtain ⟨blocks, h, hlen⟩ := hinit.serves hnull hsizes hrun
    have hsum := h.sum
    rw [hlen, List.length_nil, Nat.zero_add] at hsum
    refine ⟨blocks, h.list, hsum, ?_⟩
    rcases h.allocPage hmap with ⟨hzero, hres⟩ | ⟨hpos, p, a, hp, hres⟩
    · exact ⟨0, s.pma, hres, by simpa using (pagesServed_eq_zero_iff blocks).1 hzero⟩
    · refine ⟨p, a, hres, fun h0 => absurd h0 hp, fun hall => ?_⟩
      have := (pagesServed_eq_zero_iff blocks).2 hall
      omega
  · rw [← pagesServed_init slide]
    exact hinit.serve_page hmap hnull k

/-- A map of three pages serves one page. -/
theorem alloc_run_conserves_three_pages :
    (∀ sizes s, (∀ size ∈ sizes, 4096 + size.toNat + 16 < 2 ^ 64) →
      run (Session.serve 0xffff800000000000)
        ⟨init 0xffff800000000000 [⟨0x1000, 0x3000, 0⟩] { mem := fun _ => 0 }, []⟩ sizes = some s →
      ∃ blocks, FreeList s.pma blocks ∧
        totalSize blocks + totalSize s.held + 4096 * sizes.length =
          totalSize (usableRanges [⟨0x1000, 0x3000, 0⟩]) ∧
        ∃ p a, allocPage 0xffff800000000000 s.pma = some (p, a) ∧
          (p = 0 ↔ ∀ b ∈ blocks, b.size.toNat < 8192)) ∧
    ∀ k, (run (Session.serve 0xffff800000000000)
      ⟨init 0xffff800000000000 [⟨0x1000, 0x3000, 0⟩] { mem := fun _ => 0 }, []⟩
      (List.replicate k pageSize)).isSome ↔ k ≤ pagesServed (usableRanges [⟨0x1000, 0x3000, 0⟩]) :=
  alloc_run_conserves (by decide) ⟨by decide, by decide, by decide, List.pairwise_singleton _ _⟩
    (by decide) _

/-- After one `alloc_page` on three pages one page is handed out and one is free, and the
next `alloc_page` fails. An entry at the null address of the direct map is dropped by `init`,
and a request whose sum with the header page wraps succeeds without taking anything. -/
theorem header_page_lost :
    totalSize (usableRanges [⟨0x1000, 0x3000, 0⟩]) = 0x3000 ∧
      (run (Session.serve 0xffff800000000000)
        ⟨init 0xffff800000000000 [⟨0x1000, 0x3000, 0⟩] { mem := fun _ => 0 }, []⟩
        [pageSize]).map (fun s => (s.held, s.pma.head, s.pma.sizeOf s.pma.head,
          s.pma.nextOf s.pma.head)) =
        some ([⟨0x2000, 0x1000⟩], 0xffff800000003000, 0x1000, 0) ∧
      (run (Session.serve 0xffff800000000000)
        ⟨init 0xffff800000000000 [⟨0x1000, 0x3000, 0⟩] { mem := fun _ => 0 }, []⟩
        [pageSize]).bind (fun s => (allocPage 0xffff800000000000 s.pma).map Prod.fst) = some 0 ∧
      (init 0 [⟨0, 0x2000, 0⟩] { mem := fun _ => 0 }).head = 0 ∧
      (run (Session.serve 0xffff800000000000)
        ⟨init 0xffff800000000000 [⟨0x1000, 0x3000, 0⟩] { mem := fun _ => 0 }, []⟩
        [0xfffffffffffff000]).map (fun s => (s.held, s.pma.head, s.pma.sizeOf s.pma.head,
          s.pma.nextOf s.pma.head)) =
        some ([⟨0x2000, 0xfffffffffffff000⟩], 0xffff800000001000, 0x3000, 0) := by
  refine ⟨by decide, by decide, by decide, by decide, by decide⟩

end UnnamedKernel.Mm.Pma
