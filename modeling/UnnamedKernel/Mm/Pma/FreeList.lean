import Mathlib.Data.List.Pairwise
import UnnamedKernel.Lib.Links
import UnnamedKernel.Lib.Ranges
import UnnamedKernel.Mm.Pma.Model

/-!
# The free list in memory

`Chained s blocks` ties the headers reached from `m_head` to a list of ranges of direct-map
addresses; the headers share no byte, so a store to one header field changes that field only.
In a `FreeList` they sit at page-aligned addresses.
-/

namespace UnnamedKernel.Mm.Pma

open UnnamedKernel.Lib UnnamedKernel.Kernel

/-- A page-aligned address. -/
def Aligned (x : Word) : Prop := x.toNat % 4096 = 0

instance (x : Word) : Decidable (Aligned x) := inferInstanceAs (Decidable (_ = _))

theorem Aligned.add {x y : Word} (hx : Aligned x) (hy : Aligned y) : Aligned (x + y) := by
  unfold Aligned at *
  bv_omega

theorem Aligned.sub {x y : Word} (hx : Aligned x) (hy : Aligned y) : Aligned (x - y) := by
  unfold Aligned at *
  bv_omega

/-- The addresses of the blocks, in list order. -/
def addrs (blocks : List Range) : List Word := blocks.map Range.addr

@[simp] theorem addrs_nil : addrs [] = [] := rfl

@[simp] theorem addrs_cons (r : Range) (blocks : List Range) :
    addrs (r :: blocks) = r.addr :: addrs blocks := rfl

@[simp] theorem addrs_append (l r : List Range) : addrs (l ++ r) = addrs l ++ addrs r :=
  List.map_append

theorem mem_addrs {r : Range} {blocks : List Range} (h : r ∈ blocks) : r.addr ∈ addrs blocks :=
  List.mem_map_of_mem h

/-- The headers at `a` and `b` share no byte. -/
def HeadersApart (a b : Word) : Prop := 16 ≤ (a - b).toNat ∧ 16 ≤ (b - a).toNat

instance : Std.Symm HeadersApart := ⟨fun _ _ h => ⟨h.2, h.1⟩⟩

theorem HeadersApart.ne {a b : Word} (h : HeadersApart a b) : a ≠ b := by
  unfold HeadersApart at h
  bv_omega

theorem Aligned.headersApart {a b : Word} (ha : Aligned a) (hb : Aligned b) (hne : b ≠ a) :
    HeadersApart a b := by
  unfold HeadersApart Aligned at *
  bv_omega

namespace FreeListAllocator

/-! ## Header fields -/

section Apart

variable {s : FreeListAllocator} {a b : Word} (hab : b ≠ a → HeadersApart a b)

include hab

theorem sizeOf_setSize_apart (v : Word) :
    (s.setSize a v).sizeOf b = if b = a then v else s.sizeOf b := by
  split_ifs with h
  · subst h
    exact Mem.read64_write64_same _ _ _
  · refine Mem.read64_write64_apart _ _ ?_
    have := hab h
    unfold Mem.Apart HeadersApart at *
    bv_omega

theorem nextOf_setSize_apart (v : Word) : (s.setSize a v).nextOf b = s.nextOf b := by
  refine Mem.read64_write64_apart _ _ ?_
  by_cases h : b = a
  · subst h
    unfold Mem.Apart
    bv_omega
  · have := hab h
    unfold Mem.Apart HeadersApart at *
    bv_omega

theorem sizeOf_setNext_apart (v : Word) : (s.setNext a v).sizeOf b = s.sizeOf b := by
  refine Mem.read64_write64_apart _ _ ?_
  by_cases h : b = a
  · subst h
    unfold Mem.Apart
    bv_omega
  · have := hab h
    unfold Mem.Apart HeadersApart at *
    bv_omega

theorem nextOf_setNext_apart (v : Word) :
    (s.setNext a v).nextOf b = if b = a then v else s.nextOf b := by
  split_ifs with h
  · subst h
    exact Mem.read64_write64_same _ _ _
  · refine Mem.read64_write64_apart _ _ ?_
    have := hab h
    unfold Mem.Apart HeadersApart at *
    bv_omega

end Apart

section Fields

variable {s : FreeListAllocator} {a b : Word} (ha : Aligned a) (hb : Aligned b)

include ha hb

theorem sizeOf_setSize (v : Word) :
    (s.setSize a v).sizeOf b = if b = a then v else s.sizeOf b :=
  sizeOf_setSize_apart (ha.headersApart hb) v

theorem nextOf_setSize (v : Word) : (s.setSize a v).nextOf b = s.nextOf b :=
  nextOf_setSize_apart (ha.headersApart hb) v

theorem sizeOf_setNext (v : Word) : (s.setNext a v).sizeOf b = s.sizeOf b :=
  sizeOf_setNext_apart (ha.headersApart hb) v

theorem nextOf_setNext (v : Word) :
    (s.setNext a v).nextOf b = if b = a then v else s.nextOf b :=
  nextOf_setNext_apart (ha.headersApart hb) v

end Fields

@[simp] theorem setSize_head (s : FreeListAllocator) (a v : Word) : (s.setSize a v).head = s.head :=
  rfl

@[simp] theorem setNext_head (s : FreeListAllocator) (a v : Word) : (s.setNext a v).head = s.head :=
  rfl

theorem setSize_mem_of_not_mem (s : FreeListAllocator) {a x : Word} (v : Word)
    (hx : x ∉ (⟨a, 16⟩ : Range)) : (s.setSize a v).mem x = s.mem x := by
  refine Mem.write64_of_not_inRange _ _ fun hin => hx ?_
  rw [Range.mem_iff]
  unfold Mem.InRange at hin
  bv_omega

theorem setNext_mem_of_not_mem (s : FreeListAllocator) {a x : Word} (v : Word)
    (hx : x ∉ (⟨a, 16⟩ : Range)) : (s.setNext a v).mem x = s.mem x := by
  refine Mem.write64_of_not_inRange _ _ fun hin => hx ?_
  rw [Range.mem_iff]
  unfold Mem.InRange at hin
  bv_omega

end FreeListAllocator

open FreeListAllocator

/-- The blocks of an acyclic list. Their headers share no byte, but they need not be aligned. -/
structure Chained (s : FreeListAllocator) (blocks : List Range) : Prop where
  links : Links s.nextOf s.head (addrs blocks) 0
  size : ∀ r ∈ blocks, s.sizeOf r.addr = r.size
  nonnull : ∀ r ∈ blocks, r.addr ≠ 0
  headers : (addrs blocks).Pairwise HeadersApart

structure FreeList (s : FreeListAllocator) (blocks : List Range) : Prop where
  links : Links s.nextOf s.head (addrs blocks) 0
  size : ∀ r ∈ blocks, s.sizeOf r.addr = r.size
  aligned : ∀ r ∈ blocks, Aligned r.addr
  nonnull : ∀ r ∈ blocks, r.addr ≠ 0
  nodup : (addrs blocks).Nodup

/-- The link behind the last of some blocks, `&m_head` when there is none. -/
def linkTo (pre : List Range) : Link :=
  match pre.getLast? with
  | none => .head
  | some r => .next r.addr

@[simp] theorem linkTo_nil : linkTo [] = .head := rfl

@[simp] theorem linkTo_concat (pre : List Range) (r : Range) :
    linkTo (pre ++ [r]) = .next r.addr := by
  simp [linkTo]

theorem headers_of_aligned {blocks : List Range} (hnodup : (addrs blocks).Nodup)
    (haligned : ∀ r ∈ blocks, Aligned r.addr) : (addrs blocks).Pairwise HeadersApart := by
  rw [addrs, List.nodup_iff_pairwise_ne, List.pairwise_map] at hnodup
  exact List.pairwise_map.2 <| hnodup.imp_of_mem fun hr ht hne =>
    (haligned _ hr).headersApart (haligned _ ht) hne.symm

theorem load_linkTo {s : FreeListAllocator} {pre : List Range} {p : Word}
    (h : Links s.nextOf s.head (addrs pre) p) : s.load (linkTo pre) = p := by
  rcases List.eq_nil_or_concat pre with rfl | ⟨pre, r, rfl⟩
  · exact h
  · rw [List.concat_eq_append] at h ⊢
    rw [addrs_append, Links.append_iff] at h
    obtain ⟨m, -, -, hlast⟩ := h
    rw [linkTo_concat]
    exact hlast

namespace Chained

variable {s s' : FreeListAllocator} {blocks pre post : List Range} {r t : Range}

theorem nodup (h : Chained s blocks) : (addrs blocks).Nodup := h.headers.imp HeadersApart.ne

theorem headersApart (h : Chained s blocks) (hr : r ∈ blocks) (ht : t ∈ blocks) :
    t.addr ≠ r.addr → HeadersApart r.addr t.addr := fun hne =>
  h.headers.forall (mem_addrs hr) (mem_addrs ht) hne.symm

theorem load_at (h : Chained s (pre ++ r :: post)) : s.load (linkTo pre) = r.addr := by
  have hlinks := h.links
  rw [addrs_append, Links.append_iff] at hlinks
  obtain ⟨m, hpre, rfl, -⟩ := hlinks
  exact load_linkTo hpre

theorem load_end (h : Chained s pre) : s.load (linkTo pre) = 0 := load_linkTo h.links

theorem next_links (h : Chained s (pre ++ r :: post)) :
    Links s.nextOf (s.nextOf r.addr) (addrs post) 0 := by
  have hlinks := h.links
  rw [addrs_append, Links.append_iff] at hlinks
  obtain ⟨m, -, -, hpost⟩ := hlinks
  exact hpost

theorem addr_not_mem (h : Chained s (pre ++ r :: post)) :
    r.addr ∉ addrs pre ∧ r.addr ∉ addrs post := by
  have hnodup := h.nodup
  rw [addrs_append, addrs_cons, List.nodup_append, List.nodup_cons] at hnodup
  exact ⟨fun hm => hnodup.2.2 _ hm r.addr (by simp) rfl, hnodup.2.1.1⟩

theorem tail (h : Chained s (pre ++ r :: post)) :
    Chained { s with head := s.nextOf r.addr } post := by
  have hheaders := h.headers
  rw [addrs_append, addrs_cons, List.pairwise_append, List.pairwise_cons] at hheaders
  exact ⟨h.next_links, fun b hb => h.size b (by simp [hb]), fun b hb => h.nonnull b (by simp [hb]),
    hheaders.2.1.2⟩

/-- Relinking behind `pre`: the blocks of `pre` keep their headers but for the last
link, and the new rest is chained from `q`. -/
theorem relink {rest : List Range} {q : Word} (h : Chained s (pre ++ post))
    (hhead : s'.head = s.head) (hsize : ∀ r ∈ pre, s'.sizeOf r.addr = s.sizeOf r.addr)
    (hnext : ∀ r ∈ pre, s'.nextOf r.addr = s.nextOf r.addr)
    (hrest : Chained { s' with head := q } rest)
    (hheaders : (addrs (pre ++ rest)).Pairwise HeadersApart) :
    Chained (s'.store (linkTo pre) q) (pre ++ rest) := by
  have hpre := h.links
  rw [addrs_append, Links.append_iff] at hpre
  obtain ⟨m, hpre, -⟩ := hpre
  have hpre' : Links s'.nextOf s'.head (addrs pre) m := by
    rw [hhead]
    refine hpre.congr fun x hx => ?_
    obtain ⟨r, hr, rfl⟩ := List.mem_map.1 hx
    exact hnext r hr
  have hsizes : ∀ r ∈ pre ++ rest, s'.sizeOf r.addr = r.size := by
    intro r hr
    rcases List.mem_append.1 hr with hr | hr
    · rw [hsize r hr, h.size r (by simp [hr])]
    · exact hrest.size r hr
  have hnonnull : ∀ r ∈ pre ++ rest, r.addr ≠ 0 := by
    intro r hr
    rcases List.mem_append.1 hr with hr | hr
    · exact h.nonnull r (by simp [hr])
    · exact hrest.nonnull r hr
  rcases List.eq_nil_or_concat pre with rfl | ⟨pre, b, rfl⟩
  · exact hrest
  rw [List.concat_eq_append] at *
  have hapart : ∀ r ∈ pre ++ [b] ++ rest, r.addr ≠ b.addr → HeadersApart b.addr r.addr :=
    fun r hr hne => hheaders.forall (mem_addrs (by simp)) (mem_addrs hr) hne.symm
  have hnodup : (addrs (pre ++ [b] ++ rest)).Nodup := hheaders.imp HeadersApart.ne
  rw [addrs_append, addrs_append, List.nodup_append, List.nodup_append] at hnodup
  rw [linkTo_concat, store]
  refine ⟨?_, fun r hr => ?_, hnonnull, hheaders⟩
  · rw [addrs_append, Links.append_iff]
    refine ⟨q, ?_, hrest.links.congr fun x hx => ?_⟩
    · rw [setNext_head]
      rw [addrs_append, addrs_cons, addrs_nil] at hpre' ⊢
      refine hpre'.retarget (fun x hx => ?_) ?_
      · obtain ⟨r, hr, rfl⟩ := List.mem_map.1 hx
        rw [nextOf_setNext_apart (hapart r (by simp [hr])), if_neg]
        exact fun he => hnodup.1.2.2 _ hx b.addr (by simp) he
      · rw [nextOf_setNext_apart (hapart b (by simp)), if_pos rfl]
    · obtain ⟨r, hr, rfl⟩ := List.mem_map.1 hx
      have hne : r.addr ≠ b.addr := fun he =>
        hnodup.2.2 b.addr (by simp) _ hx he.symm
      rw [nextOf_setNext_apart (hapart r (by simp [hr])), if_neg hne]
      rfl
  · rw [sizeOf_setNext_apart (hapart r hr), hsizes r hr]

theorem unlink (h : Chained s (pre ++ r :: post)) :
    Chained (s.store (linkTo pre) (s.nextOf r.addr)) (pre ++ post) :=
  h.relink rfl (fun _ _ => rfl) (fun _ _ => rfl) h.tail
    (h.headers.sublist ((List.Sublist.append_left (List.sublist_cons_self r post) pre).map _))

theorem resize (h : Chained s (pre ++ r :: post)) (v : Word) :
    Chained (s.setSize r.addr v) (pre ++ ⟨r.addr, v⟩ :: post) := by
  have hr : r ∈ pre ++ r :: post := by simp
  have hne := h.addr_not_mem
  have haddrs : addrs (pre ++ ⟨r.addr, v⟩ :: post) = addrs (pre ++ r :: post) := by simp
  have hmem : ∀ b ∈ pre ++ (⟨r.addr, v⟩ : Range) :: post, b = ⟨r.addr, v⟩ ∨
      b.addr ≠ r.addr ∧ b ∈ pre ++ r :: post := by
    intro b hb
    rcases List.mem_append.1 hb with hb | hb
    · exact Or.inr ⟨fun he => hne.1 (he ▸ mem_addrs hb), by simp [hb]⟩
    rcases List.mem_cons.1 hb with rfl | hb
    · exact Or.inl rfl
    · exact Or.inr ⟨fun he => hne.2 (he ▸ mem_addrs hb), by simp [hb]⟩
  refine ⟨?_, fun b hb => ?_, fun b hb => ?_, haddrs ▸ h.headers⟩
  · rw [haddrs]
    refine h.links.congr fun x hx => ?_
    obtain ⟨b, hb, rfl⟩ := List.mem_map.1 hx
    exact nextOf_setSize_apart (h.headersApart hr hb) v
  · rcases hmem b hb with rfl | ⟨hb, hm⟩
    · rw [sizeOf_setSize_apart (h.headersApart hr hr), if_pos rfl]
    · rw [sizeOf_setSize_apart (h.headersApart hr hm), if_neg hb, h.size b hm]
  · rcases hmem b hb with rfl | ⟨-, hm⟩
    · exact h.nonnull r hr
    · exact h.nonnull b hm

/-- A header written in front of the list; one at the null address ends it. -/
theorem push (h : Chained s blocks) {b : Word} (v : Word)
    (hfresh : ∀ r ∈ blocks, HeadersApart b r.addr) :
    Chained { (s.setSize b v).setNext b s.head with head := b }
      (if b = 0 then [] else ⟨b, v⟩ :: blocks) := by
  have hself : b ≠ b → HeadersApart b b := fun hne => absurd rfl hne
  have hsizes : ∀ r ∈ blocks, ((s.setSize b v).setNext b s.head).sizeOf r.addr =
      s.sizeOf r.addr := by
    intro r hr
    have hapart := hfresh r hr
    rw [sizeOf_setNext_apart fun _ => hapart, sizeOf_setSize_apart fun _ => hapart,
      if_neg hapart.ne.symm]
  have hnexts : ∀ r ∈ blocks, ((s.setSize b v).setNext b s.head).nextOf r.addr =
      s.nextOf r.addr := by
    intro r hr
    have hapart := hfresh r hr
    rw [nextOf_setNext_apart fun _ => hapart, if_neg hapart.ne.symm,
      nextOf_setSize_apart fun _ => hapart]
  split_ifs with hnull
  · exact ⟨hnull, by simp, by simp, by simp⟩
  refine ⟨⟨rfl, ?_⟩, ?_, ?_, List.pairwise_cons.2 ⟨fun x hx => ?_, h.headers⟩⟩
  · show Links _ (((s.setSize b v).setNext b s.head).nextOf b) _ 0
    rw [nextOf_setNext_apart hself, if_pos rfl]
    refine h.links.congr fun x hx => ?_
    obtain ⟨r, hr, rfl⟩ := List.mem_map.1 hx
    exact hnexts r hr
  · intro r hr
    rcases List.mem_cons.1 hr with rfl | hr
    · show ((s.setSize b v).setNext b s.head).sizeOf b = v
      rw [sizeOf_setNext_apart hself, sizeOf_setSize_apart hself, if_pos rfl]
    · exact (hsizes r hr).trans (h.size r hr)
  · intro r hr
    rcases List.mem_cons.1 hr with rfl | hr
    · exact hnull
    · exact h.nonnull r hr
  · obtain ⟨r, hr, rfl⟩ := List.mem_map.1 hx
    exact hfresh r hr

end Chained

namespace FreeList

variable {s s' : FreeListAllocator} {blocks pre post : List Range} {r : Range}

theorem congr (h : FreeList s blocks) (hhead : s'.head = s.head)
    (hsize : ∀ r ∈ blocks, s'.sizeOf r.addr = s.sizeOf r.addr)
    (hnext : ∀ r ∈ blocks, s'.nextOf r.addr = s.nextOf r.addr) : FreeList s' blocks := by
  refine ⟨hhead ▸ h.links.congr fun x hx => ?_, fun r hr => (hsize r hr).trans (h.size r hr),
    h.aligned, h.nonnull, h.nodup⟩
  obtain ⟨r, hr, rfl⟩ := List.mem_map.1 hx
  exact hnext r hr

theorem chained (h : FreeList s blocks) : Chained s blocks :=
  ⟨h.links, h.size, h.nonnull, headers_of_aligned h.nodup h.aligned⟩

theorem ofChained (h : Chained s blocks) (haligned : ∀ r ∈ blocks, Aligned r.addr) :
    FreeList s blocks :=
  ⟨h.links, h.size, haligned, h.nonnull, h.nodup⟩

theorem load_at (h : FreeList s (pre ++ r :: post)) : s.load (linkTo pre) = r.addr :=
  h.chained.load_at

theorem load_end (h : FreeList s pre) : s.load (linkTo pre) = 0 := h.chained.load_end

theorem addr_not_mem (h : FreeList s (pre ++ r :: post)) :
    r.addr ∉ addrs pre ∧ r.addr ∉ addrs post :=
  h.chained.addr_not_mem

theorem tail (h : FreeList s (pre ++ r :: post)) :
    FreeList { s with head := s.nextOf r.addr } post :=
  ofChained h.chained.tail fun b hb => h.aligned b (by simp [hb])

theorem push (h : FreeList s blocks) {b : Word} (hb : Aligned b) (v : Word)
    (hfresh : b ∉ addrs blocks) :
    FreeList { (s.setSize b v).setNext b s.head with head := b }
      (if b = 0 then [] else ⟨b, v⟩ :: blocks) := by
  have hapart : ∀ r ∈ blocks, HeadersApart b r.addr := fun r hr =>
    hb.headersApart (h.aligned r hr) fun he => hfresh (he ▸ mem_addrs hr)
  refine ofChained (h.chained.push v hapart) fun r hr => ?_
  split_ifs at hr
  · exact absurd hr List.not_mem_nil
  · rcases List.mem_cons.1 hr with rfl | hr
    · exact hb
    · exact h.aligned r hr

theorem relink {rest : List Range} {q : Word} (h : FreeList s (pre ++ post))
    (hhead : s'.head = s.head) (hsize : ∀ r ∈ pre, s'.sizeOf r.addr = s.sizeOf r.addr)
    (hnext : ∀ r ∈ pre, s'.nextOf r.addr = s.nextOf r.addr)
    (hrest : FreeList { s' with head := q } rest)
    (hapart : ∀ r ∈ rest, r.addr ∉ addrs pre) :
    FreeList (s'.store (linkTo pre) q) (pre ++ rest) := by
  have haligned : ∀ r ∈ pre ++ rest, Aligned r.addr := by
    intro r hr
    rcases List.mem_append.1 hr with hr | hr
    · exact h.aligned r (by simp [hr])
    · exact hrest.aligned r hr
  have hnodup : (addrs (pre ++ rest)).Nodup := by
    have := h.nodup
    rw [addrs_append, List.nodup_append] at this ⊢
    refine ⟨this.1, hrest.nodup, fun x hx y hy he => ?_⟩
    obtain ⟨r, hr, rfl⟩ := List.mem_map.1 hy
    exact hapart r hr (he ▸ hx)
  exact ofChained (h.chained.relink hhead hsize hnext hrest.chained
    (headers_of_aligned hnodup haligned)) haligned

theorem unlink (h : FreeList s (pre ++ r :: post)) :
    FreeList (s.store (linkTo pre) (s.nextOf r.addr)) (pre ++ post) :=
  ofChained h.chained.unlink fun b hb => h.aligned b (by
    rcases List.mem_append.1 hb with hb | hb
    · simp [hb]
    · simp [hb])

end FreeList

end UnnamedKernel.Mm.Pma
