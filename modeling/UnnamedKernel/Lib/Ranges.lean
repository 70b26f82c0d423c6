import Mathlib.Algebra.BigOperators.Group.List.Basic
import Mathlib.Algebra.Order.BigOperators.Group.List
import Mathlib.Data.Finset.Card
import Mathlib.Data.Finset.Image
import Mathlib.Data.Set.Basic
import Mathlib.Order.CompletePartialOrder
import UnnamedKernel.Lib.Memory

/-!
# Ranges of addresses

A range of a 64-bit address space is an address and a size; it may wrap around
the end. Apartness is about the addresses covered, so the lemmas on cutting and
joining need no case for the wrap. Ranges that lie apart do not cover more than
the address space.
-/

namespace UnnamedKernel.Lib

structure Range where
  addr : Word
  size : Word
  deriving DecidableEq, Repr

namespace Range

instance : Membership Word Range := ⟨fun r x => Mem.InRange r.addr r.size x⟩

theorem mem_iff (r : Range) (x : Word) : x ∈ r ↔ x - r.addr < r.size := Iff.rfl

instance (r : Range) (x : Word) : Decidable (x ∈ r) :=
  inferInstanceAs (Decidable (x - r.addr < r.size))

/-- The two ranges share no address. -/
def Apart (r s : Range) : Prop := ∀ x, x ∈ r → x ∉ s

theorem Apart.symm {r s : Range} (h : Apart r s) : Apart s r := fun x hs hr => h x hr hs

/-- `r` lies inside `s`, some way into it. -/
def Within (r s : Range) : Prop :=
  ∃ k : Word, r.addr = s.addr + k ∧ k.toNat + r.size.toNat ≤ s.size.toNat

theorem Within.refl (r : Range) : r.Within r := ⟨0, by simp, by simp⟩

theorem Within.trans {r s t : Range} (hrs : r.Within s) (hst : s.Within t) : r.Within t := by
  obtain ⟨k, hk, hks⟩ := hrs
  obtain ⟨j, hj, hjt⟩ := hst
  refine ⟨j + k, by rw [hk, hj, BitVec.add_assoc], ?_⟩
  bv_omega

theorem Within.mem {r s : Range} (h : r.Within s) {x : Word} (hx : x ∈ r) : x ∈ s := by
  obtain ⟨k, hk, hle⟩ := h
  rw [mem_iff] at hx ⊢
  bv_omega

theorem Apart.mono {r r' s s' : Range} (h : Apart r' s') (hr : r.Within r') (hs : s.Within s') :
    Apart r s := fun x hx hxs => h x (hr.mem hx) (hs.mem hxs)

theorem addr_mem {r : Range} (h : 0 < r.size.toNat) : r.addr ∈ r := by
  rw [mem_iff]
  bv_omega

theorem Apart.addr_ne {r s : Range} (h : Apart r s) (hs : 0 < s.size.toNat)
    (hr : 0 < r.size.toNat) : r.addr ≠ s.addr := fun he =>
  h r.addr (addr_mem hr) (he ▸ addr_mem hs)

/-- The same addresses, seen `slide` higher. -/
def shift (slide : Word) (r : Range) : Range := ⟨slide + r.addr, r.size⟩

theorem shift_within {r s : Range} (slide : Word) :
    (r.shift slide).Within (s.shift slide) ↔ r.Within s := by
  unfold Within shift
  simp only
  refine exists_congr fun k => and_congr_left fun _ => ?_
  constructor <;> intro h <;> bv_omega

theorem mem_shift {r : Range} (slide x : Word) : x ∈ r.shift slide ↔ x - slide ∈ r := by
  rw [mem_iff, mem_iff, shift]
  simp only
  rw [show x - (slide + r.addr) = x - slide - r.addr by bv_omega]

theorem shift_apart {r s : Range} (slide : Word) :
    Apart (r.shift slide) (s.shift slide) ↔ Apart r s := by
  constructor
  · intro h x hr hs
    have hx : slide + x - slide = x := by bv_omega
    refine h (slide + x) ?_ ?_ <;> rw [mem_shift, hx] <;> assumption
  · intro h x hr hs
    rw [mem_shift] at hr hs
    exact h _ hr hs

/-! ## Cutting and joining -/

/-- The part of `r` that starts `k` addresses in and has size `n`. -/
def part (r : Range) (k n : Word) : Range := ⟨r.addr + k, n⟩

theorem part_within {r : Range} {k n : Word} (h : k.toNat + n.toNat ≤ r.size.toNat) :
    (r.part k n).Within r := ⟨k, rfl, h⟩

theorem parts_apart {r : Range} {k n j m : Word} (hkn : k.toNat + n.toNat ≤ j.toNat)
    (hjm : j.toNat + m.toNat ≤ r.size.toNat) : Apart (r.part k n) (r.part j m) := by
  intro x hx hx'
  rw [mem_iff, part] at hx hx'
  simp only at hx hx'
  bv_omega

theorem mem_join {r s : Range} (hadj : r.addr + r.size = s.addr)
    (hsum : r.size.toNat + s.size.toNat < 2 ^ 64) (x : Word) :
    x ∈ (⟨r.addr, r.size + s.size⟩ : Range) ↔ x ∈ r ∨ x ∈ s := by
  simp only [mem_iff]
  bv_omega

theorem exists_mem_not_mem {r s : Range} (hsize : r.size = s.size) (hpos : 0 < r.size.toNat)
    (hne : r.addr ≠ s.addr) : ∃ x ∈ r, x ∉ s := by
  by_cases hstart : r.addr ∈ s
  · -- the first address behind `s`
    refine ⟨s.addr + s.size, ?_, ?_⟩
    · rw [mem_iff] at hstart ⊢
      bv_omega
    · rw [mem_iff]
      bv_omega
  · exact ⟨r.addr, addr_mem hpos, hstart⟩

/-! ## Counting addresses -/

/-- The addresses of a range. -/
def toFinset (r : Range) : Finset Word :=
  (Finset.range r.size.toNat).image fun i => r.addr + BitVec.ofNat 64 i

theorem mem_toFinset (r : Range) (x : Word) : x ∈ r.toFinset ↔ x ∈ r := by
  rw [toFinset, Finset.mem_image, mem_iff]
  constructor
  · rintro ⟨i, hi, rfl⟩
    rw [Finset.mem_range] at hi
    bv_omega
  · intro hx
    exact ⟨(x - r.addr).toNat, Finset.mem_range.2 hx, by rw [BitVec.ofNat_toNat]; bv_omega⟩

theorem card_toFinset (r : Range) : r.toFinset.card = r.size.toNat := by
  rw [toFinset, Finset.card_image_of_injOn, Finset.card_range]
  intro i hi j hj hij
  have hi := Finset.mem_range.1 hi
  have hj := Finset.mem_range.1 hj
  simp only at hij
  bv_omega

/-- Distinct addresses are fewer than `2 ^ 64`, or all of them. -/
theorem card_lt_of_not_mem (s : Finset Word) {x : Word} (hx : x ∉ s) : s.card < 2 ^ 64 := by
  have hsub : (insert x s).image BitVec.toNat ⊆ Finset.range (2 ^ 64) := by
    intro n hn
    obtain ⟨y, -, rfl⟩ := Finset.mem_image.1 hn
    exact Finset.mem_range.2 y.isLt
  have hcard := Finset.card_le_card hsub
  rw [Finset.card_image_of_injOn fun a _ b _ h => BitVec.eq_of_toNat_eq h,
    Finset.card_insert_of_notMem hx, Finset.card_range] at hcard
  omega

theorem sum_size_lt {rs : List Range} (h : rs.Pairwise Apart) {x : Word}
    (hx : ∀ r ∈ rs, x ∉ r) : (rs.map fun r => r.size.toNat).sum < 2 ^ 64 := by
  have hunion : ∃ s : Finset Word, s.card = (rs.map fun r => r.size.toNat).sum ∧
      ∀ y, y ∈ s ↔ ∃ r ∈ rs, y ∈ r := by
    clear hx
    induction rs with
    | nil => exact ⟨∅, rfl, by simp⟩
    | cons r rs ih =>
        obtain ⟨hr, hrs⟩ := List.pairwise_cons.1 h
        obtain ⟨s, hcard, hmem⟩ := ih hrs
        have hdisj : Disjoint r.toFinset s := by
          rw [Finset.disjoint_left]
          intro y hy hys
          obtain ⟨t, ht, hyt⟩ := (hmem y).1 hys
          exact hr t ht y ((mem_toFinset r y).1 hy) hyt
        refine ⟨r.toFinset ∪ s, ?_, fun y => ?_⟩
        · rw [Finset.card_union_of_disjoint hdisj, card_toFinset, hcard]
          rfl
        · rw [Finset.mem_union, mem_toFinset, hmem]
          simp
  obtain ⟨s, hcard, hmem⟩ := hunion
  rw [← hcard]
  refine card_lt_of_not_mem s (x := x) fun hxs => ?_
  obtain ⟨r, hr, hxr⟩ := (hmem x).1 hxs
  exact hx r hr hxr

theorem exists_not_mem_of_sum_lt {rs : List Range}
    (h : (rs.map fun r => r.size.toNat).sum < 2 ^ 64) : ∃ x, ∀ r ∈ rs, x ∉ r := by
  have hunion : ∃ s : Finset Word, s.card ≤ (rs.map fun r => r.size.toNat).sum ∧
      ∀ y, (∃ r ∈ rs, y ∈ r) → y ∈ s := by
    clear h
    induction rs with
    | nil => exact ⟨∅, Nat.le_refl _, by simp⟩
    | cons r rs ih =>
        obtain ⟨s, hcard, hmem⟩ := ih
        refine ⟨r.toFinset ∪ s, ?_, fun y hy => ?_⟩
        · have := Finset.card_union_le r.toFinset s
          rw [card_toFinset] at this
          simp only [List.map_cons, List.sum_cons]
          omega
        · obtain ⟨q, hq, hyq⟩ := hy
          rw [Finset.mem_union, mem_toFinset]
          rcases List.mem_cons.1 hq with rfl | hq
          · exact Or.inl hyq
          · exact Or.inr (hmem y ⟨q, hq, hyq⟩)
  obtain ⟨s, hcard, hmem⟩ := hunion
  have hlt : (s.image BitVec.toNat).card < (Finset.range (2 ^ 64)).card := by
    rw [Finset.card_range]
    exact (Finset.card_image_le.trans hcard).trans_lt h
  obtain ⟨n, hn, hns⟩ := Finset.exists_mem_notMem_of_card_lt_card hlt
  rw [Finset.mem_range] at hn
  refine ⟨BitVec.ofNat 64 n, fun r hr hx => hns (Finset.mem_image.2 ⟨_, hmem _ ⟨r, hr, hx⟩, ?_⟩)⟩
  rw [BitVec.toNat_ofNat, Nat.mod_eq_of_lt hn]

/-! ## Joining the ranges of a list -/

/-- The addresses of the ranges of a list. -/
def covered (rs : List Range) : Set Word := {x | ∃ r ∈ rs, x ∈ r}

theorem mem_covered {rs : List Range} {x : Word} : x ∈ covered rs ↔ ∃ r ∈ rs, x ∈ r := Iff.rfl

@[simp] theorem covered_nil : covered [] = ∅ := by
  ext x
  simp [covered]

@[simp] theorem covered_cons (r : Range) (rs : List Range) :
    covered (r :: rs) = {x | x ∈ r} ∪ covered rs := by
  ext x
  simp [covered]

theorem covered_append (rs ss : List Range) : covered (rs ++ ss) = covered rs ∪ covered ss := by
  ext x
  simp only [mem_covered, List.mem_append, Set.mem_union, or_and_right, exists_or]

theorem covered_perm {rs ss : List Range} (h : rs.Perm ss) : covered rs = covered ss := by
  ext x
  simp only [mem_covered, h.mem_iff]

/-- A range of a list swallows a later one that starts at its end. -/
inductive Join : List Range → List Range → Prop where
  | mk (pre : List Range) (a : Range) (mid : List Range) (r : Range) (post : List Range)
      (adjacent : a.addr + a.size = r.addr) :
      Join (pre ++ a :: (mid ++ r :: post)) (pre ++ ⟨a.addr, a.size + r.size⟩ :: (mid ++ post))

theorem Join.perm {rs ss : List Range} (h : Join rs ss) : ∃ a r rest,
    a.addr + a.size = r.addr ∧ rs.Perm (a :: r :: rest) ∧
    ss.Perm (⟨a.addr, a.size + r.size⟩ :: rest) := by
  obtain ⟨pre, a, mid, r, post, hadj⟩ := h
  refine ⟨a, r, pre ++ (mid ++ post), hadj, ?_, List.perm_middle⟩
  refine List.perm_middle.trans (List.Perm.cons a ?_)
  exact (List.perm_middle.append_left pre).trans List.perm_middle

theorem Join.append {rs ss : List Range} (h : Join rs ss) (ts : List Range) :
    Join (rs ++ ts) (ss ++ ts) := by
  obtain ⟨pre, a, mid, r, post, hadj⟩ := h
  simpa using Join.mk pre a mid r (post ++ ts) hadj

theorem not_join_nil (rs : List Range) : ¬ Join [] rs := by
  intro h
  obtain ⟨a, r, rest, -, hp, -⟩ := h.perm
  exact absurd hp.length_eq (by simp)

section Join

variable {rs ss : List Range} {x : Word}

theorem join_lt {a r : Range} {rest : List Range} (hp : rs.Perm (a :: r :: rest))
    (hapart : rs.Pairwise Apart) (hx : x ∉ covered rs) : a.size.toNat + r.size.toNat < 2 ^ 64 := by
  have hsum := sum_size_lt hapart fun q hq hxq => hx ⟨q, hq, hxq⟩
  rw [(hp.map fun r => r.size.toNat).sum_eq] at hsum
  simp only [List.map_cons, List.sum_cons] at hsum
  omega

theorem Join.covered_eq (h : Join rs ss) (hapart : rs.Pairwise Apart) (hx : x ∉ covered rs) :
    covered ss = covered rs := by
  obtain ⟨a, r, rest, hadj, hrs, hss⟩ := h.perm
  rw [covered_perm hrs, covered_perm hss, covered_cons, covered_cons, covered_cons,
    ← Set.union_assoc]
  congr 1
  ext y
  exact mem_join hadj (join_lt hrs hapart hx) y

theorem Join.pairwise (h : Join rs ss) (hapart : rs.Pairwise Apart) (hx : x ∉ covered rs) :
    ss.Pairwise Apart := by
  obtain ⟨a, r, rest, hadj, hrs, hss⟩ := h.perm
  have hlt := join_lt hrs hapart hx
  rw [hrs.pairwise_iff fun h => Apart.symm h, List.pairwise_cons, List.pairwise_cons] at hapart
  rw [hss.pairwise_iff fun h => Apart.symm h, List.pairwise_cons]
  refine ⟨fun q hq y hy hyq => ?_, hapart.2.2⟩
  rcases (mem_join hadj hlt y).1 hy with hy | hy
  · exact hapart.1 q (by simp [hq]) y hy hyq
  · exact hapart.2.1 q hq y hy hyq

end Join

end Range

end UnnamedKernel.Lib
