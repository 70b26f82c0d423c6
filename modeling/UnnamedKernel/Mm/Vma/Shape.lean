import UnnamedKernel.Lib.DList
import UnnamedKernel.Mm.Vma.Model
import UnnamedKernel.Mm.Vma.Segments

/-!
# The node list behind a `VAddrAllocator`

`Shape a cells` ties the pointer structure reached from `head_` to a list of
cells, each a node pointer with the page range that node holds, and says that
the node pool hands out no node that is on the list. Every pointer operation
gets one lemma here: what it does to the cells.
-/

namespace UnnamedKernel.Mm.Vma

open UnnamedKernel.Lib UnnamedKernel.Kernel

/-- A node of the list with the page range it holds. -/
abbrev Cell := NodePtr × PageSeg

/-- The pages a node stands for. -/
def Node.seg (n : Node) : PageSeg := ⟨n.start.toNat, n.npages.toNat, n.isFree⟩

/-- The node pointers of the cells, in list order. -/
def ptrs (cells : List Cell) : List NodePtr := cells.map Prod.fst

/-- The page ranges of the cells, in list order. -/
def segs (cells : List Cell) : List PageSeg := cells.map Prod.snd

@[simp] theorem ptrs_nil : ptrs [] = [] := rfl

@[simp] theorem ptrs_cons (c : Cell) (cells : List Cell) :
    ptrs (c :: cells) = c.1 :: ptrs cells := rfl

@[simp] theorem ptrs_append (l r : List Cell) : ptrs (l ++ r) = ptrs l ++ ptrs r :=
  List.map_append

theorem mem_ptrs {cells : List Cell} {c : Cell} (hc : c ∈ cells) : c.1 ∈ ptrs cells :=
  List.mem_map_of_mem hc

@[simp] theorem segs_nil : segs [] = [] := rfl

@[simp] theorem segs_cons (c : Cell) (cells : List Cell) :
    segs (c :: cells) = c.2 :: segs cells := rfl

@[simp] theorem segs_append (l r : List Cell) : segs (l ++ r) = segs l ++ segs r :=
  List.map_append

variable {maxNodes : Nat}

/-- The static slots on the free stack and the nodes in use keep apart, and the
nodes in use know where they came from. -/
structure Pool (a : VAddrAllocator maxNodes) (live : List NodePtr) : Prop where
  nodup : a.freeStack.Nodup
  stack : ∀ i ∈ a.freeStack, i < maxNodes ∧ .slot i ∉ live
  slot : ∀ i, .slot i ∈ live → i < maxNodes ∧ (a.nodes (.slot i)).dynamic = false
  heap : ∀ k, .heap k ∈ live → k < a.newCount ∧ (a.nodes (.heap k)).dynamic = true

structure Shape (a : VAddrAllocator maxNodes) (cells : List Cell) : Prop where
  head : a.head = (ptrs cells).head?
  linked : Linked (fun p => (a.nodes p).next) (fun p => (a.nodes p).prev) none (ptrs cells) none
  seg : ∀ c ∈ cells, (a.nodes c.1).seg = c.2
  nodup : (ptrs cells).Nodup
  pool : Pool a (ptrs cells)

/-- The nodes a walk from `head_` visits. -/
inductive VAddrAllocator.OnList (a : VAddrAllocator maxNodes) : NodePtr → Prop
  | head {p : NodePtr} (h : a.head = some p) : OnList a p
  | next {p q : NodePtr} (hp : OnList a p) (h : (a.nodes p).next = some q) : OnList a q

/-- A node on the list is marked free and covers page `i`. -/
def VAddrAllocator.FreePage (a : VAddrAllocator maxNodes) (i : Nat) : Prop :=
  ∃ p, a.OnList p ∧ (a.nodes p).isFree = true ∧ (a.nodes p).seg.Covers i

/-- A node on the list is marked used and covers page `i`. -/
def VAddrAllocator.UsedPage (a : VAddrAllocator maxNodes) (i : Nat) : Prop :=
  ∃ p, a.OnList p ∧ (a.nodes p).isFree = false ∧ (a.nodes p).seg.Covers i

/-- No `new` between the two states answered null. -/
def NoNull (heap : HeapAnswers) (a a' : VAddrAllocator maxNodes) : Prop :=
  ∀ k, a.newCount ≤ k → k < a'.newCount → heap k = true

/-- What no list operation changes: the window, the lock, and the history of `new`. -/
structure SameWindow (a a' : VAddrAllocator maxNodes) : Prop where
  base : a'.base = a.base
  totalPages : a'.totalPages = a.totalPages
  locked : a'.locked = a.locked
  newCount : a.newCount ≤ a'.newCount

namespace SameWindow

theorem refl (a : VAddrAllocator maxNodes) : SameWindow a a := ⟨rfl, rfl, rfl, Nat.le_refl _⟩

theorem trans {a b c : VAddrAllocator maxNodes} (h : SameWindow a b) (h' : SameWindow b c) :
    SameWindow a c :=
  ⟨h'.base.trans h.base, h'.totalPages.trans h.totalPages, h'.locked.trans h.locked,
    h.newCount.trans h'.newCount⟩

end SameWindow

namespace NoNull

variable {heap : HeapAnswers}

theorem left {a b c : VAddrAllocator maxNodes} (h : NoNull heap a c) (hw : SameWindow b c) :
    NoNull heap a b := fun k hk hk' => h k hk (hk'.trans_le hw.newCount)

theorem right {a b c : VAddrAllocator maxNodes} (h : NoNull heap a c) (hw : SameWindow a b) :
    NoNull heap b c := fun k hk hk' => h k (hw.newCount.trans hk) hk'

theorem trans {a b c : VAddrAllocator maxNodes} (h : NoNull heap a b) (h' : NoNull heap b c) :
    NoNull heap a c := by
  intro k hk hk'
  rcases Nat.lt_or_ge k b.newCount with hlt | hge
  · exact h k hk hlt
  · exact h' k hge hk'

end NoNull

/-- Whether the `j`-th call of `allocate_node` from now on hands out a node. -/
def VAddrAllocator.grants (heap : HeapAnswers) (a : VAddrAllocator maxNodes) (j : Nat) : Bool :=
  if j < a.freeStack.length then true else heap (a.newCount + (j - a.freeStack.length))

/-- From `a` to `a'`, `allocate_node` was called once for each of the answers `bs`. -/
structure Drew (heap : HeapAnswers) (a a' : VAddrAllocator maxNodes) (bs : List Bool) : Prop where
  window : SameWindow a a'
  answers : ∀ j b, bs[j]? = some b → a.grants heap j = b
  later : ∀ j, a'.grants heap j = a.grants heap (bs.length + j)
  noNull : NoNull heap a a' ↔ ∀ b ∈ bs, b = true

namespace Drew

variable {heap : HeapAnswers} {a b c : VAddrAllocator maxNodes} {bs cs : List Bool}

theorem nil (heap : HeapAnswers) (hwin : SameWindow a b) (hstack : b.freeStack = a.freeStack)
    (hcount : b.newCount = a.newCount) : Drew heap a b [] := by
  refine ⟨hwin, by simp, fun j => ?_, ?_⟩
  · simp [VAddrAllocator.grants, hstack, hcount]
  · simp only [List.not_mem_nil, false_imp_iff, implies_true, iff_true]
    intro k hk hk'
    omega

theorem trans (h : Drew heap a b bs) (h' : Drew heap b c cs) : Drew heap a c (bs ++ cs) := by
  refine ⟨h.window.trans h'.window, fun j x hx => ?_, fun j => ?_, ?_⟩
  · rcases Nat.lt_or_ge j bs.length with hlt | hge
    · rw [List.getElem?_append_left hlt] at hx
      exact h.answers j x hx
    · rw [List.getElem?_append_right hge] at hx
      have := h'.answers _ x hx
      rwa [h.later, show bs.length + (j - bs.length) = j by omega] at this
  · rw [h'.later, h.later, List.length_append, Nat.add_assoc]
  · have hsplit : NoNull heap a c ↔ NoNull heap a b ∧ NoNull heap b c :=
      ⟨fun hno => ⟨hno.left h'.window, hno.right h.window⟩, fun hno => hno.1.trans hno.2⟩
    simp only [hsplit, h.noNull, h'.noNull, List.mem_append, or_imp, forall_and]

end Drew

namespace VAddrAllocator

/-! ## Field assignments -/

@[simp] theorem modify_nodes (a : VAddrAllocator maxNodes) (p : NodePtr) (f : Node → Node)
    (x : NodePtr) : (a.modify p f).nodes x = if x = p then f (a.nodes p) else a.nodes x := by
  simp [modify, Function.update_apply]

@[simp] theorem modify_head (a : VAddrAllocator maxNodes) (p : NodePtr) (f : Node → Node) :
    (a.modify p f).head = a.head := rfl

@[simp] theorem modify_freeStack (a : VAddrAllocator maxNodes) (p : NodePtr) (f : Node → Node) :
    (a.modify p f).freeStack = a.freeStack := rfl

@[simp] theorem modify_newCount (a : VAddrAllocator maxNodes) (p : NodePtr) (f : Node → Node) :
    (a.modify p f).newCount = a.newCount := rfl

theorem modify_window (a : VAddrAllocator maxNodes) (p : NodePtr) (f : Node → Node) :
    SameWindow a (a.modify p f) := ⟨rfl, rfl, rfl, Nat.le_refl _⟩

@[simp] theorem setPrev_nodes (a : VAddrAllocator maxNodes) (p : Option NodePtr) (q x : NodePtr) :
    (a.setPrev p q).nodes x =
      if p = some x then { a.nodes x with prev := some q } else a.nodes x := by
  cases p with
  | none => simp [setPrev]
  | some p =>
      simp only [setPrev, modify_nodes, Option.some.injEq, eq_comm (a := x)]
      split_ifs with h
      · rw [h]
      · rfl

@[simp] theorem setPrev_head (a : VAddrAllocator maxNodes) (p : Option NodePtr) (q : NodePtr) :
    (a.setPrev p q).head = a.head := by cases p <;> rfl

@[simp] theorem setPrev_freeStack (a : VAddrAllocator maxNodes) (p : Option NodePtr)
    (q : NodePtr) : (a.setPrev p q).freeStack = a.freeStack := by cases p <;> rfl

@[simp] theorem setPrev_newCount (a : VAddrAllocator maxNodes) (p : Option NodePtr)
    (q : NodePtr) : (a.setPrev p q).newCount = a.newCount := by cases p <;> rfl

theorem setPrev_window (a : VAddrAllocator maxNodes) (p : Option NodePtr) (q : NodePtr) :
    SameWindow a (a.setPrev p q) := by
  cases p with
  | none => exact .refl a
  | some p => exact modify_window a p fun n => { n with prev := some q }

theorem insertRight_window (a : VAddrAllocator maxNodes) (p q : NodePtr) (left : Word) :
    SameWindow a (a.insertRight p q left) := by
  unfold insertRight
  exact ((modify_window _ _ _).trans (setPrev_window _ _ _)).trans (modify_window _ _ _)

@[simp] theorem insertRight_newCount (a : VAddrAllocator maxNodes) (p q : NodePtr) (left : Word) :
    (a.insertRight p q left).newCount = a.newCount := by simp [insertRight]

@[simp] theorem insertRight_freeStack (a : VAddrAllocator maxNodes) (p q : NodePtr)
    (left : Word) : (a.insertRight p q left).freeStack = a.freeStack := by simp [insertRight]

@[simp] theorem insertRight_head (a : VAddrAllocator maxNodes) (p q : NodePtr) (left : Word) :
    (a.insertRight p q left).head = a.head := by simp [insertRight]

theorem insertRight_nodes_left (a : VAddrAllocator maxNodes) {p q : NodePtr} (left : Word)
    (hqp : q ≠ p) (hnext : (a.nodes p).next ≠ some p) :
    (a.insertRight p q left).nodes p = { a.nodes p with next := some q, npages := left } := by
  simp [insertRight, hnext, Ne.symm hqp]

theorem insertRight_nodes_right (a : VAddrAllocator maxNodes) {p q : NodePtr} (left : Word)
    (hqp : q ≠ p) (hnext : (a.nodes p).next ≠ some q) :
    (a.insertRight p q left).nodes q =
      { a.nodes q with
        valid := true, isFree := (a.nodes p).isFree, start := (a.nodes p).start + left,
        npages := (a.nodes p).npages - left, next := (a.nodes p).next, prev := some p } := by
  simp [insertRight, hnext, hqp]

theorem insertRight_nodes_other (a : VAddrAllocator maxNodes) {p q x : NodePtr} (left : Word)
    (hp : x ≠ p) (hq : x ≠ q) :
    (a.insertRight p q left).nodes x =
      if (a.nodes p).next = some x then { a.nodes x with prev := some q } else a.nodes x := by
  simp [insertRight, hp, hq]

theorem insertRight_dynamic (a : VAddrAllocator maxNodes) (p q : NodePtr) (left : Word)
    (x : NodePtr) : ((a.insertRight p q left).nodes x).dynamic = (a.nodes x).dynamic := by
  simp only [insertRight, modify_nodes, setPrev_nodes]
  grind

/-- The state after a `new` that answered null. -/
def afterNull (a : VAddrAllocator maxNodes) : VAddrAllocator maxNodes :=
  { a with newCount := a.newCount + 1 }

theorem afterNull_window (a : VAddrAllocator maxNodes) : SameWindow a a.afterNull :=
  ⟨rfl, rfl, rfl, Nat.le_succ _⟩

theorem afterNull_not_noNull {a : VAddrAllocator maxNodes} {heap : HeapAnswers}
    (hfail : heap a.newCount = false) : ¬ NoNull heap a a.afterNull := by
  intro h
  have := h a.newCount (Nat.le_refl _) (Nat.lt_succ_self _)
  simp [hfail] at this

theorem drew_one {a a' : VAddrAllocator maxNodes} {heap : HeapAnswers} {b : Bool}
    (hwin : SameWindow a a') (hanswer : a.grants heap 0 = b)
    (hlater : ∀ j, a'.grants heap j = a.grants heap (1 + j))
    (hno : NoNull heap a a' ↔ b = true) : Drew heap a a' [b] := by
  refine ⟨hwin, fun j x hx => ?_, hlater, by simpa using hno⟩
  obtain ⟨rfl, rfl⟩ : j = 0 ∧ b = x := by
    rcases j with _ | j
    · simpa using hx
    · simp at hx
  exact hanswer

theorem allocateNode_static {a : VAddrAllocator maxNodes} {idx : Nat} {rest : List Nat}
    (heap : HeapAnswers) (hs : a.freeStack = idx :: rest) :
    a.allocateNode heap = (some (.slot idx),
      { a.modify (.slot idx) (fun _ => { valid := true }) with freeStack := rest }) := by
  simp only [allocateNode, hs]

theorem allocateNode_heap {a : VAddrAllocator maxNodes} {heap : HeapAnswers}
    (hs : a.freeStack = []) (hnew : heap a.newCount = true) :
    a.allocateNode heap = (some (.heap a.newCount),
      { a.modify (.heap a.newCount) (fun _ => { valid := true, dynamic := true }) with
        newCount := a.newCount + 1 }) := by
  simp only [allocateNode, hs, if_pos hnew]

theorem allocateNode_null {a : VAddrAllocator maxNodes} {heap : HeapAnswers}
    (hs : a.freeStack = []) (hnew : ¬ heap a.newCount = true) :
    a.allocateNode heap = (none, a.afterNull) := by
  simp only [allocateNode, hs, if_neg hnew, afterNull]

end VAddrAllocator

namespace Pool

variable {a : VAddrAllocator maxNodes} {live : List NodePtr}

/-- The pool only looks at the free stack, the count of `new` calls and the `dynamic` flags. -/
theorem congr {a' : VAddrAllocator maxNodes} {live' : List NodePtr} (h : Pool a live)
    (hstack : a'.freeStack = a.freeStack) (hnew : a.newCount ≤ a'.newCount)
    (hsub : ∀ p ∈ live', p ∈ live)
    (hdyn : ∀ p ∈ live', (a'.nodes p).dynamic = (a.nodes p).dynamic) : Pool a' live' where
  nodup := hstack ▸ h.nodup
  stack i hi := by
    rw [hstack] at hi
    exact ⟨(h.stack i hi).1, fun hmem => (h.stack i hi).2 (hsub _ hmem)⟩
  slot i hi := ⟨(h.slot i (hsub _ hi)).1, (hdyn _ hi).trans (h.slot i (hsub _ hi)).2⟩
  heap k hk := ⟨(h.heap k (hsub _ hk)).1.trans_le hnew, (hdyn _ hk).trans (h.heap k (hsub _ hk)).2⟩

/-- `allocate_node` hands out a node that is not in use, or the heap said no. -/
theorem allocateNode_spec (h : Pool a live) (heap : HeapAnswers) :
    (∃ q a', a.allocateNode heap = (some q, a') ∧ q ∉ live ∧ Pool a' (q :: live) ∧
      (∀ x, x ≠ q → a'.nodes x = a.nodes x) ∧ a'.head = a.head ∧ Drew heap a a' [true]) ∨
    (a.allocateNode heap = (none, a.afterNull) ∧ Drew heap a a.afterNull [false]) := by
  cases hs : a.freeStack with
  | cons idx rest =>
      have hnodup := h.nodup
      rw [hs, List.nodup_cons] at hnodup
      obtain ⟨hidx, hfresh⟩ := h.stack idx (by simp [hs])
      have hres := VAddrAllocator.allocateNode_static heap hs
      refine Or.inl ⟨_, _, hres, hfresh, ?_, ?_, rfl, VAddrAllocator.drew_one
        ⟨rfl, rfl, rfl, Nat.le_refl _⟩ (by simp [VAddrAllocator.grants, hs]) (fun j => ?_)
        (iff_of_true (fun k hk hk' => absurd hk' (Nat.not_lt.2 hk)) rfl)⟩
      · refine ⟨hnodup.2, fun i hi => ?_, fun i hi => ?_, fun k hk => ?_⟩
        · have hne : i ≠ idx := fun he => hnodup.1 (he ▸ hi)
          refine ⟨(h.stack i (by simp [hs, hi])).1, ?_⟩
          simp [hne, (h.stack i (by simp [hs, hi])).2]
        · by_cases he : i = idx
          · simp [he, hidx]
          · have hmem : NodePtr.slot i ∈ live := by simpa [he] using hi
            simpa [he] using h.slot i hmem
        · simpa using h.heap k (by simpa using hk)
      · intro x hx
        simp [hx]
      · simp only [VAddrAllocator.grants, VAddrAllocator.modify_newCount, hs, List.length_cons]
        rw [show 1 + j - (rest.length + 1) = j - rest.length by omega]
        by_cases hj : j < rest.length
        · rw [if_pos hj, if_pos (by omega)]
        · rw [if_neg hj, if_neg (by omega)]
  | nil =>
      by_cases hnew : heap a.newCount = true
      · have hfresh : NodePtr.heap a.newCount ∉ live := fun hmem =>
          Nat.lt_irrefl _ (h.heap _ hmem).1
        have hres := VAddrAllocator.allocateNode_heap hs hnew
        refine Or.inl ⟨_, _, hres, hfresh, ?_, ?_, rfl, VAddrAllocator.drew_one
          ⟨rfl, rfl, rfl, Nat.le_succ _⟩ (by simp [VAddrAllocator.grants, hs, hnew]) (fun j => ?_)
          (iff_of_true (fun k hk hk' => ?_) rfl)⟩
        · refine ⟨by simp [hs], by simp [hs], fun i hi => ?_, fun k hk => ?_⟩
          · simpa using h.slot i (by simpa using hi)
          · by_cases he : k = a.newCount
            · simp [he]
            · have hmem : NodePtr.heap k ∈ live := by simpa [he] using hk
              obtain ⟨hk, hdyn⟩ := h.heap k hmem
              simp [he, hdyn]
              omega
        · intro x hx
          simp [hx]
        · simp [VAddrAllocator.grants, hs, Nat.add_assoc]
        · have hk' : k < a.newCount + 1 := hk'
          rwa [show k = a.newCount by omega]
      · have hfail : heap a.newCount = false := by simpa using hnew
        refine Or.inr ⟨VAddrAllocator.allocateNode_null hs hnew, VAddrAllocator.drew_one
          (VAddrAllocator.afterNull_window a) (by simp [VAddrAllocator.grants, hs, hfail])
          (fun j => ?_) (iff_of_false (VAddrAllocator.afterNull_not_noNull hfail) (by simp))⟩
        simp [VAddrAllocator.grants, VAddrAllocator.afterNull, hs, Nat.add_assoc]

/-- `free_node` takes back a node that is no longer on the list, without failing its `ASSERT`. -/
theorem freeNode_spec {q : NodePtr} (h : Pool a (q :: live)) (hq : q ∉ live) :
    ∃ a', a.freeNode q = some a' ∧ Pool a' live ∧ (∀ x, x ≠ q → a'.nodes x = a.nodes x) ∧
      a'.head = a.head ∧ SameWindow a a' ∧ a'.newCount = a.newCount := by
  cases q with
  | heap k =>
      obtain ⟨-, hdyn⟩ := h.heap k (by simp)
      have hres : a.freeNode (.heap k) = some (a.modify (.heap k) fun _ => {}) := by
        rw [VAddrAllocator.freeNode, if_pos hdyn]
      refine ⟨_, hres, ?_, fun x hx => by simp [hx], rfl, ⟨rfl, rfl, rfl, Nat.le_refl _⟩, rfl⟩
      refine h.congr rfl (Nat.le_refl _) (fun p hp => by simp [hp]) fun p hp => ?_
      have hne : p ≠ .heap k := fun he => hq (he ▸ hp)
      simp [hne]
  | slot idx =>
      obtain ⟨hidx, hdyn⟩ := h.slot idx (by simp)
      have hstack : idx ∉ a.freeStack := fun hmem => (h.stack idx hmem).2 (by simp)
      have hres : a.freeNode (.slot idx) = some { a.modify (.slot idx) (fun m =>
          { m with valid := false, isFree := false, next := none, prev := none }) with
            freeStack := idx :: a.freeStack } := by
        simp [VAddrAllocator.freeNode, hdyn, hidx]
      refine ⟨_, hres, ?_, fun x hx => by simp [hx], rfl, ⟨rfl, rfl, rfl, Nat.le_refl _⟩, rfl⟩
      have hne : ∀ p ∈ live, p ≠ .slot idx := fun p hp he => hq (he ▸ hp)
      refine ⟨List.nodup_cons.2 ⟨hstack, h.nodup⟩, fun i hi => ?_, fun i hi => ?_, fun k hk => ?_⟩
      · rcases List.mem_cons.1 hi with rfl | hi
        · exact ⟨hidx, hq⟩
        · exact ⟨(h.stack i hi).1, fun hmem => (h.stack i hi).2 (by simp [hmem])⟩
      · have := h.slot i (by simp [hi])
        simpa [hne _ hi] using this
      · have := h.heap k (by simp [hk])
        simpa [hne _ hk] using this

end Pool

namespace Shape

variable {a : VAddrAllocator maxNodes} {l r : List Cell} {p q : NodePtr} {s t : PageSeg}

private theorem not_mem_tail_of_head? {xs : List NodePtr} {x : NodePtr} (h : xs.Nodup)
    (hx : xs.head? = some x) : x ∉ xs.tail := by
  cases xs with
  | nil => simp at hx
  | cons y ys =>
      simp only [List.head?_cons, Option.some.injEq] at hx
      subst hx
      exact (List.nodup_cons.1 h).1

theorem at_node (h : Shape a (l ++ (p, s) :: r)) :
    (a.nodes p).seg = s ∧ (a.nodes p).next = (ptrs r).head? ∧
      (a.nodes p).prev = (ptrs l).getLast? := by
  have hlinked := h.linked
  simp only [ptrs_append, ptrs_cons, Linked.append, Linked.cons] at hlinked
  obtain ⟨-, hprev, hnext, -⟩ := hlinked
  exact ⟨h.seg (p, s) (by simp), by simpa using hnext, by simpa using hprev⟩

theorem start_eq (h : Shape a (l ++ (p, s) :: r)) :
    (a.nodes p).start = BitVec.ofNat 64 s.start := by
  rw [← h.at_node.1]
  simp [Node.seg]

theorem start_toNat (h : Shape a (l ++ (p, s) :: r)) : (a.nodes p).start.toNat = s.start := by
  rw [← h.at_node.1]
  rfl

theorem npages_toNat (h : Shape a (l ++ (p, s) :: r)) : (a.nodes p).npages.toNat = s.len := by
  rw [← h.at_node.1]
  rfl

theorem isFree_eq (h : Shape a (l ++ (p, s) :: r)) : (a.nodes p).isFree = s.tag := by
  rw [← h.at_node.1]
  rfl

theorem not_mem (h : Shape a (l ++ (p, s) :: r)) : p ∉ ptrs l ∧ p ∉ ptrs r := by
  have hnodup := h.nodup
  simp only [ptrs_append, ptrs_cons, List.nodup_append, List.nodup_cons] at hnodup
  obtain ⟨-, ⟨hr, -⟩, hdisj⟩ := hnodup
  exact ⟨fun hl => hdisj p hl p (by simp) rfl, hr⟩

theorem modify_isFree (h : Shape a (l ++ (p, s) :: r)) (b : Bool) :
    Shape (a.modify p fun n => { n with isFree := b }) (l ++ (p, { s with tag := b }) :: r) := by
  obtain ⟨hl, hr⟩ := h.not_mem
  have hptrs : ptrs (l ++ (p, { s with tag := b }) :: r) = ptrs (l ++ (p, s) :: r) := by simp
  have hlinks : ∀ x,
      ((a.modify p fun n => { n with isFree := b }).nodes x).next = (a.nodes x).next ∧
      ((a.modify p fun n => { n with isFree := b }).nodes x).prev = (a.nodes x).prev := by
    intro x
    by_cases hx : x = p <;> simp [hx]
  refine ⟨hptrs ▸ h.head, hptrs ▸ h.linked.congr fun x _ => hlinks x, ?_, hptrs ▸ h.nodup,
    hptrs ▸ h.pool.congr rfl (Nat.le_refl _) (fun x hx => hx) fun x _ => ?_⟩
  · intro c hc
    rcases List.mem_append.1 hc with hc | hc
    · have hne : c.1 ≠ p := fun he => hl (he ▸ mem_ptrs hc)
      simpa [hne] using h.seg c (by simp [hc])
    · rcases List.mem_cons.1 hc with rfl | hc
      · have hs := h.at_node.1
        simp [Node.seg, ← hs]
      · have hne : c.1 ≠ p := fun he => hr (he ▸ mem_ptrs hc)
        simpa [hne] using h.seg c (by simp [hc])
  · by_cases hx : x = p <;> simp [hx]

/-- Rewriting the middle of the list: the nodes before it are untouched, and the
nodes after it only learn a new predecessor. -/
theorem splice {a' : VAddrAllocator maxNodes} (mid mid' : List Cell) {s' : PageSeg}
    (h : Shape a (l ++ ((p, s) :: mid ++ r))) (hhead : a'.head = a.head)
    (hl : ∀ x ∈ ptrs l, a'.nodes x = a.nodes x)
    (hr : ∀ x ∈ ptrs r, (a'.nodes x).seg = (a.nodes x).seg ∧
      (a'.nodes x).next = (a.nodes x).next)
    (hfirst : ∀ x, (ptrs r).head? = some x →
      (a'.nodes x).prev = (ptrs ((p, s') :: mid')).getLast?)
    (htail : ∀ x ∈ (ptrs r).tail, (a'.nodes x).prev = (a.nodes x).prev)
    (hmid : Linked (fun x => (a'.nodes x).next) (fun x => (a'.nodes x).prev)
      (ptrs l).getLast? (ptrs ((p, s') :: mid')) (ptrs r).head?)
    (hseg : ∀ c ∈ (p, s') :: mid', (a'.nodes c.1).seg = c.2)
    (hnodup : (ptrs (l ++ ((p, s') :: mid' ++ r))).Nodup)
    (hpool : Pool a' (ptrs (l ++ ((p, s') :: mid' ++ r)))) :
    Shape a' (l ++ ((p, s') :: mid' ++ r)) := by
  have hlinked := h.linked
  simp only [ptrs_append, Linked.append, List.head?_append] at hlinked
  obtain ⟨hold, -, hrest⟩ := hlinked
  refine ⟨?_, ?_, ?_, hnodup, hpool⟩
  · rw [hhead, h.head]
    cases l <;> simp
  · simp only [ptrs_append, Linked.append, List.head?_append]
    refine ⟨?_, ?_, ?_⟩
    · exact (by simpa using hold : Linked _ _ _ _ _).congr fun x hx => by simp [hl x hx]
    · simpa using hmid
    · refine hrest.enter (fun x hx => (hr x hx).2) (fun x hx => ?_) htail
      rw [hfirst x hx]
      simp [List.getLast?_cons]
  · intro c hc
    rcases List.mem_append.1 hc with hc | hc
    · rw [hl c.1 (mem_ptrs hc), h.seg c (by simp [hc])]
    · rcases List.mem_append.1 hc with hc | hc
      · exact hseg c hc
      · rw [(hr c.1 (mem_ptrs hc)).1, h.seg c (by simp [hc])]

/-- A node `q` that is not on the list, linked in behind `p`, whatever page ranges the two then
hold. -/
theorem insertRight_shape {a₁ : VAddrAllocator maxNodes} (h : Shape a (l ++ (p, s) :: r))
    (hfresh : q ∉ ptrs (l ++ (p, s) :: r)) (hpool : Pool a₁ (q :: ptrs (l ++ (p, s) :: r)))
    (hsame : ∀ x, x ≠ q → a₁.nodes x = a.nodes x) (hhead : a₁.head = a.head) (left : Word) :
    (a₁.insertRight p q left).nodes p = { a.nodes p with next := some q, npages := left } ∧
    (a₁.insertRight p q left).nodes q =
      { a₁.nodes q with
        valid := true, isFree := (a.nodes p).isFree, start := (a.nodes p).start + left,
        npages := (a.nodes p).npages - left, next := (a.nodes p).next, prev := some p } ∧
    Shape (a₁.insertRight p q left) (l ++ (p, ((a₁.insertRight p q left).nodes p).seg) ::
      (q, ((a₁.insertRight p q left).nodes q).seg) :: r) := by
  obtain ⟨-, hnext, hprev⟩ := h.at_node
  obtain ⟨hl, hr⟩ := h.not_mem
  have hqp : q ≠ p := fun he => hfresh (by simp [he])
  have hql : q ∉ ptrs l := fun hm => hfresh (by simp [hm])
  have hqr : q ∉ ptrs r := fun hm => hfresh (by simp [hm])
  have hpnode : a₁.nodes p = a.nodes p := hsame p (Ne.symm hqp)
  have hpp : (a₁.nodes p).next ≠ some p := by
    rw [hpnode, hnext]
    exact fun he => hr (List.mem_of_mem_head? he)
  have hpq : (a₁.nodes p).next ≠ some q := by
    rw [hpnode, hnext]
    exact fun he => hqr (List.mem_of_mem_head? he)
  have hleft := VAddrAllocator.insertRight_nodes_left a₁ left hqp hpp
  have hright := VAddrAllocator.insertRight_nodes_right a₁ left hqp hpq
  have hother : ∀ x ∈ ptrs l ++ ptrs r, (a₁.insertRight p q left).nodes x =
      if (ptrs r).head? = some x then { a.nodes x with prev := some q } else a.nodes x := by
    intro x hx
    have hxp : x ≠ p := by rintro rfl; simp [hl, hr] at hx
    have hxq : x ≠ q := by rintro rfl; simp [hql, hqr] at hx
    rw [VAddrAllocator.insertRight_nodes_other a₁ left hxp hxq, hpnode, hnext, hsame x hxq]
  rw [hpnode] at hleft hright
  have hnodup := h.nodup
  have hdisj : ∀ x ∈ ptrs l, (ptrs r).head? ≠ some x := by
    intro x hx he
    simp only [ptrs_append, ptrs_cons, List.nodup_append] at hnodup
    exact hnodup.2.2 x hx x (by simp [List.mem_of_mem_head? he]) rfl
  refine ⟨hleft, hright, Shape.splice [] [(q, _)] h (by simpa using hhead) ?_ ?_ ?_ ?_ ?_ ?_ ?_ ?_⟩
  · intro x hx
    rw [hother x (by simp [hx]), if_neg (hdisj x hx)]
  · intro x hx
    rw [hother x (by simp [hx])]
    split_ifs <;> exact ⟨rfl, rfl⟩
  · intro x hx
    rw [hother x (by simp [List.mem_of_mem_head? hx]), if_pos hx]
    simp
  · intro x hx
    have hxr := List.mem_of_mem_tail hx
    have hnh : (ptrs r).head? ≠ some x := by
      intro he
      simp only [ptrs_append, ptrs_cons, List.nodup_append, List.nodup_cons] at hnodup
      exact not_mem_tail_of_head? hnodup.2.1.2 he hx
    rw [hother x (by simp [hxr]), if_neg hnh]
  · simp [hleft, hright, hnext, hprev]
  · intro c hc
    simp only [List.mem_cons, List.not_mem_nil, or_false] at hc
    rcases hc with rfl | rfl <;> rfl
  · simp only [ptrs_append, ptrs_cons, ptrs_nil, List.nodup_append, List.nodup_cons] at hnodup ⊢
    grind
  · refine hpool.congr (by simp) (by simp) ?_ ?_
    · intro x hx
      simp only [ptrs_append, ptrs_cons, ptrs_nil, List.mem_append, List.mem_cons] at hx ⊢
      tauto
    · intro x _
      exact VAddrAllocator.insertRight_dynamic _ _ _ _ _

/-- `split_node_left` cuts a node in two, or leaves the list alone because no
node could be allocated. -/
theorem splitNodeLeft_spec (h : Shape a (l ++ (p, s) :: r)) (heap : HeapAnswers) {left : Word}
    (hpos : 0 < left.toNat) (hlt : left.toNat < s.len) (hstop : s.stop < 2 ^ 64) :
    (∃ q a', a.splitNodeLeft heap p left = (q, a') ∧ q ≠ p ∧
      Shape a' (l ++ (p, ⟨s.start, left.toNat, s.tag⟩) ::
        (q, ⟨s.start + left.toNat, s.len - left.toNat, s.tag⟩) :: r) ∧
      Drew heap a a' [true]) ∨
    (a.splitNodeLeft heap p left = (p, a.afterNull) ∧ Drew heap a a.afterNull [false]) := by
  have hne0 : left ≠ 0 := by rintro rfl; simp at hpos
  have hlen : ¬ (a.nodes p).npages ≤ left := by
    rw [BitVec.le_def]
    have := h.npages_toNat
    omega
  rcases h.pool.allocateNode_spec heap with
    ⟨q, a₁, halloc, hfresh, hpool, hsame, hhead, hdrew⟩ | ⟨halloc, hfail⟩
  swap
  · right
    exact ⟨by simp only [VAddrAllocator.splitNodeLeft, if_neg hne0, if_neg hlen, halloc], hfail⟩
  left
  have hqp : q ≠ p := fun he => hfresh (by simp [he])
  have hres : a.splitNodeLeft heap p left = (q, a₁.insertRight p q left) := by
    simp only [VAddrAllocator.splitNodeLeft, if_neg hne0, if_neg hlen, halloc]
  have hdrew' := hdrew.trans (Drew.nil heap (VAddrAllocator.insertRight_window a₁ p q left)
    (by simp) (by simp))
  obtain ⟨hleft, hright, hshape⟩ := h.insertRight_shape hfresh hpool hsame hhead left
  have hpos' := h.start_toNat
  have hlen' := h.npages_toNat
  have htag := h.isFree_eq
  unfold Seg.stop at hstop
  have hseg : ((a₁.insertRight p q left).nodes p).seg = ⟨s.start, left.toNat, s.tag⟩ := by
    simp [hleft, Node.seg, hpos', htag]
  have hqseg : ((a₁.insertRight p q left).nodes q).seg =
      ⟨s.start + left.toNat, s.len - left.toNat, s.tag⟩ := by
    simp only [hright, Node.seg, Seg.mk.injEq]
    refine ⟨by rw [BitVec.toNat_add, hpos', Nat.mod_eq_of_lt (by omega)], ?_, htag⟩
    rw [← hlen']
    bv_omega
  rw [hseg, hqseg] at hshape
  exact ⟨q, _, hres, hqp, hshape, hdrew'⟩

theorem mergeInto_shape (h : Shape a (l ++ (p, s) :: (q, t) :: r)) :
    ∃ a', a.mergeInto p q = some a' ∧
      a'.nodes p =
        { a.nodes p with npages := (a.nodes p).npages + (a.nodes q).npages,
                         next := (ptrs r).head? } ∧
      Shape a' (l ++ (p, (a'.nodes p).seg) :: r) ∧ SameWindow a a' ∧
      a'.newCount = a.newCount := by
  have hprev := h.at_node.2.2
  have hq : Shape a ((l ++ [(p, s)]) ++ (q, t) :: r) := by simpa using h
  have hqnext := hq.at_node.2.1
  have hnodup := h.nodup
  simp only [ptrs_append, ptrs_cons, List.nodup_append, List.nodup_cons, List.mem_cons] at hnodup
  obtain ⟨hlnd, ⟨hpr, hqr, hrnd⟩, hdisj⟩ := hnodup
  -- the list without `q`, after both assignments and before `free_node`
  let a₁ := (a.modify p fun m =>
    { m with npages := m.npages + (a.nodes q).npages, next := (a.nodes q).next }).setPrev
      (a.nodes q).next p
  have hpool : Pool a₁ (q :: ptrs (l ++ (p, s) :: r)) := by
    refine h.pool.congr (by simp [a₁]) (by simp [a₁]) ?_ ?_
    · intro x hx
      simp only [ptrs_append, ptrs_cons, List.mem_append, List.mem_cons] at hx ⊢
      tauto
    · intro x _
      simp only [a₁, VAddrAllocator.modify_nodes, VAddrAllocator.setPrev_nodes]
      grind
  have hqfresh : q ∉ ptrs (l ++ (p, s) :: r) := by
    simp only [ptrs_append, ptrs_cons, List.mem_append, List.mem_cons]
    grind
  obtain ⟨a', hfree, hpool', hsame, hhead, hwin, hcount⟩ := hpool.freeNode_spec hqfresh
  have hwin₁ : SameWindow a a₁ :=
    (VAddrAllocator.modify_window _ _ _).trans (VAddrAllocator.setPrev_window _ _ _)
  have hpq : p ≠ q := fun he => hpr (Or.inl he)
  have hpnode : a'.nodes p =
      { a.nodes p with npages := (a.nodes p).npages + (a.nodes q).npages,
                       next := (ptrs r).head? } := by
    have hph : (ptrs r).head? ≠ some p := fun he => hpr (Or.inr (List.mem_of_mem_head? he))
    rw [hsame p hpq]
    simp [a₁, hqnext, hph]
  have hother : ∀ x ∈ ptrs l ++ ptrs r, a'.nodes x =
      if (ptrs r).head? = some x then { a.nodes x with prev := some p } else a.nodes x := by
    intro x hx
    have hxp : x ≠ p := by rintro rfl; grind
    have hxq : x ≠ q := by rintro rfl; grind
    rw [hsame x hxq]
    simp [a₁, hqnext, hxp]
  have hxl : ∀ x ∈ ptrs l, (ptrs r).head? ≠ some x := fun x hx he =>
    hdisj x hx x (Or.inr (Or.inr (List.mem_of_mem_head? he))) rfl
  refine ⟨a', hfree, hpnode, ?_, hwin₁.trans hwin, hcount.trans (by simp [a₁])⟩
  refine Shape.splice [(q, t)] [] h (by simpa [a₁] using hhead) ?_ ?_ ?_ ?_ ?_ ?_ ?_ ?_
  · intro x hx
    rw [hother x (by simp [hx]), if_neg (hxl x hx)]
  · intro x hx
    rw [hother x (by simp [hx])]
    split_ifs <;> exact ⟨rfl, rfl⟩
  · intro x hx
    rw [hother x (by simp [List.mem_of_mem_head? hx]), if_pos hx]
    simp
  · intro x hx
    rw [hother x (by simp [List.mem_of_mem_tail hx]),
      if_neg fun he => not_mem_tail_of_head? hrnd he hx]
  · simp [hpnode, hprev]
  · intro c hc
    simp only [List.mem_cons, List.not_mem_nil, or_false] at hc
    subst hc
    rfl
  · simp only [ptrs_append, ptrs_cons, ptrs_nil, List.nodup_append, List.nodup_cons]
    grind
  · simpa using hpool'

theorem mergeInto_spec (h : Shape a (l ++ (p, s) :: (q, t) :: r))
    (hlen : s.len + t.len < 2 ^ 64) :
    ∃ a', a.mergeInto p q = some a' ∧
      Shape a' (l ++ (p, ⟨s.start, s.len + t.len, s.tag⟩) :: r) ∧ SameWindow a a' ∧
      a'.newCount = a.newCount := by
  have hq : Shape a ((l ++ [(p, s)]) ++ (q, t) :: r) := by simpa using h
  obtain ⟨a', hres, hpnode, hshape, hwin, hcount⟩ := h.mergeInto_shape
  have hstart := h.start_toNat
  have hplen := h.npages_toNat
  have hqlen := hq.npages_toNat
  have hseg : (a'.nodes p).seg = ⟨s.start, s.len + t.len, s.tag⟩ := by
    simp only [hpnode, Node.seg, Seg.mk.injEq]
    exact ⟨hstart, by bv_omega, h.isFree_eq⟩
  rw [hseg] at hshape
  exact ⟨a', hres, hshape, hwin, hcount⟩

/-- The nodes that `head_` and `next` reach are the nodes of the cells. -/
theorem onList_iff {cells : List Cell} (h : Shape a cells) : a.OnList p ↔ p ∈ ptrs cells := by
  constructor
  · intro hp
    induction hp with
    | head hhead =>
        rw [h.head] at hhead
        exact List.mem_of_mem_head? hhead
    | next _ hnext ih =>
        obtain ⟨⟨x, t⟩, hc, rfl⟩ := List.mem_map.1 ih
        obtain ⟨l, r, rfl⟩ := List.append_of_mem hc
        rw [h.at_node.2.1] at hnext
        simp [List.mem_of_mem_head? hnext]
  · have suffix : ∀ (r l : List Cell), cells = l ++ r →
        (∀ q, (ptrs r).head? = some q → a.OnList q) → ∀ q ∈ ptrs r, a.OnList q := by
      intro r
      induction r with
      | nil => simp
      | cons c r ih =>
          obtain ⟨x, t⟩ := c
          intro l hcells hfirst q hq
          have hx : a.OnList x := hfirst x rfl
          rcases List.mem_cons.1 hq with rfl | hq
          · exact hx
          · refine ih (l ++ [(x, t)]) (by simp [hcells]) (fun y hy => .next hx ?_) q hq
            subst hcells
            rw [h.at_node.2.1, hy]
    exact suffix cells [] rfl (fun q hq => .head (h.head.trans hq)) p

theorem marked_iff {cells : List Cell} (h : Shape a cells) (i : Nat) (b : Bool) :
    (∃ p, a.OnList p ∧ (a.nodes p).isFree = b ∧ (a.nodes p).seg.Covers i) ↔
      Tagged (segs cells) i b := by
  constructor
  · rintro ⟨p, hp, htag, hcov⟩
    obtain ⟨c, hc, rfl⟩ := List.mem_map.1 (h.onList_iff.1 hp)
    have hseg := h.seg c hc
    exact ⟨c.2, List.mem_map_of_mem hc, hseg ▸ hcov, hseg ▸ htag⟩
  · rintro ⟨t, ht, hcov, htag⟩
    obtain ⟨c, hc, rfl⟩ := List.mem_map.1 ht
    have hseg := h.seg c hc
    refine ⟨c.1, h.onList_iff.2 (mem_ptrs hc), ?_, hseg ▸ hcov⟩
    rw [← hseg] at htag
    exact htag

end Shape

end UnnamedKernel.Mm.Vma
