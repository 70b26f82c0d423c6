import UnnamedKernel.Lib.Outcome
import UnnamedKernel.Mm.Vma.Guarded

/-!
# `lock_` along a call

If `new` and `delete` do not come back to the lock, then neither do `alloc_pages` and `free`,
and they release it at each of their exits.
-/

namespace UnnamedKernel.Mm.Vma

open UnnamedKernel.Lib UnnamedKernel.Kernel

variable {maxNodes : Nat} {σ α : Type}

/-- The lock was taken twice, or the calls were not followed to their ends. -/
def Reentry (e : Stop) : Prop := e = .relocked ∨ e = .tooDeep

instance (e : Stop) : Decidable (Reentry e) := inferInstanceAs (Decidable (_ ∨ _))

/-- The flag of `lock_` is `b`, and `P` holds of the base of the window and the rest. -/
def LockIs (P : Word → σ → Prop) (b : Bool) (s : Guarded maxNodes σ) : Prop :=
  s.allocator.locked = b ∧ P s.allocator.base s.rest

/-- `new` and `delete` leave the lock as it is, and do not try to take it when it is held. -/
structure Quiet (P : Word → σ → Prop) (heap : NodeHeap maxNodes σ) : Prop where
  new : ∀ b s, LockIs P b s → Ends Reentry (fun x => LockIs P b x.2) (heap.new s)
  delete : ∀ b p s, LockIs P b s → Ends Reentry (LockIs P b) (heap.delete p s)

namespace Guarded

variable {P : Word → σ → Prop} {b : Bool} {heap : NodeHeap maxNodes σ} {s : Guarded maxNodes σ}

theorem node_ends (s : Guarded maxNodes σ) (p : NodePtr) :
    Ends Reentry (fun _ => True) (s.node p) := by
  unfold node
  split_ifs
  · exact .ok trivial
  · exact .error (by simp [Reentry])

theorem modify_ends (h : LockIs P b s) (p : NodePtr) (f : Node → Node) :
    Ends Reentry (LockIs P b) (s.modify p f) := by
  unfold modify
  split_ifs
  · exact .ok h
  · exact .error (by simp [Reentry])

theorem setPrev_ends (h : LockIs P b s) (p : Option NodePtr) (q : NodePtr) :
    Ends Reentry (LockIs P b) (s.setPrev p q) := by
  cases p with
  | none => exact .ok h
  | some p => exact modify_ends h p _

theorem insertRight_ends (h : LockIs P b s) (orig right : NodePtr) (left : Word) :
    Ends Reentry (LockIs P b) (s.insertRight orig right left) := by
  refine (node_ends s orig).bind fun o _ => ?_
  refine (modify_ends h right _).bind fun s₁ h₁ => ?_
  refine (setPrev_ends h₁ _ right).bind fun s₂ h₂ => ?_
  exact modify_ends h₂ orig _

theorem allocateNode_ends (hheap : Quiet P heap) (h : LockIs P b s) :
    Ends Reentry (fun x => LockIs P b x.2) (s.allocateNode heap) := by
  unfold allocateNode
  split
  · exact .ok h
  · refine (hheap.new b s h).bind fun ⟨answer, s₁⟩ h₁ => ?_
    simp only
    split_ifs
    · exact .ok h₁
    · exact .ok h₁

theorem freeNode_ends (hheap : Quiet P heap) (h : LockIs P b s) (n : NodePtr) :
    Ends Reentry (LockIs P b) (s.freeNode heap n) := by
  refine (node_ends s n).bind fun node _ => ?_
  split_ifs
  · exact (hheap.delete b n s h).bind fun s₁ h₁ => .ok h₁
  · cases n with
    | heap k => exact .error (by decide)
    | slot idx =>
        simp only
        split_ifs
        · exact .ok h
        · exact .error (by decide)

theorem splitNodeLeft_ends (hheap : Quiet P heap) (h : LockIs P b s) (orig : NodePtr)
    (left : Word) : Ends Reentry (fun x => LockIs P b x.2) (s.splitNodeLeft heap orig left) := by
  unfold splitNodeLeft
  split_ifs
  · exact .ok h
  refine (node_ends s orig).bind fun o _ => ?_
  split_ifs
  · exact .ok h
  refine (allocateNode_ends hheap h).bind fun ⟨right, s₁⟩ h₁ => ?_
  cases right with
  | none => exact .ok h₁
  | some right => exact (insertRight_ends h₁ orig right left).bind fun s₂ h₂ => .ok h₂

theorem mergeInto_ends (hheap : Quiet P heap) (h : LockIs P b s) (p n : NodePtr) :
    Ends Reentry (LockIs P b) (s.mergeInto heap p n) := by
  refine (node_ends s n).bind fun nx _ => ?_
  refine (modify_ends h p _).bind fun s₁ h₁ => ?_
  refine (setPrev_ends h₁ _ p).bind fun s₂ h₂ => ?_
  exact freeNode_ends hheap h₂ n

theorem mergeWithPrev_ends (hheap : Quiet P heap) (h : LockIs P b s) (n : NodePtr) :
    Ends Reentry (fun x => LockIs P b x.2) (s.mergeWithPrev heap n) := by
  refine (node_ends s n).bind fun node _ => ?_
  cases node.prev with
  | none => exact .ok h
  | some p =>
      refine (node_ends s p).bind fun prev _ => ?_
      split_ifs
      · exact (mergeInto_ends hheap h p n).bind fun s₁ h₁ => .ok h₁
      · exact .ok h

theorem mergeWithNext_ends (hheap : Quiet P heap) (h : LockIs P b s) (n : NodePtr) :
    Ends Reentry (LockIs P b) (s.mergeWithNext heap n) := by
  refine (node_ends s n).bind fun node _ => ?_
  cases node.next with
  | none => exact .ok h
  | some nx =>
      refine (node_ends s nx).bind fun next _ => ?_
      split_ifs
      · exact mergeInto_ends hheap h n nx
      · exact .ok h

theorem coalesce_ends (hheap : Quiet P heap) (h : LockIs P b s) (n : NodePtr) :
    Ends Reentry (LockIs P b) (s.coalesce heap n) :=
  (mergeWithPrev_ends hheap h n).bind fun x h₁ => mergeWithNext_ends hheap h₁ x.1

/-- `init` runs before anyone can hold the lock. -/
theorem init_ends (hheap : Quiet P heap) {base : Word} {rest : σ} (hrest : P base rest)
    (size : Word) : Ends Reentry (LockIs P false) (init heap base size rest) := by
  refine (allocateNode_ends hheap ⟨rfl, hrest⟩).bind fun ⟨n, s₁⟩ h₁ => ?_
  cases n with
  | none => exact .error (by decide)
  | some n => exact (modify_ends h₁ n _).bind fun s₂ h₂ => .ok h₂

/-! ## `alloc_pages` -/

/-- A page was handed out and the lock released, or the walk goes on under the lock. -/
def Attempted (P : Word → σ → Prop) (r : Option Word) (s : Guarded maxNodes σ) : Prop :=
  match r with
  | none => LockIs P true s
  | some vaddr => LockIs P false s ∧ ∃ page, vaddr = s.allocator.vaddrFromPage page

/-- The lock is released, and an address handed out is one of a page. -/
def Returned (P : Word → σ → Prop) (r : Option Word) (s : Guarded maxNodes σ) : Prop :=
  LockIs P false s ∧ ∀ vaddr, r = some vaddr → ∃ page, vaddr = s.allocator.vaddrFromPage page

theorem handOut_ends (h : LockIs P true s) (cur : NodePtr) :
    Ends Reentry (fun x => Attempted P x.1 x.2) (s.handOut cur) := by
  refine (modify_ends h cur _).bind fun s₁ h₁ => ?_
  exact (node_ends s₁ cur).bind fun c _ => .ok ⟨⟨rfl, h₁.2⟩, c.start, rfl⟩

theorem takeNode_ends (hheap : Quiet P heap) (h : LockIs P true s) (cur : NodePtr)
    (npages : Word) :
    Ends Reentry (fun x => Attempted P x.1 x.2) (s.takeNode heap cur npages) := by
  refine (node_ends s cur).bind fun c _ => ?_
  split_ifs
  · refine (splitNodeLeft_ends hheap h cur npages).bind fun ⟨right, s₁⟩ h₁ => ?_
    simp only
    split_ifs
    · exact .ok h₁
    · exact handOut_ends h₁ cur
  · exact handOut_ends h cur

theorem tryNode_ends (hheap : Quiet P heap) (h : LockIs P true s) (cur : NodePtr)
    (padding npages : Word) :
    Ends Reentry (fun x => Attempted P x.1 x.2.2) (s.tryNode heap cur padding npages) := by
  unfold tryNode
  split_ifs
  · refine (splitNodeLeft_ends hheap h cur padding).bind fun ⟨right, s₁⟩ h₁ => ?_
    simp only
    split_ifs
    · exact .ok h₁
    · exact (takeNode_ends hheap h₁ right npages).bind fun x h₂ => .ok h₂
  · exact (takeNode_ends hheap h cur npages).bind fun x h₁ => .ok h₁

theorem allocLoop_ends (hheap : Quiet P heap) (npages alignPages : Word) (fuel : Nat)
    (cur : Option NodePtr) {s : Guarded maxNodes σ} (h : LockIs P true s) :
    Ends Reentry (fun x => Returned P x.1 x.2) (allocLoop heap npages alignPages fuel cur s) := by
  induction fuel generalizing cur s with
  | zero => exact .error (by decide)
  | succ fuel ih =>
      cases cur with
      | none => exact .ok ⟨⟨rfl, h.2⟩, by simp⟩
      | some cur =>
          refine (node_ends s cur).bind fun c _ => ?_
          split_ifs
          · simp only
            split_ifs
            · refine (tryNode_ends hheap h cur _ npages).bind fun ⟨r, cur', s₁⟩ h₁ => ?_
              cases r with
              | none => exact (node_ends s₁ cur').bind fun c' _ => ih c'.next h₁
              | some vaddr =>
                  refine .ok ⟨h₁.1, fun v hv => ?_⟩
                  obtain rfl : vaddr = v := Option.some.inj hv
                  exact h₁.2
            · exact ih c.next h
          · exact ih c.next h

theorem allocPages_ends (hheap : Quiet P heap) (h : LockIs P false s) (npages alignPages : Word) :
    Ends Reentry (fun x => Returned P x.1 x.2) (s.allocPages heap npages alignPages) := by
  unfold allocPages
  split_ifs
  · exact .ok ⟨h, by simp⟩
  · have hlock : s.lock = .ok { s with allocator := { s.allocator with locked := true } } :=
      if_neg (by simp [h.1])
    rw [hlock]
    exact allocLoop_ends hheap npages alignPages walkLimit _ ⟨rfl, h.2⟩
  · exact .error (by decide)

/-! ## `free` -/

theorem release_ends (hheap : Quiet P heap) (h : LockIs P true s) (n : NodePtr) :
    Ends Reentry (fun x => LockIs P false x.2) (s.release heap n) := by
  refine (modify_ends h n _).bind fun s₁ h₁ => ?_
  exact (coalesce_ends hheap h₁ n).bind fun s₂ h₂ => .ok ⟨rfl, h₂.2⟩

theorem cutRight_ends (hheap : Quiet P heap) (h : LockIs P true s) (working : NodePtr)
    (right : Word) :
    Ends Reentry (fun x => LockIs P true x.2) (s.cutRight heap working right) := by
  unfold cutRight
  split_ifs
  · refine (node_ends s working).bind fun w _ => ?_
    exact (splitNodeLeft_ends hheap h working _).bind fun x h₁ => .ok h₁
  · exact .ok h

theorem cutLeft_ends (hheap : Quiet P heap) (h : LockIs P true s) (working : NodePtr)
    (left : Word) :
    Ends Reentry (fun x => LockIs P true x.2) (s.cutLeft heap working left) := by
  unfold cutLeft
  split_ifs
  · exact (splitNodeLeft_ends hheap h working left).bind fun x h₁ => .ok h₁
  · exact .ok h

theorem freePortion_ends (hheap : Quiet P heap) (h : LockIs P true s) (cur : NodePtr)
    (page npages : Word) :
    Ends Reentry (fun x => LockIs P false x.2) (s.freePortion heap cur page npages) := by
  refine (node_ends s cur).bind fun c _ => ?_
  split_ifs
  · exact .ok ⟨rfl, h.2⟩
  refine (cutRight_ends hheap h cur _).bind fun ⟨cut, s₁⟩ h₁ => ?_
  cases cut with
  | false => exact .ok ⟨rfl, h₁.2⟩
  | true =>
      refine (cutLeft_ends hheap h₁ cur _).bind fun ⟨working, s₂⟩ h₂ => ?_
      cases working with
      | none => exact .ok ⟨rfl, h₂.2⟩
      | some working =>
          refine (node_ends s₂ working).bind fun w _ => ?_
          split_ifs
          · exact release_ends hheap h₂ working
          · exact .error (by decide)

theorem freeLoop_ends (hheap : Quiet P heap) (page npages : Word) (fuel : Nat)
    (cur : Option NodePtr) {s : Guarded maxNodes σ} (h : LockIs P true s) :
    Ends Reentry (fun x => LockIs P false x.2) (freeLoop heap page npages fuel cur s) := by
  induction fuel generalizing cur with
  | zero => exact .error (by decide)
  | succ fuel ih =>
      cases cur with
      | none => exact .ok ⟨rfl, h.2⟩
      | some cur =>
          refine (node_ends s cur).bind fun c _ => ?_
          split_ifs
          · exact release_ends hheap h cur
          · exact freePortion_ends hheap h cur page npages
          · exact ih c.next

theorem free_ends (hheap : Quiet P heap) (h : LockIs P false s) (vaddr npages : Word) :
    Ends Reentry (fun x => LockIs P false x.2) (s.free heap vaddr npages) := by
  unfold free
  split_ifs
  · exact .ok h
  · simp only
    split_ifs
    · exact .ok h
    · have hlock : s.lock = .ok { s with allocator := { s.allocator with locked := true } } :=
        if_neg (by simp [h.1])
      rw [hlock]
      exact freeLoop_ends hheap _ npages walkLimit _ ⟨rfl, h.2⟩

end Guarded

end UnnamedKernel.Mm.Vma
