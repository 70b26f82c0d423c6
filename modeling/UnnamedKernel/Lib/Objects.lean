import Mathlib.Data.List.Nodup
import Mathlib.Logic.Function.Basic

/-!
# Objects in buffers

A heap of buffers whose slots hold objects, for programs that construct and destroy
objects by hand. Every object has an identity of its own, and an operation on a slot that
is not in the state it needs does not return. `Accounted` is the ledger: every identity is
in one slot, or temporary, or destroyed once, and every buffer is allocated or was released
once.
-/

namespace UnnamedKernel.Lib

/-- An object: which one it is, and its value. -/
structure Obj (T : Type) where
  id : Nat
  val : T

structure ObjHeap (T : Type) where
  /-- the capacity of each buffer that is allocated -/
  buffers : Nat → Option Nat := fun _ => none
  objs : Nat → Nat → Option (Obj T) := fun _ _ => none
  nextBuffer : Nat := 0
  nextObj : Nat := 0
  released : List Nat := []
  destroyed : List Nat := []

namespace ObjHeap

variable {T : Type}

def alloc (h : ObjHeap T) (capacity : Nat) : Nat × ObjHeap T :=
  (h.nextBuffer, { h with
    buffers := Function.update h.buffers h.nextBuffer (some capacity)
    nextBuffer := h.nextBuffer + 1 })

def release (h : ObjHeap T) (b : Nat) : Option (ObjHeap T) :=
  if (h.buffers b).isSome then
    some { h with
      buffers := Function.update h.buffers b none
      objs := Function.update h.objs b fun _ => none
      released := b :: h.released }
  else none

def setSlot (h : ObjHeap T) (b i : Nat) (o : Option (Obj T)) : ObjHeap T :=
  { h with objs := Function.update h.objs b (Function.update (h.objs b) i o) }

/-- Construct an object in an empty slot. -/
def construct (h : ObjHeap T) (b i : Nat) (v : T) : Option (ObjHeap T) :=
  match h.buffers b, h.objs b i with
  | some capacity, none =>
      if i < capacity then
        some { h.setSlot b i (some ⟨h.nextObj, v⟩) with nextObj := h.nextObj + 1 }
      else none
  | _, _ => none

def load (h : ObjHeap T) (b i : Nat) : Option T := (h.objs b i).map Obj.val

/-- Assign to an object. -/
def store (h : ObjHeap T) (b i : Nat) (v : T) : Option (ObjHeap T) :=
  (h.objs b i).map fun o => h.setSlot b i (some { o with val := v })

def destroy (h : ObjHeap T) (b i : Nat) : Option (ObjHeap T) :=
  (h.objs b i).map fun o => { h.setSlot b i none with destroyed := o.id :: h.destroyed }

/-- Construct an object that is in no slot: a parameter or a local. -/
def constructTemp (h : ObjHeap T) : Nat × ObjHeap T :=
  (h.nextObj, { h with nextObj := h.nextObj + 1 })

def destroyTemp (h : ObjHeap T) (id : Nat) : ObjHeap T := { h with destroyed := id :: h.destroyed }

/-- Every object constructed is in one slot, or one of `temps`, or destroyed once; every
buffer is allocated, or released once. -/
structure Accounted (h : ObjHeap T) (temps : List Nat) : Prop where
  distinct : ∀ b i b' i' o o', h.objs b i = some o → h.objs b' i' = some o' → o.id = o'.id →
    b = b' ∧ i = i'
  live : ∀ b i o, h.objs b i = some o → o.id < h.nextObj ∧ o.id ∉ temps ++ h.destroyed
  once : (temps ++ h.destroyed).Nodup
  bound : ∀ id ∈ temps ++ h.destroyed, id < h.nextObj
  covered : ∀ id < h.nextObj, id ∈ temps ++ h.destroyed ∨
    ∃ b i o, h.objs b i = some o ∧ o.id = id
  housed : ∀ b i o, h.objs b i = some o → ∃ capacity, h.buffers b = some capacity ∧ i < capacity
  allocated : ∀ b capacity, h.buffers b = some capacity → b < h.nextBuffer
  releasedOnce : h.released.Nodup
  released : ∀ b ∈ h.released, b < h.nextBuffer ∧ h.buffers b = none
  recycled : ∀ b < h.nextBuffer, h.buffers b = none → b ∈ h.released

theorem accounted_empty : Accounted ({} : ObjHeap T) [] := by
  refine ⟨?_, ?_, ?_, ?_, ?_, ?_, ?_, ?_, ?_, ?_⟩ <;> simp

section Slots

variable {h h' : ObjHeap T} {b b' i i' : Nat} {v : T}

theorem objs_setSlot (h : ObjHeap T) (b i : Nat) (o : Option (Obj T)) (b' i' : Nat) :
    (h.setSlot b i o).objs b' i' = if b' = b ∧ i' = i then o else h.objs b' i' := by
  unfold setSlot
  by_cases hb : b' = b
  · subst hb
    by_cases hi : i' = i
    · subst hi
      simp
    · simp [hi]
  · simp [hb]

theorem load_eq_none_iff : h.load b i = none ↔ h.objs b i = none := by
  simp [load]

theorem exists_obj (hv : h.load b i = some v) : ∃ o, h.objs b i = some o ∧ o.val = v := by
  simpa [load] using hv

end Slots

/-- What an operation on one slot leaves alone, and what it leaves in the slot. -/
structure Frames (b i : Nat) (v : Option T) (h h' : ObjHeap T) : Prop where
  buffers : h'.buffers = h.buffers
  nextBuffer : h'.nextBuffer = h.nextBuffer
  load : ∀ b' i', h'.load b' i' = if b' = b ∧ i' = i then v else h.load b' i'

namespace Accounted

variable {h h' : ObjHeap T} {temps : List Nat} {b i : Nat} {v : T}

theorem construct (hacc : Accounted h temps) {capacity : Nat} (hb : h.buffers b = some capacity)
    (hi : i < capacity) (hempty : h.load b i = none) (v : T) :
    ∃ h', h.construct b i v = some h' ∧ Accounted h' temps ∧ Frames b i (some v) h h' := by
  rw [load_eq_none_iff] at hempty
  let h' : ObjHeap T := { h.setSlot b i (some ⟨h.nextObj, v⟩) with nextObj := h.nextObj + 1 }
  have hobjs : ∀ b' i', h'.objs b' i' =
      if b' = b ∧ i' = i then some ⟨h.nextObj, v⟩ else h.objs b' i' := objs_setSlot h b i _
  refine ⟨h', by simp [ObjHeap.construct, hb, hempty, hi, h'], ?_, rfl, rfl, fun b' i' => ?_⟩
  · constructor
    · intro b₁ i₁ b₂ i₂ o₁ o₂ h₁ h₂ hid
      rw [hobjs] at h₁ h₂
      split_ifs at h₁ h₂ with hc₁ hc₂ hc₂
      · exact ⟨hc₁.1.trans hc₂.1.symm, hc₁.2.trans hc₂.2.symm⟩
      · obtain rfl := Option.some.inj h₁
        exact absurd hid (Nat.ne_of_gt (hacc.live b₂ i₂ o₂ h₂).1)
      · obtain rfl := Option.some.inj h₂
        exact absurd hid (Nat.ne_of_lt (hacc.live b₁ i₁ o₁ h₁).1)
      · exact hacc.distinct b₁ i₁ b₂ i₂ o₁ o₂ h₁ h₂ hid
    · intro b' i' o ho
      rw [hobjs] at ho
      split_ifs at ho
      · obtain rfl := Option.some.inj ho
        exact ⟨Nat.lt_succ_self _, fun hmem => absurd (hacc.bound _ hmem) (Nat.lt_irrefl _)⟩
      · obtain ⟨hlt, hfree⟩ := hacc.live b' i' o ho
        exact ⟨Nat.lt_succ_of_lt hlt, hfree⟩
    · exact hacc.once
    · exact fun id hid => Nat.lt_succ_of_lt (hacc.bound id hid)
    · intro id hid
      rcases Nat.lt_succ_iff_lt_or_eq.1 hid with hlt | rfl
      · rcases hacc.covered id hlt with hmem | ⟨b', i', o, ho, hoid⟩
        · exact Or.inl hmem
        · refine Or.inr ⟨b', i', o, ?_, hoid⟩
          rw [hobjs, if_neg]
          · exact ho
          · rintro ⟨rfl, rfl⟩
            simp [hempty] at ho
      · exact Or.inr ⟨b, i, ⟨h.nextObj, v⟩, by rw [hobjs, if_pos ⟨rfl, rfl⟩], rfl⟩
    · intro b' i' o ho
      rw [hobjs] at ho
      split_ifs at ho with hc
      · exact ⟨capacity, hc.1 ▸ hb, hc.2 ▸ hi⟩
      · exact hacc.housed b' i' o ho
    · exact hacc.allocated
    · exact hacc.releasedOnce
    · exact hacc.released
    · exact hacc.recycled
  · unfold ObjHeap.load
    rw [hobjs]
    split_ifs <;> rfl

theorem store (hacc : Accounted h temps) {w : T} (hold : h.load b i = some w) (v : T) :
    ∃ h', h.store b i v = some h' ∧ Accounted h' temps ∧ Frames b i (some v) h h' := by
  obtain ⟨o, ho, -⟩ := exists_obj hold
  let h' : ObjHeap T := h.setSlot b i (some { o with val := v })
  have hobjs : ∀ b' i', h'.objs b' i' =
      if b' = b ∧ i' = i then some { o with val := v } else h.objs b' i' := objs_setSlot h b i _
  -- every slot holds the object it held before
  have hsame : ∀ b' i' o', h'.objs b' i' = some o' → ∃ o₀, h.objs b' i' = some o₀ ∧
      o₀.id = o'.id := by
    intro b' i' o' ho'
    rw [hobjs] at ho'
    split_ifs at ho' with hc
    · obtain ⟨rfl, rfl⟩ := hc
      obtain rfl := Option.some.inj ho'
      exact ⟨o, ho, rfl⟩
    · exact ⟨o', ho', rfl⟩
  refine ⟨h', by simp [ObjHeap.store, ho, h'], ?_, rfl, rfl, fun b' i' => ?_⟩
  · constructor
    · intro b₁ i₁ b₂ i₂ o₁ o₂ h₁ h₂ hid
      obtain ⟨p₁, hp₁, hid₁⟩ := hsame _ _ _ h₁
      obtain ⟨p₂, hp₂, hid₂⟩ := hsame _ _ _ h₂
      exact hacc.distinct b₁ i₁ b₂ i₂ p₁ p₂ hp₁ hp₂ (hid₁.trans (hid.trans hid₂.symm))
    · intro b' i' o' ho'
      obtain ⟨p, hp, hid⟩ := hsame _ _ _ ho'
      exact hid ▸ hacc.live b' i' p hp
    · exact hacc.once
    · exact hacc.bound
    · intro id hid
      rcases hacc.covered id hid with hmem | ⟨b', i', p, hp, hpid⟩
      · exact Or.inl hmem
      · by_cases hc : b' = b ∧ i' = i
        · obtain ⟨rfl, rfl⟩ := hc
          obtain rfl := Option.some.inj (ho.symm.trans hp)
          exact Or.inr ⟨b', i', { o with val := v }, by rw [hobjs, if_pos ⟨rfl, rfl⟩], hpid⟩
        · exact Or.inr ⟨b', i', p, by rw [hobjs, if_neg hc, hp], hpid⟩
    · intro b' i' o' ho'
      obtain ⟨p, hp, -⟩ := hsame _ _ _ ho'
      exact hacc.housed b' i' p hp
    · exact hacc.allocated
    · exact hacc.releasedOnce
    · exact hacc.released
    · exact hacc.recycled
  · unfold ObjHeap.load
    rw [hobjs]
    split_ifs <;> rfl

theorem destroy (hacc : Accounted h temps) {w : T} (hold : h.load b i = some w) :
    ∃ h', h.destroy b i = some h' ∧ Accounted h' temps ∧ Frames b i none h h' := by
  obtain ⟨o, ho, -⟩ := exists_obj hold
  obtain ⟨hlt, hfree⟩ := hacc.live b i o ho
  let h' : ObjHeap T := { h.setSlot b i none with destroyed := o.id :: h.destroyed }
  have hobjs : ∀ b' i', h'.objs b' i' = if b' = b ∧ i' = i then none else h.objs b' i' :=
    objs_setSlot h b i none
  have hold : ∀ b' i' o', h'.objs b' i' = some o' →
      h.objs b' i' = some o' ∧ ¬ (b' = b ∧ i' = i) := by
    intro b' i' o' ho'
    rw [hobjs] at ho'
    split_ifs at ho' with hc
    exact ⟨ho', hc⟩
  have hmem : ∀ id, id ∈ temps ++ o.id :: h.destroyed ↔ id = o.id ∨ id ∈ temps ++ h.destroyed := by
    intro id
    simp only [List.mem_append, List.mem_cons]
    tauto
  refine ⟨h', by simp [ObjHeap.destroy, ho, h'], ?_, rfl, rfl, fun b' i' => ?_⟩
  · constructor
    · intro b₁ i₁ b₂ i₂ o₁ o₂ h₁ h₂ hid
      exact hacc.distinct b₁ i₁ b₂ i₂ o₁ o₂ (hold _ _ _ h₁).1 (hold _ _ _ h₂).1 hid
    · intro b' i' o' ho'
      obtain ⟨hp, hc⟩ := hold _ _ _ ho'
      obtain ⟨hlt', hfree'⟩ := hacc.live b' i' o' hp
      refine ⟨hlt', fun hin => ?_⟩
      rcases (hmem _).1 hin with hid | hin
      · exact hc (hacc.distinct b' i' b i o' o hp ho hid)
      · exact hfree' hin
    · exact List.nodup_middle.2 (List.nodup_cons.2 ⟨hfree, hacc.once⟩)
    · intro id hid
      rcases (hmem _).1 hid with rfl | hid
      · exact hlt
      · exact hacc.bound id hid
    · intro id hid
      rcases hacc.covered id hid with hin | ⟨b', i', p, hp, hpid⟩
      · exact Or.inl ((hmem _).2 (Or.inr hin))
      · by_cases hc : b' = b ∧ i' = i
        · obtain ⟨rfl, rfl⟩ := hc
          obtain rfl := Option.some.inj (ho.symm.trans hp)
          exact Or.inl ((hmem _).2 (Or.inl hpid.symm))
        · exact Or.inr ⟨b', i', p, by rw [hobjs, if_neg hc, hp], hpid⟩
    · exact fun b' i' o' ho' => hacc.housed b' i' o' (hold _ _ _ ho').1
    · exact hacc.allocated
    · exact hacc.releasedOnce
    · exact hacc.released
    · exact hacc.recycled
  · unfold ObjHeap.load
    rw [hobjs]
    split_ifs <;> rfl

theorem constructTemp (hacc : Accounted h temps) :
    Accounted h.constructTemp.2 (h.constructTemp.1 :: temps) where
  distinct := hacc.distinct
  live b i o ho := by
    obtain ⟨hlt, hfree⟩ := hacc.live b i o ho
    refine ⟨Nat.lt_succ_of_lt hlt, fun hin => ?_⟩
    rcases List.mem_cons.1 hin with hid | hin
    · exact absurd hid (Nat.ne_of_lt hlt)
    · exact hfree hin
  once := List.nodup_cons.2 ⟨fun hin => Nat.lt_irrefl _ (hacc.bound _ hin), hacc.once⟩
  bound id hid := by
    rcases List.mem_cons.1 hid with rfl | hid
    · exact Nat.lt_succ_self _
    · exact Nat.lt_succ_of_lt (hacc.bound id hid)
  covered id hid := by
    rcases Nat.lt_succ_iff_lt_or_eq.1 hid with hlt | rfl
    · rcases hacc.covered id hlt with hin | hslot
      · exact Or.inl (List.mem_cons_of_mem _ hin)
      · exact Or.inr hslot
    · exact Or.inl (List.mem_cons_self ..)
  housed := hacc.housed
  allocated := hacc.allocated
  releasedOnce := hacc.releasedOnce
  released := hacc.released
  recycled := hacc.recycled

theorem destroyTemp {id : Nat} (hacc : Accounted h (id :: temps)) :
    Accounted (h.destroyTemp id) temps := by
  have hmem : ∀ x, x ∈ temps ++ id :: h.destroyed ↔ x ∈ (id :: temps) ++ h.destroyed := by
    intro x
    simp only [List.mem_append, List.mem_cons]
    tauto
  constructor
  · exact hacc.distinct
  · intro b i o ho
    obtain ⟨hlt, hfree⟩ := hacc.live b i o ho
    exact ⟨hlt, fun hin => hfree ((hmem _).1 hin)⟩
  · exact List.nodup_middle.2 hacc.once
  · exact fun x hx => hacc.bound x ((hmem x).1 hx)
  · intro x hx
    exact (hacc.covered x hx).imp_left fun hin => (hmem x).2 hin
  · exact hacc.housed
  · exact hacc.allocated
  · exact hacc.releasedOnce
  · exact hacc.released
  · exact hacc.recycled

theorem load_of_buffers (hacc : Accounted h temps) (hb : h.buffers b = none) (i : Nat) :
    h.load b i = none := by
  rw [load_eq_none_iff, ← Option.not_isSome_iff_eq_none, Option.isSome_iff_exists]
  rintro ⟨o, ho⟩
  obtain ⟨capacity, hc, -⟩ := hacc.housed b i o ho
  simp [hb] at hc

theorem buffers_fresh (hacc : Accounted h temps) (hb : h.nextBuffer ≤ b) : h.buffers b = none := by
  rw [← Option.not_isSome_iff_eq_none, Option.isSome_iff_exists]
  rintro ⟨capacity, hc⟩
  exact absurd (hacc.allocated b capacity hc) (Nat.not_lt.2 hb)

theorem alloc (hacc : Accounted h temps) (capacity : Nat) :
    Accounted (h.alloc capacity).2 temps := by
  constructor
  · exact hacc.distinct
  · exact hacc.live
  · exact hacc.once
  · exact hacc.bound
  · exact hacc.covered
  · intro b i o ho
    obtain ⟨capacity', hc, hi⟩ := hacc.housed b i o ho
    refine ⟨capacity', ?_, hi⟩
    exact (Function.update_of_ne (Nat.ne_of_lt (hacc.allocated b _ hc)) ..).trans hc
  · intro b capacity' hc
    by_cases hb : b = h.nextBuffer
    · exact hb ▸ Nat.lt_succ_self _
    · exact Nat.lt_succ_of_lt (hacc.allocated b capacity'
        ((Function.update_of_ne hb ..).symm.trans hc))
  · exact hacc.releasedOnce
  · intro b hb
    obtain ⟨hlt, hnone⟩ := hacc.released b hb
    exact ⟨Nat.lt_succ_of_lt hlt, (Function.update_of_ne (Nat.ne_of_lt hlt) ..).trans hnone⟩
  · intro b hb hnone
    by_cases hbb : b = h.nextBuffer
    · subst hbb
      simp [ObjHeap.alloc] at hnone
    · have hlt : b < h.nextBuffer := Nat.lt_of_le_of_ne (Nat.le_of_lt_succ hb) hbb
      exact hacc.recycled b hlt ((Function.update_of_ne hbb ..).symm.trans hnone)

theorem release (hacc : Accounted h temps) {capacity : Nat} (hb : h.buffers b = some capacity)
    (hempty : ∀ i, h.load b i = none) :
    ∃ h', h.release b = some h' ∧ Accounted h' temps ∧ h'.nextBuffer = h.nextBuffer ∧
      h'.buffers = Function.update h.buffers b none ∧ h'.load = h.load := by
  let h' : ObjHeap T := { h with
    buffers := Function.update h.buffers b none
    objs := Function.update h.objs b fun _ => none
    released := b :: h.released }
  have hobjs : h'.objs = h.objs := by
    have hnone : (fun _ => none) = h.objs b := funext fun i => (load_eq_none_iff.1 (hempty i)).symm
    show Function.update h.objs b (fun _ => none) = h.objs
    rw [hnone, Function.update_eq_self]
  have hother : ∀ b' i o, h.objs b' i = some o → b' ≠ b := by
    rintro b' i o ho rfl
    rw [load_eq_none_iff.1 (hempty i)] at ho
    simp at ho
  refine ⟨h', by simp [ObjHeap.release, hb, h'], ?_, rfl, rfl, ?_⟩
  · constructor
    · rw [hobjs]
      exact hacc.distinct
    · rw [hobjs]
      exact hacc.live
    · exact hacc.once
    · exact hacc.bound
    · rw [hobjs]
      exact hacc.covered
    · rw [hobjs]
      intro b' i o ho
      obtain ⟨capacity', hc, hi⟩ := hacc.housed b' i o ho
      exact ⟨capacity', (Function.update_of_ne (hother b' i o ho) ..).trans hc, hi⟩
    · intro b' capacity' hc
      by_cases hbb : b' = b
      · subst hbb
        simp [h'] at hc
      · exact hacc.allocated b' capacity' ((Function.update_of_ne hbb ..).symm.trans hc)
    · refine List.nodup_cons.2 ⟨fun hin => ?_, hacc.releasedOnce⟩
      have hnone := (hacc.released b hin).2
      simp [hb] at hnone
    · intro b' hb'
      by_cases hbb : b' = b
      · subst hbb
        exact ⟨hacc.allocated b' capacity hb, Function.update_self ..⟩
      · obtain ⟨hlt, hnone⟩ := hacc.released b' ((List.mem_cons.1 hb').resolve_left hbb)
        exact ⟨hlt, (Function.update_of_ne hbb ..).trans hnone⟩
    · intro b' hb' hnone
      by_cases hbb : b' = b
      · exact hbb ▸ List.mem_cons_self ..
      · have hb : h.buffers b' = none := (Function.update_of_ne hbb ..).symm.trans hnone
        exact List.mem_cons_of_mem _ (hacc.recycled b' hb' hb)
  · funext b' i
    unfold ObjHeap.load
    rw [hobjs]

end Accounted

end ObjHeap

end UnnamedKernel.Lib
