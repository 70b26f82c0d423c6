import Mathlib.Data.List.InsertIdx
import UnnamedKernel.Containers.Vector

/-!
# What a vector owns

`Owns` ties a vector to the list of its elements. The loops are followed on that list, one
assignment at a time; `Evolves` says what an operation leaves of the rest of the heap.
-/

namespace UnnamedKernel.Containers

open UnnamedKernel.Lib ObjHeap

variable {T : Type} {h h' h₁ : ObjHeap T} {temps : List Nat} {b i j : Nat}
  {v v' v₁ : Vec} {xs ys : List T} {x y : T}

/-- Slot `i` of buffer `b` holds element `i` of `xs`, and the slots behind are empty. -/
def Slots (h : ObjHeap T) (b : Nat) (xs : List T) : Prop := ∀ i, h.load b i = xs[i]?

structure Owns (h : ObjHeap T) (v : Vec) (xs : List T) : Prop where
  size : v.size = xs.length
  size_le : v.size ≤ v.capacity
  null : v.data = none → v.capacity = 0
  held : ∀ b, v.data = some b → h.buffers b = some v.capacity ∧ Slots h b xs

/-- An operation that takes `v` to `v'` touches its own buffer and new ones, and no buffer is
forgotten. -/
structure Evolves (v v' : Vec) (h h' : ObjHeap T) : Prop where
  next : h.nextBuffer ≤ h'.nextBuffer
  other : ∀ b, v.data ≠ some b → b < h.nextBuffer →
    h'.buffers b = h.buffers b ∧ h'.load b = h.load b
  data : ∀ b, v'.data = some b → v.data = some b ∨ h.nextBuffer ≤ b
  kept : ∀ b, h'.buffers b ≠ none → v'.data = some b ∨ (v.data ≠ some b ∧ b < h.nextBuffer)

/-- What an operation on a vector yields. -/
structure Becomes (temps : List Nat) (v : Vec) (h : ObjHeap T) (xs : List T) (v' : Vec)
    (h' : ObjHeap T) : Prop where
  accounted : Accounted h' temps
  owns : Owns h' v' xs
  evolves : Evolves v v' h h'

/-- Only slots of `b` have changed. -/
structure Within (b : Nat) (h h' : ObjHeap T) : Prop where
  buffers : h'.buffers = h.buffers
  nextBuffer : h'.nextBuffer = h.nextBuffer
  other : ∀ b', b' ≠ b → h'.load b' = h.load b'

namespace Within

theorem refl (b : Nat) (h : ObjHeap T) : Within b h h := ⟨rfl, rfl, fun _ _ => rfl⟩

theorem trans (hw : Within b h h₁) (hw' : Within b h₁ h') : Within b h h' :=
  ⟨hw'.buffers.trans hw.buffers, hw'.nextBuffer.trans hw.nextBuffer,
    fun b' hb => (hw'.other b' hb).trans (hw.other b' hb)⟩

theorem of_frames {x : Option T} (hf : Frames b i x h h') : Within b h h' := by
  refine ⟨hf.buffers, hf.nextBuffer, fun b' hb => funext fun i' => ?_⟩
  rw [hf.load, if_neg fun hc => hb hc.1]

end Within

namespace Evolves

theorem trans (he : Evolves v v₁ h h₁) (he' : Evolves v₁ v' h₁ h') : Evolves v v' h h' where
  next := Nat.le_trans he.next he'.next
  other b hb hlt := by
    have hb₁ : v₁.data ≠ some b := fun hd => by
      rcases he.data b hd with hd | hge
      · exact hb hd
      · omega
    obtain ⟨hbuf, hload⟩ := he.other b hb hlt
    obtain ⟨hbuf', hload'⟩ := he'.other b hb₁ (Nat.lt_of_lt_of_le hlt he.next)
    exact ⟨hbuf'.trans hbuf, hload'.trans hload⟩
  data b hb := by
    rcases he'.data b hb with hb | hge
    · exact he.data b hb
    · exact Or.inr (Nat.le_trans he.next hge)
  kept b hb := by
    rcases he'.kept b hb with hb' | ⟨hne, hlt⟩
    · exact Or.inl hb'
    · have hold := (he'.other b hne hlt).1
      rcases he.kept b (hold ▸ hb) with hd | hd
      · exact absurd hd hne
      · exact Or.inr hd

theorem of_within (hacc : Accounted h temps) (hb : v.data = some b) (hdata : v'.data = v.data)
    (hw : Within b h h') : Evolves v v' h h' where
  next := Nat.le_of_eq hw.nextBuffer.symm
  other b' hne _ := by
    refine ⟨congrFun hw.buffers b', hw.other b' ?_⟩
    rintro rfl
    exact hne hb
  data b' hb' := Or.inl (hdata ▸ hb')
  kept b' hb' := by
    rw [hw.buffers] at hb'
    obtain ⟨capacity, hc⟩ := Option.ne_none_iff_exists'.1 hb'
    rw [hdata]
    by_cases hd : v.data = some b'
    · exact Or.inl hd
    · exact Or.inr ⟨hd, hacc.allocated b' capacity hc⟩

end Evolves

/-! ## One slot -/

section Slot

theorem Slots.load (hs : Slots h b xs) (hi : i < xs.length) : h.load b i = some xs[i] := by
  rw [hs, List.getElem?_eq_getElem hi]

theorem Slots.store (hacc : Accounted h temps) (hs : Slots h b xs) (hi : i < xs.length) (x : T) :
    ∃ h', h.store b i x = some h' ∧ Accounted h' temps ∧ Slots h' b (xs.set i x) ∧
      Within b h h' := by
  obtain ⟨h', hres, hacc', hf⟩ := hacc.store (hs.load hi) x
  refine ⟨h', hres, hacc', fun k => ?_, .of_frames hf⟩
  rw [hf.load, hs, List.getElem?_set]
  by_cases hk : k = i
  · subst hk
    simp [hi]
  · simp [hk, Ne.symm hk]

theorem Slots.construct (hacc : Accounted h temps) (hs : Slots h b xs) {capacity : Nat}
    (hb : h.buffers b = some capacity) (hroom : xs.length < capacity) (x : T) :
    ∃ h', h.construct b xs.length x = some h' ∧ Accounted h' temps ∧ Slots h' b (xs ++ [x]) ∧
      Within b h h' := by
  have hempty : h.load b xs.length = none := by rw [hs, List.getElem?_eq_none (Nat.le_refl _)]
  obtain ⟨h', hres, hacc', hf⟩ := hacc.construct hb hroom hempty x
  refine ⟨h', hres, hacc', fun k => ?_, .of_frames hf⟩
  rw [hf.load, hs]
  by_cases hk : k = xs.length
  · subst hk
    simp
  · rw [if_neg fun hc => hk hc.2, List.getElem?_append]
    split_ifs with hlt
    · rfl
    · rw [List.getElem?_eq_none (by omega), List.getElem?_eq_none (by simp; omega)]

theorem Slots.destroyLast (hacc : Accounted h temps) (hs : Slots h b xs) (hne : xs ≠ []) :
    ∃ h', h.destroy b (xs.length - 1) = some h' ∧ Accounted h' temps ∧ Slots h' b xs.dropLast ∧
      Within b h h' := by
  have hpos := List.length_pos_of_ne_nil hne
  obtain ⟨h', hres, hacc', hf⟩ := hacc.destroy (hs.load (i := xs.length - 1) (by omega))
  refine ⟨h', hres, hacc', fun k => ?_, .of_frames hf⟩
  rw [hf.load, hs, List.getElem?_dropLast]
  by_cases hk : k = xs.length - 1
  · simp [hk]
  · rw [if_neg fun hc => hk hc.2]
    split_ifs with hlt
    · rfl
    · exact List.getElem?_eq_none (by omega)

end Slot

/-! ## The loops -/

section Loops

theorem swapElements_spec (moved : T → T) (hacc : Accounted h temps) (hs : Slots h b xs)
    (hi : i < xs.length)
    (hj : j < xs.length) (hij : i ≠ j) :
    ∃ h', swapElements moved b i j h = some h' ∧ Accounted h' temps ∧
      Slots h' b ((xs.set i xs[j]).set j xs[i]) ∧ Within b h h' := by
  have htmp : Accounted h.constructTemp.2 (h.constructTemp.1 :: temps) := hacc.constructTemp
  have hs₀ : Slots h.constructTemp.2 b xs := hs
  obtain ⟨h₁, hres₁, hacc₁, hs₁, hw₁⟩ := hs₀.store htmp hi (moved xs[i])
  have hload : h₁.load b j = some xs[j] := by
    rw [hs₁.load (by simpa using hj)]
    simp [hij]
  obtain ⟨h₂, hres₂, hacc₂, hs₂, hw₂⟩ := hs₁.store hacc₁ (i := i) (by simpa using hi) xs[j]
  obtain ⟨h₃, hres₃, hacc₃, hs₃, hw₃⟩ := hs₂.store hacc₂ (i := j) (by simpa using hj) (moved xs[j])
  obtain ⟨h₄, hres₄, hacc₄, hs₄, hw₄⟩ := hs₃.store hacc₃ (i := j) (by simpa using hj) xs[i]
  refine ⟨h₄.destroyTemp h.constructTemp.1, ?_, hacc₄.destroyTemp, ?_, ?_⟩
  · simp [swapElements, hs.load hi, hres₁, hload, hres₂, hres₃, hres₄]
  · have hlast : Slots h₄ b ((xs.set i xs[j]).set j xs[i]) := by simpa [List.set_set] using hs₄
    exact hlast
  · have hall := ((hw₁.trans hw₂).trans hw₃).trans hw₄
    exact ⟨hall.buffers, hall.nextBuffer, hall.other⟩

/-- Without element `i`, it makes no difference that its neighbour has been copied over it. -/
theorem eraseIdx_set_above (hi : i + 1 < xs.length) (y : T) :
    ((xs.set (i + 1) xs[i]).set i y).eraseIdx i = xs.eraseIdx (i + 1) := by
  apply List.ext_getElem?
  intro k
  simp only [List.getElem?_eraseIdx, List.getElem?_set, List.length_set]
  rcases Nat.lt_trichotomy k i with hlt | rfl | hgt
  · rw [if_pos hlt, if_neg (by omega), if_neg (by omega), if_pos (by omega)]
  · simp [hi, List.getElem?_eq_getElem (Nat.lt_of_succ_lt hi)]
  · rw [if_neg (by omega), if_neg (by omega), if_neg (by omega), if_neg (by omega)]

theorem eraseIdx_set_below (hi : i + 1 < xs.length) (y : T) :
    ((xs.set i xs[i + 1]).set (i + 1) y).eraseIdx (i + 1) = xs.eraseIdx i := by
  apply List.ext_getElem?
  intro k
  simp only [List.getElem?_eraseIdx, List.getElem?_set, List.length_set]
  rcases Nat.lt_trichotomy k i with hlt | rfl | hgt
  · rw [if_pos (by omega), if_neg (by omega), if_neg (by omega), if_pos hlt]
  · simp [Nat.lt_of_succ_lt hi, List.getElem?_eq_getElem hi]
  · rw [if_neg (by omega), if_neg (by omega), if_neg (by omega), if_neg (by omega)]

/-- The loop of `insert` carries element `i` down to `i - count`. -/
theorem bubble_spec (moved : T → T) (count : Nat) (hacc : Accounted h temps) (hs : Slots h b xs)
    (hi : i < xs.length) (hcount : count ≤ i) :
    ∃ h', bubble moved b count i h = some h' ∧ Accounted h' temps ∧
      Slots h' b ((xs.eraseIdx i).insertIdx (i - count) xs[i]) ∧ Within b h h' := by
  induction count generalizing i xs h with
  | zero =>
      refine ⟨h, rfl, hacc, ?_, .refl b h⟩
      rw [Nat.sub_zero, List.insertIdx_eraseIdx_getElem hi]
      exact hs
  | succ count ih =>
      obtain ⟨i, rfl⟩ : ∃ k, i = k + 1 := ⟨i - 1, by omega⟩
      obtain ⟨h₁, hres₁, hacc₁, hs₁, hw₁⟩ :=
        swapElements_spec moved hacc hs hi (j := i) (by omega) (by omega)
      obtain ⟨h', hres, hacc', hs', hw'⟩ := ih hacc₁ hs₁ (i := i) (by simp; omega) (by omega)
      refine ⟨h', by simp [bubble, hres₁, hres], hacc', ?_, hw₁.trans hw'⟩
      rwa [eraseIdx_set_above hi, List.getElem_set_self, ← Nat.add_sub_add_right i 1 count] at hs'

/-- The loop of `erase` moves the elements behind `i` one place down, and leaves something in
the last place. -/
theorem shiftLeft_spec (moved : T → T) (count : Nat) (hacc : Accounted h temps) (hs : Slots h b xs)
    (hcount : i + count + 1 = xs.length) :
    ∃ h' x, shiftLeft moved b count i h = some h' ∧ Accounted h' temps ∧
      Slots h' b (xs.eraseIdx i ++ [x]) ∧ Within b h h' := by
  induction count generalizing i xs h with
  | zero =>
      have hi : i < xs.length := by omega
      refine ⟨h, xs[i], rfl, hacc, ?_, .refl b h⟩
      rw [List.eraseIdx_eq_take_drop_succ, List.drop_eq_nil_of_le (by omega), List.append_nil,
        List.take_append_getElem hi, List.take_of_length_le (by omega)]
      exact hs
  | succ count ih =>
      have hi : i + 1 < xs.length := by omega
      obtain ⟨h₁, hres₁, hacc₁, hs₁, hw₁⟩ := hs.store hacc (i := i) (by omega) xs[i + 1]
      obtain ⟨h₂, hres₂, hacc₂, hs₂, hw₂⟩ :=
        hs₁.store hacc₁ (i := i + 1) (by simpa using hi) (moved xs[i + 1])
      obtain ⟨h', x, hres, hacc', hs', hw'⟩ := ih hacc₂ hs₂ (i := i + 1) (by simp; omega)
      refine ⟨h', x, ?_, hacc', ?_, (hw₁.trans hw₂).trans hw'⟩
      · simp [shiftLeft, hs.load hi, hres₁, hres₂, hres]
      · rwa [eraseIdx_set_below hi] at hs'

end Loops

end UnnamedKernel.Containers
