import UnnamedKernel.Containers.Ownership

/-!
# The operations of a vector

One theorem for each operation, with the list operation it stands for.
-/

namespace UnnamedKernel.Containers

open UnnamedKernel.Lib ObjHeap

variable {T : Type} {h h' h₁ : ObjHeap T} {temps : List Nat}
  {b i new capacity : Nat} {v v' v₁ : Vec} {xs ys : List T} {x y : T}

/-! ## Composition -/

section Composition

theorem Evolves.refl (hacc : Accounted h temps) (v : Vec) : Evolves v v h h where
  next := Nat.le_refl _
  other _ _ _ := ⟨rfl, rfl⟩
  data _ hb := Or.inl hb
  kept b hb := by
    obtain ⟨capacity, hc⟩ := Option.ne_none_iff_exists'.1 hb
    by_cases hd : v.data = some b
    · exact Or.inl hd
    · exact Or.inr ⟨hd, hacc.allocated b capacity hc⟩

theorem Becomes.refl (hacc : Accounted h temps) (howns : Owns h v xs) : Becomes temps v h xs v h :=
  ⟨hacc, howns, .refl hacc v⟩

theorem Becomes.trans (hb : Becomes temps v h ys v₁ h₁) (hb' : Becomes temps v₁ h₁ xs v' h') :
    Becomes temps v h xs v' h' :=
  ⟨hb'.accounted, hb'.owns, hb.evolves.trans hb'.evolves⟩

/-- A local object that is constructed first and destroyed last leaves no trace. -/
theorem Becomes.of_temp
    (hb : Becomes (h.constructTemp.1 :: temps) v h.constructTemp.2 xs v' h') :
    Becomes temps v h xs v' (h'.destroyTemp h.constructTemp.1) :=
  ⟨hb.accounted.destroyTemp, ⟨hb.owns.size, hb.owns.size_le, hb.owns.null, hb.owns.held⟩,
    ⟨hb.evolves.next, hb.evolves.other, hb.evolves.data, hb.evolves.kept⟩⟩

theorem owns_empty (h : ObjHeap T) : Owns h {} [] :=
  ⟨rfl, Nat.le_refl _, fun _ => rfl, fun b hb => by simp at hb⟩

theorem Owns.constructTemp (howns : Owns h v xs) : Owns h.constructTemp.2 v xs :=
  ⟨howns.size, howns.size_le, howns.null, howns.held⟩

theorem Owns.exists_data (howns : Owns h v xs) (hpos : 0 < v.capacity) :
    ∃ b, v.data = some b ∧ h.buffers b = some v.capacity ∧ Slots h b xs := by
  cases hd : v.data with
  | none => exact absurd (howns.null hd) (Nat.ne_of_gt hpos)
  | some b => exact ⟨b, rfl, howns.held b hd⟩

theorem Owns.becomes (howns : Owns h v xs) (hacc : Accounted h temps) (hd : v.data = some b)
    (hacc' : Accounted h' temps) (hs : Slots h' b ys) (hle : ys.length ≤ v.capacity)
    (hw : Within b h h') : Becomes temps v h ys { v with size := ys.length } h' where
  accounted := hacc'
  owns := by
    refine ⟨rfl, hle, howns.null, fun b' hb' => ?_⟩
    obtain rfl : b = b' := Option.some.inj (hd.symm.trans hb')
    exact ⟨(congrFun hw.buffers b).trans (howns.held b hd).1, hs⟩
  evolves := .of_within hacc hd rfl hw

end Composition

/-! ## Growing -/

section Growing

/-- The loop of `reserve` carries the elements from `i` on over to the new buffer. -/
theorem relocate_spec (moved : T → T) {count : Nat} (hne : b ≠ new) (hacc : Accounted h temps)
    (hnew : h.buffers new = some capacity) (hroom : xs.length ≤ capacity)
    (hold : ∀ k, h.load b k = if k < i then none else xs[k]?) (hs : Slots h new (xs.take i))
    (hcount : i + count = xs.length) :
    ∃ h', relocate moved (some b) new count i h = some h' ∧ Accounted h' temps ∧
      (∀ k, h'.load b k = none) ∧ Slots h' new xs ∧ h'.buffers = h.buffers ∧
      h'.nextBuffer = h.nextBuffer ∧ ∀ b', b' ≠ b → b' ≠ new → h'.load b' = h.load b' := by
  induction count generalizing i h with
  | zero =>
      refine ⟨h, rfl, hacc, fun k => ?_, ?_, rfl, rfl, fun _ _ _ => rfl⟩
      · rw [hold]
        split_ifs with hk
        · rfl
        · exact List.getElem?_eq_none (by omega)
      · rwa [List.take_of_length_le (by omega)] at hs
  | succ count ih =>
      have hi : i < xs.length := by omega
      have hlen : (xs.take i).length = i := List.length_take_of_le (Nat.le_of_lt hi)
      have hload : h.load b i = some xs[i] := by
        rw [hold, if_neg (Nat.lt_irrefl i), List.getElem?_eq_getElem hi]
      obtain ⟨h₁, hres₁, hacc₁, hs₁, hw₁⟩ := hs.construct hacc hnew (by omega) xs[i]
      rw [hlen] at hres₁
      rw [List.take_append_getElem hi] at hs₁
      have hload₁ : h₁.load b i = some xs[i] := by rw [hw₁.other b hne, hload]
      obtain ⟨h₂, hres₂, hacc₂, hf₂⟩ := hacc₁.store hload₁ (moved xs[i])
      have hload₂ : h₂.load b i = some (moved xs[i]) := by rw [hf₂.load, if_pos ⟨rfl, rfl⟩]
      obtain ⟨h₃, hres₃, hacc₃, hf₃⟩ := hacc₂.destroy hload₂
      have hw : Within b h₁ h₃ := (Within.of_frames hf₂).trans (.of_frames hf₃)
      have hold₃ : ∀ k, h₃.load b k = if k < i + 1 then none else xs[k]? := by
        intro k
        rw [hf₃.load, hf₂.load, hw₁.other b hne, hold]
        by_cases hk : k = i
        · simp [hk]
        · rw [if_neg fun hc => hk hc.2, if_neg fun hc => hk hc.2]
          by_cases hlt : k < i
          · rw [if_pos hlt, if_pos (by omega)]
          · rw [if_neg hlt, if_neg (by omega)]
      have hs₃ : Slots h₃ new (xs.take (i + 1)) := by
        intro k
        rw [hw.other new hne.symm]
        exact hs₁ k
      have hbuf : h₃.buffers = h.buffers := hw.buffers.trans hw₁.buffers
      obtain ⟨h', hres, hacc', hempty, hs', hbuf', hnext', hother'⟩ :=
        ih hacc₃ (hbuf ▸ hnew) hold₃ hs₃ (by omega)
      refine ⟨h', by simp [relocate, hload, hres₁, hres₂, hres₃, hres], hacc', hempty, hs',
        hbuf'.trans hbuf, hnext'.trans (hw.nextBuffer.trans hw₁.nextBuffer), ?_⟩
      intro b' hb hb'
      exact (hother' b' hb hb').trans ((hw.other b' hb).trans (hw₁.other b' hb'))

theorem Owns.becomes_new (howns : Owns h v xs) (hacc' : Accounted h' temps)
    (hroom : xs.length ≤ capacity) (hnext : h'.nextBuffer = h.nextBuffer + 1)
    (hbuf : h'.buffers h.nextBuffer = some capacity) (hs : Slots h' h.nextBuffer xs)
    (hother : ∀ b, v.data ≠ some b → b < h.nextBuffer →
      h'.buffers b = h.buffers b ∧ h'.load b = h.load b)
    (hgone : ∀ b, v.data = some b → h'.buffers b = none) :
    Becomes temps v h xs { v with data := some h.nextBuffer, capacity } h' where
  accounted := hacc'
  owns := by
    refine ⟨howns.size, by rw [howns.size]; exact hroom, fun hc => by simp at hc, fun b hb => ?_⟩
    obtain rfl := Option.some.inj hb
    exact ⟨hbuf, hs⟩
  evolves := by
    refine ⟨by omega, hother, fun b hb => ?_, fun b hb => ?_⟩
    · obtain rfl := Option.some.inj hb
      exact Or.inr (Nat.le_refl _)
    · obtain ⟨capacity', hc⟩ := Option.ne_none_iff_exists'.1 hb
      have hlt := hacc'.allocated b capacity' hc
      by_cases hb' : b = h.nextBuffer
      · exact Or.inl (by rw [hb'])
      · exact Or.inr ⟨fun hd => hb (hgone b hd), by omega⟩

theorem reserve_grow {moved : T → T} {newCap : Nat} (hgrow : ¬ newCap ≤ v.capacity) :
    v.reserve moved newCap h =
      (relocate moved v.data h.nextBuffer v.size 0 (h.alloc newCap).2).bind fun h' =>
        (operatorDelete h' v.data).bind fun h' =>
          some ({ v with data := some h.nextBuffer, capacity := newCap }, h') := by
  rw [Vec.reserve, if_neg hgrow]
  rfl

theorem reserve_spec (moved : T → T) (hacc : Accounted h temps) (howns : Owns h v xs)
    (newCap : Nat) :
    ∃ v' h', v.reserve moved newCap h = some (v', h') ∧ Becomes temps v h xs v' h' ∧
      newCap ≤ v'.capacity := by
  by_cases hle : newCap ≤ v.capacity
  · exact ⟨v, h, if_pos hle, .refl hacc howns, hle⟩
  have hsize := howns.size
  have hcap := howns.size_le
  have hacc₁ : Accounted (h.alloc newCap).2 temps := hacc.alloc newCap
  have hbuf₁ : (h.alloc newCap).2.buffers h.nextBuffer = some newCap := Function.update_self ..
  have hold₁ : ∀ b, b < h.nextBuffer → (h.alloc newCap).2.buffers b = h.buffers b := fun b hb =>
    Function.update_of_ne (Nat.ne_of_lt hb) ..
  have hempty₁ : Slots (h.alloc newCap).2 h.nextBuffer [] := fun k =>
    hacc.load_of_buffers (hacc.buffers_fresh (Nat.le_refl _)) k
  cases hd : v.data with
  | none =>
      obtain rfl : xs = [] := List.eq_nil_of_length_eq_zero (by have := howns.null hd; omega)
      refine ⟨{ v with data := some h.nextBuffer, capacity := newCap }, (h.alloc newCap).2, ?_, ?_,
        Nat.le_refl _⟩
      · have hzero : v.size = 0 := hsize
        rw [reserve_grow hle, hd, hzero]
        rfl
      · exact howns.becomes_new hacc₁ (by simp) rfl hbuf₁ hempty₁
          (fun b _ hb => ⟨hold₁ b hb, rfl⟩) fun b hb => by simp [hd] at hb
  | some b =>
      obtain ⟨hbuf, hs⟩ := howns.held b hd
      have hlt : b < h.nextBuffer := hacc.allocated b _ hbuf
      obtain ⟨h₂, hres₂, hacc₂, hgone₂, hs₂, hbuf₂, hnext₂, hother₂⟩ :=
        relocate_spec moved (i := 0) (Nat.ne_of_lt hlt) hacc₁ hbuf₁
          (by omega) (fun k => (hs k).trans (by simp)) hempty₁ (Nat.zero_add xs.length)
      have hb₂ : h₂.buffers b = some v.capacity := by rw [hbuf₂, hold₁ b hlt, hbuf]
      obtain ⟨h', hres, hacc', hnext', hbuf', hload'⟩ := hacc₂.release hb₂ hgone₂
      refine ⟨{ v with data := some h.nextBuffer, capacity := newCap }, h', ?_, ?_, Nat.le_refl _⟩
      · rw [← hsize] at hres₂
        rw [reserve_grow hle, hd, hres₂]
        simp [operatorDelete, hres]
      · have hupdate : ∀ b', b' ≠ b → h'.buffers b' = (h.alloc newCap).2.buffers b' := by
          intro b' hb'
          rw [hbuf', Function.update_of_ne hb', hbuf₂]
        refine howns.becomes_new hacc' (by omega) (hnext'.trans hnext₂) ?_ ?_ ?_ ?_
        · rw [hupdate _ (Nat.ne_of_gt hlt), hbuf₁]
        · intro k
          rw [hload']
          exact hs₂ k
        · intro b' hb' hlt'
          have hne : b' ≠ b := by
            rintro rfl
            exact hb' hd
          rw [hupdate b' hne, hold₁ b' hlt', hload', hother₂ b' hne (Nat.ne_of_lt hlt')]
          exact ⟨rfl, rfl⟩
        · intro b' hb'
          obtain rfl : b = b' := Option.some.inj (hd.symm.trans hb')
          rw [hbuf', Function.update_self]

/-- The first step of `push_back` makes room for one more element. -/
theorem makeRoom_spec (moved : T → T) (hacc : Accounted h temps) (howns : Owns h v xs) :
    ∃ v' h', (if v.size = v.capacity then
        v.reserve moved (if v.capacity ≠ 0 then v.capacity * 2 else 4) h
      else some (v, h)) = some (v', h') ∧ Becomes temps v h xs v' h' ∧
      xs.length < v'.capacity := by
  have hsize := howns.size
  have hcap := howns.size_le
  by_cases hfull : v.size = v.capacity
  · obtain ⟨v', h', hres, hb, hroom⟩ := reserve_spec moved hacc howns
      (if v.capacity ≠ 0 then v.capacity * 2 else 4)
    refine ⟨v', h', by rw [if_pos hfull, hres], hb, Nat.lt_of_lt_of_le ?_ hroom⟩
    split_ifs <;> omega
  · exact ⟨v, h, if_neg hfull, .refl hacc howns, by omega⟩

theorem pushBack_eq (moved : T → T) (x : T) (v : Vec) (h : ObjHeap T) :
    v.pushBack moved x h =
      (if v.size = v.capacity then
          v.reserve moved (if v.capacity ≠ 0 then v.capacity * 2 else 4) h.constructTemp.2
        else some (v, h.constructTemp.2)).bind fun p => p.1.data.bind fun b =>
          (p.2.construct b p.1.size x).bind fun h' =>
            some ({ p.1 with size := p.1.size + 1 }, h'.destroyTemp h.constructTemp.1) := by
  unfold Vec.pushBack
  by_cases hfull : v.size = v.capacity
  · rw [if_pos hfull]
    exact if_pos hfull
  · rw [if_neg hfull]
    exact if_neg hfull

theorem pushBack_spec (moved : T → T) (hacc : Accounted h temps) (howns : Owns h v xs) (x : T) :
    ∃ v' h', v.pushBack moved x h = some (v', h') ∧ Becomes temps v h (xs ++ [x]) v' h' := by
  obtain ⟨v₁, h₁, hres₁, hb₁, hroom⟩ :=
    makeRoom_spec moved hacc.constructTemp howns.constructTemp
  obtain ⟨b, hd, hbuf, hs⟩ := hb₁.owns.exists_data (Nat.lt_of_le_of_lt (Nat.zero_le _) hroom)
  obtain ⟨h₂, hres₂, hacc₂, hs₂, hw₂⟩ := hs.construct hb₁.accounted hbuf hroom x
  have hb₂ := hb₁.owns.becomes hb₁.accounted hd hacc₂ hs₂ (by simp; omega) hw₂
  rw [List.length_append, List.length_singleton, ← hb₁.owns.size] at hb₂
  rw [← hb₁.owns.size] at hres₂
  refine ⟨_, _, ?_, (hb₁.trans hb₂).of_temp⟩
  rw [pushBack_eq, hres₁]
  simp [hd, hres₂]

end Growing

/-! ## Shrinking -/

section Shrinking

theorem popBack_spec (hacc : Accounted h temps) (howns : Owns h v xs) :
    ∃ v' h', v.popBack h = some (v', h') ∧ Becomes temps v h xs.dropLast v' h' := by
  have hsize := howns.size
  have hcap := howns.size_le
  by_cases hzero : v.size = 0
  · obtain rfl : xs = [] := List.eq_nil_of_length_eq_zero (by omega)
    exact ⟨v, h, if_pos hzero, .refl hacc howns⟩
  · have hne : xs ≠ [] := List.ne_nil_of_length_pos (by omega)
    obtain ⟨b, hd, hbuf, hs⟩ := howns.exists_data (by omega)
    obtain ⟨h', hres, hacc', hs', hw⟩ := hs.destroyLast hacc hne
    have hb := howns.becomes hacc hd hacc' hs' (by simp; omega) hw
    rw [List.length_dropLast, ← hsize] at hb
    rw [← hsize] at hres
    exact ⟨_, h', by simp [Vec.popBack, hzero, hd, hres], hb⟩

theorem clearLoop_spec {count : Nat} (hacc : Accounted h temps) (howns : Owns h v xs)
    (hcount : xs.length = count) :
    ∃ v' h', Vec.clearLoop count v h = some (v', h') ∧ Becomes temps v h [] v' h' := by
  induction count generalizing v h xs with
  | zero =>
      obtain rfl := List.eq_nil_of_length_eq_zero hcount
      exact ⟨v, h, rfl, .refl hacc howns⟩
  | succ count ih =>
      obtain ⟨v₁, h₁, hres₁, hb₁⟩ := popBack_spec hacc howns
      obtain ⟨v', h', hres, hb⟩ := ih hb₁.accounted hb₁.owns (by simp; omega)
      exact ⟨v', h', by simp [Vec.clearLoop, hres₁, hres], hb₁.trans hb⟩

theorem clear_spec (hacc : Accounted h temps) (howns : Owns h v xs) :
    ∃ v' h', v.clear h = some (v', h') ∧ Becomes temps v h [] v' h' :=
  clearLoop_spec hacc howns howns.size.symm

theorem operatorDelete_spec (hacc : Accounted h temps) (howns : Owns h v []) :
    ∃ h', operatorDelete h v.data = some h' ∧ Becomes temps v h [] {} h' := by
  cases hd : v.data with
  | none =>
      have hev := Evolves.refl hacc v
      refine ⟨h, rfl, hacc, owns_empty h, hev.next, hev.other, fun b hb => by simp at hb, ?_⟩
      intro b hb
      exact Or.inr ((hev.kept b hb).resolve_left (by simp [hd]))
  | some b =>
      obtain ⟨hbuf, hs⟩ := howns.held b hd
      obtain ⟨h', hres, hacc', hnext, hbuf', hload⟩ := hacc.release hbuf hs
      refine ⟨h', hres, hacc', owns_empty h', Nat.le_of_eq hnext.symm, ?_,
        fun b hb => by simp at hb, ?_⟩
      · intro b' hb' _
        rw [hd, ne_eq, Option.some.injEq] at hb'
        exact ⟨by rw [hbuf', Function.update_of_ne (Ne.symm hb')], congrFun hload b'⟩
      · intro b' hb'
        obtain ⟨capacity, hc⟩ := Option.ne_none_iff_exists'.1 hb'
        refine Or.inr ⟨?_, hnext ▸ hacc'.allocated b' capacity hc⟩
        rw [hd, ne_eq, Option.some.injEq]
        rintro rfl
        rw [hbuf', Function.update_self] at hb'
        exact hb' rfl

theorem destruct_spec (hacc : Accounted h temps) (howns : Owns h v xs) :
    ∃ h', v.destruct h = some h' ∧ Becomes temps v h [] {} h' := by
  obtain ⟨v₁, h₁, hres₁, hb₁⟩ := clear_spec hacc howns
  obtain ⟨h', hres, hb⟩ := operatorDelete_spec hb₁.accounted hb₁.owns
  exact ⟨h', by simp [Vec.destruct, hres₁, hres], hb₁.trans hb⟩

end Shrinking

/-! ## In the middle -/

section Middle

theorem insert_spec (moved : T → T) {pos : Nat} (hacc : Accounted h temps) (howns : Owns h v xs)
    (hpos : pos ≤ xs.length) (x : T) :
    ∃ v' h', v.insert moved pos x h = some (pos, v', h') ∧
      Becomes temps v h (xs.insertIdx pos x) v' h' := by
  obtain ⟨v₁, h₁, hres₁, hb₁⟩ :=
    pushBack_spec moved hacc.constructTemp howns.constructTemp x
  have hsize : v₁.size = xs.length + 1 := by simpa using hb₁.owns.size
  have hcap := hb₁.owns.size_le
  obtain ⟨b, hd, hbuf, hs⟩ := hb₁.owns.exists_data (by omega)
  obtain ⟨h₂, hres₂, hacc₂, hs₂, hw₂⟩ := bubble_spec moved (xs.length - pos)
    (i := xs.length) hb₁.accounted hs (by simp) (Nat.sub_le _ _)
  have hlist : ((xs ++ [x]).eraseIdx xs.length).insertIdx (xs.length - (xs.length - pos))
      (xs ++ [x])[xs.length] = xs.insertIdx pos x := by
    rw [Nat.sub_sub_self hpos, List.eraseIdx_append_of_length_le (Nat.le_refl _)]
    simp
  rw [hlist] at hs₂
  have hlen : (xs.insertIdx pos x).length = xs.length + 1 :=
    List.length_insertIdx_of_le_length hpos x
  have hb₂ := hb₁.owns.becomes hb₁.accounted hd hacc₂ hs₂ (by omega) hw₂
  rw [hlen, ← hsize] at hb₂
  refine ⟨v₁, _, ?_, (hb₁.trans hb₂).of_temp⟩
  calc v.insert moved pos x h
      = (v.pushBack moved x h.constructTemp.2).bind fun p => p.1.data.bind fun b =>
          (bubble moved b (p.1.size - 1 - pos) (p.1.size - 1) p.2).bind fun h' =>
            some (pos, p.1, h'.destroyTemp h.constructTemp.1) := rfl
    _ = _ := by simp [hres₁, hd, hsize, hres₂]

theorem erase_spec (moved : T → T) {pos : Nat} (hacc : Accounted h temps) (howns : Owns h v xs)
    (hpos : pos < xs.length) :
    ∃ v' h', v.erase moved pos h = some (pos, v', h') ∧
      Becomes temps v h (xs.eraseIdx pos) v' h' := by
  have hsize := howns.size
  have hcap := howns.size_le
  obtain ⟨b, hd, hbuf, hs⟩ := howns.exists_data (by omega)
  obtain ⟨h₁, x, hres₁, hacc₁, hs₁, hw₁⟩ := shiftLeft_spec moved (xs.length - 1 - pos)
    (i := pos) hacc hs (by omega)
  have hlen : (xs.eraseIdx pos ++ [x]).length = xs.length := by
    rw [List.length_append, List.length_eraseIdx_of_lt hpos, List.length_singleton]
    omega
  have hb₁ := howns.becomes hacc hd hacc₁ hs₁ (by omega) hw₁
  rw [hlen, ← hsize] at hb₁
  obtain ⟨v', h', hres, hb⟩ := popBack_spec hb₁.accounted hb₁.owns
  rw [List.dropLast_concat] at hb
  exact ⟨v', h', by simp [Vec.erase, hd, hsize, hres₁, hres], hb₁.trans hb⟩

end Middle

/-! ## Copying -/

section Copying

variable {other : Vec}

theorem Owns.frame (howns : Owns h other ys) (hacc : Accounted h temps) (hev : Evolves v v' h h')
    (hne : ∀ b, other.data = some b → v.data ≠ some b) : Owns h' other ys := by
  refine ⟨howns.size, howns.size_le, howns.null, fun b hb => ?_⟩
  obtain ⟨hbuf, hs⟩ := howns.held b hb
  obtain ⟨hbuf', hload⟩ := hev.other b (hne b hb) (hacc.allocated b _ hbuf)
  refine ⟨hbuf'.trans hbuf, fun i => ?_⟩
  rw [hload]
  exact hs i

theorem copyLoop_spec (moved : T → T) (count : Nat) {h₀ : ObjHeap T} (hacc₀ : Accounted h₀ temps)
    (howns₀ : Owns h₀ other xs) (hb : Becomes temps {} h₀ (xs.take i) v h)
    (hcount : i + count = xs.length) :
    ∃ v' h', Vec.copyLoop moved other.data count i v h = some (v', h') ∧
      Becomes temps {} h₀ xs v' h' := by
  induction count generalizing i v h with
  | zero =>
      rw [List.take_of_length_le (by omega)] at hb
      exact ⟨v, h, rfl, hb⟩
  | succ count ih =>
      have hi : i < xs.length := by omega
      have howns : Owns h other xs := howns₀.frame hacc₀ hb.evolves (by simp)
      have hsize := howns.size
      have hcap := howns.size_le
      obtain ⟨b, hd, -, hs⟩ := howns.exists_data (by omega)
      obtain ⟨v₁, h₁, hres₁, hb₁⟩ := pushBack_spec moved hb.accounted hb.owns xs[i]
      rw [List.take_append_getElem hi] at hb₁
      obtain ⟨v', h', hres, hb'⟩ := ih (hb.trans hb₁) (by omega)
      refine ⟨v', h', ?_, hb'⟩
      rw [hd] at hres ⊢
      simp [Vec.copyLoop, hs.load hi, hres₁, hres]

theorem copy_spec (moved : T → T) (hacc : Accounted h temps) (howns : Owns h other xs) :
    ∃ v' h', Vec.copy moved other h = some (v', h') ∧ Becomes temps {} h xs v' h' := by
  obtain ⟨v₁, h₁, hres₁, hb₁, -⟩ :=
    reserve_spec moved hacc (owns_empty h) other.size
  obtain ⟨v', h', hres, hb⟩ := copyLoop_spec moved other.size (i := 0) hacc howns hb₁
    (by rw [Nat.zero_add, howns.size])
  exact ⟨v', h', by simp [Vec.copy, hres₁, hres], hb⟩

end Copying

end UnnamedKernel.Containers
