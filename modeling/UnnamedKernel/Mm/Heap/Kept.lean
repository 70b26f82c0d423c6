import UnnamedKernel.Mm.Heap.Loop

/-!
# Pages that stay mapped

The pages the kernel has given out are mapped to frames of their own. The page loop
keeps them, wherever it stops, and adds its own pages when it reaches its end.
-/

namespace UnnamedKernel.Mm.Heap

open UnnamedKernel.Lib UnnamedKernel.Kernel Vmm RadixTree

/-- The pages of `O` are mapped to frames of their own, in a pagemap that has grown from the one of
`m₀` and has no large pages on the way to `W`. -/
structure Kept (env : Env) (root : Frame) (W O : Set Word) (m₀ m : Machine) : Prop where
  tree : Tree env.frames env.slide root m
  clear : UpperAll tableOf (entry m.mem env.slide) root 3 (ClearFor W)
  backed : ∀ v ∈ O, ∃ k, Backed env root m v k
  distinct : ∀ v ∈ O, ∀ w ∈ O, ∀ k, Backed env root m v k → Backed env root m w k → v = w
  writable : UpperAll tableOf (entry m₀.mem env.slide) root 3 (WritableFor W) →
    UpperAll tableOf (entry m.mem env.slide) root 3 (WritableFor W) ∧
      ∀ v ∈ O, Writable env root m v

namespace Kept

variable {env : Env} {root : Frame} {W O P : Set Word} {m₀ m m' : Machine}

theorem empty (h : Tree env.frames env.slide root m)
    (hclear : UpperAll tableOf (entry m.mem env.slide) root 3 (ClearFor W)) :
    Kept env root W ∅ m m :=
  ⟨h, hclear, fun _ hv => hv.elim, fun _ hv => hv.elim, fun hup => ⟨hup, fun _ hv => hv.elim⟩⟩

theorem advances (hframes : FreshFrames env.frames) (h : Kept env root W O m₀ m)
    (ha : Advances env.frames env.slide root P m m')
    (hapart : ∀ v ∈ O, ∀ w ∈ P, path v ≠ path w) :
    Kept env root W O m₀ m' ∧
      ∀ v ∈ O, walk m'.mem env.slide root v = walk m.mem env.slide root v := by
  refine ⟨⟨ha.tree, ha.upper _ (linkable_clearFor W) h.clear, fun v hv => ?_,
    fun v hv w hw k hvk hwk => ?_, fun hup => ?_⟩, fun v hv => ha.walks v (hapart v hv)⟩
  · obtain ⟨k, hk⟩ := h.backed v hv
    exact ⟨k, hk.advances hframes ha (hapart v hv)⟩
  · -- the frames are those of before
    obtain ⟨i, hi⟩ := h.backed v hv
    obtain ⟨j, hj⟩ := h.backed w hw
    obtain rfl := (hi.advances hframes ha (hapart v hv)).unique hframes hvk
    obtain rfl := (hj.advances hframes ha (hapart w hw)).unique hframes hwk
    exact h.distinct v hv w hw _ hi hj
  · obtain ⟨hupper, hwritable⟩ := h.writable hup
    exact ⟨ha.upper _ (linkable_writableFor W) hupper,
      fun v hv => (hwritable v hv).advances ha (hapart v hv)⟩

/-- The page loop keeps the pages of `O`, and adds its own when it reaches its end. -/
theorem loop (hcr3 : env.cr3 = root.val) (hframes : FreshFrames env.frames)
    (h : Kept env root W O m₀ m) {base : Word} {count : Nat}
    (hwindow : ∀ v ∈ pagesFrom base count 0, v ∈ W)
    (hpaths : (pagesFrom base count 0).Pairwise fun v w => path v ≠ path w)
    (hapart : ∀ v ∈ O, ∀ w ∈ pagesFrom base count 0, path v ≠ path w) :
    (∀ v ∈ O, walk (mapPages env base count 0 m).2.mem env.slide root v =
      walk m.mem env.slide root v) ∧
    Kept env root W O m₀ (mapPages env base count 0 m).2 ∧
    ((mapPages env base count 0 m).1 = none →
      Kept env root W (O ∪ {v | v ∈ pagesFrom base count 0}) m₀
        (mapPages env base count 0 m).2) := by
  have hclear : UpperAll tableOf (entry m.mem env.slide) root 3
      (ClearFor {v | v ∈ pagesFrom base count 0}) := UpperAll.clearFor_mono h.clear hwindow
  have hadv := mapPages_advances hcr3 hframes base count 0 h.tree hclear
  obtain ⟨hkept, hwalks⟩ := h.advances hframes hadv hapart
  refine ⟨hwalks, hkept, fun hdone => ?_⟩
  obtain ⟨hbacked, hdistinct, hwritable⟩ :=
    mapPages_done hcr3 hframes base count 0 h.tree hclear hpaths hdone
  set m' := (mapPages env base count 0 m).2
  -- the frames of the new pages were taken later than those of the old ones
  have hlater : ∀ v ∈ O, ∀ w ∈ pagesFrom base count 0, ∀ k, Backed env root m' v k →
      Backed env root m' w k → False := by
    intro v hv w hw k hvk hwk
    obtain ⟨i, hi⟩ := h.backed v hv
    obtain ⟨j, hj, hbj⟩ := hbacked w hw
    obtain rfl := (hi.advances hframes hadv (hapart v hv)).unique hframes hvk
    obtain rfl := hbj.unique hframes hwk
    exact absurd hi.taken (Nat.not_lt.2 hj)
  refine ⟨hkept.tree, hkept.clear, ?_, ?_, fun hup => ?_⟩
  · rintro v (hv | hv)
    · exact hkept.backed v hv
    · obtain ⟨k, -, hk⟩ := hbacked v hv
      exact ⟨k, hk⟩
  · rintro v (hv | hv) w (hw | hw) k hvk hwk
    · exact hkept.distinct v hv w hw k hvk hwk
    · exact (hlater v hv w hw k hvk hwk).elim
    · exact (hlater w hw v hv k hwk hvk).elim
    · exact hdistinct v hv w hw k hvk hwk
  · obtain ⟨hupper, hold⟩ := hkept.writable hup
    refine ⟨hupper, ?_⟩
    rintro v (hv | hv)
    · exact hold v hv
    · exact hwritable (UpperAll.writableFor_mono (h.writable hup).1 hwindow) v hv

end Kept

end UnnamedKernel.Mm.Heap
