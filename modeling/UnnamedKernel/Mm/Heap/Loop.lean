import UnnamedKernel.Mm.Heap.Model
import UnnamedKernel.Mm.Vmm.Demand

/-!
# The page loop

`mapPages` takes a frame for each page and maps it. However it ends, only the
translations of its pages may have changed; when it reaches its end, each page is
mapped to a frame of its own.
-/

namespace UnnamedKernel.Mm.Heap

open UnnamedKernel.Lib UnnamedKernel.Kernel Vmm RadixTree

/-- The pages that the loop maps from page `i` on. -/
def pagesFrom (base : Word) : Nat → Word → List Word
  | 0, _ => []
  | count + 1, i => (base + i * pageSize) :: pagesFrom base count (i + 1)

theorem length_pagesFrom (base : Word) (count : Nat) (i : Word) :
    (pagesFrom base count i).length = count := by
  induction count generalizing i with
  | zero => rfl
  | succ count ih => rw [pagesFrom, List.length_cons, ih]

/-- Page `v` is mapped to frame `k`, which is no table, and not executable. -/
structure Backed (env : Env) (root : Frame) (m : Machine) (v : Word) (k : Nat) : Prop where
  answered : env.frames k ≠ 0
  taken : k < m.taken
  data : NotTable env.frames env.slide root m k
  mapped : ∃ mp, walk m.mem env.slide root v = some mp ∧ mp.phys = env.frames k ∧
    mp.access.noExecute = true

def Writable (env : Env) (root : Frame) (m : Machine) (v : Word) : Prop :=
  ∃ mp, walk m.mem env.slide root v = some mp ∧ mp.access.writable = true

section Backed

variable {env : Env} {root : Frame} {m m' : Machine} {v w : Word} {j k : Nat} {pages : Set Word}

theorem Backed.unique (hframes : FreshFrames env.frames) (h : Backed env root m v j)
    (h' : Backed env root m v k) : j = k := by
  obtain ⟨mp, hw, hp, -⟩ := h.mapped
  obtain ⟨mp', hw', hp', -⟩ := h'.mapped
  obtain rfl := Option.some.inj (hw.symm.trans hw')
  exact hframes.distinct j k h.answered (hp.symm.trans hp')

theorem Backed.advances (hframes : FreshFrames env.frames) (h : Backed env root m v k)
    (ha : Advances env.frames env.slide root pages m m') (hv : ∀ w ∈ pages, path v ≠ path w) :
    Backed env root m' v k := by
  refine ⟨h.answered, h.taken.trans_le ha.taken, ha.notTable hframes h.taken h.answered h.data, ?_⟩
  rw [ha.walks v hv]
  exact h.mapped

theorem Writable.advances (h : Writable env root m v)
    (ha : Advances env.frames env.slide root pages m m') (hv : ∀ w ∈ pages, path v ≠ path w) :
    Writable env root m' v := by
  unfold Writable
  rw [ha.walks v hv]
  exact h

theorem advances_taken (h : Tree env.frames env.slide root m) (hmem : m'.mem = m.mem)
    (hle : m.taken ≤ m'.taken) : Advances env.frames env.slide root pages m m' :=
  .of_grows (.of_taken h hmem hle)

theorem tree_take (h : Tree env.frames env.slide root m) :
    Tree env.frames env.slide root { m with taken := m.taken + 1 } :=
  Grows.tree (.of_taken h rfl (Nat.le_succ m.taken))

theorem advances_take (h : Tree env.frames env.slide root m) :
    Advances env.frames env.slide root pages m { m with taken := m.taken + 1 } :=
  advances_taken h rfl (Nat.le_succ _)

end Backed

section Loop

variable {env : Env} {root : Frame} (hcr3 : env.cr3 = root.val) (hframes : FreshFrames env.frames)

include hcr3

omit hcr3 in
theorem mapPages_noFrame (base : Word) (count : Nat) (i : Word) (m : Machine)
    (hpage : env.frames m.taken = 0) :
    mapPages env base (count + 1) i m =
      (some .outOfMemory, { m with taken := m.taken + 1, error := some .outOfMemory }) :=
  if_pos hpage

theorem mapPages_succ (base : Word) (count : Nat) (i : Word) (m : Machine)
    (hpage : env.frames m.taken ≠ 0) :
    mapPages env base (count + 1) i m =
      if (mapVirtual env.frames env.slide (root.val + env.slide) (base + i * pageSize)
          (env.frames m.taken) (MapFlags.read ||| MapFlags.write)
          { m with taken := m.taken + 1 }).1 then
        mapPages env base count (i + 1)
          (mapVirtual env.frames env.slide (root.val + env.slide) (base + i * pageSize)
            (env.frames m.taken) (MapFlags.read ||| MapFlags.write)
            { m with taken := m.taken + 1 }).2
      else (some .mapFail, (mapVirtual env.frames env.slide (root.val + env.slide)
          (base + i * pageSize) (env.frames m.taken) (MapFlags.read ||| MapFlags.write)
          { m with taken := m.taken + 1 }).2.setError .mapFail) := by
  rw [← hcr3]
  exact if_neg hpage

include hframes

/-- The turn for one page, once its frame is there, when the later turns advance. -/
theorem mapPages_turn (base : Word) (count : Nat) (i : Word) {m : Machine}
    (h : Tree env.frames env.slide root m)
    (hclear : UpperAll tableOf (entry m.mem env.slide) root 3
      (ClearFor {v | v ∈ pagesFrom base (count + 1) i})) (hpage : env.frames m.taken ≠ 0)
    (hrest : ∀ m', Tree env.frames env.slide root m' →
      UpperAll tableOf (entry m'.mem env.slide) root 3
        (ClearFor {v | v ∈ pagesFrom base count (i + 1)}) →
      Advances env.frames env.slide root {v | v ∈ pagesFrom base count (i + 1)} m'
        (mapPages env base count (i + 1) m').2) :
    Advances env.frames env.slide root {v | v ∈ pagesFrom base (count + 1) i}
      { m with taken := m.taken + 1 } (mapPages env base (count + 1) i m).2 := by
  have htake : Tree env.frames env.slide root { m with taken := m.taken + 1 } :=
    tree_take h
  have hmap := (mapVirtual_advances (env.frames m.taken)
    (MapFlags.read ||| MapFlags.write) hframes htake
    (UpperAll.clearOn hclear (v := base + i * pageSize) (by simp [pagesFrom]))).mono
      (show _ ⊆ {v | v ∈ pagesFrom base (count + 1) i} by simp [pagesFrom])
  have hpages : ∀ v ∈ pagesFrom base count (i + 1), v ∈ pagesFrom base (count + 1) i :=
    fun v hv => List.mem_cons_of_mem _ hv
  rw [mapPages_succ hcr3 base count i m hpage]
  split_ifs
  · have hclear' := hmap.upper _ (linkable_clearFor _) hclear
    exact hmap.trans ((hrest _ hmap.tree (UpperAll.clearFor_mono hclear' hpages)).mono hpages)
  · exact hmap.trans (advances_taken hmap.tree rfl (Nat.le_refl _))

/-- However the loop ends, it advances at its pages. -/
theorem mapPages_advances (base : Word) (count : Nat) (i : Word) {m : Machine}
    (h : Tree env.frames env.slide root m)
    (hclear : UpperAll tableOf (entry m.mem env.slide) root 3
      (ClearFor {v | v ∈ pagesFrom base count i})) :
    Advances env.frames env.slide root {v | v ∈ pagesFrom base count i} m
      (mapPages env base count i m).2 := by
  induction count generalizing i m with
  | zero => exact .refl h
  | succ count ih =>
      by_cases hpage : env.frames m.taken = 0
      · rw [mapPages_noFrame base count i m hpage]
        exact advances_taken h rfl (Nat.le_succ _)
      · exact (advances_take h).trans
          (mapPages_turn hcr3 hframes base count i h hclear hpage fun _ => ih (i + 1))

theorem mapPages_done (base : Word) (count : Nat) (i : Word) {m : Machine}
    (h : Tree env.frames env.slide root m)
    (hclear : UpperAll tableOf (entry m.mem env.slide) root 3
      (ClearFor {v | v ∈ pagesFrom base count i}))
    (hpaths : (pagesFrom base count i).Pairwise fun v w => path v ≠ path w)
    (hdone : (mapPages env base count i m).1 = none) :
    (∀ v ∈ pagesFrom base count i, ∃ k, m.taken ≤ k ∧
      Backed env root (mapPages env base count i m).2 v k) ∧
    (∀ v ∈ pagesFrom base count i, ∀ w ∈ pagesFrom base count i, ∀ k,
      Backed env root (mapPages env base count i m).2 v k →
      Backed env root (mapPages env base count i m).2 w k → v = w) ∧
    (UpperAll tableOf (entry m.mem env.slide) root 3
        (WritableFor {v | v ∈ pagesFrom base count i}) →
      ∀ v ∈ pagesFrom base count i, Writable env root (mapPages env base count i m).2 v) := by
  induction count generalizing i m with
  | zero => simp [pagesFrom]
  | succ count ih =>
      by_cases hpage : env.frames m.taken = 0
      · rw [mapPages_noFrame base count i m hpage] at hdone
        simp at hdone
      obtain ⟨hhead, htail⟩ := List.pairwise_cons.1 hpaths
      have htake : Tree env.frames env.slide root { m with taken := m.taken + 1 } :=
        tree_take h
      have hclear₀ := UpperAll.clearOn hclear (v := base + i * pageSize) (by simp [pagesFrom])
      have hmap := mapVirtual_advances (env.frames m.taken)
        (MapFlags.read ||| MapFlags.write) hframes htake hclear₀
      have hmapped := mapVirtual_mapped (env.frames m.taken)
        (MapFlags.read ||| MapFlags.write) hframes htake hclear₀
        (hframes.aligned _) (hframes.bound _) (by decide)
      rw [mapPages_succ hcr3 base count i m hpage] at hdone ⊢
      set r := mapVirtual env.frames env.slide (root.val + env.slide) (base + i * pageSize)
        (env.frames m.taken) (MapFlags.read ||| MapFlags.write) { m with taken := m.taken + 1 }
      by_cases hok : r.1 = true
      swap
      · rw [if_neg hok] at hdone
        simp at hdone
      rw [if_pos hok] at hdone ⊢
      have hclear₁ : UpperAll tableOf (entry r.2.mem env.slide) root 3
          (ClearFor {v | v ∈ pagesFrom base count (i + 1)}) :=
        UpperAll.clearFor_mono (hmap.upper _ (linkable_clearFor _) hclear) fun v hv =>
          List.mem_cons_of_mem _ hv
      have hadv := mapPages_advances hcr3 hframes base count (i + 1) hmap.tree hclear₁
      obtain ⟨hbacked, hdistinct, hwritable⟩ := ih (i + 1) hmap.tree hclear₁ htail hdone
      obtain ⟨mp, hwalk, hphys, hexec, hwrite⟩ := hmapped hok
      -- the page of this turn keeps its mapping through the later turns
      have hfirst : Backed env root r.2 (base + i * pageSize) m.taken :=
        ⟨hpage, hmap.taken, hmap.notTable hframes (Nat.lt_succ_self _) hpage
          (h.notTable (Nat.le_refl _) hpage), mp, hwalk, hphys, hexec⟩
      have hfirst' := hfirst.advances hframes hadv hhead
      have hlater : ∀ w ∈ pagesFrom base count (i + 1), ∀ k,
          Backed env root (mapPages env base count (i + 1) r.2).2 w k → m.taken < k := by
        intro w hw k hk
        obtain ⟨j, hj, hbj⟩ := hbacked w hw
        rw [← hbj.unique hframes hk]
        exact Nat.lt_of_lt_of_le (Nat.lt_of_succ_le hmap.taken) hj
      refine ⟨fun v hv => ?_, fun v hv w hw k hvk hwk => ?_, fun hup v hv => ?_⟩
      · rcases List.mem_cons.1 hv with rfl | hv
        · exact ⟨m.taken, Nat.le_refl _, hfirst'⟩
        · obtain ⟨k, hk, hb⟩ := hbacked v hv
          exact ⟨k, (Nat.le_of_succ_le hmap.taken).trans hk, hb⟩
      · rcases List.mem_cons.1 hv with rfl | hv <;> rcases List.mem_cons.1 hw with rfl | hw
        · rfl
        · obtain rfl := hfirst'.unique hframes hvk
          exact absurd (hlater w hw _ hwk) (Nat.lt_irrefl _)
        · obtain rfl := hfirst'.unique hframes hwk
          exact absurd (hlater v hv _ hvk) (Nat.lt_irrefl _)
        · exact hdistinct v hv w hw k hvk hwk
      · rcases List.mem_cons.1 hv with rfl | hv
        · have hw₀ : UpperAll tableOf (entry m.mem env.slide) root 3
              (WritableFor {base + i * pageSize}) :=
            UpperAll.writableFor_mono hup fun v hv => hv ▸ List.mem_cons_self ..
          exact Writable.advances ⟨mp, hwalk, hwrite hw₀ (by decide)⟩ hadv hhead
        · have hup' := hmap.upper _ (linkable_writableFor _) hup
          exact hwritable
            (UpperAll.writableFor_mono hup' fun w hw => List.mem_cons_of_mem _ hw) v hv

/-- The loop reaches its end when `alloc_page` has the frames that its pages need. -/
theorem mapPages_demand (base : Word) (count : Nat) (i : Word) {m : Machine}
    (h : Tree env.frames env.slide root m) (hvisible : Visible env.frames env.slide root m)
    (hclear : UpperAll tableOf (entry m.mem env.slide) root 3
      (ClearFor {v | v ∈ pagesFrom base count i}))
    (hpages : ∀ v ∈ pagesFrom base count i, v ≠ 0 ∧ v.toNat % 4096 = 0) :
    (mapPages env base count i m).1 = none ↔ Supplied env.frames m.taken
      (framesNeeded (hasTable env.slide root m) (pagesFrom base count i)) := by
  induction count generalizing i m with
  | zero => simp [mapPages, pagesFrom, framesNeeded, supplied_zero]
  | succ count ih =>
      rw [pagesFrom, framesNeeded, Nat.add_assoc, supplied_add, supplied_one]
      by_cases hpage : env.frames m.taken = 0
      · rw [mapPages_noFrame base count i m hpage]
        simp [hpage]
      obtain ⟨hv0, hvAligned⟩ := hpages (base + i * pageSize) (by simp [pagesFrom])
      have htake : Tree env.frames env.slide root { m with taken := m.taken + 1 } :=
        tree_take h
      have hclear₀ := UpperAll.clearOn hclear (v := base + i * pageSize) (by simp [pagesFrom])
      have hmap := mapVirtual_advances (env.frames m.taken)
        (MapFlags.read ||| MapFlags.write) hframes htake hclear₀
      have hadv : Advances env.frames env.slide root ∅ m { m with taken := m.taken + 1 } :=
        advances_take h
      obtain ⟨ok, m', hres, hsup, -, -, htables⟩ :=
        mapVirtual_demand (hvisible.advances hadv) hframes htake
          (MapFlags.read ||| MapFlags.write) hclear₀ hv0 hvAligned hpage (hframes.aligned _)
      rw [mapPages_succ hcr3 base count i m hpage, hres]
      rw [hres] at hmap
      have hhas : hasTable env.slide root { m with taken := m.taken + 1 } =
          hasTable env.slide root m := rfl
      rw [hhas] at hsup htables
      rw [supplied_add]
      by_cases hok : ok = true
      · obtain ⟨htaken, htable⟩ := htables hok
        have hclear₁ : UpperAll tableOf (entry m'.mem env.slide) root 3
            (ClearFor {v | v ∈ pagesFrom base count (i + 1)}) :=
          UpperAll.clearFor_mono (hmap.upper _ (linkable_clearFor _) hclear) fun v hv =>
            List.mem_cons_of_mem _ hv
        have hrest := ih (i + 1) hmap.tree (hvisible.advances ((advances_take h).trans hmap))
          hclear₁ fun v hv => hpages v (List.mem_cons_of_mem _ hv)
        rw [framesNeeded_congr _ htable, htaken] at hrest
        simp only [if_pos hok, hrest]
        exact ⟨fun hs => ⟨hpage, hsup.1 hok, hs⟩, fun hs => hs.2.2⟩
      · simp only [if_neg hok]
        exact ⟨fun he => absurd he (by simp), fun hs => absurd (hsup.2 hs.2.1) hok⟩

omit hframes in
theorem mapPages_null (base : Word) (count : Nat) (i : Word) (m : Machine)
    (hnull : (0 : Word) ∈ pagesFrom base count i) : (mapPages env base count i m).1 ≠ none := by
  induction count generalizing i m with
  | zero => simp [pagesFrom] at hnull
  | succ count ih =>
      by_cases hpage : env.frames m.taken = 0
      · rw [mapPages_noFrame base count i m hpage]
        simp
      rw [mapPages_succ hcr3 base count i m hpage]
      rcases List.mem_cons.1 hnull with h0 | hnull
      · have hfail : ∀ s, (mapVirtual env.frames env.slide (root.val + env.slide)
            (base + i * pageSize) (env.frames m.taken) (MapFlags.read ||| MapFlags.write) s).1 =
              false := by
          intro s
          unfold mapVirtual
          simp only [← h0]
          rfl
        rw [hfail]
        simp
      · split_ifs
        · exact ih (i + 1) _ hnull
        · simp

end Loop

end UnnamedKernel.Mm.Heap
