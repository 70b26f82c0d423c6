import Mathlib.Logic.Equiv.Basic
import UnnamedKernel.Containers.Operations
import UnnamedKernel.Lib.Run

/-!
# Programs with vectors refine programs with lists

`ListProgram` is what the vectors stand for: the same calls, on lists. `Refines` relates the two,
each call preserves it, and its consequences for a whole run are the main result.
-/

namespace UnnamedKernel.Containers

open UnnamedKernel.Lib ObjHeap

variable {T : Type} {moved : T → T} {h h' h₁ : ObjHeap T} {v v' w : Vec} {xs ys : List T}
  {n m : Nat} {x : T}

/-! ## The same programs on lists -/

/-- The lists, in the order of construction; a list that has been destroyed is `none`. -/
abbrev ListProgram (T : Type) := List (Option (List T))

namespace ListProgram

def get (s : ListProgram T) (n : Nat) : Option (List T) := s[n]?.join

def eval (s : ListProgram T) : Arg T → Option T
  | .value x => some x
  | .element n i => do
      let xs ← s.get n
      xs[i]?

/-- A call on a list that does not exist, or at a position outside the list, is not legal. -/
def step (s : ListProgram T) : Call T → Option (ListProgram T)
  | .construct => some (s ++ [some []])
  | .copyConstruct n => do
      let xs ← s.get n
      some (s ++ [some xs])
  | .moveConstruct n => do
      let xs ← s.get n
      some (s.set n (some []) ++ [some xs])
  | .destroy n => do
      let _ ← s.get n
      some (s.set n none)
  | .copyAssign n m => do
      let _ ← s.get n
      let ys ← s.get m
      some (s.set n (some ys))
  | .moveAssign n m => do
      let _ ← s.get n
      let ys ← s.get m
      some ((s.set m (some [])).set n (some ys))
  | .swap n m => do
      let xs ← s.get n
      let ys ← s.get m
      some ((s.set n (some ys)).set m (some xs))
  | .reserve n _ => do
      let _ ← s.get n
      some s
  | .pushBack n arg => do
      let x ← s.eval arg
      let xs ← s.get n
      some (s.set n (some (xs ++ [x])))
  | .popBack n => do
      let xs ← s.get n
      some (s.set n (some xs.dropLast))
  | .insert n pos arg => do
      let x ← s.eval arg
      let xs ← s.get n
      if pos ≤ xs.length then some (s.set n (some (xs.insertIdx pos x))) else none
  | .erase n pos => do
      let xs ← s.get n
      if pos < xs.length then some (s.set n (some (xs.eraseIdx pos))) else none
  | .clear n => do
      let _ ← s.get n
      some (s.set n (some []))

end ListProgram

/-! ## Places -/

section Places

variable {α : Type} {l : List (Option α)} {a : α}

theorem join_getElem?_set (hn : l[n]?.join = some a) (o : Option α) (k : Nat) :
    (l.set n o)[k]?.join = if k = n then o else l[k]?.join := by
  have hlt : n < l.length := by
    by_contra hge
    simp [List.getElem?_eq_none (Nat.le_of_not_lt hge)] at hn
  by_cases hk : k = n
  · subst hk
    simp [hlt]
  · simp [hk, List.getElem?_set_ne (Ne.symm hk)]

theorem join_getElem?_concat (l : List (Option α)) (o : Option α) (k : Nat) :
    (l ++ [o])[k]?.join = if k = l.length then o else l[k]?.join := by
  rcases Nat.lt_trichotomy k l.length with hlt | rfl | hgt
  · rw [List.getElem?_append_left hlt, if_neg (Nat.ne_of_lt hlt)]
  · simp
  · rw [if_neg (Nat.ne_of_gt hgt), List.getElem?_eq_none (by simp; omega),
      List.getElem?_eq_none (Nat.le_of_lt hgt)]

theorem set_of_join_getElem? (hn : l[n]?.join = some a) : l.set n (some a) = l := by
  apply List.ext_getElem?
  intro k
  by_cases hk : n = k
  · subst hk
    rw [Option.join_eq_some_iff] at hn
    rw [hn]
    simp [(List.getElem?_eq_some_iff.1 hn).1]
  · rw [List.getElem?_set_ne hk]

theorem get_swap {a' : α} (hn : l[n]?.join = some a) (hm : l[m]?.join = some a') (k : Nat) :
    ((l.set n (some a')).set m (some a))[k]?.join = l[Equiv.swap n m k]?.join := by
  have hm' : (l.set n (some a'))[m]?.join = some a' := by
    rw [join_getElem?_set hn, hm]
    exact ite_self _
  rw [join_getElem?_set hm', join_getElem?_set hn, Equiv.swap_apply_def]
  split_ifs <;> simp_all

theorem get_move {e : α} (hn : l[n]?.join = some a) (k : Nat) :
    (l.set n (some e) ++ [some a])[k]?.join =
      (l ++ [some e])[Equiv.swap n l.length k]?.join := by
  have hlt : n ≠ l.length := by
    rintro rfl
    simp at hn
  rw [join_getElem?_concat, join_getElem?_concat, List.length_set, join_getElem?_set hn,
    Equiv.swap_apply_def]
  split_ifs <;> simp_all

theorem exists_of_rel_some {β : Type} {r : α → β → Prop} {o : Option α} {y : β}
    (hrel : Option.Rel r o (some y)) : ∃ a, o = some a ∧ r a y := by
  cases hrel with
  | some hr => exact ⟨_, rfl, hr⟩

theorem exists_of_some_rel {β : Type} {r : α → β → Prop} {o : Option β}
    (hrel : Option.Rel r (some a) o) : ∃ y, o = some y ∧ r a y := by
  cases hrel with
  | some hr => exact ⟨_, rfl, hr⟩

theorem rel_imp {β : Type} {r r' : α → β → Prop} {o : Option α} {o' : Option β}
    (hrel : Option.Rel r o o') (himp : ∀ a y, o = some a → r a y → r' a y) :
    Option.Rel r' o o' := by
  cases hrel with
  | none => exact .none
  | some hr => exact .some (himp _ _ rfl hr)

end Places

/-- The buffer of vector `n`. -/
def Program.dataAt (p : Program T) (n : Nat) : Option Nat := (p.get n).bind Vec.data

/-- Each vector stands for its list and has a buffer of its own, and every buffer is the
buffer of a vector. -/
structure Refines (p : Program T) (s : ListProgram T) : Prop where
  accounted : Accounted p.heap []
  length : p.vectors.length = s.length
  owns : ∀ n, Option.Rel (Owns p.heap) (p.get n) (s.get n)
  distinct : ∀ n m b, p.dataAt n = some b → p.dataAt m = some b → n = m
  kept : ∀ b, p.heap.buffers b ≠ none → ∃ n, p.dataAt n = some b

namespace Refines

variable {p p' : Program T} {s s' : ListProgram T}

theorem empty : Refines ({} : Program T) [] where
  accounted := accounted_empty
  length := rfl
  owns _ := .none
  distinct n m b hn := by simp [Program.dataAt, Program.get] at hn
  kept b hb := by simp at hb

theorem exists_vec (hR : Refines p s) (hn : s.get n = some xs) :
    ∃ v, p.get n = some v ∧ Owns p.heap v xs :=
  exists_of_rel_some (hn ▸ hR.owns n)

theorem exists_list (hR : Refines p s) (hn : p.get n = some v) :
    ∃ xs, s.get n = some xs ∧ Owns p.heap v xs :=
  exists_of_some_rel (hn ▸ hR.owns n)

theorem eval (hR : Refines p s) {arg : Arg T} (harg : s.eval arg = some x) :
    p.eval arg = some x := by
  cases arg with
  | value y => exact harg
  | element n i =>
      obtain ⟨xs, hxs, hx⟩ := Option.bind_eq_some_iff.1 harg
      obtain ⟨v, hv, howns⟩ := hR.exists_vec hxs
      have hi : i < xs.length := (List.getElem?_eq_some_iff.1 hx).1
      have hsize := howns.size
      have hcap := howns.size_le
      obtain ⟨b, hd, -, hs⟩ := howns.exists_data (by omega)
      simp [Program.eval, hv, hd, hs i, hx]

theorem permute (hR : Refines p s) (σ : Equiv.Perm Nat) (hheap : p'.heap = p.heap)
    (hlength : p'.vectors.length = s'.length) (hp : ∀ k, p'.get k = p.get (σ k))
    (hs : ∀ k, s'.get k = s.get (σ k)) : Refines p' s' where
  accounted := hheap ▸ hR.accounted
  length := hlength
  owns k := by
    rw [hheap, hp, hs]
    exact hR.owns (σ k)
  distinct k j b hk hj := by
    rw [Program.dataAt, hp] at hk hj
    exact σ.injective (hR.distinct (σ k) (σ j) b hk hj)
  kept b hb := by
    obtain ⟨k, hk⟩ := hR.kept b (hheap ▸ hb)
    refine ⟨σ.symm k, ?_⟩
    rw [Program.dataAt, hp, Equiv.apply_symm_apply]
    exact hk

theorem change {o : Option Vec} {c : Option (List T)} (hR : Refines p s)
    (hn : p.dataAt n = v.data) (hacc : Accounted h' []) (hev : Evolves v v' p.heap h')
    (hrel : Option.Rel (Owns h') o c) (hdata : o.bind Vec.data = v'.data) (hheap : p'.heap = h')
    (hlength : p'.vectors.length = s'.length) (hp' : ∀ k, p'.get k = if k = n then o else p.get k)
    (hs' : ∀ k, s'.get k = if k = n then c else s.get k) : Refines p' s' := by
  have hn' : p'.dataAt n = v'.data := by rw [Program.dataAt, hp', if_pos rfl, hdata]
  have hother : ∀ k, k ≠ n → p'.dataAt k = p.dataAt k := fun k hk => by
    rw [Program.dataAt, hp', if_neg hk, Program.dataAt]
  have hapart : ∀ k b, k ≠ n → p.dataAt k = some b → v'.data ≠ some b := by
    intro k b hk hb hd
    obtain ⟨w, hw, hwd⟩ := Option.bind_eq_some_iff.1 hb
    obtain ⟨ys, -, howns⟩ := hR.exists_list hw
    rcases hev.data b hd with hd | hge
    · exact hk (hR.distinct k n b hb (hn.trans hd))
    · exact absurd (hR.accounted.allocated b _ (howns.held b hwd).1) (Nat.not_lt.2 hge)
  refine ⟨hheap ▸ hacc, hlength, fun k => ?_, fun k j b hk hj => ?_, fun b hb => ?_⟩
  · rw [hheap, hp', hs']
    split_ifs with hk
    · exact hrel
    · refine rel_imp (hR.owns k) fun w ys hw howns => ?_
      refine howns.frame hR.accounted hev fun b hb hd => ?_
      have hk' : p.dataAt k = some b := by rw [Program.dataAt, hw]; exact hb
      exact hk (hR.distinct k n b hk' (hn.trans hd))
  · by_cases hkn : k = n <;> by_cases hjn : j = n
    · exact hkn.trans hjn.symm
    · rw [hkn, hn'] at hk
      rw [hother j hjn] at hj
      exact absurd hk (hapart j b hjn hj)
    · rw [hjn, hn'] at hj
      rw [hother k hkn] at hk
      exact absurd hj (hapart k b hkn hk)
    · rw [hother k hkn] at hk
      rw [hother j hjn] at hj
      exact hR.distinct k j b hk hj
  · rw [hheap] at hb
    rcases hev.kept b hb with hd | ⟨hne, hlt⟩
    · exact ⟨n, hn'.trans hd⟩
    · obtain ⟨k, hk⟩ := hR.kept b ((hev.other b hne hlt).1 ▸ hb)
      have hkn : k ≠ n := fun hkn => hne (hn.symm.trans (hkn ▸ hk))
      exact ⟨k, (hother k hkn).trans hk⟩

theorem update (hR : Refines p s) (hv : p.get n = some v) (hxs : s.get n = some xs)
    (hb : Becomes [] v p.heap ys v' h') :
    Refines (p.set n (some v') h') (s.set n (some ys)) := by
  refine hR.change (n := n) ?_ hb.accounted hb.evolves (.some hb.owns) rfl rfl ?_ ?_ ?_
  · simp [Program.dataAt, hv]
  · simpa [Program.set] using hR.length
  · exact join_getElem?_set hv _
  · exact join_getElem?_set hxs _

theorem destroy (hR : Refines p s) (hv : p.get n = some v) (hxs : s.get n = some xs)
    (hb : Becomes [] v p.heap [] {} h') : Refines (p.set n none h') (s.set n none) := by
  refine hR.change (n := n) ?_ hb.accounted hb.evolves .none rfl rfl ?_ ?_ ?_
  · simp [Program.dataAt, hv]
  · simpa [Program.set] using hR.length
  · exact join_getElem?_set hv _
  · exact join_getElem?_set hxs _

theorem add (hR : Refines p s) (hb : Becomes [] {} p.heap xs v h') :
    Refines (p.add v h') (s ++ [some xs]) := by
  refine hR.change (n := p.vectors.length) ?_ hb.accounted hb.evolves
    (.some hb.owns) rfl rfl ?_ ?_ ?_
  · simp [Program.dataAt, Program.get]
  · simpa [Program.add] using hR.length
  · exact join_getElem?_concat _ _
  · rw [hR.length]
    exact join_getElem?_concat _ _

theorem swap (hR : Refines p s) (hv : p.get n = some v) (hw : p.get m = some w)
    (hxs : s.get n = some xs) (hys : s.get m = some ys) :
    Refines ((p.set n (some w) p.heap).set m (some v) p.heap)
      ((s.set n (some ys)).set m (some xs)) := by
  refine hR.permute (Equiv.swap n m) rfl (by simpa [Program.set] using hR.length) (fun k => ?_)
    fun k => ?_
  · exact get_swap hv hw k
  · exact get_swap hxs hys k

/-- To move a vector is to change places with an empty one. -/
theorem moveConstruct (hR : Refines p s) (hv : p.get n = some v) (hxs : s.get n = some xs) :
    Refines ((p.set n (some {}) p.heap).add v p.heap) (s.set n (some []) ++ [some xs]) := by
  have hadd := hR.add (.refl hR.accounted (owns_empty p.heap))
  refine hadd.permute (Equiv.swap n p.vectors.length) rfl
    (by simpa [Program.set, Program.add] using hR.length) (fun k => ?_) fun k => ?_
  · exact get_move hv k
  · rw [hR.length]
    exact get_move hxs k

theorem moveAssign (hR : Refines p s) (hv : p.get n = some v) (hw : p.get m = some w)
    (hxs : s.get n = some xs) (hys : s.get m = some ys) :
    ∃ p', (p.set m (some {}) p.heap).assign n w = some p' ∧
      Refines p' ((s.set m (some [])).set n (some ys)) := by
  by_cases hnm : n = m
  · subst hnm
    have hget : (p.set n (some {}) p.heap).get n = some {} := by
      rw [Program.get, Program.set, join_getElem?_set hv, if_pos rfl]
    refine ⟨p.set n (some w) p.heap, ?_, ?_⟩
    · rw [Program.assign, hget]
      simp [Program.set, Vec.destruct, Vec.clear, Vec.clearLoop, operatorDelete]
    · obtain rfl : xs = ys := Option.some.inj (hxs.symm.trans hys)
      obtain ⟨w', hw', howns⟩ := hR.exists_vec hys
      obtain rfl : w = w' := Option.some.inj (hw.symm.trans hw')
      rw [List.set_set]
      exact hR.update hw hxs (.refl hR.accounted howns)
  · obtain ⟨xs', hxs', howns⟩ := hR.exists_list hv
    obtain rfl : xs = xs' := Option.some.inj (hxs.symm.trans hxs')
    obtain ⟨h', hres, hb⟩ := destruct_spec hR.accounted howns
    have hget : (p.set m (some {}) p.heap).get n = some v := by
      rw [Program.get, Program.set, join_getElem?_set hw, if_neg hnm]
      exact hv
    refine ⟨(p.set m (some {}) p.heap).set n (some w) h', ?_, ?_⟩
    · rw [Program.assign, hget]
      simp [Program.set, hres]
    -- to be assigned is to be destroyed and to change places
    · have hR₁ := hR.update hv hxs hb
      have hv₁ : (p.set n (some {}) h').get n = some {} := by
        rw [Program.get, Program.set, join_getElem?_set hv, if_pos rfl]
      have hw₁ : (p.set n (some {}) h').get m = some w := by
        rw [Program.get, Program.set, join_getElem?_set hv, if_neg (Ne.symm hnm)]
        exact hw
      have hxs₁ : ListProgram.get (s.set n (some [])) n = some [] := by
        rw [ListProgram.get, join_getElem?_set hxs, if_pos rfl]
      have hys₁ : ListProgram.get (s.set n (some [])) m = some ys := by
        rw [ListProgram.get, join_getElem?_set hxs, if_neg (Ne.symm hnm)]
        exact hys
      have hswap := hR₁.swap hv₁ hw₁ hxs₁ hys₁
      simpa [Program.set, List.set_comm _ _ (Ne.symm hnm)] using hswap

/-- To be assigned a copy is to be replaced by it. -/
theorem becomes_copy (hcopy : Becomes [] {} h xs w h₁) (hv : Owns h v ys)
    (hacc : Accounted h []) (hdel : Becomes [] v h₁ [] {} h') : Becomes [] v h xs w h' := by
  have hold : ∀ b, v.data = some b → b < h.nextBuffer := fun b hb =>
    hacc.allocated b _ (hv.held b hb).1
  have hnew : ∀ b, w.data = some b → h.nextBuffer ≤ b := fun b hb =>
    (hcopy.evolves.data b hb).resolve_left (by simp)
  refine ⟨hdel.accounted, ?_, ?_⟩
  · refine hcopy.owns.frame hcopy.accounted hdel.evolves fun b hb hd => ?_
    exact absurd (hold b hd) (Nat.not_lt.2 (hnew b hb))
  · refine ⟨Nat.le_trans hcopy.evolves.next hdel.evolves.next, fun b hne hlt => ?_,
      fun b hb => Or.inr (hnew b hb), fun b hb => ?_⟩
    · obtain ⟨hbuf, hload⟩ := hcopy.evolves.other b (by simp) hlt
      obtain ⟨hbuf', hload'⟩ :=
        hdel.evolves.other b hne (Nat.lt_of_lt_of_le hlt hcopy.evolves.next)
      exact ⟨hbuf'.trans hbuf, hload'.trans hload⟩
    · obtain ⟨hne, hlt⟩ := (hdel.evolves.kept b hb).resolve_left (by simp)
      rw [(hdel.evolves.other b hne hlt).1] at hb
      exact (hcopy.evolves.kept b hb).imp_right fun hlt => ⟨hne, hlt.2⟩

theorem copyAssign (hR : Refines p s) (hv : p.get n = some v) (hw : p.get m = some w)
    (hxs : s.get n = some xs) (hys : s.get m = some ys) :
    ∃ p', Program.step moved p (.copyAssign n m) = some p' ∧
      Refines p' (s.set n (some ys)) := by
  obtain ⟨xs', hxs', howns⟩ := hR.exists_list hv
  obtain ⟨ys', hys', howns'⟩ := hR.exists_list hw
  obtain rfl : ys = ys' := Option.some.inj (hys.symm.trans hys')
  obtain ⟨w', h₁, hres₁, hcopy⟩ := copy_spec moved hR.accounted howns'
  have hframe := howns.frame hR.accounted hcopy.evolves (by simp)
  obtain ⟨h', hres, hdel⟩ := destruct_spec hcopy.accounted hframe
  refine ⟨p.set n (some w') h', ?_, hR.update hv hxs (becomes_copy hcopy howns hR.accounted hdel)⟩
  have hget : ({ p with heap := h₁ } : Program T).get n = some v := hv
  simp [Program.step, hw, hres₁, Program.assign, hget, hres, Program.set]

/-- A legal call returns, and does to the vectors what it does to the lists. -/
theorem step (hR : Refines p s) (call : Call T) (hlegal : s.step call = some s') :
    ∃ p', p.step moved call = some p' ∧ Refines p' s' := by
  cases call with
  | construct =>
      obtain rfl := Option.some.inj hlegal
      exact ⟨_, rfl, hR.add (.refl hR.accounted (owns_empty p.heap))⟩
  | copyConstruct n =>
      obtain ⟨xs, hxs, rfl⟩ : ∃ xs, s.get n = some xs ∧ s ++ [some xs] = s' := by
        simpa [ListProgram.step, Option.bind_eq_some_iff] using hlegal
      obtain ⟨v, hv, howns⟩ := hR.exists_vec hxs
      obtain ⟨w, h', hres, hb⟩ := copy_spec moved hR.accounted howns
      exact ⟨p.add w h', by simp [Program.step, hv, hres], hR.add hb⟩
  | moveConstruct n =>
      obtain ⟨xs, hxs, rfl⟩ : ∃ xs, s.get n = some xs ∧ s.set n (some []) ++ [some xs] = s' := by
        simpa [ListProgram.step, Option.bind_eq_some_iff] using hlegal
      obtain ⟨v, hv, -⟩ := hR.exists_vec hxs
      exact ⟨_, by simp [Program.step, hv], hR.moveConstruct hv hxs⟩
  | destroy n =>
      obtain ⟨xs, hxs, rfl⟩ : ∃ xs, s.get n = some xs ∧ s.set n none = s' := by
        simpa [ListProgram.step, Option.bind_eq_some_iff] using hlegal
      obtain ⟨v, hv, howns⟩ := hR.exists_vec hxs
      obtain ⟨h', hres, hb⟩ := destruct_spec hR.accounted howns
      exact ⟨p.set n none h', by simp [Program.step, hv, hres], hR.destroy hv hxs hb⟩
  | copyAssign n m =>
      obtain ⟨⟨xs, hxs⟩, ys, hys, rfl⟩ : (∃ xs, s.get n = some xs) ∧
          ∃ ys, s.get m = some ys ∧ s.set n (some ys) = s' := by
        simpa [ListProgram.step, Option.bind_eq_some_iff] using hlegal
      obtain ⟨v, hv, -⟩ := hR.exists_vec hxs
      obtain ⟨w, hw, -⟩ := hR.exists_vec hys
      exact hR.copyAssign hv hw hxs hys
  | moveAssign n m =>
      obtain ⟨⟨xs, hxs⟩, ys, hys, rfl⟩ : (∃ xs, s.get n = some xs) ∧
          ∃ ys, s.get m = some ys ∧ (s.set m (some [])).set n (some ys) = s' := by
        simpa [ListProgram.step, Option.bind_eq_some_iff] using hlegal
      obtain ⟨v, hv, -⟩ := hR.exists_vec hxs
      obtain ⟨w, hw, -⟩ := hR.exists_vec hys
      obtain ⟨p', hres, hR'⟩ := hR.moveAssign hv hw hxs hys
      exact ⟨p', by simp [Program.step, hw, hres], hR'⟩
  | swap n m =>
      obtain ⟨xs, hxs, ys, hys, rfl⟩ : ∃ xs, s.get n = some xs ∧
          ∃ ys, s.get m = some ys ∧ (s.set n (some ys)).set m (some xs) = s' := by
        simpa [ListProgram.step, Option.bind_eq_some_iff] using hlegal
      obtain ⟨v, hv, -⟩ := hR.exists_vec hxs
      obtain ⟨w, hw, -⟩ := hR.exists_vec hys
      exact ⟨_, by simp [Program.step, hv, hw], hR.swap hv hw hxs hys⟩
  | reserve n newCap =>
      obtain ⟨⟨xs, hxs⟩, rfl⟩ : (∃ xs, s.get n = some xs) ∧ s = s' := by
        simpa [ListProgram.step, Option.bind_eq_some_iff] using hlegal
      obtain ⟨v, hv, howns⟩ := hR.exists_vec hxs
      obtain ⟨v', h', hres, hb, -⟩ := reserve_spec moved hR.accounted howns newCap
      refine ⟨p.set n (some v') h', by simp [Program.step, hv, hres], ?_⟩
      have hR' := hR.update hv hxs hb
      rwa [set_of_join_getElem? hxs] at hR'
  | pushBack n arg =>
      obtain ⟨x, hx, xs, hxs, rfl⟩ : ∃ x, s.eval arg = some x ∧ ∃ xs, s.get n = some xs ∧
          s.set n (some (xs ++ [x])) = s' := by
        simpa [ListProgram.step, Option.bind_eq_some_iff] using hlegal
      obtain ⟨v, hv, howns⟩ := hR.exists_vec hxs
      obtain ⟨v', h', hres, hb⟩ := pushBack_spec moved hR.accounted howns x
      exact ⟨_, by simp [Program.step, hR.eval hx, hv, hres], hR.update hv hxs hb⟩
  | popBack n =>
      obtain ⟨xs, hxs, rfl⟩ : ∃ xs, s.get n = some xs ∧ s.set n (some xs.dropLast) = s' := by
        simpa [ListProgram.step, Option.bind_eq_some_iff] using hlegal
      obtain ⟨v, hv, howns⟩ := hR.exists_vec hxs
      obtain ⟨v', h', hres, hb⟩ := popBack_spec hR.accounted howns
      exact ⟨_, by simp [Program.step, hv, hres], hR.update hv hxs hb⟩
  | insert n pos arg =>
      obtain ⟨x, hx, xs, hxs, hpos, rfl⟩ : ∃ x, s.eval arg = some x ∧ ∃ xs, s.get n = some xs ∧
          pos ≤ xs.length ∧ s.set n (some (xs.insertIdx pos x)) = s' := by
        simpa [ListProgram.step, Option.bind_eq_some_iff] using hlegal
      obtain ⟨v, hv, howns⟩ := hR.exists_vec hxs
      obtain ⟨v', h', hres, hb⟩ := insert_spec moved hR.accounted howns hpos x
      exact ⟨_, by simp [Program.step, hR.eval hx, hv, hres], hR.update hv hxs hb⟩
  | erase n pos =>
      obtain ⟨xs, hxs, hpos, rfl⟩ : ∃ xs, s.get n = some xs ∧ pos < xs.length ∧
          s.set n (some (xs.eraseIdx pos)) = s' := by
        simpa [ListProgram.step, Option.bind_eq_some_iff] using hlegal
      obtain ⟨v, hv, howns⟩ := hR.exists_vec hxs
      obtain ⟨v', h', hres, hb⟩ := erase_spec moved hR.accounted howns hpos
      exact ⟨_, by simp [Program.step, hv, hres], hR.update hv hxs hb⟩
  | clear n =>
      obtain ⟨⟨xs, hxs⟩, rfl⟩ : (∃ xs, s.get n = some xs) ∧ s.set n (some []) = s' := by
        simpa [ListProgram.step, Option.bind_eq_some_iff] using hlegal
      obtain ⟨v, hv, howns⟩ := hR.exists_vec hxs
      obtain ⟨v', h', hres, hb⟩ := clear_spec hR.accounted howns
      exact ⟨_, by simp [Program.step, hv, hres], hR.update hv hxs hb⟩

end Refines

/-! ## Whole runs -/

/-- Slot `i` of vector `n` holds the object `id`. -/
def Program.Holds (p : Program T) (n i id : Nat) : Prop :=
  ∃ v b o, p.get n = some v ∧ v.data = some b ∧ i < v.size ∧ p.heap.objs b i = some o ∧ o.id = id

namespace Refines

variable {p : Program T} {s : ListProgram T} {id id' i j : Nat}

theorem holds_unique (hR : Refines p s) (hi : p.Holds n i id) (hj : p.Holds m j id) :
    n = m ∧ i = j := by
  obtain ⟨v, b, o, hv, hd, -, ho, rfl⟩ := hi
  obtain ⟨w, b', o', hw, hd', -, ho', hid⟩ := hj
  obtain ⟨rfl, rfl⟩ := hR.accounted.distinct b i b' j o o' ho ho' hid.symm
  exact ⟨hR.distinct n m b (by simp [Program.dataAt, hv, hd])
    (by simp [Program.dataAt, hw, hd']), rfl⟩

theorem holds_of_objs (hR : Refines p s) {b : Nat} {o : Obj T} (ho : p.heap.objs b i = some o) :
    ∃ n, p.Holds n i o.id := by
  obtain ⟨capacity, hbuf, -⟩ := hR.accounted.housed b i o ho
  obtain ⟨n, hn⟩ := hR.kept b (by simp [hbuf])
  obtain ⟨v, hv, hd⟩ := Option.bind_eq_some_iff.1 hn
  obtain ⟨xs, -, howns⟩ := hR.exists_list hv
  refine ⟨n, v, b, o, hv, hd, ?_, ho, rfl⟩
  have hload : xs[i]? = some o.val := by
    rw [← (howns.held b hd).2 i]
    simp [ObjHeap.load, ho]
  rw [howns.size]
  exact (List.getElem?_eq_some_iff.1 hload).1

theorem held_or_destroyed (hR : Refines p s) (hid : id < p.heap.nextObj) :
    (∃ n i, p.Holds n i id) ∧ p.heap.destroyed.count id = 0 ∨
      (∀ n i, ¬ p.Holds n i id) ∧ p.heap.destroyed.count id = 1 := by
  have hlive : ∀ n i, p.Holds n i id → id ∉ p.heap.destroyed := by
    rintro n i ⟨v, b, o, -, -, -, ho, rfl⟩
    simpa using (hR.accounted.live b i o ho).2
  by_cases hmem : id ∈ p.heap.destroyed
  · refine Or.inr ⟨fun n i hholds => hlive n i hholds hmem, ?_⟩
    have honce : p.heap.destroyed.Nodup := by simpa using hR.accounted.once
    exact List.count_eq_one_of_mem honce hmem
  · rcases hR.accounted.covered id hid with hin | ⟨b, i, o, ho, rfl⟩
    · exact absurd (by simpa using hin) hmem
    · obtain ⟨n, hn⟩ := hR.holds_of_objs ho
      exact Or.inl ⟨⟨n, i, hn⟩, List.count_eq_zero.2 hmem⟩

theorem buffer_or_released (hR : Refines p s) {b : Nat} (hb : b < p.heap.nextBuffer) :
    (∃ n, p.dataAt n = some b) ∧ p.heap.released.count b = 0 ∨
      (∀ n, p.dataAt n ≠ some b) ∧ p.heap.released.count b = 1 := by
  by_cases hnone : p.heap.buffers b = none
  · refine Or.inr ⟨fun n hn => ?_, ?_⟩
    · obtain ⟨v, hv, hd⟩ := Option.bind_eq_some_iff.1 hn
      obtain ⟨xs, -, howns⟩ := hR.exists_list hv
      have hbuf := (howns.held b hd).1
      simp [hnone] at hbuf
    · exact List.count_eq_one_of_mem hR.accounted.releasedOnce (hR.accounted.recycled b hb hnone)
  · refine Or.inl ⟨hR.kept b hnone, List.count_eq_zero.2 fun hmem => ?_⟩
    exact hnone (hR.accounted.released b hmem).2

end Refines

/-- Every legal run of a program with vectors returns. Each vector is then the list that the
same calls make; its elements are the objects in its slots, each in one place; every other
object was destroyed once, and every buffer is that of a vector or was released once. -/
theorem Program.run_refines (moved : T → T) (calls : List (Call T)) {s : ListProgram T}
    (hlegal : run ListProgram.step [] calls = some s) :
    ∃ p, run (Program.step moved) {} calls = some p ∧
      (∀ n, Option.Rel (Owns p.heap) (p.get n) (s.get n)) ∧
      (∀ id n i m j, p.Holds n i id → p.Holds m j id → n = m ∧ i = j) ∧
      (∀ id < p.heap.nextObj, (∃ n i, p.Holds n i id) ∧ p.heap.destroyed.count id = 0 ∨
        (∀ n i, ¬ p.Holds n i id) ∧ p.heap.destroyed.count id = 1) ∧
      (∀ b < p.heap.nextBuffer, (∃ n, p.dataAt n = some b) ∧ p.heap.released.count b = 0 ∨
        (∀ n, p.dataAt n ≠ some b) ∧ p.heap.released.count b = 1) ∧
      ((∀ n, s.get n = none) → ∀ id < p.heap.nextObj, p.heap.destroyed.count id = 1) := by
  obtain ⟨p, hrun, hR⟩ := run_simulates (Program.step moved) ListProgram.step
    (fun _ _ call _ hR hstep => hR.step call hstep) Refines.empty hlegal
  refine ⟨p, hrun, hR.owns, fun _ _ _ _ _ hi hj => hR.holds_unique hi hj,
    fun _ hid => hR.held_or_destroyed hid, fun _ hb => hR.buffer_or_released hb, ?_⟩
  intro hnone id hid
  rcases hR.held_or_destroyed hid with ⟨⟨n, i, v, b, o, hv, -⟩, -⟩ | ⟨-, honce⟩
  · obtain ⟨xs, hxs, -⟩ := hR.exists_list hv
    simp [hnone n] at hxs
  · exact honce

/-- The value inserted is an element of the vector, which has to grow for it. -/
theorem Program.run_refines_insert :
    ∃ p, run (Program.step fun _ => 0) {} [.construct, .pushBack 0 (.value 1),
        .pushBack 0 (.value 2), .pushBack 0 (.value 3), .pushBack 0 (.value 4),
        .insert 0 1 (.element 0 3), .copyConstruct 0, .erase 0 0, .moveAssign 1 0, .destroy 0] =
        some p ∧
      ∃ v, p.get 1 = some v ∧ Owns p.heap v [4, 2, 3, 4] := by
  obtain ⟨p, hrun, howns, -⟩ := Program.run_refines (fun _ => 0) [.construct,
    .pushBack 0 (.value 1), .pushBack 0 (.value 2), .pushBack 0 (.value 3), .pushBack 0 (.value 4),
    .insert 0 1 (.element 0 3), .copyConstruct 0, .erase 0 0, .moveAssign 1 0, .destroy 0]
    (s := [none, some [4, 2, 3, 4]]) rfl
  exact ⟨p, hrun, exists_of_rel_some (howns 1)⟩

end UnnamedKernel.Containers
