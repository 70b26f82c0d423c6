import Mathlib.Data.List.Chain
import UnnamedKernel.Lib.Tiling

/-!
# Coalescing free neighbours

The segments of a tiling are free or not by their tags. A segment that becomes free takes in the
free segments on either side of it, so that no two neighbours are free. This moves no boundary
of the others and does not change how much is free at the end of the interval.
-/

namespace UnnamedKernel.Lib

variable {α : Type} (free : α → Bool)

/-- The first segment that starts at `p`, with what lies on either side of it. -/
def locate (p : Nat) : List (Seg α) → Option (List (Seg α) × Seg α × List (Seg α))
  | [] => none
  | s :: l =>
      if s.start = p then some ([], s, l)
      else (locate p l).map fun found => (s :: found.1, found.2)

/-- `s`, with the last segment of `l` in front of it if that is free. -/
def joinBefore (l : List (Seg α)) (s : Seg α) : List (Seg α) × Seg α :=
  match l.getLast? with
  | some p => if free p.tag then (l.dropLast, p.join s) else (l, s)
  | none => (l, s)

/-- `s`, with the first segment of `r` behind it if that is free. -/
def joinAfter (s : Seg α) : List (Seg α) → Seg α × List (Seg α)
  | [] => (s, [])
  | n :: r => if free n.tag then (s.join n, r) else (s, n :: r)

/-- `s`, between `l` and `r`, with its free neighbours under the tag `t`. -/
def coalesce (t : α) (l : List (Seg α)) (s : Seg α) (r : List (Seg α)) : List (Seg α) :=
  (joinBefore free l s).1 ++
    { (joinAfter free (joinBefore free l s).2 r).1 with tag := t } ::
      (joinAfter free (joinBefore free l s).2 r).2

/-- The length of a neighbour that is free. -/
def freeLen (o : Option (Seg α)) : Nat := o.elim 0 fun s => if free s.tag then s.len else 0

/-- No two neighbours are free. -/
def Separated (l : List (Seg α)) : Prop :=
  l.IsChain fun s u => ¬ (free s.tag = true ∧ free u.tag = true)

/-- The length at the end of `l` that no segment with a held tag lies in. -/
def trailing (held : α → Bool) (l : List (Seg α)) : Nat :=
  l.foldl (fun n s => if held s.tag then 0 else n + s.len) 0

/-! ## Looking a segment up -/

theorem locate_eq_some {p : Nat} {l before after : List (Seg α)} {s : Seg α}
    (h : locate p l = some (before, s, after)) : l = before ++ s :: after ∧ s.start = p := by
  induction l generalizing before with
  | nil => simp [locate] at h
  | cons u l ih =>
      rw [locate] at h
      split_ifs at h with hu
      · simp only [Option.some.injEq, Prod.mk.injEq] at h
        obtain ⟨rfl, rfl, rfl⟩ := h
        exact ⟨rfl, hu⟩
      · obtain ⟨⟨front, s', after'⟩, hfound, heq⟩ := Option.map_eq_some_iff.1 h
        simp only [Prod.mk.injEq] at heq
        obtain ⟨rfl, rfl, rfl⟩ := heq
        obtain ⟨rfl, hstart⟩ := ih hfound
        exact ⟨rfl, hstart⟩

theorem Tiles.locate {lo hi : Nat} {before after : List (Seg α)} {s : Seg α}
    (h : Tiles lo hi (before ++ s :: after)) (hpos : ∀ u ∈ before, 0 < u.len) :
    locate s.start (before ++ s :: after) = some (before, s, after) := by
  induction before generalizing lo with
  | nil => simp [Lib.locate]
  | cons u before ih =>
      obtain ⟨hu, hrest⟩ := h
      have hlater := (hrest.mem_bounds (s := s) (by simp)).1
      have hlen := hpos u (by simp)
      have hne : u.start ≠ s.start := by
        unfold Seg.stop at hlater
        omega
      rw [List.cons_append, Lib.locate, if_neg hne, ih hrest fun v hv => hpos v (by simp [hv])]
      rfl

/-! ## The two neighbours -/

section Joins

variable {free} {l r : List (Seg α)} {s : Seg α} {lo hi : Nat}

theorem joinBefore_concat (l : List (Seg α)) (p s : Seg α) :
    joinBefore free (l ++ [p]) s = if free p.tag then (l, p.join s) else (l ++ [p], s) := by
  simp [joinBefore]

/-- Induction on the last segment: nothing is joined, or the last one is. -/
theorem joinBefore_cases (free : α → Bool) (l : List (Seg α)) (s : Seg α) :
    (joinBefore free l s = (l, s) ∧ ∀ p ∈ l.getLast?, free p.tag = false) ∨
      ∃ front p, l = front ++ [p] ∧ free p.tag = true ∧
        joinBefore free l s = (front, p.join s) := by
  rcases l.eq_nil_or_concat with rfl | ⟨front, p, rfl⟩
  · exact Or.inl ⟨rfl, by simp⟩
  · rw [List.concat_eq_append, joinBefore_concat]
    cases hp : free p.tag
    · exact Or.inl ⟨rfl, by simp [hp]⟩
    · exact Or.inr ⟨front, p, rfl, hp, rfl⟩

theorem joinAfter_cases (free : α → Bool) (s : Seg α) (r : List (Seg α)) :
    (joinAfter free s r = (s, r) ∧ ∀ n ∈ r.head?, free n.tag = false) ∨
      ∃ n rest, r = n :: rest ∧ free n.tag = true ∧ joinAfter free s r = (s.join n, rest) := by
  cases r with
  | nil => exact Or.inl ⟨rfl, by simp⟩
  | cons n rest =>
      rw [joinAfter]
      cases hn : free n.tag
      · exact Or.inl ⟨rfl, by simp [hn]⟩
      · exact Or.inr ⟨n, rest, rfl, hn, rfl⟩

theorem joinBefore_len (free : α → Bool) (l : List (Seg α)) (s : Seg α) :
    (joinBefore free l s).2.len = freeLen free l.getLast? + s.len := by
  rcases joinBefore_cases free l s with ⟨heq, hedge⟩ | ⟨front, p, rfl, hp, heq⟩
  · rw [heq]
    cases hlast : l.getLast? with
    | none => simp [freeLen]
    | some p => simp [freeLen, hedge p hlast]
  · simp [heq, freeLen, hp, Seg.join]

theorem joinBefore_tiles (h : Tiles lo hi (l ++ s :: r)) :
    Tiles lo hi ((joinBefore free l s).1 ++ (joinBefore free l s).2 :: r) := by
  rcases joinBefore_cases free l s with ⟨heq, -⟩ | ⟨front, p, rfl, -, heq⟩
  · rwa [heq]
  · rw [heq]
    simp only [Tiles.append_iff, Tiles.cons_iff, Tiles.nil_iff] at h ⊢
    obtain ⟨mid, ⟨mid', hfront, hp, rfl⟩, hs, hr⟩ := h
    refine ⟨mid', hfront, hp, ?_⟩
    have hstop : (p.join s).stop = s.stop := by
      simp only [Seg.stop, Seg.join] at *
      omega
    rwa [hstop]

theorem joinAfter_tiles (h : Tiles lo hi (s :: r)) :
    Tiles lo hi ((joinAfter free s r).1 :: (joinAfter free s r).2) := by
  rcases joinAfter_cases free s r with ⟨heq, -⟩ | ⟨n, rest, rfl, -, heq⟩
  · rwa [heq]
  · rw [heq]
    obtain ⟨hs, hn, hrest⟩ := h
    refine ⟨hs, ?_⟩
    have hstop : (s.join n).stop = n.stop := by
      simp only [Seg.stop, Seg.join] at *
      omega
    rwa [hstop]

end Joins

/-! ## The whole step -/

section Coalesce

variable {free} {t : α} {l r : List (Seg α)} {s : Seg α} {lo hi : Nat}

theorem coalesce_tiles (t : α) (h : Tiles lo hi (l ++ s :: r)) :
    Tiles lo hi (coalesce free t l s r) := by
  have hjoined : Tiles lo hi ((joinBefore free l s).1 ++ (joinBefore free l s).2 :: r) :=
    joinBefore_tiles h
  rw [Tiles.append_iff] at hjoined
  obtain ⟨mid, hl, hr⟩ := hjoined
  exact hl.append (joinAfter_tiles hr)

/-- What is joined: the free segments `p` and `n` next to `s`, behind `front` and before `rest`. -/
structure Parts (free : α → Bool) (t : α) (l : List (Seg α)) (s : Seg α) (r front p : List (Seg α))
    (m : Seg α) (n rest : List (Seg α)) : Prop where
  before : l = front ++ p
  after : r = n ++ rest
  free_before : ∀ u ∈ p, free u.tag = true
  free_after : ∀ u ∈ n, free u.tag = true
  edge_before : ∀ u ∈ front.getLast?, free u.tag = false
  edge_after : ∀ u ∈ rest.head?, free u.tag = false
  tag : m.tag = t
  len : m.len = (p.map Seg.len).sum + s.len + (n.map Seg.len).sum
  result : coalesce free t l s r = front ++ m :: rest

theorem coalesce_parts (t : α) (hsep : Separated free (l ++ s :: r)) :
    ∃ front p m n rest, Parts free t l s r front p m n rest := by
  obtain ⟨hl, hr⟩ := List.isChain_split.1 hsep
  obtain ⟨front, p, hlp, hp, hfront, hbefore, hlen⟩ : ∃ front p, l = front ++ p ∧
      (∀ u ∈ p, free u.tag = true) ∧ (∀ u ∈ front.getLast?, free u.tag = false) ∧
      (joinBefore free l s).1 = front ∧
      (joinBefore free l s).2.len = (p.map Seg.len).sum + s.len := by
    rcases joinBefore_cases free l s with ⟨heq, hedge⟩ | ⟨front, u, rfl, hu, heq⟩
    · exact ⟨l, [], by simp, by simp, hedge, by rw [heq], by simp [heq]⟩
    · refine ⟨front, [u], rfl, by simpa using hu, fun v hv => ?_, by rw [heq], ?_⟩
      · rw [List.isChain_append, List.isChain_append] at hl
        have hboth := hl.1.2.2 v hv u (by simp)
        simpa [hu] using hboth
      · simp [heq, Seg.join]
  obtain ⟨n, rest, hrn, hn, hrest, hafter, hlen'⟩ : ∃ n rest, r = n ++ rest ∧
      (∀ u ∈ n, free u.tag = true) ∧ (∀ u ∈ rest.head?, free u.tag = false) ∧
      (joinAfter free (joinBefore free l s).2 r).2 = rest ∧
      (joinAfter free (joinBefore free l s).2 r).1.len =
        (joinBefore free l s).2.len + (n.map Seg.len).sum := by
    rcases joinAfter_cases free (joinBefore free l s).2 r with
      ⟨heq, hedge⟩ | ⟨u, rest, rfl, hu, heq⟩
    · exact ⟨[], r, by simp, by simp, hedge, by rw [heq], by simp [heq]⟩
    · refine ⟨[u], rest, rfl, by simpa using hu, fun v hv => ?_, by rw [heq], ?_⟩
      · have hboth := (List.isChain_cons.1 (List.isChain_cons.1 hr).2).1 v hv
        simpa [hu] using hboth
      · simp [heq, Seg.join]
  exact ⟨front, p, { (joinAfter free (joinBefore free l s).2 r).1 with tag := t }, n, rest,
    hlp, hrn, hp, hn, hfront, hrest, rfl, hlen'.trans (by rw [hlen]),
    by rw [coalesce, hbefore, hafter]⟩

namespace Parts

variable {front p n rest : List (Seg α)} {m : Seg α}

theorem separated (h : Parts free t l s r front p m n rest)
    (hsep : Separated free (l ++ s :: r)) : Separated free (coalesce free t l s r) := by
  rw [h.before, h.after] at hsep
  have hl : Separated free front := by
    rw [Separated, List.append_assoc, List.isChain_append] at hsep
    exact hsep.1
  have hr : Separated free rest := by
    rw [Separated, List.append_cons, ← List.append_assoc, List.isChain_append] at hsep
    exact hsep.2.1
  rw [h.result, Separated, List.isChain_append]
  refine ⟨hl, List.isChain_cons.2 ⟨fun u hu => ?_, hr⟩, fun u hu v hv => ?_⟩
  · simp [h.edge_after u hu]
  · simp [h.edge_before u hu]

theorem forall_len (h : Parts free t l s r front p m n rest) {P : Nat → Prop}
    (hadd : ∀ i j, P i → P j → P (i + j)) (hall : ∀ u ∈ l ++ s :: r, P u.len) :
    ∀ u ∈ coalesce free t l s r, P u.len := by
  have hsum : ∀ (us : List (Seg α)) (i : Nat), (∀ u ∈ us, P u.len) → P i →
      P (i + (us.map Seg.len).sum) := by
    intro us
    induction us with
    | nil => exact fun i _ hi => hi
    | cons u us ih =>
        intro i hus hi
        rw [List.map_cons, List.sum_cons, ← Nat.add_assoc]
        exact ih _ (fun v hv => hus v (by simp [hv])) (hadd _ _ hi (hus u (by simp)))
  rw [h.before, h.after] at hall
  have hm : P m.len := by
    rw [h.len, Nat.add_comm ((p.map Seg.len).sum)]
    exact hsum n _ (fun u hu => hall u (by simp [hu]))
      (hsum p _ (fun u hu => hall u (by simp [hu])) (hall s (by simp)))
  intro u hu
  rw [h.result, List.mem_append, List.mem_cons] at hu
  rcases hu with hu | rfl | hu
  · exact hall u (by simp [hu])
  · exact hm
  · exact hall u (by simp [hu])

/-- What is free at the end is what is free there with the tag of `s` changed alone. -/
theorem trailing_eq (h : Parts free t l s r front p m n rest) {held : α → Bool}
    (hheld : ∀ a, free a = true → held a = false) (ht : held t = false) :
    trailing held (coalesce free t l s r) = trailing held (l ++ { s with tag := t } :: r) := by
  have hfold : ∀ (us : List (Seg α)) (i : Nat), (∀ u ∈ us, free u.tag = true) →
      us.foldl (fun i u => if held u.tag then 0 else i + u.len) i = i + (us.map Seg.len).sum := by
    intro us
    induction us with
    | nil => exact fun i _ => rfl
    | cons u us ih =>
        intro i hus
        rw [List.foldl_cons, if_neg (by simp [hheld _ (hus u (by simp))]),
          ih _ fun v hv => hus v (by simp [hv])]
        simp [Nat.add_assoc]
  rw [h.result, h.before, h.after, trailing, trailing]
  simp only [List.foldl_append, List.foldl_cons, hfold p _ h.free_before,
    hfold n _ h.free_after, h.tag, ht, h.len, Bool.false_eq_true, if_false]
  congr 1
  omega

theorem mem_iff (h : Parts free t l s r front p m n rest) (ht : free t = true) {u : Seg α}
    (hu : free u.tag = false) : u ∈ coalesce free t l s r ↔ u ∈ l ∨ u ∈ r := by
  have hm : u ≠ m := by
    rintro rfl
    rw [h.tag, ht] at hu
    exact absurd hu (by simp)
  have hp : u ∉ p := fun hmem => by simp [h.free_before u hmem] at hu
  have hn : u ∉ n := fun hmem => by simp [h.free_after u hmem] at hu
  rw [h.result, h.before, h.after]
  simp [hm, hp, hn]

end Parts

end Coalesce

/-! ## Tags -/

section Tags

variable {free held : α → Bool} {t : α} {l r : List (Seg α)} {s : Seg α} {lo hi : Nat}

theorem tiles_retag (t : α) (h : Tiles lo hi (l ++ s :: r)) :
    Tiles lo hi (l ++ { s with tag := t } :: r) := by
  rw [Tiles.append_iff] at *
  exact h

theorem separated_retag (ht : free t = false) (h : Separated free (l ++ s :: r)) :
    Separated free (l ++ { s with tag := t } :: r) := by
  obtain ⟨hl, hr, -⟩ := List.isChain_append.1 h
  refine List.isChain_append.2 ⟨hl, List.isChain_cons.2 ⟨fun u _ => ?_, ?_⟩, fun u _ v hv => ?_⟩
  · simp [ht]
  · exact (List.isChain_cons.1 hr).2
  · obtain rfl : { s with tag := t } = v := by simpa using hv
    simp [ht]

theorem separated_cut {i j m n : Nat} (ht : free t = false)
    (h : Separated free (l ++ s :: r)) : Separated free (l ++ ⟨i, m, t⟩ :: ⟨j, n, s.tag⟩ :: r) := by
  obtain ⟨hl, hr, -⟩ := List.isChain_append.1 h
  rw [List.isChain_cons] at hr
  refine List.isChain_append.2 ⟨hl, List.isChain_cons.2 ⟨fun u _ => by simp [ht],
    List.isChain_cons.2 ⟨fun u hu => hr.1 u hu, hr.2⟩⟩, fun u _ v hv => ?_⟩
  obtain rfl : (⟨i, m, t⟩ : Seg α) = v := by simpa using hv
  simp [ht]

theorem tiles_cut {m : Nat} {t' : α} (hm : m ≤ s.len) (h : Tiles lo hi (l ++ s :: r)) :
    Tiles lo hi (l ++ ⟨s.start, m, t⟩ :: ⟨s.start + m, s.len - m, t'⟩ :: r) := by
  have hmid : Tiles s.start s.stop [⟨s.start, m, t⟩, ⟨s.start + m, s.len - m, t'⟩] := by
    simp only [Tiles.cons_iff, Tiles.nil_iff, Seg.stop, true_and]
    omega
  exact h.replace rfl rfl hmid

theorem trailing_retag (ht : held s.tag = held t) :
    trailing held (l ++ { s with tag := t } :: r) = trailing held (l ++ s :: r) := by
  simp [trailing, List.foldl_append, ht]

end Tags

/-- If no neighbours are free, the last segment is free and each of the others is held or free,
then no more than the last one is free at the end. -/
theorem trailing_separated {free held : α → Bool} {l : List (Seg α)} {s : Seg α}
    (hsep : Separated free (l ++ [s])) (hall : ∀ u ∈ l, held u.tag = true ∨ free u.tag = true)
    (hs : free s.tag = true) (hheld : held s.tag = false) :
    trailing held (l ++ [s]) = s.len := by
  rw [trailing, List.foldl_append]
  simp only [List.foldl_cons, List.foldl_nil, hheld, Bool.false_eq_true, if_false]
  rcases l.eq_nil_or_concat with rfl | ⟨front, u, rfl⟩
  · simp
  · rw [List.concat_eq_append] at *
    have hu : free u.tag = false := by
      have hboth := (List.isChain_append.1 hsep).2.2 u (by simp) s (by simp)
      simpa [hs] using hboth
    have hlast : held u.tag = true := by simpa [hu] using hall u (by simp)
    simp [List.foldl_append, hlast]

end UnnamedKernel.Lib
