import Mathlib.Data.List.Chain
import Mathlib.Data.List.Pairwise
import Mathlib.Data.List.Perm.Basic
import Mathlib.Logic.Relation
import UnnamedKernel.Lib.Ranges

/-!
# Joining ranges in one pass

Each range of a list in turn swallows the later ones that start at its end. It looks at
the list behind it once, so it does not come back for a range that it has passed, and
nothing comes back for it. The pass joins all that can be joined just if no range starts
where a later one stops.
-/

namespace UnnamedKernel.Lib.Range

open Relation

/-- The address behind the range. -/
def stop (r : Range) : Word := r.addr + r.size

def starts (rs : List Range) : List Word := rs.map addr

def stops (rs : List Range) : List Word := rs.map stop

@[simp] theorem starts_nil : starts [] = [] := rfl

@[simp] theorem stops_nil : stops [] = [] := rfl

@[simp] theorem starts_cons (r : Range) (rs : List Range) :
    starts (r :: rs) = r.addr :: starts rs := rfl

@[simp] theorem stops_cons (r : Range) (rs : List Range) :
    stops (r :: rs) = r.stop :: stops rs := rfl

/-- No range starts where one stops. -/
def Separate (rs : List Range) : Prop := ∀ a ∈ rs, ∀ b ∈ rs, a.stop ≠ b.addr

/-- No range starts where it or a later one stops. -/
def InOrder : List Range → Prop
  | [] => True
  | a :: rest => a.addr ∉ stops (a :: rest) ∧ InOrder rest

/-- No two ranges start at one address, or stop at one. -/
structure Distinct (rs : List Range) : Prop where
  starts : (starts rs).Nodup
  stops : (stops rs).Nodup

theorem stop_ne {r : Range} (h : 0 < r.size.toNat) : r.stop ≠ r.addr := by
  unfold stop
  bv_omega

theorem Apart.stop_ne {r s : Range} (h : Apart r s) (hr : 0 < r.size.toNat)
    (hs : 0 < s.size.toNat) : r.stop ≠ s.stop := by
  intro he
  unfold stop at he
  refine h (r.addr + r.size - 1) ?_ ?_
  · rw [mem_iff]
    bv_omega
  · rw [mem_iff, he]
    bv_omega

theorem Distinct.of_apart {rs : List Range} (h : rs.Pairwise Apart)
    (hpos : ∀ r ∈ rs, 0 < r.size.toNat) : Distinct rs := by
  constructor
  · rw [Range.starts, List.nodup_iff_pairwise_ne, List.pairwise_map]
    exact h.imp_of_mem fun hr hs hrs => hrs.addr_ne (hpos _ hs) (hpos _ hr)
  · rw [Range.stops, List.nodup_iff_pairwise_ne, List.pairwise_map]
    exact h.imp_of_mem fun hr hs hrs => hrs.stop_ne (hpos _ hr) (hpos _ hs)

theorem inOrder_iff {rs : List Range} (hpos : ∀ r ∈ rs, 0 < r.size.toNat) :
    InOrder rs ↔ rs.Pairwise fun a b => b.stop ≠ a.addr := by
  induction rs with
  | nil => simp [InOrder]
  | cons a rest ih =>
      rw [InOrder, List.pairwise_cons, ih fun r hr => hpos r (List.mem_cons_of_mem _ hr)]
      have hself : a.stop ≠ a.addr := stop_ne (hpos a List.mem_cons_self)
      refine and_congr_left fun _ => ?_
      simp [stops, hself.symm]

theorem InOrder.not_covered {a : Range} {rest : List Range} (h : InOrder (a :: rest))
    (hapart : (a :: rest).Pairwise Apart) (hpos : 0 < a.size.toNat) :
    a.addr - 1 ∉ covered (a :: rest) := by
  rintro ⟨c, hc, hlast⟩
  rcases List.mem_cons.1 hc with rfl | hrest
  · rw [mem_iff] at hlast
    bv_omega
  have hstart : a.addr ∉ c := (List.pairwise_cons.1 hapart).1 c hrest a.addr (addr_mem hpos)
  refine h.1 (List.mem_map.2 ⟨c, hc, ?_⟩)
  rw [mem_iff] at hlast hstart
  unfold stop
  bv_omega

theorem separate_iff (rs : List Range) : Separate rs ↔ ∀ z ∈ stops rs, z ∉ starts rs := by
  constructor
  · intro h z hz hm
    obtain ⟨a, ha, rfl⟩ := List.mem_map.1 hz
    obtain ⟨b, hb, hab⟩ := List.mem_map.1 hm
    exact h a ha b hb hab.symm
  · intro h a ha b hb hab
    exact h a.stop (List.mem_map_of_mem ha) (hab ▸ List.mem_map_of_mem hb)

theorem separate_cons (a : Range) (rest : List Range) :
    Separate (a :: rest) ↔
      a.stop ∉ starts (a :: rest) ∧ a.addr ∉ stops rest ∧ Separate rest := by
  rw [separate_iff, separate_iff, stops_cons, List.forall_mem_cons]
  refine and_congr_right fun _ => ?_
  constructor
  · intro h
    exact ⟨fun hm => h _ hm List.mem_cons_self, fun z hz hm => h z hz (List.mem_cons_of_mem _ hm)⟩
  · rintro ⟨hfront, hrest⟩ z hz hm
    rcases List.mem_cons.1 hm with rfl | hm
    · exact hfront hz
    · exact hrest z hz hm

/-! ## What a join does to starts and stops -/

/-- The starts that are no stops are kept, and the stops that are no starts. -/
structure EndsKept (rs ss : List Range) : Prop where
  starts : ∀ z ∉ stops rs, z ∉ stops ss ∧ (z ∈ Range.starts ss ↔ z ∈ Range.starts rs)
  stops : ∀ z ∉ Range.starts rs, z ∉ Range.starts ss ∧ (z ∈ Range.stops ss ↔ z ∈ Range.stops rs)

theorem EndsKept.refl (rs : List Range) : EndsKept rs rs :=
  ⟨fun _ hz => ⟨hz, Iff.rfl⟩, fun _ hz => ⟨hz, Iff.rfl⟩⟩

theorem EndsKept.trans {rs ss ts : List Range} (h : EndsKept rs ss) (h' : EndsKept ss ts) :
    EndsKept rs ts := by
  constructor
  · intro z hz
    obtain ⟨hss, hiff⟩ := h.starts z hz
    exact ⟨(h'.starts z hss).1, (h'.starts z hss).2.trans hiff⟩
  · intro z hz
    obtain ⟨hss, hiff⟩ := h.stops z hz
    exact ⟨(h'.stops z hss).1, (h'.stops z hss).2.trans hiff⟩

section Join

variable {rs ss : List Range}

theorem stop_join {a r : Range} (hadj : a.addr + a.size = r.addr) :
    (⟨a.addr, a.size + r.size⟩ : Range).stop = r.stop := by
  unfold stop
  rw [← hadj, BitVec.add_assoc]

theorem Join.distinct (h : Join rs ss) (hd : Distinct rs) : Distinct ss := by
  obtain ⟨a, r, rest, hadj, hrs, hss⟩ := h.perm
  have hstarts := (hrs.map addr).nodup_iff.1 hd.starts
  have hstops := (hrs.map stop).nodup_iff.1 hd.stops
  simp only [List.map_cons, List.nodup_cons, List.mem_cons, not_or] at hstarts hstops
  constructor
  · refine (hss.map addr).nodup_iff.2 ?_
    exact List.nodup_cons.2 ⟨hstarts.1.2, hstarts.2.2⟩
  · refine (hss.map stop).nodup_iff.2 ?_
    rw [List.map_cons, stop_join hadj]
    exact List.nodup_cons.2 hstops.2

/-- What is gone was the stop of one range and the start of another. -/
theorem Join.endsKept (h : Join rs ss) : EndsKept rs ss := by
  obtain ⟨a, r, rest, hadj, hrs, hss⟩ := h.perm
  have hstarts : ∀ z, z ∈ starts rs ↔ z = a.addr ∨ z = r.addr ∨ z ∈ starts rest := by
    intro z
    rw [starts, (hrs.map addr).mem_iff, List.map_cons, List.map_cons, List.mem_cons, List.mem_cons]
    rfl
  have hstops : ∀ z, z ∈ stops rs ↔ z = r.addr ∨ z = r.stop ∨ z ∈ stops rest := by
    intro z
    rw [stops, (hrs.map stop).mem_iff, List.map_cons, List.map_cons, List.mem_cons, List.mem_cons,
      ← hadj]
    rfl
  have hstarts' : ∀ z, z ∈ starts ss ↔ z = a.addr ∨ z ∈ starts rest := by
    intro z
    rw [starts, (hss.map addr).mem_iff, List.map_cons, List.mem_cons]
    rfl
  have hstops' : ∀ z, z ∈ stops ss ↔ z = r.stop ∨ z ∈ stops rest := by
    intro z
    rw [stops, (hss.map stop).mem_iff, List.map_cons, List.mem_cons, stop_join hadj]
    rfl
  constructor <;> intro z hz
  · rw [hstops, not_or] at hz
    rw [hstops', hstarts', hstarts]
    exact ⟨hz.2, by simp [hz.1]⟩
  · rw [hstarts, not_or, not_or] at hz
    rw [hstops', hstarts', hstops]
    exact ⟨not_or.2 ⟨hz.1, hz.2.2⟩, by simp [hz.2.1]⟩

theorem joins_distinct (h : ReflTransGen Join rs ss) (hd : Distinct rs) : Distinct ss := by
  induction h with
  | refl => exact hd
  | tail _ hjoin ih => exact hjoin.distinct ih

theorem joins_endsKept (h : ReflTransGen Join rs ss) : EndsKept rs ss := by
  induction h with
  | refl => exact .refl _
  | tail _ hjoin ih => exact ih.trans hjoin.endsKept

theorem Join.pos (h : Join rs ss) (hapart : rs.Pairwise Apart) {x : Word} (hx : x ∉ covered rs)
    (hpos : ∀ r ∈ rs, 0 < r.size.toNat) : ∀ r ∈ ss, 0 < r.size.toNat := by
  obtain ⟨a, r, rest, hadj, hrs, hss⟩ := h.perm
  have hlt := join_lt hrs hapart hx
  have ha : 0 < a.size.toNat := hpos a (hrs.mem_iff.2 (by simp))
  intro q hq
  rcases List.mem_cons.1 (hss.mem_iff.1 hq) with rfl | hq
  · simp only
    bv_omega
  · exact hpos q (hrs.mem_iff.2 (by simp [hq]))

theorem joins_apart (h : ReflTransGen Join rs ss) (hapart : rs.Pairwise Apart) {x : Word}
    (hx : x ∉ covered rs) (hpos : ∀ r ∈ rs, 0 < r.size.toNat) :
    ss.Pairwise Apart ∧ (∀ r ∈ ss, 0 < r.size.toNat) ∧ covered ss = covered rs := by
  induction h with
  | refl => exact ⟨hapart, hpos, rfl⟩
  | tail _ hjoin ih =>
      obtain ⟨hapart', hpos', hsame⟩ := ih
      have hx' : x ∉ covered _ := hsame ▸ hx
      exact ⟨hjoin.pairwise hapart' hx', hjoin.pos hapart' hx' hpos',
        (hjoin.covered_eq hapart' hx').trans hsame⟩

end Join

/-! ## What the joined ranges are made of -/

/-- `b` is the ranges `cs`, each where the one before it stops. -/
structure UnionOf (b : Range) (cs : List Range) : Prop where
  starts : cs.head?.map addr = some b.addr
  adjacent : cs.IsChain fun c d => c.stop = d.addr
  stops : cs.getLast?.map stop = some b.stop
  covers : covered cs = {x | x ∈ b}

theorem UnionOf.single (b : Range) : UnionOf b [b] :=
  ⟨rfl, List.isChain_singleton b, rfl, by simp⟩

theorem UnionOf.append {a r : Range} {cs ds : List Range} (ha : UnionOf a cs) (hr : UnionOf r ds)
    (hadj : a.addr + a.size = r.addr) (hlt : a.size.toNat + r.size.toNat < 2 ^ 64) :
    UnionOf ⟨a.addr, a.size + r.size⟩ (cs ++ ds) := by
  have hcs : cs ≠ [] := by
    rintro rfl
    simpa using ha.starts
  have hds : ds ≠ [] := by
    rintro rfl
    simpa using hr.starts
  refine ⟨?_, ?_, ?_, ?_⟩
  · rw [List.head?_append_of_ne_nil _ hcs]
    exact ha.starts
  · refine ha.adjacent.append hr.adjacent fun c hc d hd => ?_
    have hstop : c.stop = a.stop := by simpa [Option.mem_def.1 hc] using ha.stops
    have hstart : d.addr = r.addr := by simpa [Option.mem_def.1 hd] using hr.starts
    rw [hstop, hstart]
    exact hadj
  · rw [List.getLast?_append_of_ne_nil _ hds, stop_join hadj]
    exact hr.stops
  · ext x
    rw [covered_append, ha.covers, hr.covers]
    exact (mem_join hadj hlt x).symm

theorem Join.unions {rs ss ts : List Range} (h : Join ss ts) (hapart : ss.Pairwise Apart) {x : Word}
    (hx : x ∉ covered ss) {parts : List (List Range)} (hparts : List.Forall₂ UnionOf ss parts)
    (hall : parts.flatten.Perm rs) :
    ∃ parts' : List (List Range), List.Forall₂ UnionOf ts parts' ∧ parts'.flatten.Perm rs := by
  obtain ⟨a, r, rest, hadj, hss, hts⟩ := h.perm
  obtain ⟨parts₁, hparts₁, hperm₁⟩ := List.perm_comp_forall₂ hss.symm hparts
  cases hparts₁ with
  | @cons _ cs _ _ ha htail =>
      cases htail with
      | @cons _ ds _ restParts hr hrest =>
          have hjoined := List.Forall₂.cons (ha.append hr hadj (join_lt hss hapart hx)) hrest
          obtain ⟨parts', hparts', hperm'⟩ := List.perm_comp_forall₂ hts hjoined
          refine ⟨parts', hparts', hperm'.flatten.trans (List.Perm.trans ?_ hall)⟩
          simpa using hperm₁.flatten

/-- After any joins each range is some of the first ones, one behind the other, and none of them
is used twice or lost. -/
theorem joins_unions {rs ss : List Range} (h : ReflTransGen Join rs ss)
    (hapart : rs.Pairwise Apart) {x : Word} (hx : x ∉ covered rs)
    (hpos : ∀ r ∈ rs, 0 < r.size.toNat) :
    ∃ parts : List (List Range), List.Forall₂ UnionOf ss parts ∧ parts.flatten.Perm rs := by
  induction h with
  | refl =>
      refine ⟨rs.map fun r => [r], ?_, by rw [← List.flatMap_def, List.flatMap_singleton']⟩
      rw [List.forall₂_map_right_iff, List.forall₂_same]
      exact fun r _ => .single r
  | tail hjoins hjoin ih =>
      obtain ⟨parts, hparts, hall⟩ := ih
      obtain ⟨hapart', -, hsame⟩ := joins_apart hjoins hapart hx hpos
      exact hjoin.unions hapart' (hsame ▸ hx) hparts hall

/-! ## The pass -/

/-- `a` swallows the ranges behind it that start at its end. -/
def absorb (a : Range) : List Range → Range × List Range
  | [] => (a, [])
  | r :: rest =>
      if a.stop = r.addr then absorb ⟨a.addr, a.size + r.size⟩ rest
      else ((absorb a rest).1, r :: (absorb a rest).2)

theorem absorb_nil (a : Range) : absorb a [] = (a, []) := rfl

theorem absorb_cons_of_eq {a r : Range} (h : a.stop = r.addr) (rest : List Range) :
    absorb a (r :: rest) = absorb ⟨a.addr, a.size + r.size⟩ rest := if_pos h

theorem absorb_cons_of_ne {a r : Range} (h : a.stop ≠ r.addr) (rest : List Range) :
    absorb a (r :: rest) = ((absorb a rest).1, r :: (absorb a rest).2) := if_neg h

theorem absorb_addr (a : Range) (rest : List Range) : (absorb a rest).1.addr = a.addr := by
  induction rest generalizing a with
  | nil => rfl
  | cons r rest ih =>
      by_cases h : a.stop = r.addr
      · rw [absorb_cons_of_eq h, ih]
      · rw [absorb_cons_of_ne h, ih]

theorem length_absorb_le (a : Range) (rest : List Range) :
    (absorb a rest).2.length ≤ rest.length := by
  induction rest generalizing a with
  | nil => exact Nat.le_refl _
  | cons r rest ih =>
      by_cases h : a.stop = r.addr
      · rw [absorb_cons_of_eq h]
        exact (ih _).trans (Nat.le_succ _)
      · rw [absorb_cons_of_ne h]
        exact Nat.succ_le_succ (ih a)

theorem absorb_joins (pre : List Range) (a : Range) (mid rest : List Range) :
    ReflTransGen Join (pre ++ a :: (mid ++ rest))
      (pre ++ (absorb a rest).1 :: (mid ++ (absorb a rest).2)) := by
  induction rest generalizing a mid with
  | nil => exact .refl
  | cons r rest ih =>
      by_cases h : a.stop = r.addr
      · rw [absorb_cons_of_eq h]
        exact .head (.mk pre a mid r rest h) (ih _ mid)
      · rw [absorb_cons_of_ne h]
        simpa using ih a (mid ++ [r])

/-- Every range in turn swallows what it can. -/
def joined : List Range → List Range
  | [] => []
  | a :: rest => (absorb a rest).1 :: joined (absorb a rest).2
termination_by rs => rs.length
decreasing_by exact Nat.lt_succ_of_le (length_absorb_le a rest)

theorem joined_nil : joined [] = [] := by rw [joined]

theorem joined_cons (a : Range) (rest : List Range) :
    joined (a :: rest) = (absorb a rest).1 :: joined (absorb a rest).2 := by rw [joined]

theorem joined_joins (pre rs : List Range) : ReflTransGen Join (pre ++ rs) (pre ++ joined rs) := by
  induction rs using joined.induct generalizing pre with
  | case1 =>
      rw [joined_nil]
  | case2 a rest ih =>
      have hjoined := ih (pre ++ [(absorb a rest).1])
      rw [List.append_assoc, List.append_assoc] at hjoined
      rw [joined_cons]
      exact (absorb_joins pre a [] rest).trans hjoined

/-- What `a` passes before it has grown up to it is what keeps the rest out of order. -/
theorem absorb_inOrder_iff {a : Range} {rest : List Range} (hd : Distinct (a :: rest)) :
    (absorb a rest).1.stop ∉ starts ((absorb a rest).1 :: (absorb a rest).2) ∧
      InOrder ((absorb a rest).1 :: (absorb a rest).2) ↔ InOrder (a :: rest) := by
  induction rest generalizing a with
  | nil =>
      simp only [absorb_nil, InOrder, starts_cons, starts_nil, stops_cons, stops_nil,
        List.mem_singleton, and_true]
      exact ⟨And.right, fun h => ⟨Ne.symm h, h⟩⟩
  | cons r rest ih =>
      have hstarts := hd.starts
      have hstops := hd.stops
      simp only [starts_cons, stops_cons, List.nodup_cons, List.mem_cons, not_or] at hstarts hstops
      by_cases h : a.stop = r.addr
      · have hjoin : Join (a :: r :: rest) (⟨a.addr, a.size + r.size⟩ :: rest) :=
          .mk [] a [] r rest h
        have hne : a.addr ≠ a.stop := h ▸ hstarts.1.1
        have hr : r.addr ∉ stops (r :: rest) := by
          rw [← h, stops_cons, List.mem_cons, not_or]
          exact hstops.1
        rw [absorb_cons_of_eq h, ih (hjoin.distinct hd)]
        simp only [InOrder, stops_cons, stop_join h, List.mem_cons, not_or] at hr ⊢
        exact ⟨fun ⟨hfront, hrest⟩ => ⟨⟨hne, hfront⟩, hr, hrest⟩,
          fun ⟨hfront, _, hrest⟩ => ⟨hfront.2, hrest⟩⟩
      · have hd' : Distinct (a :: rest) :=
          ⟨hd.starts.sublist (by simp), hd.stops.sublist (by simp)⟩
        -- `r` starts where one of the others stops before the pass just if it does so after it
        have hkept : r.addr ∈ stops ((absorb a rest).1 :: (absorb a rest).2) ↔
            r.addr ∈ stops (a :: rest) := by
          refine ((joins_endsKept (absorb_joins [] a [] rest)).stops r.addr ?_).2
          rw [List.nil_append, List.nil_append, starts_cons, List.mem_cons, not_or]
          exact ⟨Ne.symm hstarts.1.1, hstarts.2.1⟩
        have ih := ih hd'
        rw [absorb_cons_of_ne h]
        simp only [InOrder, stops_cons, starts_cons, absorb_addr, List.mem_cons, not_or,
          Ne.symm h, false_or] at hkept ih ⊢
        constructor
        · rintro ⟨⟨hself, hpassed, hbehind⟩, ⟨hne, hstop, hfront⟩, ⟨hr, hrest⟩, horder⟩
          obtain ⟨ha, horder⟩ := ih.1 ⟨⟨hself, hbehind⟩, ⟨hne, hfront⟩, horder⟩
          exact ⟨⟨ha.1, hstop, ha.2⟩,
            ⟨hr, fun hm => (hkept.2 hm).elim (Ne.symm hpassed) hrest⟩, horder⟩
        · rintro ⟨⟨hne, hstop, hfront⟩, ⟨hr, hrest⟩, horder⟩
          obtain ⟨⟨hself, hbehind⟩, ha, horder⟩ := ih.2 ⟨⟨hne, hfront⟩, horder⟩
          exact ⟨⟨hself, fun he => hrest (hkept.1 (Or.inl he.symm)), hbehind⟩,
            ⟨ha.1, hstop, ha.2⟩, ⟨hr, fun hm => hrest (hkept.1 (Or.inr hm))⟩, horder⟩

/-- The pass leaves no range at the stop of another just if no range started where it or a later
one stopped. -/
theorem separate_joined_iff {rs : List Range} (hd : Distinct rs) :
    Separate (joined rs) ↔ InOrder rs := by
  induction rs using joined.induct with
  | case1 =>
      rw [joined_nil]
      simp [Separate, InOrder]
  | case2 a rest ih =>
      have hd' := joins_distinct (absorb_joins [] a [] rest) hd
      simp only [List.nil_append] at hd'
      have hstarts := List.nodup_cons.1 hd'.starts
      have hstops := List.nodup_cons.1 hd'.stops
      have hkept := joins_endsKept (joined_joins [] (absorb a rest).2)
      rw [List.nil_append, List.nil_append] at hkept
      rw [joined_cons, separate_cons, ih ⟨hstarts.2, hstops.2⟩, ← absorb_inOrder_iff hd,
        (hkept.stops _ hstarts.1).2, starts_cons, starts_cons, List.mem_cons, List.mem_cons,
        (hkept.starts _ hstops.1).2, InOrder, stops_cons, List.mem_cons, not_or, not_or]
      exact ⟨fun ⟨hself, hfront, horder⟩ => ⟨hself, ⟨Ne.symm hself.1, hfront⟩, horder⟩,
        fun ⟨hself, hfront, horder⟩ => ⟨hself, hfront.2, horder⟩⟩

theorem joins_starts_subset {rs ss : List Range} (h : ReflTransGen Join rs ss) :
    starts ss ⊆ starts rs := by
  induction h with
  | refl => exact List.Subset.refl _
  | tail _ hjoin ih =>
      obtain ⟨a, r, rest, -, hrs, hss⟩ := hjoin.perm
      refine List.Subset.trans (fun z hz => ?_) ih
      rw [starts, (hss.map addr).mem_iff, List.map_cons, List.mem_cons] at hz
      rw [starts, (hrs.map addr).mem_iff, List.map_cons, List.map_cons, List.mem_cons,
        List.mem_cons]
      exact hz.imp_right Or.inr

/-! ## Runs of covered addresses -/

instance : Std.Symm Apart := ⟨fun _ _ h => h.symm⟩

/-- Where no range starts at the stop of another, a run of covered addresses is part of one. -/
theorem exists_within_of_covered {rs : List Range} (hapart : rs.Pairwise Apart)
    (hsep : Separate rs) {r : Range} (hpos : 0 < r.size.toNat) (hr : ∀ x ∈ r, x ∈ covered rs) :
    ∃ b ∈ rs, r.Within b := by
  obtain ⟨b, hb, hstart⟩ := hr r.addr (addr_mem hpos)
  rw [mem_iff] at hstart
  refine ⟨b, hb, r.addr - b.addr, by bv_omega, ?_⟩
  by_contra hlong
  -- the address behind `b` is in the run, and the last one of `b` would be in its range too
  have hstop : b.stop ∈ r := by
    rw [mem_iff, stop]
    bv_omega
  obtain ⟨c, hc, hcstop⟩ := hr b.stop hstop
  have hne : b.stop ≠ c.addr := hsep b hb c hc
  have hlast : b.stop - 1 ∈ b := by
    rw [mem_iff, stop]
    bv_omega
  have hclast : b.stop - 1 ∈ c := by
    rw [mem_iff] at hcstop ⊢
    bv_omega
  by_cases hbc : b = c
  · subst hbc
    rw [mem_iff, stop] at hcstop
    bv_omega
  · exact hapart.forall hb hc hbc _ hlast hclast

end UnnamedKernel.Lib.Range
