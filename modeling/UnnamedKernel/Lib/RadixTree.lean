import Mathlib.Data.List.Induction
import Mathlib.Logic.Function.Basic

/-!
# Radix trees of tables in a store

A store gives every table an entry at every index, and `link` reads an entry as
the table it points to, if any. When no table is reached by two paths of length
at most `depth`, linking an empty fresh table or writing one entry at the bottom
disturbs no other path.
-/

namespace UnnamedKernel.Lib.RadixTree

variable {T I E : Type} (link : E → Option T)

/-- The table reached from `t` along a path. -/
def descend (store : T → I → E) : T → List I → Option T
  | t, [] => some t
  | t, i :: is => (link (store t i)).bind fun u => descend store u is

/-- The entries read along a path, up to the first one that links to no table. -/
def trail (store : T → I → E) : T → List I → List E
  | _, [] => []
  | t, i :: is =>
      store t i ::
        match link (store t i) with
        | some u => trail store u is
        | none => []

/-- No table is reached from `root` by two paths of length at most `depth`. -/
def NoSharing (store : T → I → E) (root : T) (depth : Nat) : Prop :=
  ∀ p q t, p.length ≤ depth → q.length ≤ depth →
    descend link store root p = some t → descend link store root q = some t → p = q

/-- Table `u` is not in the tree. -/
def Fresh (store : T → I → E) (root : T) (depth : Nat) (u : T) : Prop :=
  ∀ p, p.length ≤ depth → descend link store root p ≠ some u

/-- Every entry of the tables above the bottom satisfies `ok` at its path. -/
def UpperAll (store : T → I → E) (root : T) (depth : Nat) (ok : List I → E → Prop) : Prop :=
  ∀ p i t, p.length < depth → descend link store root p = some t → ok (p ++ [i]) (store t i)

/-- From `store` to `store'`, no table of the tree changes. -/
def SameTables (store store' : T → I → E) (root : T) (depth : Nat) : Prop :=
  ∀ p t i, p.length ≤ depth → descend link store root p = some t → store' t i = store t i

variable {link} {store store' : T → I → E} {root t u : T} {depth : Nat}

@[simp] theorem descend_nil (t : T) : descend link store t [] = some t := rfl

@[simp] theorem descend_cons (t : T) (i : I) (is : List I) :
    descend link store t (i :: is) = (link (store t i)).bind fun u => descend link store u is := rfl

theorem descend_append (t : T) (p q : List I) :
    descend link store t (p ++ q) =
      (descend link store t p).bind fun u => descend link store u q := by
  induction p generalizing t with
  | nil => rfl
  | cons i p ih =>
      simp only [List.cons_append, descend_cons, ih, Option.bind_assoc]

theorem descend_concat (h : descend link store root (p : List I) = some t) (i : I) :
    descend link store root (p ++ [i]) = link (store t i) := by
  simp [descend_append, h]

theorem descend_only {i₀ : I} {p : List I} (hlink : link (store t i₀) = some u)
    (hnone : ∀ i, i ≠ i₀ → link (store t i) = none) {x : T}
    (h : descend link store t p = some x) :
    p = [] ∧ x = t ∨ ∃ q, p = i₀ :: q ∧ descend link store u q = some x := by
  cases p with
  | nil => exact Or.inl ⟨rfl, (Option.some.inj h).symm⟩
  | cons i q =>
      by_cases hi : i = i₀
      · subst hi
        rw [descend_cons, hlink, Option.bind_some] at h
        exact Or.inr ⟨q, rfl, h⟩
      · rw [descend_cons, hnone i hi] at h
        simp at h

theorem descend_leaf {p : List I} (hnone : ∀ i, link (store t i) = none) {x : T}
    (h : descend link store t p = some x) : p = [] ∧ x = t := by
  cases p with
  | nil => exact ⟨rfl, (Option.some.inj h).symm⟩
  | cons i q =>
      rw [descend_cons, hnone] at h
      simp at h

/-- A walk that leads nowhere stops at an entry that links to no table. -/
theorem descend_eq_none {path : List I} (h : descend link store root path = none) :
    ∃ q i r t, path = q ++ i :: r ∧ descend link store root q = some t ∧
        link (store t i) = none := by
  induction path generalizing root with
  | nil => simp at h
  | cons i path ih =>
      cases hl : link (store root i) with
      | none => exact ⟨[], i, path, root, rfl, rfl, hl⟩
      | some u =>
          rw [descend_cons, hl] at h
          obtain ⟨q, j, r, t, rfl, ht, hnone⟩ := ih h
          exact ⟨i :: q, j, r, t, rfl, by simp [hl, ht], hnone⟩

/-- A reading of entries that finds more links follows every path of the first one. -/
theorem descend_mono {link' : E → Option T} (hlink : ∀ e u, link e = some u → link' e = some u)
    {path : List I} (h : descend link store root path = some t) :
    descend link' store root path = some t := by
  induction path generalizing root with
  | nil => exact h
  | cons i path ih =>
      obtain ⟨u, hu, ht⟩ := Option.bind_eq_some_iff.1 h
      rw [descend_cons, hlink _ u hu]
      exact ih ht

theorem descend_prefix_none {p q : List I} (h : descend link store root p = none) (hpre : p <+: q) :
    descend link store root q = none := by
  obtain ⟨r, rfl⟩ := hpre
  rw [descend_append, h]
  rfl

theorem not_prefix_concat (p : List I) (i : I) : ¬ (p ++ [i]) <+: p := fun hpre => by
  have := hpre.length_le
  simp only [List.length_append, List.length_cons, List.length_nil] at this
  omega

theorem trail_append {p : List I} (h : descend link store t p = some u) (q : List I) :
    trail link store t (p ++ q) = trail link store t p ++ trail link store u q := by
  induction p generalizing t with
  | nil =>
      obtain rfl : t = u := by simpa using h
      rfl
  | cons i p ih =>
      obtain ⟨v, hv, hu⟩ := Option.bind_eq_some_iff.1 h
      simp only [List.cons_append, trail, hv, ih hu]

theorem trail_cons_of_none {i : I} (h : link (store t i) = none) (q : List I) :
    trail link store t (i :: q) = [store t i] := by
  simp [trail, h]

theorem trail_length {p : List I} (h : descend link store t p = some u) :
    (trail link store t p).length = p.length := by
  induction p generalizing t with
  | nil => rfl
  | cons i p ih =>
      obtain ⟨v, hv, hu⟩ := Option.bind_eq_some_iff.1 h
      simp [trail, hv, ih hu]

/-- A path that meets no changed entry leads to the same table through the same entries. -/
theorem congr_off_path {path : List I} (t : T)
    (h : ∀ q i r x, path = q ++ i :: r → descend link store t q = some x →
      store' x i = store x i) :
    descend link store' t path = descend link store t path ∧
      trail link store' t path = trail link store t path := by
  induction path generalizing t with
  | nil => exact ⟨rfl, rfl⟩
  | cons j path ih =>
      have hj : store' t j = store t j := h [] j path t rfl rfl
      simp only [descend_cons, trail, hj]
      cases hl : link (store t j) with
      | none => exact ⟨rfl, rfl⟩
      | some v =>
          obtain ⟨hd, ht⟩ := ih v fun q i r x hpath hx =>
            h (j :: q) i r x (by rw [hpath]; rfl) (by simp [hl, hx])
          exact ⟨by simpa using hd, by simp only [ht]⟩

theorem SameTables.paths (h : SameTables link store store' root depth) {path : List I}
    (hlen : path.length ≤ depth + 1) :
    descend link store' root path = descend link store root path ∧
      trail link store' root path = trail link store root path := by
  refine congr_off_path root fun q i r x hpath hx => h q x i ?_ hx
  rw [hpath] at hlen
  simp only [List.length_append, List.length_cons] at hlen
  omega

theorem SameTables.descend (h : SameTables link store store' root depth) {path : List I}
    (hlen : path.length ≤ depth) :
    descend link store' root path = descend link store root path := (h.paths (by omega)).1

theorem SameTables.noSharing (h : SameTables link store store' root depth)
    (hns : NoSharing link store root depth) : NoSharing link store' root depth := by
  intro p q t hp hq hpt hqt
  rw [h.descend hp] at hpt
  rw [h.descend hq] at hqt
  exact hns p q t hp hq hpt hqt

theorem SameTables.upperAll (h : SameTables link store store' root depth) {ok : List I → E → Prop}
    (hok : UpperAll link store root depth ok) : UpperAll link store' root depth ok := by
  intro p i t hlen hp
  rw [h.descend (Nat.le_of_lt hlen)] at hp
  rw [h p t i (Nat.le_of_lt hlen) hp]
  exact hok p i t hlen hp

theorem NoSharing.prefix_unique (h : NoSharing link store root depth) {p q : List I}
    (hp : descend link store root p = some t) (hq : descend link store root q = some t)
    (hplen : p.length ≤ depth) (hqlen : q.length ≤ depth) : p = q :=
  h p q t hplen hqlen hp hq

theorem UpperAll.trail {ok : List I → E → Prop} (hok : UpperAll link store root depth ok)
    {p : List I} (hp : descend link store root p = some t) (hlen : p.length ≤ depth) :
    ∀ e ∈ trail link store root p, ∃ q, q <+: p ∧ ok q e := by
  induction p using List.reverseRecOn generalizing t with
  | nil => simp [RadixTree.trail]
  | append_singleton p i ih =>
      rw [descend_append] at hp
      obtain ⟨u, hu, -⟩ := Option.bind_eq_some_iff.1 hp
      rw [List.length_append, List.length_singleton] at hlen
      intro e he
      rw [trail_append hu, List.mem_append] at he
      rcases he with he | he
      · obtain ⟨q, hq, hqe⟩ := ih hu (by omega) e he
        exact ⟨q, hq.trans (List.prefix_append p [i]), hqe⟩
      · have hlast : e = store u i := by
          simp only [RadixTree.trail] at he
          cases hl : link (store u i) <;> simpa [hl, RadixTree.trail] using he
        exact ⟨p ++ [i], List.prefix_refl _, hlast ▸ hok p i u (by omega) hu⟩

theorem links_of_mem_trail {p : List I} (hp : descend link store t p = some u) :
    ∀ e ∈ trail link store t p, (link e).isSome := by
  induction p generalizing t with
  | nil => simp [trail]
  | cons i p ih =>
      obtain ⟨v, hv, hu⟩ := Option.bind_eq_some_iff.1 hp
      simp only [trail, hv, List.mem_cons, forall_eq_or_imp, Option.isSome_some, true_and]
      exact ih hu

/-! ## Writing one entry -/

section Write

variable {p : List I} {i : I} {e : E}

/-- From `store` to `store'`, only the entry of `t` at `i` changes, to `e`. -/
structure WritesEntry (store store' : T → I → E) (t : T) (i : I) (e : E) : Prop where
  here : store' t i = e
  other : ∀ x j, ¬ (x = t ∧ j = i) → store' x j = store x j

/-- Paths that do not pass through the written entry are undisturbed. -/
theorem WritesEntry.off_path (hw : WritesEntry store store' t i e)
    (hns : NoSharing link store root depth) (hp : descend link store root p = some t)
    (hplen : p.length ≤ depth) {path : List I} (hlen : path.length ≤ depth + 1)
    (hoff : ¬ (p ++ [i]) <+: path) :
    descend link store' root path = descend link store root path ∧
      trail link store' root path = trail link store root path := by
  refine congr_off_path root fun q j r x hpath hx => hw.other x j ?_
  rintro ⟨rfl, rfl⟩
  have hqlen : q.length ≤ depth := by
    rw [hpath] at hlen
    simp only [List.length_append, List.length_cons] at hlen
    omega
  rw [hns.prefix_unique hp hx hplen hqlen] at hoff
  exact hoff ⟨r, by simp [hpath]⟩

theorem WritesEntry.descend_bottom (hw : WritesEntry store store' t i e)
    (hns : NoSharing link store root depth) (hp : descend link store root p = some t)
    (hplen : p.length = depth) {path : List I} (hlen : path.length ≤ depth) :
    descend link store' root path = descend link store root path := by
  refine (hw.off_path hns hp (Nat.le_of_eq hplen) (by omega) fun hpre => ?_).1
  have := hpre.length_le
  simp only [List.length_append, List.length_cons, List.length_nil] at this
  omega

theorem WritesEntry.noSharing_bottom (hw : WritesEntry store store' t i e)
    (hns : NoSharing link store root depth) (hp : descend link store root p = some t)
    (hplen : p.length = depth) : NoSharing link store' root depth := by
  intro a b x ha hb hda hdb
  rw [hw.descend_bottom hns hp hplen ha] at hda
  rw [hw.descend_bottom hns hp hplen hb] at hdb
  exact hns a b x ha hb hda hdb

theorem WritesEntry.trail_bottom (hw : WritesEntry store store' t i e)
    (hns : NoSharing link store root depth) (hp : descend link store root p = some t)
    (hplen : p.length = depth) :
    trail link store' root (p ++ [i]) = trail link store root p ++ [e] := by
  obtain ⟨hd, ht⟩ := hw.off_path hns hp (Nat.le_of_eq hplen) (by omega) (not_prefix_concat p i)
  rw [trail_append (hd.trans hp), ht]
  have hlast : trail link store' t [i] = [e] := by
    simp only [trail, hw.here]
    cases link e <;> rfl
  rw [hlast]

theorem WritesEntry.upperAll_bottom {ok : List I → E → Prop}
    (hw : WritesEntry store store' t i e) (hns : NoSharing link store root depth)
    (hp : descend link store root p = some t) (hplen : p.length = depth)
    (hok : UpperAll link store root depth ok) : UpperAll link store' root depth ok := by
  intro q j x hq hx
  rw [hw.descend_bottom hns hp hplen (Nat.le_of_lt hq)] at hx
  rw [hw.other x j]
  · exact hok q j x hq hx
  · rintro ⟨rfl, -⟩
    have := hns.prefix_unique hp hx (Nat.le_of_eq hplen) (Nat.le_of_lt hq)
    subst this
    omega

end Write

/-! ## Linking a fresh table -/

section Link

variable {p : List I} {i : I} {e z : E}

/-- From `store` to `store'`, `t` links to `u` at `i` through `e`, and all entries
of `u` become `z`. -/
structure LinksFresh (store store' : T → I → E) (t : T) (i : I) (u : T) (e z : E) : Prop where
  here : store' t i = e
  blank : ∀ j, store' u j = z
  other : ∀ x j, x ≠ u → ¬ (x = t ∧ j = i) → store' x j = store x j

variable (hl : LinksFresh store store' t i u e z) (hns : NoSharing link store root depth)
  (hfresh : Fresh link store root depth u) (hp : descend link store root p = some t)
  (hplen : p.length < depth)

include hl hns hfresh hp hplen

theorem LinksFresh.off_path {path : List I} (hlen : path.length ≤ depth + 1)
    (hoff : ¬ (p ++ [i]) <+: path) :
    descend link store' root path = descend link store root path ∧
      trail link store' root path = trail link store root path := by
  refine congr_off_path root fun q j r x hpath hx => ?_
  have hqlen : q.length ≤ depth := by
    rw [hpath] at hlen
    simp only [List.length_append, List.length_cons] at hlen
    omega
  refine hl.other x j (fun he => hfresh q hqlen (he ▸ hx)) ?_
  rintro ⟨rfl, rfl⟩
  rw [hns.prefix_unique hp hx (Nat.le_of_lt hplen) hqlen] at hoff
  exact hoff ⟨r, by simp [hpath]⟩

theorem LinksFresh.descend_parent : descend link store' root p = some t := by
  rw [(hl.off_path hns hfresh hp hplen (by omega) (not_prefix_concat p i)).1, hp]

variable (he : link e = some u)

include he

theorem LinksFresh.descend_new : descend link store' root (p ++ [i]) = some u := by
  rw [descend_concat (hl.descend_parent hns hfresh hp hplen), hl.here, he]

variable (hz : link z = none) (hnone : link (store t i) = none)

include hz hnone

/-- The new tree has one more path, to the fresh table. -/
theorem LinksFresh.descend_iff {path : List I} (hlen : path.length ≤ depth) (x : T) :
    descend link store' root path = some x ↔
      (path = p ++ [i] ∧ x = u) ∨ descend link store root path = some x := by
  by_cases hpre : (p ++ [i]) <+: path
  · obtain ⟨r, rfl⟩ := hpre
    have hold : descend link store root (p ++ [i] ++ r) = none := by
      rw [descend_append, descend_concat hp, hnone]
      rfl
    have hnew : descend link store' root (p ++ [i] ++ r) = descend link store' u r := by
      rw [descend_append, hl.descend_new hns hfresh hp hplen he]
      rfl
    rw [hold, hnew]
    cases r with
    | nil => simp [eq_comm]
    | cons j r =>
        rw [descend_cons, hl.blank, hz]
        simp
  · rw [(hl.off_path hns hfresh hp hplen (by omega) hpre).1]
    constructor
    · exact Or.inr
    · rintro (⟨rfl, -⟩ | h)
      · exact absurd (List.prefix_refl _) hpre
      · exact h

theorem LinksFresh.noSharing : NoSharing link store' root depth := by
  intro a b x ha hb hda hdb
  rw [hl.descend_iff hns hfresh hp hplen he hz hnone ha] at hda
  rw [hl.descend_iff hns hfresh hp hplen he hz hnone hb] at hdb
  rcases hda with ⟨rfl, rfl⟩ | hda <;> rcases hdb with ⟨rfl, hx⟩ | hdb
  · rfl
  · exact absurd hdb (hfresh b hb)
  · exact absurd (hx ▸ hda) (hfresh a ha)
  · exact hns a b x ha hb hda hdb

theorem LinksFresh.upperAll {ok : List I → E → Prop} (hok : UpperAll link store root depth ok)
    (hoke : ok (p ++ [i]) e) (hokz : ∀ path, ok path z) : UpperAll link store' root depth ok := by
  intro q j x hq hx
  rcases (hl.descend_iff hns hfresh hp hplen he hz hnone (Nat.le_of_lt hq) x).1 hx with
    ⟨rfl, rfl⟩ | hold
  · rw [hl.blank]
    exact hokz _
  · by_cases hx : x = t ∧ j = i
    · obtain ⟨rfl, rfl⟩ := hx
      rw [← hns.prefix_unique hp hold (Nat.le_of_lt hplen) (Nat.le_of_lt hq), hl.here]
      exact hoke
    · rw [hl.other x j (fun h => hfresh q (Nat.le_of_lt hq) (h ▸ hold)) hx]
      exact hok q j x hq hold

/-- A path through the new link now reads one blank entry behind it. -/
theorem LinksFresh.trail_through (j : I) (r : List I) :
    trail link store root (p ++ i :: j :: r) = trail link store root p ++ [store t i] ∧
      trail link store' root (p ++ i :: j :: r) = trail link store root p ++ [e, z] := by
  obtain ⟨hd, ht⟩ := hl.off_path hns hfresh hp hplen (by omega) (not_prefix_concat p i)
  constructor
  · rw [trail_append hp, trail_cons_of_none hnone]
  · have hblank : link (store' u j) = none := by rw [hl.blank, hz]
    rw [trail_append (hd.trans hp), ht, trail, hl.here, he]
    simp only [trail_cons_of_none hblank, hl.blank]

end Link

end UnnamedKernel.Lib.RadixTree
