import UnnamedKernel.Lib.Memory

/-!
# `strstr` (`lib/memory.cpp`)

A byte that must not be read is `none` here, and a call that reads one does not return. So
what is shown of strings of which nothing else can be read is shown without reading past them.
-/

namespace UnnamedKernel.Kernel

open UnnamedKernel.Lib

/-- The bytes that can be read. -/
abbrev Readable := Word → Option (BitVec 8)

/-- Turns given to a loop over a string; no string is that long. -/
def stringLimit : Nat := 2 ^ 64

/-- The inner loop of `strstr`: where it leaves `n_ptr`. -/
def matchLoop (m : Readable) : Nat → Word → Word → Option Word
  | 0, _, _ => none
  | fuel + 1, hPtr, nPtr => do
      if (← m hPtr) ≠ 0 then
        if (← m nPtr) ≠ 0 then
          if (← m hPtr) = (← m nPtr) then matchLoop m fuel (hPtr + 1) (nPtr + 1) else some nPtr
        else some nPtr
      else some nPtr

/-- The outer loop of `strstr`; `some none` is the null pointer. -/
def searchLoop (m : Readable) (needle : Word) : Nat → Word → Option (Option Word)
  | 0, _ => none
  | fuel + 1, h => do
      if (← m h) ≠ 0 then
        let nPtr ← matchLoop m stringLimit h needle
        if (← m nPtr) = 0 then some (some h) else searchLoop m needle fuel (h + 1)
      else some none

/-- `strstr`. -/
def strstr (m : Readable) (haystack needle : Word) : Option (Option Word) := do
  if (← m needle) = 0 then some (some haystack) else searchLoop m needle stringLimit haystack

/-- The characters `s` and the terminator lie at `a`. -/
def CString (m : Readable) : Word → List (BitVec 8) → Prop
  | a, [] => m a = some 0
  | a, c :: s => m a = some c ∧ c ≠ 0 ∧ CString m (a + 1) s

/-- The characters of `needle` are those of `haystack` from `k` on. -/
def OccursAt (haystack needle : List (BitVec 8)) (k : Nat) : Prop := needle <+: haystack.drop k

instance (haystack needle : List (BitVec 8)) (k : Nat) : Decidable (OccursAt haystack needle k) :=
  inferInstanceAs (Decidable (_ <+: _))

variable {m : Readable} {a h n : Word} {s hs ns : List (BitVec 8)}

/-! ## Strings -/

theorem CString.read (hs : CString m a s) {i : Nat} (hi : i < s.length) :
    ∃ c, m (a + BitVec.ofNat 64 i) = some c ∧ c ≠ 0 := by
  induction s generalizing a i with
  | nil => simp at hi
  | cons c s ih =>
      obtain ⟨hc, hne, hrest⟩ := hs
      cases i with
      | zero => exact ⟨c, by simpa using hc, hne⟩
      | succ i =>
          have haddr : a + BitVec.ofNat 64 (i + 1) = a + 1 + BitVec.ofNat 64 i := by bv_omega
          rw [haddr]
          exact ih hrest (by simpa using hi)

theorem CString.terminator (hs : CString m a s) : m (a + BitVec.ofNat 64 s.length) = some 0 := by
  induction s generalizing a with
  | nil => simpa [CString] using hs
  | cons c s ih =>
      have haddr : a + BitVec.ofNat 64 (s.length + 1) = a + 1 + BitVec.ofNat 64 s.length := by
        bv_omega
      rw [List.length_cons, haddr]
      exact ih hs.2.2

/-- A string that went around would meet its own terminator. -/
theorem CString.length_lt (hs : CString m a s) : s.length < stringLimit := by
  by_contra hlong
  have hwrap : BitVec.ofNat 64 s.length = BitVec.ofNat 64 (s.length - 2 ^ 64) := by
    apply BitVec.eq_of_toNat_eq
    unfold stringLimit at hlong
    simp only [BitVec.toNat_ofNat]
    omega
  obtain ⟨c, hc, hne⟩ := hs.read (i := s.length - 2 ^ 64) (by unfold stringLimit at hlong; omega)
  have hend := hs.terminator
  rw [hwrap, hc] at hend
  exact hne (Option.some.inj hend)

/-! ## Searching -/

/-- The inner loop stops at the end of the needle just if the needle is there. -/
theorem matchLoop_spec {fuel : Nat} (hhay : CString m h hs) (hneedle : CString m n ns)
    (hfuel : ns.length < fuel) :
    ∃ nPtr c, matchLoop m fuel h n = some nPtr ∧ m nPtr = some c ∧ (c = 0 ↔ ns <+: hs) := by
  induction ns generalizing fuel h n hs with
  | nil =>
      obtain ⟨fuel, rfl⟩ := Nat.exists_eq_add_one_of_ne_zero (Nat.ne_of_gt hfuel)
      have hend : m n = some 0 := hneedle
      refine ⟨n, 0, ?_, hend, by simp⟩
      cases hs with
      | nil =>
          have hnul : m h = some 0 := hhay
          simp [matchLoop, hnul]
      | cons c hs => simp [matchLoop, hhay.1, hend]
  | cons d ns ih =>
      obtain ⟨fuel, rfl⟩ := Nat.exists_eq_add_one_of_ne_zero (Nat.ne_zero_of_lt hfuel)
      obtain ⟨hd, hdne, hrest⟩ := hneedle
      cases hs with
      | nil =>
          have hnul : m h = some 0 := hhay
          exact ⟨n, d, by simp [matchLoop, hnul], hd, iff_of_false hdne (by simp)⟩
      | cons c hs =>
          obtain ⟨hc, hcne, hhrest⟩ := hhay
          by_cases heq : c = d
          · subst heq
            obtain ⟨nPtr, e, hres, he, hiff⟩ := ih hhrest hrest (by simpa using hfuel)
            refine ⟨nPtr, e, ?_, he, by simpa using hiff⟩
            simp only [matchLoop, hc, hd, Option.bind_eq_bind, Option.bind_some, if_pos hcne,
              if_true]
            exact hres
          · have hstop : matchLoop m (fuel + 1) h n = some n := by
              simp only [matchLoop, hc, hd, Option.bind_eq_bind, Option.bind_some, if_pos hcne,
                if_pos hdne, if_neg heq]
            exact ⟨n, d, hstop, hd, iff_of_false hdne (by simp [Ne.symm heq])⟩

/-- The outer loop stops at the first place where the needle is. -/
theorem searchLoop_spec {fuel : Nat} (hhay : CString m h hs) (hneedle : CString m n ns)
    (hne : ns ≠ []) (hfuel : hs.length < fuel) :
    ∃ r, searchLoop m n fuel h = some r ∧
      (∀ p, r = some p → ∃ k, p = h + BitVec.ofNat 64 k ∧ OccursAt hs ns k ∧
        ∀ j < k, ¬ OccursAt hs ns j) ∧
      (r = none ↔ ∀ k, ¬ OccursAt hs ns k) := by
  induction hs generalizing fuel h with
  | nil =>
      obtain ⟨fuel, rfl⟩ := Nat.exists_eq_add_one_of_ne_zero (Nat.ne_of_gt hfuel)
      have hnul : m h = some 0 := hhay
      exact ⟨none, by simp [searchLoop, hnul], by simp, by simp [OccursAt, hne]⟩
  | cons c hs ih =>
      obtain ⟨fuel, rfl⟩ := Nat.exists_eq_add_one_of_ne_zero (Nat.ne_zero_of_lt hfuel)
      obtain ⟨nPtr, e, hmatch, he, hiff⟩ := matchLoop_spec hhay hneedle hneedle.length_lt
      obtain ⟨hc, hcne, hrest⟩ := hhay
      have hstep : searchLoop m n (fuel + 1) h =
          if e = 0 then some (some h) else searchLoop m n fuel (h + 1) := by
        simp only [searchLoop, hc, hmatch, he, Option.bind_eq_bind, Option.bind_some,
          if_pos hcne]
      rw [hstep]
      by_cases hhere : ns <+: c :: hs
      · rw [if_pos (hiff.2 hhere)]
        refine ⟨some h, rfl, ?_, ?_⟩
        · rintro p hp
          exact ⟨0, by simpa using (Option.some.inj hp).symm, hhere, by simp⟩
        · exact iff_of_false (by simp) fun hnone => hnone 0 hhere
      · rw [if_neg fun h => hhere (hiff.1 h)]
        obtain ⟨r, hres, hfound, hnone⟩ := ih hrest (by simpa using hfuel)
        have hsucc : ∀ k, OccursAt (c :: hs) ns (k + 1) ↔ OccursAt hs ns k := fun k => by
          simp [OccursAt]
        refine ⟨r, hres, fun p hp => ?_, ?_⟩
        · obtain ⟨k, rfl, hk, hleast⟩ := hfound p hp
          refine ⟨k + 1, by bv_omega, (hsucc k).2 hk, fun j hj => ?_⟩
          cases j with
          | zero => exact hhere
          | succ j => exact fun h => hleast j (by omega) ((hsucc j).1 h)
        · rw [hnone]
          constructor
          · intro h k
            cases k with
            | zero => exact hhere
            | succ k => exact fun hk => h k ((hsucc k).1 hk)
          · exact fun h k hk => h (k + 1) ((hsucc k).2 hk)

/-- `strstr` finds the first place of the needle, and returns null just if there is none. It
reads no byte but those of the two strings and their terminators. -/
theorem strstr_first (m : Readable) {haystack needle : Word} {hs ns : List (BitVec 8)}
    (hhay : CString m haystack hs) (hneedle : CString m needle ns) :
    ∃ r, strstr m haystack needle = some r ∧
      (∀ p, r = some p → ∃ k, p = haystack + BitVec.ofNat 64 k ∧ OccursAt hs ns k ∧
        ∀ j < k, ¬ OccursAt hs ns j) ∧
      (r = none ↔ ∀ k, ¬ OccursAt hs ns k) := by
  cases ns with
  | nil =>
      have hnul : m needle = some 0 := hneedle
      refine ⟨some haystack, by simp [strstr, hnul], ?_, by simp [OccursAt]⟩
      rintro p hp
      exact ⟨0, by simpa using (Option.some.inj hp).symm, by simp [OccursAt], by simp⟩
  | cons d ns =>
      have hstart : strstr m haystack needle = searchLoop m needle stringLimit haystack := by
        simp only [strstr, hneedle.1, Option.bind_eq_bind, Option.bind_some]
        exact if_neg hneedle.2.1
      rw [hstart]
      exact searchLoop_spec hhay hneedle (by simp) hhay.length_lt

/-- "aab" and "ab" with the terminators, and nothing else, can be read. -/
theorem strstr_first_aab :
    let m : Readable := fun a => [97, 97, 98, 0, 97, 98, 0][a.toNat - 4096]?
    ∃ r, strstr m 4096 4100 = some r ∧
      (∀ p, r = some p → ∃ k, p = 4096 + BitVec.ofNat 64 k ∧ OccursAt [97, 97, 98] [97, 98] k ∧
        ∀ j < k, ¬ OccursAt [97, 97, 98] [97, 98] j) ∧
      (r = none ↔ ∀ k, ¬ OccursAt [97, 97, 98] [97, 98] k) :=
  strstr_first _ ⟨rfl, by decide, rfl, by decide, rfl, by decide, rfl⟩
    ⟨rfl, by decide, rfl, by decide, rfl⟩

end UnnamedKernel.Kernel
