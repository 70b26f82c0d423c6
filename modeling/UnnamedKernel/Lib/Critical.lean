import Mathlib.Data.List.Basic
import Mathlib.Logic.Function.Basic
import UnnamedKernel.Lib.Run

/-!
# Critical sections under a test-and-set lock

Any number of processors call routines that work on shared data. A routine takes the lock, makes
its accesses one by one, and releases the lock. Whatever the order in which the processors take
their turns, the calls come to what they come to one after the other.
-/

namespace UnnamedKernel.Lib.Critical

variable {κ ι ρ σ α β : Type}

/-- A critical section, one atomic access of the shared data after the other. -/
inductive Section (σ : Type) (ρ : Type) where
  | done (r : ρ)
  /-- the processor stops with the lock held -/
  | halt
  /-- the data become `write d`, and it goes on with `next d` -/
  | access (write : σ → σ) (next : σ → Section σ ρ)

namespace Section

/-- The section without anyone in between. -/
def run : Section σ ρ → σ → Option (ρ × σ)
  | done r, d => some (r, d)
  | halt, _ => none
  | access write next, d => (next d).run (write d)

def bind : Section σ α → (α → Section σ β) → Section σ β
  | done r, k => k r
  | halt, _ => halt
  | access write next, k => access write fun d => (next d).bind k

instance : Monad (Section σ) where
  pure := done
  bind := bind

/-- A load. -/
def load (f : σ → α) : Section σ α := access id fun d => done (f d)

/-- A store. -/
def store (f : σ → σ) : Section σ Unit := access f fun _ => done ()

@[simp] theorem run_pure (r : α) (d : σ) : (pure r : Section σ α).run d = some (r, d) := rfl

@[simp] theorem run_done (r : α) (d : σ) : (done r : Section σ α).run d = some (r, d) := rfl

@[simp] theorem run_halt (d : σ) : (halt : Section σ α).run d = none := rfl

@[simp] theorem run_load (f : σ → α) (d : σ) : (load f).run d = some (f d, d) := rfl

@[simp] theorem run_store (f : σ → σ) (d : σ) : (store f).run d = some ((), f d) := rfl

@[simp] theorem run_bind (x : Section σ α) (k : α → Section σ β) (d : σ) :
    (x >>= k).run d = (x.run d).bind fun y => (k y.1).run y.2 := by
  show (x.bind k).run d = _
  induction x generalizing d with
  | done r => rfl
  | halt => rfl
  | access write next ih => exact ih d (write d)

@[simp] theorem run_ite (c : Prop) [Decidable c] (x y : Section σ α) (d : σ) :
    (if c then x else y).run d = if c then x.run d else y.run d := by
  split_ifs <;> rfl

end Section

/-- What a call does before it goes to the lock. -/
inductive Entry (ρ : Type) where
  | returns (r : ρ)
  | stops
  | locks

/-- What a processor does for a call. -/
structure Routine (ι ρ σ : Type) where
  entry : ι → Entry ρ
  body : ι → Section σ ρ

/-- A call of a routine without anyone in between. -/
def Routine.serve (R : Routine ι ρ σ) (i : ι) (d : σ) : Option (ρ × σ) :=
  match R.entry i with
  | .returns r => some (r, d)
  | .stops => none
  | .locks => (R.body i).run d

/-- Where a processor is. -/
inductive Processor (ι ρ σ : Type) where
  | idle
  /-- in the loop of `lock` -/
  | spinning (i : ι)
  /-- it holds the lock -/
  | inside (i : ι) (rest : Section σ ρ)

/-- The data with their lock, and the processors that use them. -/
structure Machine (κ ι ρ σ : Type) where
  flag : Bool := false
  data : σ
  cpu : κ → Processor ι ρ σ := fun _ => .idle
  /-- the calls that have returned, in order -/
  log : List (κ × ι × ρ) := []

inductive Event (κ ι : Type) where
  | call (c : κ) (i : ι)
  | turn (c : κ)

namespace Machine

variable [DecidableEq κ] (R : Routine ι ρ σ)

/-- One turn of a processor; `none` when it has nothing to do. -/
def turn (s : Machine κ ι ρ σ) (c : κ) : Option (Machine κ ι ρ σ) :=
  match s.cpu c with
  | .idle => none
  | .spinning i =>
      -- the flag is set in either case, and tells what it was
      if s.flag then some s
      else some { s with flag := true, cpu := Function.update s.cpu c (.inside i (R.body i)) }
  | .inside _ .halt => none
  | .inside i (.access write next) =>
      some { s with
        data := write s.data
        cpu := Function.update s.cpu c (.inside i (next s.data)) }
  | .inside i (.done r) =>
      some { s with
        flag := false
        cpu := Function.update s.cpu c .idle
        log := s.log ++ [(c, i, r)] }

def step (s : Machine κ ι ρ σ) : Event κ ι → Option (Machine κ ι ρ σ)
  | .call c i =>
      match s.cpu c with
      | .idle =>
          match R.entry i with
          | .returns r => some { s with log := s.log ++ [(c, i, r)] }
          | .stops => none
          | .locks => some { s with cpu := Function.update s.cpu c (.spinning i) }
      | _ => none
  | .turn c => s.turn R c

end Machine

/-! ## The order of the calls -/

/-- The calls of a log, one after the other, have these results and lead from `d` to `d'`. -/
def Replays (serve : ι → σ → Option (ρ × σ)) : σ → List (κ × ι × ρ) → σ → Prop
  | d, [], d' => d = d'
  | d, e :: es, d' => ∃ d₁, serve e.2.1 d = some (e.2.2, d₁) ∧ Replays serve d₁ es d'

section Replays

variable {serve : ι → σ → Option (ρ × σ)} {d₀ d d' : σ} {log : List (κ × ι × ρ)}

theorem Replays.concat (h : Replays serve d₀ log d) {e : κ × ι × ρ}
    (hserve : serve e.2.1 d = some (e.2.2, d')) : Replays serve d₀ (log ++ [e]) d' := by
  induction log generalizing d₀ with
  | nil =>
      obtain rfl : d₀ = d := h
      exact ⟨d', hserve, rfl⟩
  | cons e' log ih =>
      obtain ⟨d₁, hfirst, hrest⟩ := h
      exact ⟨d₁, hfirst, ih hrest⟩

theorem Replays.append {log' : List (κ × ι × ρ)} (h : Replays serve d₀ (log ++ log') d) :
    ∃ d₁, Replays serve d₀ log d₁ ∧ Replays serve d₁ log' d := by
  induction log generalizing d₀ with
  | nil => exact ⟨d₀, rfl, h⟩
  | cons e log ih =>
      obtain ⟨d₁, hfirst, hrest⟩ := h
      obtain ⟨d₂, hlog, hlog'⟩ := ih hrest
      exact ⟨d₂, ⟨d₁, hfirst, hlog⟩, hlog'⟩

/-- What the calls keep one by one holds after all of them. -/
theorem Replays.invariant (h : Replays serve d₀ log d) {P : σ → Prop} {legal : ι → Prop}
    (hserve : ∀ i r d d', legal i → P d → serve i d = some (r, d') → P d')
    (hlegal : ∀ e ∈ log, legal e.2.1) (h₀ : P d₀) : P d := by
  induction log generalizing d₀ with
  | nil =>
      obtain rfl : d₀ = d := h
      exact h₀
  | cons e log ih =>
      obtain ⟨d₁, hfirst, hrest⟩ := h
      exact ih hrest (fun e' he' => hlegal e' (List.mem_cons_of_mem _ he'))
        (hserve _ _ _ _ (hlegal e (List.mem_cons_self ..)) h₀ hfirst)

end Replays

variable {R : Routine ι ρ σ} {d₀ d d' : σ} {log : List (κ × ι × ρ)}

/-- One processor holds the lock at most, and the calls that have returned can be replayed. What the
one inside still has to do comes to what its call comes to after them. -/
structure Serial (R : Routine ι ρ σ) (d₀ : σ) (s : Machine κ ι ρ σ) : Prop where
  exclusive : ∀ c i rest c' i' rest', s.cpu c = .inside i rest → s.cpu c' = .inside i' rest' →
    c = c'
  held_iff : s.flag = true ↔ ∃ c i rest, s.cpu c = .inside i rest
  replays : ∃ d, Replays R.serve d₀ s.log d ∧ (s.flag = false → s.data = d) ∧
    ∀ c i rest, s.cpu c = .inside i rest → rest.run s.data = R.serve i d
  waits : ∀ c i, s.cpu c = .spinning i → R.entry i = .locks

namespace Serial

theorem start (R : Routine ι ρ σ) (d₀ : σ) : Serial R d₀ ({ data := d₀ } : Machine κ ι ρ σ) :=
  ⟨by simp, by simp, ⟨d₀, rfl, fun _ => rfl, by simp⟩, by simp⟩

variable {s s' : Machine κ ι ρ σ} {c : κ} {i : ι}

theorem outside (h : Serial R d₀ s) (hfree : s.flag = false) {rest : Section σ ρ} :
    s.cpu c ≠ .inside i rest := fun hin => by
  have hheld := h.held_iff.2 ⟨c, i, rest, hin⟩
  rw [hfree] at hheld
  exact Bool.false_ne_true hheld

theorem returns (h : Serial R d₀ s) {r : ρ} (hentry : R.entry i = .returns r) :
    Serial R d₀ { s with log := s.log ++ [(c, i, r)] } := by
  obtain ⟨d, hlog, hdata, hrest⟩ := h.replays
  exact ⟨h.exclusive, h.held_iff, ⟨d, hlog.concat (by rw [Routine.serve, hentry]), hdata, hrest⟩,
    h.waits⟩

variable [DecidableEq κ]

theorem calls (h : Serial R d₀ s) (hidle : s.cpu c = .idle) (hentry : R.entry i = .locks) :
    Serial R d₀ { s with cpu := Function.update s.cpu c (.spinning i) } := by
  -- who is inside is not `c`
  have hinside : ∀ c' i' rest, Function.update s.cpu c (.spinning i) c' = .inside i' rest ↔
      s.cpu c' = .inside i' rest := by
    intro c' i' rest
    by_cases hc : c' = c
    · subst hc
      rw [Function.update_self, hidle]
      simp
    · rw [Function.update_of_ne hc]
  obtain ⟨d, hlog, hdata, hrest⟩ := h.replays
  refine ⟨fun c₁ i₁ r₁ c₂ i₂ r₂ h₁ h₂ => ?_, ?_, ⟨d, hlog, hdata, fun c' i' rest hin => ?_⟩,
    fun c' i' hspin => ?_⟩
  · exact h.exclusive _ _ _ _ _ _ ((hinside ..).1 h₁) ((hinside ..).1 h₂)
  · simp only [hinside]
    exact h.held_iff
  · exact hrest c' i' rest ((hinside ..).1 hin)
  · by_cases hc : c' = c
    · subst hc
      simp only [Function.update_self, Processor.spinning.injEq] at hspin
      rw [← hspin]
      exact hentry
    · simp only [Function.update_of_ne hc] at hspin
      exact h.waits c' i' hspin

/-- The one that is inside, or comes in, makes a step; the others are outside. -/
theorem moves (h : Serial R d₀ s) {c : κ}
    (hothers : ∀ c' i' rest, c' ≠ c → s.cpu c' ≠ .inside i' rest) (i : ι) (data : σ)
    (rest : Section σ ρ) {d : σ} (hlog : Replays R.serve d₀ s.log d)
    (hrest : rest.run data = R.serve i d) :
    Serial R d₀ { s with
      flag := true, data := data, cpu := Function.update s.cpu c (.inside i rest) } := by
  have hinside : ∀ c' i' rest', Function.update s.cpu c (.inside i rest) c' = .inside i' rest' →
      c' = c ∧ i' = i ∧ rest' = rest := by
    intro c' i' rest' hin
    by_cases hc : c' = c
    · subst hc
      rw [Function.update_self, Processor.inside.injEq] at hin
      exact ⟨rfl, hin.1.symm, hin.2.symm⟩
    · rw [Function.update_of_ne hc] at hin
      exact absurd hin (hothers c' i' rest' hc)
  refine ⟨fun c₁ i₁ r₁ c₂ i₂ r₂ h₁ h₂ => ?_, ?_, ⟨d, hlog, by simp, fun c' i' rest' hin => ?_⟩,
    fun c' i' hspin => ?_⟩
  · rw [(hinside _ _ _ h₁).1, (hinside _ _ _ h₂).1]
  · exact iff_of_true rfl ⟨c, i, rest, Function.update_self ..⟩
  · obtain ⟨-, rfl, rfl⟩ := hinside _ _ _ hin
    exact hrest
  · by_cases hc : c' = c
    · subst hc
      simp only [Function.update_self] at hspin
      exact absurd hspin (by simp)
    · simp only [Function.update_of_ne hc] at hspin
      exact h.waits c' i' hspin

theorem leaves (h : Serial R d₀ s) {r : ρ} (hin : s.cpu c = .inside i (.done r)) :
    Serial R d₀ { s with
      flag := false, cpu := Function.update s.cpu c .idle, log := s.log ++ [(c, i, r)] } := by
  obtain ⟨d, hlog, -, hrest⟩ := h.replays
  have hserve := (hrest c i _ hin).symm
  rw [Section.run_done] at hserve
  have houtside : ∀ c' i' rest', Function.update s.cpu c .idle c' ≠ .inside i' rest' := by
    intro c' i' rest' hin'
    by_cases hc : c' = c
    · subst hc
      rw [Function.update_self] at hin'
      exact absurd hin' (by simp)
    · rw [Function.update_of_ne hc] at hin'
      exact hc (h.exclusive _ _ _ _ _ _ hin' hin)
  refine ⟨fun c₁ i₁ r₁ _ _ _ h₁ => (houtside c₁ i₁ r₁ h₁).elim, ?_,
    ⟨s.data, hlog.concat hserve, fun _ => rfl, fun c' i' rest' hin' =>
      (houtside c' i' rest' hin').elim⟩, fun c' i' hspin => ?_⟩
  · exact iff_of_false (by simp) fun ⟨c', i', rest', hin'⟩ => houtside _ _ _ hin'
  · by_cases hc : c' = c
    · subst hc
      simp only [Function.update_self] at hspin
      exact absurd hspin (by simp)
    · simp only [Function.update_of_ne hc] at hspin
      exact h.waits c' i' hspin

theorem turn (h : Serial R d₀ s) (hres : s.turn R c = some s') : Serial R d₀ s' := by
  unfold Machine.turn at hres
  rcases hcpu : s.cpu c with - | i | ⟨i, rest⟩
  · simp [hcpu] at hres
  · simp only [hcpu] at hres
    split_ifs at hres with hflag
    · cases hres
      exact h
    · cases hres
      -- the flag was clear
      have hfree : s.flag = false := by simpa using hflag
      obtain ⟨d, hlog, hdata, -⟩ := h.replays
      exact h.moves (fun c' i' rest _ => h.outside hfree) i s.data (R.body i) hlog
        (by rw [Routine.serve, h.waits c i hcpu, hdata hfree])
  · obtain ⟨d, hlog, -, hrest⟩ := h.replays
    have hflag := h.held_iff.2 ⟨c, i, rest, hcpu⟩
    cases rest with
    | done r =>
        simp only [hcpu, Option.some.injEq] at hres
        rw [← hres]
        exact h.leaves hcpu
    | halt => simp [hcpu] at hres
    | access write next =>
        simp only [hcpu, Option.some.injEq] at hres
        have hmoves := h.moves
          (fun c' i' rest' hne hin => hne (h.exclusive _ _ _ _ _ _ hin hcpu)) i (write s.data)
          (next s.data) hlog (hrest c i _ hcpu)
        rw [← hres]
        rw [← hflag] at hmoves
        exact hmoves

theorem step (h : Serial R d₀ s) {e : Event κ ι} (hres : s.step R e = some s') :
    Serial R d₀ s' := by
  cases e with
  | turn c => exact h.turn hres
  | call c i =>
      unfold Machine.step at hres
      rcases hcpu : s.cpu c with - | i' | ⟨i', rest⟩
      · simp only [hcpu] at hres
        rcases hentry : R.entry i with r | - | -
        · simp only [hentry, Option.some.injEq] at hres
          rw [← hres]
          exact h.returns hentry
        · simp [hentry] at hres
        · simp only [hentry, Option.some.injEq] at hres
          rw [← hres]
          exact h.calls hcpu hentry
      · simp [hcpu] at hres
      · simp [hcpu] at hres

theorem run (h : Serial R d₀ s) {events : List (Event κ ι)}
    (hrun : Lib.run (Machine.step R) s events = some s') : Serial R d₀ s' :=
  legalRun_preserves (fun _ _ _ h _ hres => h.step hres) h
    (@legalRun_of_forall _ _ _ (fun _ => True) s events fun _ _ => trivial) hrun

end Serial

/-- Whatever the order of the turns, the processors exclude each other, and the calls that have
returned come to what they come to one after the other. -/
theorem serial_of_run [DecidableEq κ] {s : Machine κ ι ρ σ} {events : List (Event κ ι)}
    (hrun : Lib.run (Machine.step R) { data := d₀ } events = some s) : Serial R d₀ s :=
  (Serial.start R d₀).run hrun

/-! ## Progress -/

/-- All calls that have been made, whether they have returned or not, are legal. -/
structure AllLegal (legal : ι → Prop) (s : Machine κ ι ρ σ) : Prop where
  log : ∀ e ∈ s.log, legal e.2.1
  spinning : ∀ c i, s.cpu c = .spinning i → legal i
  inside : ∀ c i rest, s.cpu c = .inside i rest → legal i

section Progress

variable {s s' : Machine κ ι ρ σ} {c : κ} {i : ι} {legal : ι → Prop}

theorem AllLegal.start (legal : ι → Prop) (d₀ : σ) :
    AllLegal legal ({ data := d₀ } : Machine κ ι ρ σ) :=
  ⟨by simp, by simp, by simp⟩

theorem AllLegal.returns (h : AllLegal legal s) (hi : legal i) (r : ρ) :
    ∀ e ∈ s.log ++ [(c, i, r)], legal e.2.1 := by
  intro e he
  rcases List.mem_append.1 he with he | he
  · exact h.log e he
  · rw [List.mem_singleton.1 he]
    exact hi

variable [DecidableEq κ]

theorem AllLegal.update (h : AllLegal legal s) {p : Processor ι ρ σ}
    (hspin : ∀ i, p = .spinning i → legal i) (hin : ∀ i rest, p = .inside i rest → legal i)
    {s' : Machine κ ι ρ σ} (hcpu : s'.cpu = Function.update s.cpu c p)
    (hlog : ∀ e ∈ s'.log, legal e.2.1) : AllLegal legal s' := by
  refine ⟨hlog, fun c' i' h' => ?_, fun c' i' rest h' => ?_⟩
  · rw [hcpu] at h'
    by_cases hc : c' = c
    · subst hc
      rw [Function.update_self] at h'
      exact hspin i' h'
    · rw [Function.update_of_ne hc] at h'
      exact h.spinning c' i' h'
  · rw [hcpu] at h'
    by_cases hc : c' = c
    · subst hc
      rw [Function.update_self] at h'
      exact hin i' rest h'
    · rw [Function.update_of_ne hc] at h'
      exact h.inside c' i' rest h'

theorem AllLegal.step (h : AllLegal legal s) {e : Event κ ι}
    (hlegal : ∀ c i, e = .call c i → legal i) (hres : s.step R e = some s') :
    AllLegal legal s' := by
  cases e with
  | call c i =>
      have hi := hlegal c i rfl
      unfold Machine.step at hres
      rcases hcpu : s.cpu c with - | i' | ⟨i', rest⟩
      · simp only [hcpu] at hres
        rcases hentry : R.entry i with r | - | -
        · simp only [hentry, Option.some.injEq] at hres
          subst hres
          exact ⟨h.returns hi r, h.spinning, h.inside⟩
        · simp [hentry] at hres
        · simp only [hentry, Option.some.injEq] at hres
          subst hres
          exact h.update (p := .spinning i) (by simp [hi]) (by simp) rfl h.log
      · simp [hcpu] at hres
      · simp [hcpu] at hres
  | turn c =>
      unfold Machine.step Machine.turn at hres
      rcases hcpu : s.cpu c with - | i | ⟨i, rest⟩
      · simp [hcpu] at hres
      · have hi := h.spinning c i hcpu
        simp only [hcpu] at hres
        split_ifs at hres
        · cases hres
          exact h
        · cases hres
          exact h.update (p := .inside i (R.body i)) (by simp) (by simp [hi]) rfl h.log
      · have hi := h.inside c i rest hcpu
        cases rest with
        | done r =>
            simp only [hcpu, Option.some.injEq] at hres
            subst hres
            exact h.update (p := .idle) (by simp) (by simp) rfl (h.returns hi r)
        | halt => simp [hcpu] at hres
        | access write next =>
            simp only [hcpu, Option.some.injEq] at hres
            subst hres
            exact h.update (p := .inside i (next s.data)) (by simp) (by simp [hi]) rfl h.log

theorem AllLegal.run (h : AllLegal legal s) {events : List (Event κ ι)}
    (hlegal : ∀ c i, Event.call c i ∈ events → legal i)
    (hrun : Lib.run (Machine.step R) s events = some s') : AllLegal legal s' := by
  have hevents : ∀ e ∈ events, ∀ c i, e = Event.call c i → legal i :=
    fun e he c i hc => hlegal c i (hc ▸ he)
  exact legalRun_preserves (fun _ _ _ h he hres => AllLegal.step h he hres) h
    (legalRun_of_forall s events hevents) hrun

theorem Machine.drive {rest : Section σ ρ} (hin : s.cpu c = .inside i rest) {r : ρ}
    (hrest : rest.run s.data = some (r, d')) :
    ∃ n, Lib.run (Machine.step R) s (List.replicate n (.turn c)) = some { s with
      flag := false, data := d', cpu := Function.update s.cpu c .idle
      log := s.log ++ [(c, i, r)] } := by
  induction rest generalizing s with
  | done r' =>
      obtain ⟨rfl, rfl⟩ := Prod.mk.inj (Option.some.inj hrest)
      exact ⟨1, by simp [Machine.step, Machine.turn, hin]⟩
  | halt => exact absurd hrest (by simp)
  | access write next ih =>
      obtain ⟨n, hn⟩ := ih s.data (s := { s with
        data := write s.data, cpu := Function.update s.cpu c (.inside i (next s.data)) })
        (Function.update_self ..) hrest
      refine ⟨n + 1, ?_⟩
      simp only [Function.update_idem] at hn
      simpa [List.replicate_succ, Machine.step, Machine.turn, hin] using hn

theorem Serial.gets_out (h : Serial R d₀ s) (hlegal : AllLegal legal s) {P : σ → Prop}
    (hserve : ∀ i d, legal i → P d → ∃ r d', R.serve i d = some (r, d') ∧ P d') (h₀ : P d₀)
    {rest : Section σ ρ} (hin : s.cpu c = .inside i rest) :
    ∃ (turns : List κ) (s' : Machine κ ι ρ σ),
      Lib.run (Machine.step R) s (turns.map .turn) = some s' ∧ s'.flag = false ∧
      s'.cpu c = .idle := by
  obtain ⟨d, hlog, -, hrest⟩ := h.replays
  -- the calls that have returned kept the invariant
  have hd : P d := by
    apply hlog.invariant _ hlegal.log h₀
    intro i r d d' hi hd hres
    obtain ⟨r', d'', hres', hd''⟩ := hserve i d hi hd
    rw [hres, Option.some.injEq, Prod.mk.injEq] at hres'
    rw [hres'.2]
    exact hd''
  obtain ⟨r, d', hres, -⟩ := hserve i d (hlegal.inside c i rest hin) hd
  obtain ⟨n, hn⟩ := Machine.drive hin ((hrest c i rest hin).trans hres)
  rw [← List.map_replicate] at hn
  exact ⟨List.replicate n c, _, hn, rfl, Function.update_self ..⟩

theorem Serial.frees (h : Serial R d₀ s) (hlegal : AllLegal legal s) {P : σ → Prop}
    (hserve : ∀ i d, legal i → P d → ∃ r d', R.serve i d = some (r, d') ∧ P d') (h₀ : P d₀) :
    ∃ (turns : List κ) (s' : Machine κ ι ρ σ),
      Lib.run (Machine.step R) s (turns.map .turn) = some s' ∧ s'.flag = false := by
  rcases hflag : s.flag with - | -
  · exact ⟨[], s, rfl, hflag⟩
  · obtain ⟨c, i, rest, hin⟩ := h.held_iff.1 hflag
    obtain ⟨turns, s', hrun, hfree, -⟩ := h.gets_out hlegal hserve h₀ hin
    exact ⟨turns, s', hrun, hfree⟩

theorem Serial.finishes (h : Serial R d₀ s) (hlegal : AllLegal legal s) {P : σ → Prop}
    (hserve : ∀ i d, legal i → P d → ∃ r d', R.serve i d = some (r, d') ∧ P d') (h₀ : P d₀)
    (hfree : s.flag = false) (c : κ) :
    ∃ (turns : List κ) (s' : Machine κ ι ρ σ),
      Lib.run (Machine.step R) s (turns.map .turn) = some s' ∧ s'.cpu c = .idle := by
  rcases hcpu : s.cpu c with - | i | ⟨i, rest⟩
  · exact ⟨[], s, rfl, hcpu⟩
  · -- it takes the lock, and goes through its section
    have hturn : s.step R (.turn c) = some { s with
        flag := true, cpu := Function.update s.cpu c (.inside i (R.body i)) } := by
      simp [Machine.step, Machine.turn, hcpu, hfree]
    have hall := hlegal.step (e := .turn c) (by simp) hturn
    obtain ⟨turns, s', hrun, -, hidle⟩ :=
      (h.step hturn).gets_out hall hserve h₀ (Function.update_self ..)
    refine ⟨c :: turns, s', ?_, hidle⟩
    rw [List.map_cons, run_cons, hturn]
    exact hrun
  · exact absurd hcpu (h.outside hfree)

end Progress

theorem run_append {τ ε : Type} {step : τ → ε → Option τ} {t t₁ t₂ : τ} {es es' : List ε}
    (h : Lib.run step t es = some t₁) (h' : Lib.run step t₁ es' = some t₂) :
    Lib.run step t (es ++ es') = some t₂ := by
  rw [Lib.run, List.foldlM_append]
  exact Option.bind_eq_some_iff.2 ⟨t₁, h, h'⟩

/-- There is no deadlock: if every legal call returns when it is alone, then in every state that the
processors can reach each of them can be brought to the end of its call. -/
theorem can_finish [DecidableEq κ] {s : Machine κ ι ρ σ} {events : List (Event κ ι)}
    {legal : ι → Prop} {P : σ → Prop}
    (hserve : ∀ i d, legal i → P d → ∃ r d', R.serve i d = some (r, d') ∧ P d') (h₀ : P d₀)
    (hlegal : ∀ c i, Event.call c i ∈ events → legal i)
    (hrun : Lib.run (Machine.step R) { data := d₀ } events = some s) (c : κ) :
    ∃ (turns : List κ) (s' : Machine κ ι ρ σ),
      Lib.run (Machine.step R) s (turns.map .turn) = some s' ∧ s'.cpu c = .idle := by
  have hserial := serial_of_run hrun
  have hall := (AllLegal.start legal d₀).run hlegal hrun
  -- first whoever is inside gets out, then `c` goes in and out
  obtain ⟨turns₁, s₁, hrun₁, hfree⟩ := hserial.frees hall hserve h₀
  have hall₁ := hall.run (by simp) hrun₁
  obtain ⟨turns₂, s₂, hrun₂, hidle⟩ := (hserial.run hrun₁).finishes hall₁ hserve h₀ hfree c
  refine ⟨turns₁ ++ turns₂, s₂, ?_, hidle⟩
  rw [List.map_append]
  exact run_append hrun₁ hrun₂

end UnnamedKernel.Lib.Critical
