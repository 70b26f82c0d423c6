import Mathlib.Data.List.GetD
import Mathlib.Logic.Function.Basic
import UnnamedKernel.Arch.Interrupt
import UnnamedKernel.Lib.Stack

/-!
# The interrupted context

What the handler finds in `Registers`, and what the processor resumes with. A stub that
pushes a dummy error code below one that the processor has pushed shifts the structure by
one word.
-/

namespace UnnamedKernel.Arch

open UnnamedKernel.Lib

/-- The interrupted context as `Registers` should show it. -/
def context (m : Machine) (v : Fin 256) (errorCode : Word) : Registers where
  es := m.es.setWidth 64
  ds := m.ds.setWidth 64
  r15 := m.regs .r15
  r14 := m.regs .r14
  r13 := m.regs .r13
  r12 := m.regs .r12
  r11 := m.regs .r11
  r10 := m.regs .r10
  r9 := m.regs .r9
  r8 := m.regs .r8
  rdi := m.regs .rdi
  rsi := m.regs .rsi
  rbp := m.regs .rbp
  rdx := m.regs .rdx
  rcx := m.regs .rcx
  rbx := m.regs .rbx
  rax := m.regs .rax
  interruptNumber := BitVec.ofNat 64 v
  errorCode := if pushesErrorCode v then errorCode else 0
  rip := m.rip
  cs := m.cs.setWidth 64
  rflags := m.rflags
  originalRsp := m.regs .rsp
  ss := m.ss.setWidth 64

/-- The handler, entered in `e`, has returned in `r` and left the structure alone. -/
structure HandlerReturns (e r : Machine) : Prop where
  rsp : r.regs .rsp = e.regs .rsp + 8
  structureKept : ∀ x, Mem.InRange (e.regs .rdi) sizeofRegisters x → r.mem x = e.mem x

/-- Where the processor has saved `rip`. -/
def savedRip (top : Word) : Word := top - 40

/-- At `iretq` in `x`, the context of `m` is back. -/
structure Restored (top : Word) (m x : Machine) : Prop where
  regs : ∀ r, r ≠ .rsp → x.regs r = m.regs r
  ds : x.ds = m.ds
  es : x.es = m.es
  rsp : x.regs .rsp = savedRip top
  resumes : (iretq x).rip = m.rip ∧ (iretq x).cs = m.cs ∧ (iretq x).rflags = m.rflags ∧
    (iretq x).regs .rsp = m.regs .rsp ∧ (iretq x).ss = m.ss

/-- The handler is shown the context, and if it returns and leaves the structure alone, the
context is restored. -/
def PreservesContext (image : Image) (v : Fin 256) (top errorCode : Word) (m : Machine) : Prop :=
  let e := enter image v top errorCode m
  Registers.read e.mem (e.regs .rdi) = context m v errorCode ∧
    ∀ r, HandlerReturns e r → Restored top m (leave image r)

/-! ## The stack -/

/-- The words on the stack of `m` begin with `ws`. -/
def Stacked (m : Machine) (ws : List Word) : Prop := Stack.Holds m.mem (m.regs .rsp) ws

section Steps

variable {m : Machine} {ws : List Word} {back : Word}

@[simp] theorem setReg_regs_same (m : Machine) (r : Reg) (v : Word) : (m.setReg r v).regs r = v :=
  Function.update_self ..

theorem setReg_regs_other (m : Machine) {r g : Reg} (v : Word) (h : g ≠ r) :
    (m.setReg r v).regs g = m.regs g := Function.update_of_ne h ..

@[simp] theorem push_rsp (m : Machine) (v : Word) : (m.push v).regs .rsp = m.regs .rsp - 8 := by
  simp [Machine.push]

theorem push_regs (m : Machine) (v : Word) {g : Reg} (h : g ≠ .rsp) :
    (m.push v).regs g = m.regs g := Function.update_of_ne h ..

theorem Stacked.push (h : Stacked m ws) (v : Word) (hlen : ws.length < 64) :
    Stacked (m.push v) (v :: ws) := by
  unfold Stacked
  rw [push_rsp]
  exact Stack.Holds.push h v (by omega)

theorem Stacked.setReg (h : Stacked m ws) {r : Reg} (hr : r ≠ .rsp) (v : Word) :
    Stacked (m.setReg r v) ws := by
  unfold Stacked
  rw [setReg_regs_other m v hr.symm]
  exact h

theorem exec_append (code code' : List Instr) :
    exec back (code ++ code') m = exec back code' (exec back code m) := List.foldl_append ..

theorem exec_cons (i : Instr) (code : List Instr) :
    exec back (i :: code) m = exec back code (i.step back m) := rfl

/-- Words pushed one after the other. -/
def pushAll (m : Machine) (vs : List Word) : Machine := vs.foldl Machine.push m

theorem pushAll_spec (vs : List Word) (h : Stacked m ws) (hlen : ws.length + vs.length < 64) :
    Stacked (pushAll m vs) (vs.reverse ++ ws) ∧
      (∀ g, g ≠ .rsp → (pushAll m vs).regs g = m.regs g) ∧
      (pushAll m vs).regs .rsp = m.regs .rsp - 8 * BitVec.ofNat 64 vs.length ∧
      (pushAll m vs).ds = m.ds ∧ (pushAll m vs).es = m.es := by
  induction vs generalizing m ws with
  | nil => exact ⟨h, fun _ _ => rfl, by simp [pushAll], rfl, rfl⟩
  | cons v vs ih =>
      rw [List.length_cons] at hlen
      obtain ⟨hst, hregs, hrsp, hds, hes⟩ := ih (h.push v (by omega))
        (by rw [List.length_cons]; omega)
      refine ⟨by simpa [pushAll] using hst, fun g hg => (hregs g hg).trans (push_regs m v hg), ?_,
        hds, hes⟩
      refine hrsp.trans ?_
      rw [push_rsp, List.length_cons]
      bv_omega

theorem exec_pushes {rs : List Reg} (hrs : .rsp ∉ rs) :
    exec back (rs.map .push) m = pushAll m (rs.map m.regs) := by
  induction rs generalizing m with
  | nil => rfl
  | cons r rs ih =>
      have hsame : rs.map (m.push (m.regs r)).regs = rs.map m.regs := by
        refine List.map_congr_left fun g hg => push_regs m _ fun he => hrs ?_
        exact he ▸ List.mem_cons_of_mem _ hg
      rw [List.map_cons, List.map_cons, exec_cons]
      refine (ih fun hm => hrs (List.mem_cons_of_mem _ hm)).trans ?_
      rw [show (Instr.push r).step back m = m.push (m.regs r) from rfl, hsame]
      rfl

theorem pop_rsp {r : Reg} (hr : r ≠ .rsp) :
    ((Instr.pop r).step back m).regs .rsp = m.regs .rsp + 8 := by
  simp [Instr.step, Machine.pop, Machine.setReg, Function.update_of_ne hr.symm]

theorem pop_step (back : Word) {r : Reg} (hr : r ≠ .rsp) {w : Word} (h : Stacked m (w :: ws)) :
    Stacked ((Instr.pop r).step back m) ws ∧ ((Instr.pop r).step back m).regs r = w ∧
      (∀ g, g ≠ r → g ≠ .rsp → ((Instr.pop r).step back m).regs g = m.regs g) := by
  refine ⟨?_, ?_, fun g hg hg' => ?_⟩
  · unfold Stacked
    rw [pop_rsp hr]
    exact h.tail
  · rw [← h.head]
    simp [Instr.step, Machine.pop, Machine.setReg]
  · simp [Instr.step, Machine.pop, Machine.setReg, Function.update_of_ne hg,
      Function.update_of_ne hg']

theorem exec_pops_frame (back : Word) (rs : List Reg) (m : Machine) (hrs : .rsp ∉ rs) :
    (exec back (rs.map .pop) m).regs .rsp = m.regs .rsp + 8 * BitVec.ofNat 64 rs.length ∧
      (exec back (rs.map .pop) m).mem = m.mem ∧ (exec back (rs.map .pop) m).ds = m.ds ∧
      (exec back (rs.map .pop) m).es = m.es := by
  induction rs generalizing m with
  | nil => exact ⟨by simp [exec], rfl, rfl, rfl⟩
  | cons r rs ih =>
      have hr : r ≠ .rsp := fun he => hrs (he ▸ List.mem_cons_self ..)
      obtain ⟨hrsp, hmem, hds, hes⟩ :=
        ih ((Instr.pop r).step back m) fun hm => hrs (List.mem_cons_of_mem _ hm)
      rw [List.map_cons, exec_cons]
      refine ⟨?_, hmem, hds, hes⟩
      rw [hrsp, pop_rsp hr, List.length_cons]
      bv_omega

theorem exec_pops (back : Word) (rs : List Reg) (hrs : .rsp ∉ rs) (f : Reg → Word)
    (h : Stacked m (rs.map f ++ ws)) :
    (∀ g ∈ rs, (exec back (rs.map .pop) m).regs g = f g) ∧
      (∀ g, g ∉ rs → g ≠ .rsp → (exec back (rs.map .pop) m).regs g = m.regs g) := by
  induction rs generalizing m with
  | nil => exact ⟨fun g hg => absurd hg (List.not_mem_nil), fun _ _ _ => rfl⟩
  | cons r rs ih =>
      have hr : r ≠ .rsp := fun he => hrs (he ▸ List.mem_cons_self ..)
      obtain ⟨hst, hhere, hother⟩ := pop_step back hr h
      obtain ⟨hin, hout⟩ := ih (fun hm => hrs (List.mem_cons_of_mem _ hm)) hst
      rw [List.map_cons, exec_cons]
      refine ⟨fun g hg => ?_, fun g hg hg' => ?_⟩
      · by_cases hgr : g ∈ rs
        · exact hin g hgr
        · obtain rfl := (List.mem_cons.1 hg).resolve_right hgr
          exact (hout g hgr hr).trans hhere
      · rw [List.mem_cons, not_or] at hg
        exact (hout g hg.2 hg').trans (hother g hg.1 hg')

end Steps

/-! ## Entry -/

/-- The registers that `isr_common` pushes, in order. -/
def saved : List Reg :=
  [.rax, .rbx, .rcx, .rdx, .rbp, .rsi, .rdi, .r8, .r9, .r10, .r11, .r12, .r13, .r14, .r15]

section Entry

variable {m : Machine} {ws : List Word} {back : Word}

theorem isrCommon_eq : isrCommon =
    Instr.cli :: (saved.map Instr.push ++ (Instr.clear .rax :: ([Instr.movAxDs, Instr.push .rax] ++
      ([Instr.movAxEs, Instr.push .rax] ++
        [Instr.cld, Instr.leaRsp .rdi, Instr.callHandler])))) := rfl

theorem high_setWidth (s : BitVec 16) : (s.setWidth 64 : Word) &&& ~~~0xffff = 0 := by
  apply BitVec.eq_of_getLsbD_eq
  intro b hb
  have hzero : (0 : Word).getLsbD b = false := BitVec.getLsbD_zero
  rw [BitVec.getLsbD_and, BitVec.getLsbD_setWidth, hzero]
  rcases Nat.lt_or_ge b 16 with hlo | hhi
  · have hmask : (~~~0xffff : Word).getLsbD b = false := by
      revert b
      decide
    rw [hmask, Bool.and_false]
  · rw [BitVec.getLsbD_of_ge s b hhi, Bool.and_false, Bool.false_and]

/-- A selector that goes on the stack through `rax`, whose upper part is zero. -/
theorem push_selector (back : Word) (s : BitVec 16) (h : Stacked m ws) (hlen : ws.length < 64)
    (hrax : m.regs .rax &&& ~~~0xffff = 0) {p : Machine}
    (hp : p = (Instr.push .rax).step back
      (m.setReg .rax ((m.regs .rax &&& ~~~0xffff) ||| s.setWidth 64))) :
    Stacked p (s.setWidth 64 :: ws) ∧ p.regs .rax &&& ~~~0xffff = 0 ∧
      p.regs .rsp = m.regs .rsp - 8 ∧ p.es = m.es := by
  have hv : (m.regs .rax &&& ~~~0xffff) ||| s.setWidth 64 = s.setWidth 64 := by
    rw [hrax]
    exact BitVec.zero_or
  have hset : (m.setReg .rax (s.setWidth 64)).regs .rax = s.setWidth 64 :=
    setReg_regs_same m .rax _
  have hpush : p = (m.setReg .rax (s.setWidth 64)).push (s.setWidth 64) := by
    rw [hp, hv]
    simp only [Instr.step, hset]
  have hst := (h.setReg (r := .rax) (by decide) (s.setWidth 64)).push (s.setWidth 64) hlen
  rw [hpush]
  refine ⟨hst, ?_, ?_, rfl⟩
  · rw [push_regs _ _ (by decide), hset, high_setWidth]
  · rw [push_rsp, setReg_regs_other m _ (by decide)]

theorem exec_callHandler (back : Word) (h : Stacked m ws) (hlen : ws.length < 64) :
    Stack.Holds (exec back [.cld, .leaRsp .rdi, .callHandler] m).mem (m.regs .rsp) ws ∧
      (exec back [.cld, .leaRsp .rdi, .callHandler] m).regs .rdi = m.regs .rsp ∧
      (exec back [.cld, .leaRsp .rdi, .callHandler] m).regs .rsp = m.regs .rsp - 8 := by
  let p := (Instr.cld.step back m).setReg .rdi (m.regs .rsp)
  have hexec : exec back [.cld, .leaRsp .rdi, .callHandler] m = p.push back := rfl
  have hrsp : p.regs .rsp = m.regs .rsp := setReg_regs_other _ _ (by decide)
  have hst : Stacked p ws := Stacked.setReg (m := Instr.cld.step back m) h (by decide) _
  rw [hexec, push_rsp, push_regs p back (by decide), hrsp]
  refine ⟨?_, setReg_regs_same _ _ _, rfl⟩
  have htail := (hst.push back hlen).tail
  rwa [push_rsp, BitVec.sub_add_cancel, hrsp] at htail

theorem isrCommon_spec (back : Word) (h : Stacked m ws) (hlen : ws.length < 32) :
    Stack.Holds (exec back isrCommon m).mem (m.regs .rsp - 136)
        (m.es.setWidth 64 :: m.ds.setWidth 64 :: ((saved.map m.regs).reverse ++ ws)) ∧
      (exec back isrCommon m).regs .rdi = m.regs .rsp - 136 ∧
      (exec back isrCommon m).regs .rsp = m.regs .rsp - 144 := by
  have hcli : Stacked (Instr.cli.step back m) ws := h
  obtain ⟨hst, -, hrsp, hds, hes⟩ := pushAll_spec (saved.map m.regs) hcli
    (by simp [saved]; omega)
  have hws : ((saved.map m.regs).reverse ++ ws).length < 48 := by
    simp [saved]
    omega
  have hpushes : exec back (saved.map .push) (Instr.cli.step back m) =
      pushAll (Instr.cli.step back m) (saved.map m.regs) := exec_pushes (by decide)
  rw [isrCommon_eq, exec_cons, exec_append, hpushes]
  generalize pushAll (Instr.cli.step back m) (saved.map m.regs) = p at hst hrsp hds hes
  have hrsp : p.regs .rsp = m.regs .rsp - 120 := hrsp
  rw [exec_cons, exec_append, exec_append]
  have hzero : (p.setReg .rax 0).regs .rax &&& ~~~0xffff = 0 := by
    rw [setReg_regs_same]
    decide
  have hst₀ : Stacked (p.setReg .rax 0) ((saved.map m.regs).reverse ++ ws) :=
    hst.setReg (by decide) 0
  have hrsp₀ : (p.setReg .rax 0).regs .rsp = m.regs .rsp - 120 :=
    (setReg_regs_other p 0 (by decide)).trans hrsp
  obtain ⟨hst₁, hzero₁, hrsp₁, hes₁⟩ := push_selector back p.ds hst₀ (by omega) hzero
    (p := exec back [.movAxDs, .push .rax] ((Instr.clear .rax).step back p)) rfl
  generalize exec back [.movAxDs, .push .rax] ((Instr.clear .rax).step back p) = p₁ at *
  obtain ⟨hst₂, -, hrsp₂, -⟩ := push_selector back p₁.es hst₁
    (by rw [List.length_cons]; omega) hzero₁
    (p := exec back [.movAxEs, .push .rax] p₁) rfl
  generalize exec back [.movAxEs, .push .rax] p₁ = p₂ at *
  obtain ⟨hholds, hrdi, hend⟩ := exec_callHandler back hst₂ (by simp only [List.length_cons]; omega)
  have htop : p₂.regs .rsp = m.regs .rsp - 136 := by
    rw [hrsp₂, hrsp₁, hrsp₀]
    bv_omega
  have hds' : p.ds = m.ds := hds
  have hes' : p₁.es = m.es := hes₁.trans hes
  rw [htop, hds', hes'] at hholds
  refine ⟨hholds, hrdi.trans htop, hend.trans ?_⟩
  rw [htop]
  bv_omega

/-- What the processor pushes, the last word first. -/
def frameWords (m : Machine) (v : Fin 256) (errorCode : Word) : List Word :=
  (if pushesErrorCode v then [errorCode] else []) ++
    [m.rip, m.cs.setWidth 64, m.rflags, m.regs .rsp, m.ss.setWidth 64]

theorem deliver_eq (gate : IdtEntry) (v : Fin 256) (top errorCode : Word) (m : Machine) :
    deliver gate v top errorCode m =
      { pushAll (m.setReg .rsp top) (frameWords m v errorCode).reverse with
        cs := gate.segment
        rip := gate.offset
        rflags := if gate.gateType = GateType.interrupt.toBits then m.rflags &&& ~~~interruptFlag
          else m.rflags } := by
  unfold deliver frameWords
  cases pushesErrorCode v <;> rfl

/-- What a stub pushes, the last word first. -/
def stubWords (v : Fin 256) : List Word :=
  match isrs.getD v .noErrorCode with
  | .noErrorCode => [BitVec.ofNat 64 v, 0]
  | .errorCode => [BitVec.ofNat 64 v]

theorem exec_stub (back : Word) (v : Fin 256) :
    exec back (interruptHandlerStub v) m = pushAll m (stubWords v).reverse := by
  unfold interruptHandlerStub stubWords
  cases isrs.getD v .noErrorCode <;> rfl

theorem length_stubWords_le (v : Fin 256) : (stubWords v).length ≤ 2 := by
  unfold stubWords
  cases isrs.getD v .noErrorCode <;> simp

theorem length_frameWords_le (m : Machine) (v : Fin 256) (errorCode : Word) :
    (frameWords m v errorCode).length ≤ 6 := by
  unfold frameWords
  cases pushesErrorCode v <;> simp

theorem setWidth_and_mask (x : Word) (n : Nat) :
    (x &&& BitVec.ofNat 64 (2 ^ n - 1)).setWidth n = x.setWidth n := by
  apply BitVec.eq_of_getLsbD_eq
  intro b hb
  rw [BitVec.getLsbD_setWidth, BitVec.getLsbD_setWidth, BitVec.getLsbD_and, BitVec.getLsbD_ofNat,
    Nat.testBit_two_pow_sub_one]
  rcases Nat.lt_or_ge b 64 with hlt | hge
  · simp [hb, hlt]
  · simp [BitVec.getLsbD_of_ge x b hge]

theorem offset_createIdtEntry (offset : Word) (ist : BitVec 8) (gateType : GateType)
    (dpl : BitVec 8)
    (present : Bool) (segment : BitVec 16) :
    (createIdtEntry offset ist gateType dpl present segment).offset = offset := by
  have h0 : (offset &&& 0xffff).setWidth 16 = offset.setWidth 16 := setWidth_and_mask offset 16
  have h1 : ((offset >>> 16) &&& 0xffff).setWidth 16 = (offset >>> 16).setWidth 16 :=
    setWidth_and_mask _ 16
  have h2 : ((offset >>> 32) &&& 0xffffffff).setWidth 32 = (offset >>> 32).setWidth 32 :=
    setWidth_and_mask _ 32
  unfold IdtEntry.offset createIdtEntry
  dsimp only
  rw [h0, h1, h2]
  apply BitVec.eq_of_getLsbD_eq
  intro b hb
  simp only [BitVec.getLsbD_append, BitVec.getLsbD_setWidth, BitVec.getLsbD_ushiftRight]
  split
  · simp_all
  · split
    · rw [decide_eq_true (by omega), Bool.true_and]
      congr 1
      omega
    · rw [decide_eq_true (by omega), Bool.true_and]
      congr 1
      omega

/-- The words of the structure that the handler is shown, and those above it. -/
def entryWords (m : Machine) (v : Fin 256) (errorCode : Word) : List Word :=
  m.es.setWidth 64 :: m.ds.setWidth 64 ::
    ((saved.map m.regs).reverse ++ (stubWords v ++ frameWords m v errorCode))

theorem enter_spec (image : Image) (v : Fin 256) (top errorCode : Word) (m : Machine) :
    Stack.Holds (enter image v top errorCode m).mem ((enter image v top errorCode m).regs .rdi)
        (entryWords m v errorCode) ∧
      (enter image v top errorCode m).regs .rdi =
        top - 8 * BitVec.ofNat 64 (entryWords m v errorCode).length ∧
      (enter image v top errorCode m).regs .rsp =
        (enter image v top errorCode m).regs .rdi - 8 := by
  have hframe := length_frameWords_le m v errorCode
  have hstub := length_stubWords_le v
  have hempty : Stacked (m.setReg .rsp top) [] := trivial
  obtain ⟨hst, hregs, hrsp, hds, hes⟩ := pushAll_spec
    (frameWords m v errorCode).reverse hempty (by simp; omega)
  rw [List.reverse_reverse, List.append_nil] at hst
  rw [List.length_reverse, setReg_regs_same] at hrsp
  unfold enter
  dsimp only
  rw [initIdtTable, offset_createIdtEntry, image.linked, exec_append, exec_stub, deliver_eq]
  set d : Machine := { pushAll (m.setReg .rsp top) (frameWords m v errorCode).reverse with
    cs := _, rip := _, rflags := _ }
  have hst : Stacked d (frameWords m v errorCode) := hst
  obtain ⟨hst', hregs', hrsp', hds', hes'⟩ := pushAll_spec (stubWords v).reverse hst
    (by simp; omega)
  rw [List.reverse_reverse] at hst'
  rw [List.length_reverse] at hrsp'
  obtain ⟨hholds, hrdi, hend⟩ := isrCommon_spec image.back hst' (by simp; omega)
  have hkept : ∀ g, g ≠ .rsp → (pushAll d (stubWords v).reverse).regs g = m.regs g := fun g hg =>
    (hregs' g hg).trans ((hregs g hg).trans (setReg_regs_other m top hg))
  have hsaved : saved.map (pushAll d (stubWords v).reverse).regs = saved.map m.regs :=
    List.map_congr_left fun g hg => hkept g fun he => absurd (he ▸ hg) (by decide)
  have hdsd : (pushAll d (stubWords v).reverse).ds = m.ds := hds'.trans hds
  have hesd : (pushAll d (stubWords v).reverse).es = m.es := hes'.trans hes
  have hrspd : d.regs .rsp = top - 8 * BitVec.ofNat 64 (frameWords m v errorCode).length := hrsp
  have hlen : (entryWords m v errorCode).length =
      17 + ((stubWords v).length + (frameWords m v errorCode).length) := by
    simp [entryWords, saved]
    omega
  have htop : (pushAll d (stubWords v).reverse).regs .rsp - 136 =
      top - 8 * BitVec.ofNat 64 (entryWords m v errorCode).length := by
    rw [hrsp', hrspd, hlen]
    bv_omega
  rw [hsaved, hdsd, hesd] at hholds
  rw [hrdi, hend]
  refine ⟨hholds, htop, ?_⟩
  bv_omega

end Entry

/-! ## Exit -/

section Exit

variable {m r : Machine} {ws : List Word}

theorem setWidth_selector (s : BitVec 16) : (s.setWidth 64 : Word).setWidth 16 = s := by
  rw [BitVec.setWidth_setWidth_of_le _ (by omega), BitVec.setWidth_eq]

theorem iretq_rsp (m : Machine) :
    (iretq m).regs .rsp = m.mem.read64 (m.regs .rsp + 24) := by
  simp [iretq]

theorem leave_eq (image : Image) (r : Machine) :
    leave image r = (Instr.addRsp 16).step image.back (exec image.back (saved.reverse.map .pop)
      (exec image.back [.pop .rax, .movEsAx, .pop .rax, .movDsAx] r)) := rfl

theorem leave_rsp (image : Image) (r : Machine) :
    (leave image r).regs .rsp = r.regs .rsp + 152 := by
  have hpops := (exec_pops_frame image.back saved.reverse
    (exec image.back [.pop .rax, .movEsAx, .pop .rax, .movDsAx] r) (by decide)).1
  have hsel : (exec image.back [.pop .rax, .movEsAx, .pop .rax, .movDsAx] r).regs .rsp =
      r.regs .rsp + 8 + 8 := rfl
  rw [leave_eq]
  simp only [Instr.step, setReg_regs_same, hpops, hsel]
  simp [saved]
  bv_omega

theorem popDs_frame (back : Word) (m : Machine) :
    (Instr.movDsAx.step back ((Instr.pop .rax).step back m)).es = m.es ∧
      (Instr.movDsAx.step back ((Instr.pop .rax).step back m)).mem = m.mem :=
  ⟨rfl, rfl⟩

theorem leave_spec (image : Image) (es ds : BitVec 16) (f : Reg → Word)
    (h : Stacked r (es.setWidth 64 :: ds.setWidth 64 :: ((saved.map f).reverse ++ ws))) :
    (∀ g, g ≠ .rsp → (leave image r).regs g = f g) ∧ (leave image r).es = es ∧
      (leave image r).ds = ds ∧ (leave image r).mem = r.mem := by
  -- the two selectors
  obtain ⟨hst₁, hrax₁, -⟩ := pop_step image.back (r := .rax) (by decide) h
  let p₁ := Instr.movEsAx.step image.back ((Instr.pop .rax).step image.back r)
  have hes₁ : p₁.es = es := by
    show (((Instr.pop .rax).step image.back r).regs .rax).setWidth 16 = es
    rw [hrax₁, setWidth_selector]
  have hst₁ : Stacked p₁ (ds.setWidth 64 :: ((saved.map f).reverse ++ ws)) := hst₁
  obtain ⟨hst₂, hrax₂, -⟩ := pop_step image.back (r := .rax) (by decide) hst₁
  let p₂ := Instr.movDsAx.step image.back ((Instr.pop .rax).step image.back p₁)
  have hds₂ : p₂.ds = ds := by
    show (((Instr.pop .rax).step image.back p₁).regs .rax).setWidth 16 = ds
    rw [hrax₂, setWidth_selector]
  have hst₂ : Stacked p₂ (saved.reverse.map f ++ ws) := by
    rw [List.map_reverse]
    exact hst₂
  obtain ⟨hin, -⟩ := exec_pops image.back saved.reverse (by decide) f hst₂
  obtain ⟨-, hmem, hds, hes⟩ := exec_pops_frame image.back saved.reverse p₂ (by decide)
  have hleave : leave image r =
      (Instr.addRsp 16).step image.back (exec image.back (saved.reverse.map .pop) p₂) := rfl
  generalize exec image.back (saved.reverse.map .pop) p₂ = p₃ at hin hmem hds hes hleave
  rw [hleave]
  obtain ⟨hes₂, hmem₂⟩ := popDs_frame image.back p₁
  refine ⟨fun g hg => ?_, (hes.trans hes₂).trans hes₁, hds.trans hds₂, hmem.trans hmem₂⟩
  rw [← hin g (by cases g <;> first | exact absurd rfl hg | decide)]
  exact setReg_regs_other _ _ hg

end Exit

/-! ## Entry and exit -/

/-- Every vector with an error code has the stub for it, but for two. -/
theorem isrs_getD (v : Fin 256) : isrs.getD v .noErrorCode =
    if pushesErrorCode v = true ∧ ¬ (v = 29 ∨ v = 30) then .errorCode else .noErrorCode := by
  rcases Nat.lt_or_ge v.val 32 with hlow | hhigh
  · have hall : ∀ w : Fin 32, isrs.getD w .noErrorCode =
        if pushesErrorCode (w.castLE (by decide)) = true ∧
          ¬ (w.castLE (by decide) = (29 : Fin 256) ∨ w.castLE (by decide) = (30 : Fin 256))
        then .errorCode else .noErrorCode := by
      decide
    exact hall ⟨v, hlow⟩
  · have hpushes : pushesErrorCode v = false := by
      simp only [pushesErrorCode, List.contains_eq_mem, decide_eq_false_iff_not, List.mem_cons,
        List.not_mem_nil, Fin.ext_iff, or_false]
      omega
    rw [isrs, List.getD_append_right _ _ _ _ hhigh, hpushes, if_neg (by simp)]
    exact List.getD_replicate _ (by simp only [List.length_cons, List.length_nil]; omega)

section Whole

variable {m : Machine} {v : Fin 256} {top errorCode : Word}

theorem entryWords_eq (hv : ¬ (v = 29 ∨ v = 30)) : entryWords m v errorCode =
    m.es.setWidth 64 :: m.ds.setWidth 64 :: ((saved.map m.regs).reverse ++
      [BitVec.ofNat 64 v, if pushesErrorCode v then errorCode else 0, m.rip, m.cs.setWidth 64,
        m.rflags, m.regs .rsp, m.ss.setWidth 64]) := by
  have hstub := isrs_getD v
  unfold entryWords stubWords frameWords
  cases hp : pushesErrorCode v with
  | true =>
      rw [hp, if_pos ⟨rfl, hv⟩] at hstub
      rw [hstub]
      rfl
  | false =>
      rw [hp, if_neg (by simp)] at hstub
      rw [hstub]
      rfl

/-- For the two vectors, the structure begins one word too low. -/
theorem length_entryWords (hv : v = 29 ∨ v = 30) : (entryWords m v errorCode).length = 25 := by
  have hstub := isrs_getD v
  rw [if_neg fun h => h.2 hv] at hstub
  have hp : pushesErrorCode v = true := by
    rcases hv with rfl | rfl <;> decide
  unfold entryWords stubWords frameWords
  rw [hstub, hp]
  rfl

theorem read_of_holds {mem : Mem} {p : Word} (hv : ¬ (v = 29 ∨ v = 30))
    (h : Stack.Holds mem p (entryWords m v errorCode)) :
    Registers.read mem p = context m v errorCode := by
  rw [entryWords_eq hv] at h
  simp only [saved, List.map_cons, List.map_nil, List.reverse_cons, List.reverse_nil,
    List.nil_append, List.cons_append, Stack.Holds, BitVec.add_assoc, and_true] at h
  obtain ⟨h0, h1, h2, h3, h4, h5, h6, h7, h8, h9, h10, h11, h12, h13, h14, h15, h16, h17, h18, h19,
    h20, h21, h22, h23⟩ := h
  unfold Registers.read context
  rw [Registers.mk.injEq]
  exact ⟨h0, h1, h2, h3, h4, h5, h6, h7, h8, h9, h10, h11, h12, h13, h14, h15, h16, h17, h18, h19,
    h20, h21, h22, h23⟩

theorem preservesContext (image : Image) (top errorCode : Word) (m : Machine)
    (hv : ¬ (v = 29 ∨ v = 30)) : PreservesContext image v top errorCode m := by
  obtain ⟨hholds, hrdi, hrsp⟩ := enter_spec image v top errorCode m
  have hlen : (entryWords m v errorCode).length = 24 := by
    rw [entryWords_eq hv]
    rfl
  rw [hlen] at hrdi
  refine ⟨read_of_holds hv hholds, fun r hr => ?_⟩
  have hkept : Stack.Holds r.mem ((enter image v top errorCode m).regs .rdi)
      (entryWords m v errorCode) :=
    hholds.congr (n := sizeofRegisters) (by rw [hlen]; decide) hr.structureKept
  have hr' : r.regs .rsp = (enter image v top errorCode m).regs .rdi := by
    rw [hr.rsp, hrsp]
    bv_omega
  rw [← hr', entryWords_eq hv] at hkept
  obtain ⟨hregs, hes, hds, hmem⟩ := leave_spec image m.es m.ds m.regs hkept
  have hend : (leave image r).regs .rsp = savedRip top := by
    rw [leave_rsp, hr', hrdi, savedRip]
    bv_omega
  have hframe : Stack.Holds (leave image r).mem ((leave image r).regs .rsp)
      [m.rip, m.cs.setWidth 64, m.rflags, m.regs .rsp, m.ss.setWidth 64] := by
    have haddr : (leave image r).regs .rsp =
        r.regs .rsp + 8 + 8 + 8 * BitVec.ofNat 64 (saved.map m.regs).reverse.length + 8 + 8 := by
      rw [leave_rsp, List.length_reverse, List.length_map, show saved.length = 15 from rfl]
      bv_omega
    rw [hmem, haddr]
    exact hkept.tail.tail.append_right.tail.tail
  simp only [Stack.Holds, BitVec.add_assoc, and_true] at hframe
  obtain ⟨hrip, hcs, hflags, hrsp', hss⟩ := hframe
  refine ⟨hregs, hds, hes, hend, hrip, ?_, hflags, ?_, ?_⟩
  · exact (congrArg (BitVec.setWidth 16) hcs).trans (setWidth_selector m.cs)
  · rw [iretq_rsp]
    exact hrsp'
  · exact (congrArg (BitVec.setWidth 16) hss).trans (setWidth_selector m.ss)

/-- Behind two error codes, `iretq` takes the second one for the saved `rip`. -/
theorem not_preservesContext (image : Image) (top errorCode : Word) (m : Machine)
    (hv : v = 29 ∨ v = 30) : ¬ PreservesContext image v top errorCode m := by
  rintro ⟨-, hreturn⟩
  obtain ⟨-, hrdi, hrsp⟩ := enter_spec image v top errorCode m
  rw [length_entryWords hv] at hrdi
  -- a handler that returns at once
  let r := (enter image v top errorCode m).setReg .rsp
    ((enter image v top errorCode m).regs .rsp + 8)
  have hr : HandlerReturns (enter image v top errorCode m) r :=
    ⟨setReg_regs_same _ _ _, fun _ _ => rfl⟩
  have hend := (hreturn r hr).rsp
  rw [leave_rsp, hr.rsp, hrsp, hrdi, savedRip] at hend
  bv_omega

/-- Entry and exit preserve the interrupted context for every vector but two. -/
theorem preservesContext_iff (image : Image) (v : Fin 256) (top errorCode : Word) (m : Machine) :
    PreservesContext image v top errorCode m ↔ v ≠ 29 ∧ v ≠ 30 := by
  rw [← not_or]
  constructor
  · intro h hv
    exact not_preservesContext image top errorCode m hv h
  · exact preservesContext image top errorCode m

end Whole

/-! ## A security exception -/

section Spaced

local instance vectors_ne_zero : NeZero 256 := ⟨by decide⟩

/-- The stubs sixteen bytes apart. -/
def spacedImage : Image where
  exceptionHandlerPointers v := BitVec.ofNat 64 (16 * v)
  code a := interruptHandlerStub (Fin.ofNat 256 (a.toNat / 16)) ++ isrCommon
  back := 0x2000
  linked v := by
    have hv := v.isLt
    have hindex : Fin.ofNat 256 ((BitVec.ofNat 64 (16 * v) : Word).toNat / 16) = v := by
      apply Fin.ext
      simp only [BitVec.toNat_ofNat, Fin.val_ofNat]
      omega
    rw [hindex]

end Spaced

/-- Vector 30, on which the processor pushes an error code, is not one of those with a stub
for it. -/
theorem securityException_not_preserved :
    ¬ ∀ (v : Fin 256) (top errorCode : Word) (m : Machine),
      PreservesContext spacedImage v top errorCode m := by
  intro h
  exact not_preservesContext spacedImage 0x10000 1
    ⟨fun _ => 0, 0x10, 0x10, 0x8, 0x10, 0x1000, 0x202, fun _ => 0⟩ (Or.inr rfl) (h 30 0x10000 1 _)

end UnnamedKernel.Arch
