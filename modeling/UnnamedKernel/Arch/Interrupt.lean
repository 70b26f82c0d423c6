import UnnamedKernel.Lib.Memory

/-!
# Interrupt entry and exit (`arch/x86_64`)

The stubs and `isr_common` of `exception_handlers.asm` as instruction lists over a small
machine, the `Registers` structure, and the descriptor table through which the processor
finds the stubs. The arithmetic flags that `xor` and `add` set are left out: nothing reads
them before `iretq` loads `rflags`.
-/

namespace UnnamedKernel.Arch

open UnnamedKernel.Lib

inductive Reg where
  | rax | rbx | rcx | rdx | rbp | rsi | rdi | rsp
  | r8 | r9 | r10 | r11 | r12 | r13 | r14 | r15
  deriving DecidableEq, Repr

structure Machine where
  regs : Reg → Word
  ds : BitVec 16
  es : BitVec 16
  cs : BitVec 16
  ss : BitVec 16
  rip : Word
  rflags : Word
  mem : Mem

namespace Machine

def setReg (m : Machine) (r : Reg) (v : Word) : Machine :=
  { m with regs := Function.update m.regs r v }

def push (m : Machine) (v : Word) : Machine :=
  let sp := m.regs .rsp - 8
  { m with regs := Function.update m.regs .rsp sp, mem := m.mem.write64 sp v }

/-- The word on top of the stack, which is dropped. -/
def pop (m : Machine) : Word × Machine :=
  (m.mem.read64 (m.regs .rsp), m.setReg .rsp (m.regs .rsp + 8))

end Machine

/-- The interrupt flag of `rflags`. -/
def interruptFlag : Word := 1 <<< 9

/-- The direction flag of `rflags`. -/
def directionFlag : Word := 1 <<< 10

inductive Instr where
  | push (r : Reg)
  | pushImm (v : Word)
  | pop (r : Reg)
  /-- `xor r, r` -/
  | clear (r : Reg)
  /-- `mov ax, ds` and `mov ax, es` -/
  | movAxDs
  | movAxEs
  /-- `mov ds, ax` and `mov es, ax` -/
  | movDsAx
  | movEsAx
  /-- `lea r, [rsp]` -/
  | leaRsp (r : Reg)
  | addRsp (v : Word)
  | cli
  | cld
  /-- `call interrupt_handler`, up to the first instruction of the handler -/
  | callHandler
  deriving DecidableEq, Repr

/-- One instruction; `back` is the address behind the call. -/
def Instr.step (back : Word) (m : Machine) : Instr → Machine
  | .push r => m.push (m.regs r)
  | .pushImm v => m.push v
  | .pop r =>
      let (v, m) := m.pop
      m.setReg r v
  | .clear r => m.setReg r 0
  | .movAxDs => m.setReg .rax ((m.regs .rax &&& ~~~0xffff) ||| m.ds.setWidth 64)
  | .movAxEs => m.setReg .rax ((m.regs .rax &&& ~~~0xffff) ||| m.es.setWidth 64)
  | .movDsAx => { m with ds := (m.regs .rax).setWidth 16 }
  | .movEsAx => { m with es := (m.regs .rax).setWidth 16 }
  | .leaRsp r => m.setReg r (m.regs .rsp)
  | .addRsp v => m.setReg .rsp (m.regs .rsp + v)
  | .cli => { m with rflags := m.rflags &&& ~~~interruptFlag }
  | .cld => { m with rflags := m.rflags &&& ~~~directionFlag }
  | .callHandler => m.push back

def exec (back : Word) (code : List Instr) (m : Machine) : Machine :=
  code.foldl (Instr.step back) m

/-! ## `exception_handlers.asm` -/

/-- The two macros that make stubs. -/
inductive Isr where
  | noErrorCode
  | errorCode
  deriving DecidableEq, Repr

/-- The macro that each stub is made with, by vector. -/
def isrs : List Isr :=
  [.noErrorCode, .noErrorCode, .noErrorCode, .noErrorCode,
    .noErrorCode, .noErrorCode, .noErrorCode, .noErrorCode,
    .errorCode, .noErrorCode, .errorCode, .errorCode,
    .errorCode, .errorCode, .errorCode, .noErrorCode,
    .noErrorCode, .errorCode, .noErrorCode, .noErrorCode,
    .noErrorCode, .errorCode, .noErrorCode, .noErrorCode,
    .noErrorCode, .noErrorCode, .noErrorCode, .noErrorCode,
    .noErrorCode, .noErrorCode, .noErrorCode, .noErrorCode] ++
  List.replicate 224 .noErrorCode

/-- The stub `interrupt_handler`*v*, without its jump to `isr_common`. -/
def interruptHandlerStub (v : Fin 256) : List Instr :=
  match isrs.getD v .noErrorCode with
  | .noErrorCode => [.pushImm 0, .pushImm (BitVec.ofNat 64 v)]
  | .errorCode => [.pushImm (BitVec.ofNat 64 v)]

/-- `isr_common`, up to the call. -/
def isrCommon : List Instr :=
  [.cli,
    .push .rax, .push .rbx, .push .rcx, .push .rdx, .push .rbp, .push .rsi, .push .rdi,
    .push .r8, .push .r9, .push .r10, .push .r11, .push .r12, .push .r13, .push .r14, .push .r15,
    .clear .rax,
    .movAxDs, .push .rax,
    .movAxEs, .push .rax,
    .cld,
    .leaRsp .rdi,
    .callHandler]

/-- `x86_return_from_interrupt`, up to `iretq`. -/
def x86ReturnFromInterrupt : List Instr :=
  [.pop .rax, .movEsAx,
    .pop .rax, .movDsAx,
    .pop .r15, .pop .r14, .pop .r13, .pop .r12, .pop .r11, .pop .r10, .pop .r9, .pop .r8,
    .pop .rdi, .pop .rsi, .pop .rbp, .pop .rdx, .pop .rcx, .pop .rbx, .pop .rax,
    .addRsp 16]

/-! ## `registers.hpp` -/

structure Registers where
  (es ds r15 r14 r13 r12 r11 r10 r9 r8 rdi rsi rbp rdx rcx rbx rax : Word)
  (interruptNumber errorCode rip cs rflags originalRsp ss : Word)

/-- The structure at an address; it is packed. -/
def Registers.read (mem : Mem) (p : Word) : Registers where
  es := mem.read64 p
  ds := mem.read64 (p + 8)
  r15 := mem.read64 (p + 16)
  r14 := mem.read64 (p + 24)
  r13 := mem.read64 (p + 32)
  r12 := mem.read64 (p + 40)
  r11 := mem.read64 (p + 48)
  r10 := mem.read64 (p + 56)
  r9 := mem.read64 (p + 64)
  r8 := mem.read64 (p + 72)
  rdi := mem.read64 (p + 80)
  rsi := mem.read64 (p + 88)
  rbp := mem.read64 (p + 96)
  rdx := mem.read64 (p + 104)
  rcx := mem.read64 (p + 112)
  rbx := mem.read64 (p + 120)
  rax := mem.read64 (p + 128)
  interruptNumber := mem.read64 (p + 136)
  errorCode := mem.read64 (p + 144)
  rip := mem.read64 (p + 152)
  cs := mem.read64 (p + 160)
  rflags := mem.read64 (p + 168)
  originalRsp := mem.read64 (p + 176)
  ss := mem.read64 (p + 184)

/-- `sizeof(Registers)`. -/
def sizeofRegisters : Word := 192

/-! ## `idt.hpp` and `idt.cpp` -/

inductive GateType where
  | interrupt
  | trap
  deriving DecidableEq, Repr

def GateType.toBits : GateType → BitVec 4
  | .interrupt => 0xE
  | .trap => 0xF

structure IdtEntry where
  offset0 : BitVec 16 := 0
  segment : BitVec 16 := 0
  ist : BitVec 3 := 0
  gateType : BitVec 4 := 0
  dpl : BitVec 2 := 0
  present : Bool := false
  offset1 : BitVec 16 := 0
  offset2 : BitVec 32 := 0
  deriving DecidableEq, Repr

/-- `create_idt_entry`. -/
def createIdtEntry (offset : Word) (ist : BitVec 8) (gateType : GateType) (dpl : BitVec 8)
    (present : Bool) (segment : BitVec 16) : IdtEntry where
  offset0 := (offset &&& 0xffff).setWidth 16
  offset1 := ((offset >>> 16) &&& 0xffff).setWidth 16
  offset2 := ((offset >>> 32) &&& 0xffffffff).setWidth 32
  ist := (ist &&& 7).setWidth 3
  gateType := gateType.toBits
  dpl := dpl.setWidth 2
  present
  segment

/-- The kernel's code: `exception_handler_pointers`, and what lies at an address up to the
call of the handler. -/
structure Image where
  exceptionHandlerPointers : Fin 256 → Word
  code : Word → List Instr
  /-- the address behind the call -/
  back : Word
  linked : ∀ v, code (exceptionHandlerPointers v) = interruptHandlerStub v ++ isrCommon

/-- `init_idt_table`. -/
def initIdtTable (image : Image) (i : Fin 256) : IdtEntry :=
  createIdtEntry (image.exceptionHandlerPointers i) 0 .interrupt 0 true 0x8

/-! ## The processor -/

/-- The code address in a gate. -/
def IdtEntry.offset (e : IdtEntry) : Word := e.offset2 ++ e.offset1 ++ e.offset0

/-- The vectors for which the processor pushes an error code. -/
def pushesErrorCode (v : Fin 256) : Bool := [8, 10, 11, 12, 13, 14, 17, 21, 29, 30].contains v

/-- What the processor pushes at `top`, and how it enters the gate. -/
def deliver (gate : IdtEntry) (v : Fin 256) (top errorCode : Word) (m : Machine) : Machine :=
  let m' := { m with regs := Function.update m.regs .rsp top }
  let m' := ((((m'.push (m.ss.setWidth 64)).push (m.regs .rsp)).push m.rflags).push
    (m.cs.setWidth 64)).push m.rip
  let m' := if pushesErrorCode v then m'.push errorCode else m'
  { m' with
    cs := gate.segment
    rip := gate.offset
    rflags := if gate.gateType = GateType.interrupt.toBits then m.rflags &&& ~~~interruptFlag
      else m.rflags }

/-- `iretq`. -/
def iretq (m : Machine) : Machine :=
  let sp := m.regs .rsp
  { m with
    rip := m.mem.read64 sp
    cs := (m.mem.read64 (sp + 8)).setWidth 16
    rflags := m.mem.read64 (sp + 16)
    regs := Function.update m.regs .rsp (m.mem.read64 (sp + 24))
    ss := (m.mem.read64 (sp + 32)).setWidth 16 }

/-- From the interrupt to the first instruction of `interrupt_handler`. -/
def enter (image : Image) (v : Fin 256) (top errorCode : Word) (m : Machine) : Machine :=
  let gate := initIdtTable image v
  exec image.back (image.code gate.offset) (deliver gate v top errorCode m)

/-- From the return of `interrupt_handler` to `iretq`. -/
def leave (image : Image) (m : Machine) : Machine := exec image.back x86ReturnFromInterrupt m

end UnnamedKernel.Arch
