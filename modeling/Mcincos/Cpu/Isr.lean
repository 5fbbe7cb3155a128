import Mcincos.Cpu.Descriptors
import Mcincos.Syscall.Entry

namespace Mcincos

inductive Common
  | isrCommon
  | irqCommon
  deriving DecidableEq

inductive StubInstr
  | push (n : U64)
  | jmp (label : Common)
  deriving DecidableEq

namespace Isr

def isrNoerr (vec : U64) : List StubInstr := [.push 0, .push vec, .jmp .isrCommon]
def isrErr (vec : U64) : List StubInstr := [.push vec, .jmp .isrCommon]
def irq (vec : U64) : List StubInstr := [.push 0, .push vec, .jmp .irqCommon]

def isrStubs : List (List StubInstr) := [
  isrNoerr 0, isrNoerr 1, isrNoerr 2, isrNoerr 3,
  isrNoerr 4, isrNoerr 5, isrNoerr 6, isrNoerr 7,
  isrErr 8, isrNoerr 9, isrErr 10, isrErr 11,
  isrErr 12, isrErr 13, isrErr 14, isrNoerr 15,
  isrNoerr 16, isrErr 17, isrNoerr 18, isrNoerr 19,
  isrNoerr 20, isrErr 21, isrNoerr 22, isrNoerr 23,
  isrNoerr 24, isrNoerr 25, isrNoerr 26, isrNoerr 27,
  isrNoerr 28, isrNoerr 29, isrNoerr 30, isrNoerr 31]

def irqStubs : List (List StubInstr) := [
  irq 32, irq 33, irq 34, irq 35, irq 36, irq 37, irq 38, irq 39,
  irq 40, irq 41, irq 42, irq 43, irq 44, irq 45, irq 46, irq 47]

def pushed : List Reg := [.rax, .rcx, .rdx, .rbx, .rbp, .rsi, .rdi, .r8, .r9, .r10, .r11, .r12, .r13, .r14, .r15]

def popped : List Reg := [.r15, .r14, .r13, .r12, .r11, .r10, .r9, .r8, .rdi, .rsi, .rbp, .rbx, .rdx, .rcx, .rax]

def commonEntry : List Instr := pushed.map .push ++ [.mov .rdi .rsp]
def commonExit : List Instr := popped.map .pop ++ [.add .rsp 16]

end Isr

/-- Where the linker has put the stubs, and what is at an address of the kernel's text. -/
structure Image where
  isr : ℕ → U64
  irq : ℕ → U64
  text : U64 → Option (List StubInstr)

structure Image.Linked (image : Image) : Prop where
  isr : ∀ k < 32, image.text (image.isr k) = Isr.isrStubs[k]?
  irq : ∀ k < 16, image.text (image.irq (32 + k)) = Isr.irqStubs[k]?
  irq240 : image.text (image.irq 240) = some (Isr.irq 240)
  irq255 : image.text (image.irq 255) = some (Isr.irq 255)

namespace Descriptors

def idtTypeInterrupt : BitVec 8 := 0x8e

def noGate : IdtEntry := ⟨0, 0, 0, 0, 0, 0, 0⟩

def idtInit (image : Image) : Idt :=
  let idt : Idt := fun _ => noGate
  let idt := (List.range 32).foldl
    (fun idt i => idtSetGate idt (BitVec.ofNat 8 i) (image.isr i) idtTypeInterrupt 0) idt
  let idt := idtSetGate idt 2 (image.isr 2) idtTypeInterrupt 1
  let idt := idtSetGate idt 8 (image.isr 8) idtTypeInterrupt 1
  let idt := idtSetGate idt 14 (image.isr 14) idtTypeInterrupt 2
  let idt := idtSetGate idt 240 (image.irq 240) idtTypeInterrupt 0
  let idt := idtSetGate idt 255 (image.irq 255) idtTypeInterrupt 0
  (List.range 16).foldl
    (fun idt i => idtSetGate idt (32 + BitVec.ofNat 8 i) (image.irq (32 + i)) idtTypeInterrupt 0) idt

def Gate.Present (g : Gate) : Prop := g.typeAttr.getLsbD 7 = true

instance (g : Gate) : Decidable g.Present := inferInstanceAs (Decidable (_ = true))

end Descriptors

open Descriptors

/-- The machine with its code and stack segment, the IDT and the stacks of `g_tss` that gates may ask for. -/
structure Processor (T E : Type) where
  machine : Machine T E
  cs : U64
  ss : U64
  idt : Idt
  ist : BitVec 3 → U64

def pushesError (vec : BitVec 8) : Bool := vec ∈ [8, 10, 11, 12, 13, 14, 17, 21]

/-- The flags that a gate for interrupts clears: TF, IF, NT, RF and VM. -/
def gateFlags : U64 := 1 <<< 8 ||| 1 <<< 9 ||| 1 <<< 14 ||| 1 <<< 16 ||| 1 <<< 17

namespace Machine

variable {T E : Type}

def pushWord (m : Machine T E) (w : U64) : Machine T E :=
  let sp := m.regs.gpr .rsp - 8
  { m with stack := Function.update m.stack sp w }.setReg .rsp sp

def pushWords (m : Machine T E) (ws : List U64) : Machine T E := ws.foldl pushWord m

def withFlow (m : Machine T E) (rip rflags : U64) : Machine T E :=
  { m with regs := { m.regs with rip, rflags } }

def runStub (m : Machine T E) : List StubInstr → Option (Machine T E × Common)
  | [] => none
  | .push n :: is => (m.pushWord n).runStub is
  | .jmp label :: _ => some (m, label)

end Machine

namespace Processor

variable {T E : Type}

/-- The stack that an interrupt of the gate comes to: one of its own, that of the TSS if it comes from
user mode, else the current one, aligned to 16 bytes. -/
def interruptStack (p : Processor T E) (gate : Gate) : U64 :=
  (if gate.ist ≠ 0 then p.ist gate.ist
    else if p.cs &&& 3 = 3 then p.machine.kernel.rsp0
    else p.machine.regs.gpr .rsp) &&& ~~~15

def deliveredWords (p : Processor T E) (vec : BitVec 8) (error : U64) : List U64 :=
  [p.ss, p.machine.regs.gpr .rsp, p.machine.regs.rflags, p.cs, p.machine.regs.rip] ++
    if pushesError vec then [error] else []

def deliver (p : Processor T E) (vec : BitVec 8) (error : U64) : Option (Processor T E) :=
  let gate := Gate.decode (p.idt vec).bits
  if gate.Present then
    let m := (p.machine.setReg .rsp (p.interruptStack gate)).pushWords (p.deliveredWords vec error)
    some { p with
      machine := m.withFlow gate.offset (p.machine.regs.rflags &&& ~~~gateFlags)
      cs := gate.selector.setWidth 64
      ss := if p.cs &&& 3 = 3 then 0 else p.ss }
  else none

def enter (p : Processor T E) (image : Image) (vec : BitVec 8) (error : U64) : Option (Processor T E × Common) := do
  let p ← p.deliver vec error
  let stub ← image.text p.machine.regs.rip
  let (m, label) ← p.machine.runStub stub
  let m ← Isr.commonEntry.foldlM Machine.exec m
  return ({ p with machine := m }, label)

/-- IRETQ of a frame that passes its checks, with flags that it loads as they are. -/
def iretq (p : Processor T E) : Processor T E :=
  let m := p.machine
  let sp := m.regs.gpr .rsp
  { p with
    machine := { m with regs := {
      gpr := Function.update m.regs.gpr .rsp (m.stack (sp + 24))
      rip := m.stack sp
      rflags := m.stack (sp + 16) } }
    cs := m.stack (sp + 8)
    ss := m.stack (sp + 32) }

def leave (p : Processor T E) : Option (Processor T E) := do
  let m ← Isr.commonExit.foldlM Machine.exec p.machine
  return { p with machine := m }.iretq

end Processor

namespace IsrFrame

def words (f : IsrFrame) : List U64 := [
  f.r15, f.r14, f.r13, f.r12, f.r11, f.r10, f.r9, f.r8,
  f.rdi, f.rsi, f.rbp, f.rbx, f.rdx, f.rcx, f.rax,
  f.vector, f.error, f.rip, f.cs, f.rflags, f.rsp, f.ss]

end IsrFrame

end Mcincos
