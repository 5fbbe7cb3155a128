import Mcincos.Cpu.Isr

namespace Mcincos

namespace Descriptors

instance neZero_seven : NeZero 7 := ⟨by decide⟩

def gdtNull : Fin 7 := 0
def gdtKcode : Fin 7 := 1
def gdtKdata : Fin 7 := 2
def gdtUdata : Fin 7 := 3
def gdtUcode : Fin 7 := 4

def gdtAccessCode : BitVec 8 := 0x9a
def gdtAccessData : BitVec 8 := 0x92
def gdtAccessRing3 : BitVec 8 := 0x60

def gdtFlagGran : BitVec 8 := 0x80
def gdtFlagSize : BitVec 8 := 0x40
def gdtFlagLong : BitVec 8 := 0x20

def tssSize : BitVec 32 := 104

/-- `gdt_init`, with `g_tss` at the address `tss`; `gdt` starts out as zeros. -/
def gdtInit (tss : U64) : Gdt :=
  let gdt : Gdt := fun _ => 0
  let gdt := Function.update gdt gdtNull 0
  let gdt := Function.update gdt gdtKcode (gdtEntry 0 0xfffff gdtAccessCode (gdtFlagGran ||| gdtFlagLong))
  let gdt := Function.update gdt gdtKdata (gdtEntry 0 0xfffff gdtAccessData (gdtFlagGran ||| gdtFlagSize))
  let gdt := Function.update gdt gdtUdata
    (gdtEntry 0 0xfffff (gdtAccessData ||| gdtAccessRing3) (gdtFlagGran ||| gdtFlagSize))
  let gdt := Function.update gdt gdtUcode
    (gdtEntry 0 0xfffff (gdtAccessCode ||| gdtAccessRing3) (gdtFlagGran ||| gdtFlagLong))
  gdtSetTss gdt tss (tssSize - 1)

/-- The descriptor that a selector names; bit 2 would name the local table, which there is none of. -/
def Gdt.lookup (gdt : Gdt) (selector : U64) : Option SegmentDescriptor :=
  if h : selector.toNat / 8 < 7 then
    if selector.getLsbD 2 then none else some (.decode (gdt ⟨selector.toNat / 8, h⟩))
  else none

def SegmentDescriptor.present (d : SegmentDescriptor) : Bool := d.access.getLsbD 7
def SegmentDescriptor.dpl (d : SegmentDescriptor) : BitVec 2 := d.access.extractLsb' 5 2
def SegmentDescriptor.system (d : SegmentDescriptor) : Bool := !d.access.getLsbD 4
def SegmentDescriptor.executable (d : SegmentDescriptor) : Bool := d.access.getLsbD 3
def SegmentDescriptor.conforming (d : SegmentDescriptor) : Bool := d.access.getLsbD 2
def SegmentDescriptor.writable (d : SegmentDescriptor) : Bool := d.access.getLsbD 1
def SegmentDescriptor.long (d : SegmentDescriptor) : Bool := d.flags.getLsbD 1
def SegmentDescriptor.size (d : SegmentDescriptor) : Bool := d.flags.getLsbD 2

def Gdt.CodeSegment (gdt : Gdt) (cs : U64) : Prop :=
  cs.toNat < 2 ^ 16 ∧ ∃ d, gdt.lookup cs = some d ∧ d.present ∧ ¬d.system ∧ d.executable ∧ ¬d.conforming ∧
    d.long ∧ ¬d.size ∧ d.dpl = cs.setWidth 2

def Gdt.StackSegment (gdt : Gdt) (cs ss : U64) : Prop :=
  ss.toNat < 2 ^ 16 ∧ ∃ d, gdt.lookup ss = some d ∧ d.present ∧ ¬d.system ∧ ¬d.executable ∧ d.writable ∧
    d.dpl = cs.setWidth 2 ∧ ss.setWidth 2 = cs.setWidth 2

instance (gdt : Gdt) (cs : U64) : Decidable (gdt.CodeSegment cs) :=
  decidable_of_iff (cs.toNat < 2 ^ 16 ∧ (gdt.lookup cs).any fun d => d.present ∧ ¬d.system ∧ d.executable ∧
    ¬d.conforming ∧ d.long ∧ ¬d.size ∧ d.dpl = cs.setWidth 2) (by simp [Gdt.CodeSegment, Option.any_eq_true])

instance (gdt : Gdt) (cs ss : U64) : Decidable (gdt.StackSegment cs ss) :=
  decidable_of_iff (ss.toNat < 2 ^ 16 ∧ (gdt.lookup ss).any fun d => d.present ∧ ¬d.system ∧ ¬d.executable ∧
    d.writable ∧ d.dpl = cs.setWidth 2 ∧ ss.setWidth 2 = cs.setWidth 2)
    (by simp [Gdt.StackSegment, Option.any_eq_true])

/-- What IRETQ demands of the frame it takes: a code segment, a stack segment of the same privilege or,
for ring 0, none, and an address of either half. -/
def Gdt.Returnable (gdt : Gdt) (cs ss rip : U64) : Prop :=
  gdt.CodeSegment cs ∧ (gdt.StackSegment cs ss ∨ cs &&& 3 = 0 ∧ ss = 0) ∧ Canonical rip

instance (gdt : Gdt) (cs ss rip : U64) : Decidable (gdt.Returnable cs ss rip) := inferInstanceAs (Decidable (_ ∧ _))

end Descriptors

/-- The flags that IRETQ loads in ring 0; the others are fixed. -/
def iretqFlags (flags : U64) : U64 := flags &&& 0x3d7fd5 ||| 2

def star : U64 := (Kernel.userCs - 16) <<< 48 ||| kernelCs <<< 32

namespace Processor

open Descriptors

variable {T E : Type}

def syscall (p : Processor T E) : Processor T E :=
  let base : U64 := (star.extractLsb' 32 16).setWidth 64
  { p with machine := p.machine.syscall, cs := base &&& 0xfffc, ss := base + 8 }

def sysretq (p : Processor T E) : Processor T E :=
  let base : U64 := (star.extractLsb' 48 16).setWidth 64
  { p with machine := p.machine.sysretq, cs := base + 16 ||| 3, ss := base + 8 ||| 3 }

def iretqChecked (p : Processor T E) (gdt : Gdt) : Option (Processor T E) :=
  let q := p.iretq
  let regs := q.machine.regs
  if gdt.Returnable q.cs q.ss regs.rip then
    some { q with machine := { q.machine with regs := { regs with rflags := iretqFlags regs.rflags } } }
  else none

def leaveChecked (p : Processor T E) (gdt : Gdt) : Option (Processor T E) := do
  let m ← Isr.commonExit.foldlM Machine.exec p.machine
  { p with machine := m }.iretqChecked gdt

/-- `enter_user`, apart from the data segments it loads. -/
def enterUser (p : Processor T E) (userRip userRsp : U64) : Processor T E :=
  let rflags := p.machine.regs.rflags &&& ~~~fmask
  let words := [Kernel.userDs, userRsp, rflags ||| 0x200, Kernel.userCs, userRip]
  { p with machine := p.machine.pushWords words }.iretq

end Processor

end Mcincos
