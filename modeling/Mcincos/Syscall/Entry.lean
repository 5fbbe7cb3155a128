import Mcincos.Sched.Sched

namespace Mcincos

inductive Reg
  | rax
  | rcx
  | rdx
  | rbx
  | rsp
  | rbp
  | rsi
  | rdi
  | r8
  | r9
  | r10
  | r11
  | r12
  | r13
  | r14
  | r15
  deriving DecidableEq

structure Regs where
  gpr : Reg → U64
  rip : U64
  rflags : U64

inductive Instr
  | swapgs
  | movToGs (offset : U64) (src : Reg)
  | movFromGs (dst : Reg) (offset : U64)
  | push (src : Reg)
  | pop (dst : Reg)
  | mov (dst src : Reg)
  | sub (dst : Reg) (n : U64)
  | add (dst : Reg) (n : U64)
  | call
  | sysretq
  deriving DecidableEq

def kernelCs : U64 := Kernel.gdtSel 1 0
def kernelDs : U64 := Kernel.gdtSel 2 0

def cpuLocalKernelRsp : U64 := 0
def cpuLocalUserRsp : U64 := 8

def syscallEntry : List Instr := [
  .swapgs,
  .movToGs cpuLocalUserRsp .rsp,
  .movFromGs .rsp cpuLocalKernelRsp,
  .push .r11,
  .push .rcx,
  .push .rbx,
  .push .rbp,
  .push .r12,
  .push .r13,
  .push .r14,
  .push .r15,
  .mov .r12 .r9,
  .mov .r9 .r8,
  .mov .r8 .r10,
  .mov .rcx .rdx,
  .mov .rdx .rsi,
  .mov .rsi .rdi,
  .mov .rdi .rax,
  .sub .rsp 8,
  .push .r12]

def syscallExit : List Instr := [
  .add .rsp 16,
  .pop .r15,
  .pop .r14,
  .pop .r13,
  .pop .r12,
  .pop .rbp,
  .pop .rbx,
  .pop .rcx,
  .pop .r11,
  .movFromGs .rsp cpuLocalUserRsp,
  .swapgs]

/-- The instruction behind `sysretq` is never reached. -/
def syscallEntryCode : List Instr :=
  syscallEntry ++ .call :: (syscallExit ++ [.sysretq, .mov .rdi .rax])

/-- What the processor is at: a user thread, `syscall_entry` with these instructions to go, or
`syscall_dispatch`, called with the registers `caller`. -/
inductive Mode
  | user
  | entry (code : List Instr)
  | dispatch (code : List Instr) (caller : Regs)
  | lost

/-- One processor with the scheduler's memory; `g_cpu_local` is `kernel.kernelRsp` and `userRsp`, at
address `gCpuLocal`. -/
structure Machine (T E : Type) where
  kernel : Kernel T E
  userRsp : U64
  stack : U64 → U64
  regs : Regs
  gsBase : U64
  kernelGsBase : U64
  gCpuLocal : U64

namespace Regs

def frame (r : Regs) (vector cs ss : U64) : IsrFrame where
  r15 := r.gpr .r15
  r14 := r.gpr .r14
  r13 := r.gpr .r13
  r12 := r.gpr .r12
  r11 := r.gpr .r11
  r10 := r.gpr .r10
  r9 := r.gpr .r9
  r8 := r.gpr .r8
  rdi := r.gpr .rdi
  rsi := r.gpr .rsi
  rbp := r.gpr .rbp
  rbx := r.gpr .rbx
  rdx := r.gpr .rdx
  rcx := r.gpr .rcx
  rax := r.gpr .rax
  vector := vector
  error := 0
  rip := r.rip
  cs := cs
  rflags := r.rflags
  rsp := r.gpr .rsp
  ss := ss

def ofFrame (f : IsrFrame) : Regs where
  gpr
    | .rax => f.rax
    | .rcx => f.rcx
    | .rdx => f.rdx
    | .rbx => f.rbx
    | .rsp => f.rsp
    | .rbp => f.rbp
    | .rsi => f.rsi
    | .rdi => f.rdi
    | .r8 => f.r8
    | .r9 => f.r9
    | .r10 => f.r10
    | .r11 => f.r11
    | .r12 => f.r12
    | .r13 => f.r13
    | .r14 => f.r14
    | .r15 => f.r15
  rip := f.rip
  rflags := f.rflags

theorem ofFrame_frame (r : Regs) (vector cs ss : U64) : ofFrame (r.frame vector cs ss) = r := by
  have hgpr : (ofFrame (r.frame vector cs ss)).gpr = r.gpr := by
    funext reg
    cases reg <;> rfl
  exact congrArg (fun gpr => (⟨gpr, r.rip, r.rflags⟩ : Regs)) hgpr

end Regs

def userEnd : U64 := 0x0000800000000000

def Canonical (va : U64) : Prop := va < userEnd ∨ 0xffff800000000000 ≤ va

instance (va : U64) : Decidable (Canonical va) := inferInstanceAs (Decidable (_ ∨ _))

def fmask : U64 := 1 <<< 9

/-- The flags that SYSRET loads; the others are fixed. -/
def sysretFlags (r11 : U64) : U64 := r11 &&& 0x3c7fd7 ||| 2

namespace Machine

variable {T E : Type}

def setReg (m : Machine T E) (r : Reg) (v : U64) : Machine T E :=
  { m with regs := { m.regs with gpr := Function.update m.regs.gpr r v } }

/-- A load from the segment; it faults where the segment is not `g_cpu_local`. -/
def gsLoad (m : Machine T E) (offset : U64) : Option U64 :=
  if m.gsBase ≠ m.gCpuLocal then none
  else if offset = cpuLocalKernelRsp then some m.kernel.kernelRsp
  else if offset = cpuLocalUserRsp then some m.userRsp
  else none

def gsStore (m : Machine T E) (offset v : U64) : Option (Machine T E) :=
  if m.gsBase ≠ m.gCpuLocal then none
  else if offset = cpuLocalKernelRsp then some { m with kernel := { m.kernel with kernelRsp := v } }
  else if offset = cpuLocalUserRsp then some { m with userRsp := v }
  else none

def exec (m : Machine T E) : Instr → Option (Machine T E)
  | .swapgs => some { m with gsBase := m.kernelGsBase, kernelGsBase := m.gsBase }
  | .movToGs offset src => m.gsStore offset (m.regs.gpr src)
  | .movFromGs dst offset => (m.gsLoad offset).map (m.setReg dst)
  | .push src =>
    let sp := m.regs.gpr .rsp - 8
    some ({ m with stack := Function.update m.stack sp (m.regs.gpr src) }.setReg .rsp sp)
  | .pop dst =>
    let sp := m.regs.gpr .rsp
    some ((m.setReg .rsp (sp + 8)).setReg dst (m.stack sp))
  | .mov dst src => some (m.setReg dst (m.regs.gpr src))
  | .sub dst n => some (m.setReg dst (m.regs.gpr dst - n))
  | .add dst n => some (m.setReg dst (m.regs.gpr dst + n))
  | .call => none
  | .sysretq => none

/-- SYSCALL; `regs.rip` is already behind it. -/
def syscall (m : Machine T E) : Machine T E :=
  let gpr := Function.update m.regs.gpr .rcx m.regs.rip
  { m with regs := {
      gpr := Function.update gpr .r11 m.regs.rflags
      rip := m.regs.rip
      rflags := m.regs.rflags &&& ~~~fmask } }

def call (m : Machine T E) (ret : U64) : Machine T E :=
  let sp := m.regs.gpr .rsp - 8
  { m with stack := Function.update m.stack sp ret }.setReg .rsp sp

/-- SYSRET to a canonical address; to another it faults. The address behind a SYSCALL is one unless the
page that ends at `userEnd` is mapped. -/
def sysretq (m : Machine T E) : Machine T E :=
  { m with regs := { m.regs with
      rip := m.regs.gpr .rcx
      rflags := sysretFlags (m.regs.gpr .r11) } }

end Machine

/-- Where `iretq` takes the processor that has taken an interrupt in `mode`. -/
def Mode.iretq (mode : Mode) (frame : IsrFrame) : Mode :=
  if frame.cs &&& 3 = 3 then .user
  else
    match mode with
    | .dispatch code caller => .dispatch code caller
    | _ => .lost

end Mcincos
