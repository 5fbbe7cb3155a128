import Mcincos.Core.UserSetup
import Mcincos.Syscall.Syscalls
import Mcincos.Syscall.WholeBuffer

namespace Mcincos

inductive UserInstr
  | mov (dst : Reg) (imm : BitVec 32)
  | lea (dst : Reg) (disp : BitVec 32)
  | syscall
  | jmp (rel : BitVec 8)
  deriving DecidableEq

/-- The registers in the order of their numbers in an instruction without a prefix. -/
def Reg.ofNumber (n : BitVec 3) : Reg :=
  if n = 0 then .rax
  else if n = 1 then .rcx
  else if n = 2 then .rdx
  else if n = 3 then .rbx
  else if n = 4 then .rsp
  else if n = 5 then .rbp
  else if n = 6 then .rsi
  else .rdi

def fetch32 (fetch : ℕ → Option (BitVec 8)) (i : ℕ) : Option (BitVec 32) := do
  let b0 ← fetch i
  let b1 ← fetch (i + 1)
  let b2 ← fetch (i + 2)
  let b3 ← fetch (i + 3)
  return b3 ++ b2 ++ b1 ++ b0

/-- The instruction whose bytes `fetch` gives, with its length; `none` where a fetch faults, and for
all others. -/
def decode (fetch : ℕ → Option (BitVec 8)) : Option (UserInstr × ℕ) :=
  (fetch 0).bind fun op =>
    if op &&& 0xf8 = 0xb8 then
      (fetch32 fetch 1).map fun imm => (.mov (.ofNumber (op.extractLsb' 0 3)) imm, 5)
    else if op = 0x48 then
      (fetch 1).bind fun op => (fetch 2).bind fun modrm =>
        if op = 0x8d ∧ modrm &&& 0xc7 = 0x05 then
          (fetch32 fetch 3).map fun disp => (.lea (.ofNumber (modrm.extractLsb' 3 3)) disp, 7)
        else none
    else if op = 0x0f then (fetch 1).bind fun op => if op = 0x05 then some (.syscall, 2) else none
    else if op = 0xeb then (fetch 1).map fun rel => (.jmp rel, 2)
    else none

def Vm.fetchByte (s : Vm) (va : U64) : Option (BitVec 8) :=
  let walk := cpuWalk s.ram s.cr3 va
  if Canonical va ∧ walk.user ∧ ¬walk.noExecute then (walk.physical va).map s.loadPhys else none

def Vm.instrAt (s : Vm) (rip : U64) : Option (UserInstr × ℕ) :=
  decode fun i => s.fetchByte (rip + BitVec.ofNat 64 i)

def Regs.after (r : Regs) (i : UserInstr) (length : ℕ) : Regs :=
  let rip := r.rip + BitVec.ofNat 64 length
  match i with
  | .mov dst imm => { r with gpr := Function.update r.gpr dst (imm.setWidth 64), rip }
  | .lea dst disp => { r with gpr := Function.update r.gpr dst (rip + disp.signExtend 64), rip }
  | .syscall => { r with rip }
  | .jmp rel => { r with rip := rip + rel.signExtend 64 }

def AtEntry (entry : U64) (r : Regs) : Prop := r.rip = entry ∧ sysretFlags r.rflags = r.rflags

namespace Machine

variable {T E : Type}

def dispatchAt (m : Machine T E) (vm : Vm) (rip : U64) : List (BitVec 8) × SyscallEnd :=
  syscallDispatch vm rip (m.regs.gpr .rdi) (m.regs.gpr .rsi) (m.regs.gpr .rdx) (m.regs.gpr .rcx) (m.regs.gpr .r8)
    (m.regs.gpr .r9) (m.stack (m.regs.gpr .rsp))

/-- Each thread is to start at its entry, with flags that SYSRET leaves as they are, and the current one is
at it. -/
structure AtEntries (code : T → U64) (m : Machine T E) : Prop where
  current : ∀ t, m.kernel.gCurrent = some t → AtEntry (code t) m.regs
  others : ∀ t, m.kernel.gCurrent ≠ some t → AtEntry (code t) (.ofFrame (m.kernel.thread t).frame)

variable [DecidableEq T] [DecidableEq E] [Fintype T]

/-- What is on the console and where the processor is when the threads run what is in their memory
from their entries on, with system calls and ticks. -/
inductive Session (vm : Vm) (code : T → U64) (callback : U64 → U64 → Kernel T E → Kernel T E) :
    List (BitVec 8) → Option (T × Regs) → Mode → Machine T E → Prop
  | start {m : Machine T E} : Started callback m → AtEntries code m → Session vm code callback [] none .user m
  | user {out : List (BitVec 8)} {g : Option (T × Regs)} {m : Machine T E} {i : UserInstr} {length : ℕ} :
      Session vm code callback out g .user m → vm.instrAt m.regs.rip = some (i, length) → i ≠ .syscall →
      Session vm code callback out g .user { m with regs := m.regs.after i length }
  | syscall {out : List (BitVec 8)} {g : Option (T × Regs)} {m : Machine T E} {length : ℕ} {t : T} :
      Session vm code callback out g .user m → vm.instrAt m.regs.rip = some (.syscall, length) →
      m.kernel.gCurrent = some t → sysretFlags m.regs.rflags = m.regs.rflags →
      Session vm code callback out (some (t, m.regs.after .syscall length)) (.entry syscallEntryCode)
        { m with regs := m.regs.after .syscall length }.syscall
  | instr {out : List (BitVec 8)} {g : Option (T × Regs)} {m m' : Machine T E} {i : Instr} {rest : List Instr} :
      Session vm code callback out g (.entry (i :: rest)) m → m.exec i = some m' →
      Session vm code callback out g (.entry rest) m'
  | call {out : List (BitVec 8)} {g : Option (T × Regs)} {m : Machine T E} {rest : List Instr} {rc : U64}
      (ret rip : U64) : Session vm code callback out g (.entry (.call :: rest)) m →
      (m.dispatchAt vm rip).2 = .returned rc →
      Session vm code callback (out ++ (m.dispatchAt vm rip).1) g (.dispatch rest m.regs) (m.call ret)
  | dispatch {out : List (BitVec 8)} {g : Option (T × Regs)} {m : Machine T E} {rest : List Instr}
      {caller regs : Regs} {stack : U64 → U64} : Session vm code callback out g (.dispatch rest caller) m →
      regs.gpr .rsp ≤ caller.gpr .rsp → (∀ a, caller.gpr .rsp + 16 ≤ a → stack a = m.stack a) →
      Session vm code callback out g (.dispatch rest caller) { m with regs, stack }
  | ret {out : List (BitVec 8)} {g : Option (T × Regs)} {m : Machine T E} {rest : List Instr}
      {caller regs : Regs} : Session vm code callback out g (.dispatch rest caller) m →
      (∀ r ∈ .rsp :: calleeSaved, regs.gpr r = caller.gpr r) →
      regs.rflags &&& fmask = caller.rflags &&& fmask →
      Session vm code callback out g (.entry rest) { m with regs }
  | sysretq {out : List (BitVec 8)} {g : Option (T × Regs)} {m : Machine T E} {rest : List Instr} :
      Session vm code callback out g (.entry (.sysretq :: rest)) m → Session vm code callback out g .user m.sysretq
  | userTick {out : List (BitVec 8)} {g : Option (T × Regs)} {m : Machine T E} {fuel : ℕ}
      {vector now now' : U64} {kernel : Kernel T E} {frame : IsrFrame} (stack : U64 → U64) :
      Session vm code callback out g .user m →
      m.kernel.schedOnTick callback fuel (m.regs.frame vector Kernel.userCs Kernel.userDs) now now' =
        .ok (kernel, frame) →
      Session vm code callback out g (Mode.user.iretq frame) { m with kernel, stack, regs := .ofFrame frame }
  | kernelTick {out : List (BitVec 8)} {g : Option (T × Regs)} {m : Machine T E} {rest : List Instr}
      {caller : Regs} {fuel : ℕ} {vector now now' : U64} {kernel : Kernel T E} {frame : IsrFrame}
      {stack : U64 → U64} : Session vm code callback out g (.dispatch rest caller) m →
      m.kernel.schedOnTick callback fuel (m.regs.frame vector kernelCs kernelDs) now now' = .ok (kernel, frame) →
      (∀ a, m.regs.gpr .rsp ≤ a → stack a = m.stack a) →
      Session vm code callback out g ((Mode.dispatch rest caller).iretq frame)
        { m with kernel, stack, regs := .ofFrame frame }

variable {vm : Vm} {code : T → U64} {callback : U64 → U64 → Kernel T E → Kernel T E} {out : List (BitVec 8)}
  {g : Option (T × Regs)} {mode : Mode} {m : Machine T E}

theorem Session.reached (h : Session vm code callback out g mode m) : Reached callback g mode m := by
  induction h with
  | start hstarted => exact .start hstarted
  | @user out g m i length _ _ _ ih => exact ih.user (m.regs.after i length) m.gsBase
  | @syscall out g m length t _ _ hcurrent hflags ih =>
    exact (ih.user (m.regs.after .syscall length) m.gsBase).syscall hcurrent hflags
  | instr _ hexec ih => exact ih.instr hexec
  | call ret _ _ _ ih => exact ih.call ret
  | dispatch _ hle hstack ih => exact ih.dispatch hle hstack
  | ret _ hregs hflag ih => exact ih.ret hregs hflag
  | sysretq _ ih => exact ih.sysretq
  | userTick stack _ htick ih => exact ih.userTick stack htick
  | kernelTick _ htick hstack ih => exact ih.kernelTick htick hstack

end Machine

end Mcincos
