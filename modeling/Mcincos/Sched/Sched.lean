import Mcincos.Sched.Timerq

namespace Mcincos

namespace Kernel

variable {T E : Type} [DecidableEq T] [DecidableEq E] [Fintype T]

def gdtSel (idx rpl : U64) : U64 := idx <<< 3 ||| rpl
def userDs : U64 := gdtSel 3 3
def userCs : U64 := gdtSel 4 3

def gdtSetKernelStack (s : Kernel T E) (rsp0 : U64) : Kernel T E := { s with rsp0 }

/-- The loop of `pick_next`. A ring that has not ended after as many steps as there are threads
never ends. -/
def pickLoop (s : Kernel T E) (current : T) : ℕ → Option T → Except Fault T
  | _, none => .error .nullThread
  | 0, some _ => .error .endlessRing
  | n + 1, some t =>
    if t ≠ current ∧ (s.thread t).state ≠ .ready then s.pickLoop current n (s.thread t).next
    else .ok t

def pickNext (s : Kernel T E) : Except Fault T :=
  match s.gCurrent with
  | none => .error .nullThread
  | some current => do
    let t ← s.pickLoop current (Fintype.card T) (s.thread current).next
    return if (s.thread t).state = .ready then t else current

def renewSlice (s : Kernel T E) (now : U64) : Kernel T E :=
  if s.gSliceEndNs = 0 ∨ s.gSliceEndNs ≤ now then
    { s with gSliceEndNs := now + s.gQuantumNs.setWidth 64 }
  else s

def schedNextDeadline (s : Kernel T E) (now : U64) : Except Fault (Kernel T E × U64) := do
  let deadline := s.timerqNextDeadline
  if s.gQuantumNs = 0 then
    return ({ s with gSliceEndNs := 0 }, deadline)
  else
    let next ← s.pickNext
    if some next = s.gCurrent then
      return ({ s with gSliceEndNs := 0 }, deadline)
    else
      let s := s.renewSlice now
      return (s, if deadline = 0 ∨ s.gSliceEndNs < deadline then s.gSliceEndNs else deadline)

def schedArmTimer (s : Kernel T E) (now : U64) : Except Fault (Kernel T E) := do
  if s.gQuantumNs = 0 ∧ s.timerqNextDeadline = 0 then
    return { s with timer := .stop }
  else
    let (s, deadline) ← s.schedNextDeadline now
    if deadline = 0 then
      return { s with timer := .stop }
    else
      return { s with timer := .oneshot (if deadline > now then deadline - now else 1) }

def userThread (entry userStackTop kstackTop : U64) : Thread T where
  frame := {
    r15 := 0, r14 := 0, r13 := 0, r12 := 0, r11 := 0, r10 := 0, r9 := 0, r8 := 0
    rdi := 0, rsi := 0, rbp := 0, rbx := 0, rdx := 0, rcx := 0, rax := 0
    vector := 0, error := 0
    rip := entry, cs := userCs, rflags := 0x202, rsp := userStackTop, ss := userDs }
  kstackTop := kstackTop
  state := .ready
  next := none

def threadInitUser (s : Kernel T E) (t : T) (entry userStackTop kstackTop : U64) : Kernel T E :=
  s.setThread t (userThread entry userStackTop kstackTop)

def schedInit (s : Kernel T E) (bootstrap : T) : Kernel T E :=
  ({ s with gCurrent := some bootstrap }.setState bootstrap .running).setNext bootstrap bootstrap

def schedSetQuantumNs (s : Kernel T E) (ns now : U64) : Except Fault (Kernel T E) :=
  let s := { s with gQuantumNs := ns.setWidth 32 }
  if ns = 0 then .ok { s with timer := .stop } else s.schedArmTimer now

def schedAdd (s : Kernel T E) (t : T) (now : U64) : Except Fault (Kernel T E) :=
  match s.gCurrent with
  | none => .ok (s.schedInit t)
  | some current =>
    let s := s.setNext t (s.thread current).next
    let s := s.setNext current t
    { s with gSliceEndNs := 0 }.schedArmTimer now

def schedStart (s : Kernel T E) (now : U64) : Except Fault (Kernel T E) := s.schedArmTimer now

def switchTo (s : Kernel T E) (current next : T) : Kernel T E :=
  let s := s.setState current .ready
  let s := s.setState next .running
  let s := { s with gCurrent := some next }
  let s := { s with kernelRsp := (s.thread next).kstackTop }
  s.gdtSetKernelStack (s.thread next).kstackTop

def reschedule (s : Kernel T E) (frame : IsrFrame) : Except Fault (Kernel T E × IsrFrame) :=
  match s.gCurrent with
  | none => .error .nullThread
  | some current => do
    let s := s.setFrame current frame
    let next ← s.pickNext
    if next = current then
      return (s, frame)
    else
      let s := s.switchTo current next
      return (s, (s.thread next).frame)

/-- `now` is the reading of the clock in `sched_on_tick`, `now'` the later one in
`sched_arm_timer`. -/
def schedOnTick (callback : U64 → U64 → Kernel T E → Kernel T E) (fuel : ℕ) (s : Kernel T E)
    (frame : IsrFrame) (now now' : U64) : Except Fault (Kernel T E × IsrFrame) :=
  if s.gCurrent = none then .ok (s, frame)
  else do
    let s ← s.timerqRunExpired callback now fuel
    if frame.cs &&& 3 ≠ 3 then
      let s ← s.schedArmTimer now'
      return (s, frame)
    else if s.gSliceEndNs = 0 ∨ now < s.gSliceEndNs then
      let s ← s.schedArmTimer now'
      return (s, frame)
    else
      let (s, frame) ← s.reschedule frame
      let s ← { s with gSliceEndNs := 0 }.schedArmTimer now'
      return (s, frame)

end Kernel

end Mcincos
