import Mcincos.Library.CircularList
import Mcincos.Library.Words

namespace Mcincos

structure IsrFrame where
  r15 : U64
  r14 : U64
  r13 : U64
  r12 : U64
  r11 : U64
  r10 : U64
  r9 : U64
  r8 : U64
  rdi : U64
  rsi : U64
  rbp : U64
  rbx : U64
  rdx : U64
  rcx : U64
  rax : U64
  vector : U64
  error : U64
  rip : U64
  cs : U64
  rflags : U64
  rsp : U64
  ss : U64
  deriving DecidableEq

inductive ThreadState
  | ready
  | running
  | blocked
  | zombie
  deriving DecidableEq

/-- Threads and timer events are at addresses of types `T` and `E`; a null pointer is `none`. -/
structure Thread (T : Type) where
  frame : IsrFrame
  kstackTop : U64
  state : ThreadState
  next : Option T

/-- `cb` is the address of the callback, 0 for none. -/
structure TimerEvent (E : Type) where
  deadlineNs : U64
  cb : U64
  arg : U64
  next : Option E

inductive TimerCommand
  | stop
  | oneshot (ns : U64)
  deriving DecidableEq

/-- The memory of sched.c and timerq.c, with `g_cpu_local.kernel_rsp` and `g_tss.rsp0`. -/
structure Kernel (T E : Type) where
  thread : T → Thread T
  event : E → TimerEvent E
  gHead : Option E
  gCurrent : Option T
  gQuantumNs : BitVec 32
  gSliceEndNs : U64
  kernelRsp : U64
  rsp0 : U64
  timer : TimerCommand

inductive Fault
  | nullThread
  | endlessRing
  | endlessTimers
  deriving DecidableEq

namespace Kernel

variable {T E : Type} [DecidableEq T]

def setThread (s : Kernel T E) (t : T) (th : Thread T) : Kernel T E :=
  { s with thread := Function.update s.thread t th }

def setNext (s : Kernel T E) (t : T) (next : Option T) : Kernel T E :=
  s.setThread t { s.thread t with next }

def setState (s : Kernel T E) (t : T) (state : ThreadState) : Kernel T E :=
  s.setThread t { s.thread t with state }

def setFrame (s : Kernel T E) (t : T) (frame : IsrFrame) : Kernel T E :=
  s.setThread t { s.thread t with frame }

section Setters

variable (s : Kernel T E) (t t' : T)

@[simp] theorem setThread_current (th : Thread T) : (s.setThread t th).gCurrent = s.gCurrent := rfl
@[simp] theorem setNext_current (next : Option T) : (s.setNext t next).gCurrent = s.gCurrent := rfl
@[simp] theorem setState_current (st : ThreadState) : (s.setState t st).gCurrent = s.gCurrent := rfl
@[simp] theorem setFrame_current (f : IsrFrame) : (s.setFrame t f).gCurrent = s.gCurrent := rfl

theorem setThread_thread (th : Thread T) :
    (s.setThread t th).thread t' = if t' = t then th else s.thread t' :=
  Function.update_apply _ _ _ _

theorem setThread_keeps {β : Type} (field : Thread T → β) {th : Thread T}
    (h : field th = field (s.thread t)) :
    field ((s.setThread t th).thread t') = field (s.thread t') := by
  rw [setThread_thread]
  split_ifs with ht
  · rw [ht, h]
  · rfl

@[simp] theorem setNext_next (next : Option T) :
    ((s.setNext t next).thread t').next = if t' = t then next else (s.thread t').next := by
  rw [setNext, setThread_thread]
  split_ifs <;> rfl

@[simp] theorem setNext_frame (next : Option T) :
    ((s.setNext t next).thread t').frame = (s.thread t').frame :=
  s.setThread_keeps t t' Thread.frame rfl

@[simp] theorem setNext_kstackTop (next : Option T) :
    ((s.setNext t next).thread t').kstackTop = (s.thread t').kstackTop :=
  s.setThread_keeps t t' Thread.kstackTop rfl

@[simp] theorem setNext_state (next : Option T) :
    ((s.setNext t next).thread t').state = (s.thread t').state :=
  s.setThread_keeps t t' Thread.state rfl

@[simp] theorem setState_state (st : ThreadState) :
    ((s.setState t st).thread t').state = if t' = t then st else (s.thread t').state := by
  rw [setState, setThread_thread]
  split_ifs <;> rfl

@[simp] theorem setState_frame (st : ThreadState) :
    ((s.setState t st).thread t').frame = (s.thread t').frame :=
  s.setThread_keeps t t' Thread.frame rfl

@[simp] theorem setState_kstackTop (st : ThreadState) :
    ((s.setState t st).thread t').kstackTop = (s.thread t').kstackTop :=
  s.setThread_keeps t t' Thread.kstackTop rfl

@[simp] theorem setState_next (st : ThreadState) :
    ((s.setState t st).thread t').next = (s.thread t').next :=
  s.setThread_keeps t t' Thread.next rfl

@[simp] theorem setFrame_frame (f : IsrFrame) :
    ((s.setFrame t f).thread t').frame = if t' = t then f else (s.thread t').frame := by
  rw [setFrame, setThread_thread]
  split_ifs <;> rfl

@[simp] theorem setFrame_kstackTop (f : IsrFrame) :
    ((s.setFrame t f).thread t').kstackTop = (s.thread t').kstackTop :=
  s.setThread_keeps t t' Thread.kstackTop rfl

@[simp] theorem setFrame_state (f : IsrFrame) :
    ((s.setFrame t f).thread t').state = (s.thread t').state :=
  s.setThread_keeps t t' Thread.state rfl

@[simp] theorem setFrame_next (f : IsrFrame) :
    ((s.setFrame t f).thread t').next = (s.thread t').next :=
  s.setThread_keeps t t' Thread.next rfl

end Setters

end Kernel

end Mcincos
