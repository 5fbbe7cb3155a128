import Mcincos.Library.Alarm
import Mcincos.Timer.Timer

namespace Mcincos

/-- The timer behind the registers: the count goes down to 0, the deadline is met by the TSC. -/
structure LapicTimer where
  lvt : BitVec 32
  count : ℕ
  deadline : U64
  deriving DecidableEq

namespace LapicTimer

def deadlineMode (d : LapicTimer) : Bool := d.lvt.getLsbD 18

/-- A change between the TSC-deadline mode and the others disarms the timer. In the TSC-deadline mode
the initial count is not taken. -/
def write (d : LapicTimer) (reg : LapicReg) (val : BitVec 32) : LapicTimer :=
  match reg with
  | .lvtTimer =>
    if val.getLsbD 18 = d.deadlineMode then { d with lvt := val } else ⟨val, 0, 0⟩
  | .tmrInitcnt => if d.deadlineMode then d else { d with count := val.toNat }
  | .tmrDiv => d

def writeDeadline (d : LapicTimer) (val : U64) : LapicTimer :=
  if d.deadlineMode then { d with deadline := val } else d

def interrupt (d : LapicTimer) : Option (BitVec 8) := if d.lvt.getLsbD 16 then none else some (d.lvt.setWidth 8)

/-- The TSC comes to `tsc` while the count goes down by `ticks`. The periodic mode, which the driver
does not use, is left out. -/
def pass (d : LapicTimer) (tsc : U64) (ticks : ℕ) : LapicTimer × Option (BitVec 8) :=
  if d.deadlineMode then
    if d.deadline ≠ 0 ∧ d.deadline ≤ tsc then ({ d with deadline := 0 }, d.interrupt) else (d, none)
  else if 0 < d.count ∧ d.count ≤ ticks then ({ d with count := 0 }, d.interrupt)
  else ({ d with count := d.count - ticks }, none)

end LapicTimer

structure TimerMachine where
  vars : TimerState
  device : LapicTimer

namespace TimerMachine

def lapicWrite (m : TimerMachine) (reg : LapicReg) (val : BitVec 32) : TimerMachine where
  vars := m.vars.lapicWrite reg val
  device := if m.vars.gLapicBase = 0 then m.device else m.device.write reg val

def wrmsrTscDeadline (m : TimerMachine) (val : U64) : TimerMachine where
  vars := { m.vars with tscDeadline := val }
  device := m.device.writeDeadline val

def lapicTimerSetOneshot (m : TimerMachine) (vector : BitVec 8) : TimerMachine :=
  let m := { m with vars := { m.vars with gTimerVector := vector } }
  let m := m.lapicWrite .tmrDiv lapicTimerDiv16
  let m := m.lapicWrite .lvtTimer (vector.setWidth 32)
  m.lapicWrite .tmrInitcnt 0

def lapicTimerSetTscDeadline (m : TimerMachine) (vector : BitVec 8) : TimerMachine :=
  let m := { m with vars := { m.vars with gTimerVector := vector } }
  let m := m.lapicWrite .tmrDiv lapicTimerDiv16
  let m := m.lapicWrite .lvtTimer (vector.setWidth 32 ||| lapicLvtTscDeadline)
  m.lapicWrite .tmrInitcnt 0

def lapicTimerStop (m : TimerMachine) : TimerMachine :=
  if m.vars.gLapicBase = 0 ∨ m.vars.gTimerVector = 0 then m
  else
    let m := m.lapicWrite .lvtTimer (m.vars.gTimerVector.setWidth 32 ||| lapicLvtMask)
    m.lapicWrite .tmrInitcnt 0

def lapicTimerOneshot (m : TimerMachine) (ticks : BitVec 32) : TimerMachine :=
  if m.vars.gLapicBase = 0 ∨ m.vars.gTimerVector = 0 then m
  else
    let ticks := if ticks = 0 then 1 else ticks
    let m := m.lapicWrite .lvtTimer (m.vars.gTimerVector.setWidth 32)
    m.lapicWrite .tmrInitcnt ticks

def lapicTimerCalibrateTsc (hw : TimerHw) (m : TimerMachine) (tscHz : U64) (us : BitVec 32) :
    TimerMachine × BitVec 32 :=
  if m.vars.gLapicBase = 0 ∨ m.vars.gTimerVector = 0 ∨ tscHz = 0 ∨ us = 0 then (m, 0)
  else
    let m := m.lapicWrite .tmrDiv lapicTimerDiv16
    let m := m.lapicWrite .lvtTimer (m.vars.gTimerVector.setWidth 32 ||| lapicLvtMask)
    let m := m.lapicWrite .tmrInitcnt 0xffffffff
    let m := { m with device := { m.device with count := hw.currcnt.toNat } }
    (m.lapicTimerStop, hw.lapicRate us)

def timerStop (m : TimerMachine) : TimerMachine :=
  match m.vars.gSrc with
  | .none => m
  | .tscDeadline => (m.wrmsrTscDeadline 0).lapicTimerStop
  | .lapic => m.lapicTimerStop

def timerInit (hw : TimerHw) (m : TimerMachine) (vector : BitVec 8) : TimerMachine × Int :=
  let m := { m with vars := { m.vars with gVector := vector }.lapicInit hw }
  if ¬hw.hasInvariantTsc then (m, -1)
  else if hw.tscHz = 0 then (m, -1)
  else if hw.hasTscDeadline then
    let s := { m.vars with gSrc := .tscDeadline, gTickNum := hw.tscHz, gTickDen := 1000000000 }
    let m := { m with vars := s.timerSetScale s.gTickNum s.gTickDen }
    let m := m.lapicTimerSetTscDeadline vector
    (m.timerStop, 0)
  else
    let m := m.lapicTimerSetOneshot vector
    let (m, tpu) := m.lapicTimerCalibrateTsc hw hw.tscHz timerCalUs
    if tpu = 0 then (m, -1)
    else
      let s := { m.vars with gSrc := .lapic, gTickNum := tpu.setWidth 64 * 1000, gTickDen := 1000000000 }
      let m := { m with vars := s.timerSetScale s.gTickNum s.gTickDen }
      (m.timerStop, 0)

def timerOneshotNs (m : TimerMachine) (tsc ns : U64) : TimerMachine :=
  if m.vars.gTickNum = 0 ∨ m.vars.gScale = 0 then m
  else
    let ticks := m.vars.ticksFromNs ns
    let ticks := if ticks = 0 then 1 else ticks
    match m.vars.gSrc with
    | .none => m
    | .tscDeadline => (m.lapicTimerSetTscDeadline m.vars.gVector).wrmsrTscDeadline (tsc + ticks)
    | .lapic =>
      let ticks := if 0xffffffff < ticks then 0xffffffff else ticks
      m.lapicTimerOneshot (ticks.setWidth 32)

inductive Event
  | oneshot (ns : U64)
  | stop
  | pass (cycles ticks : ℕ)

/-- The calls, with the TSC as they read it, and time in between: `cycles` of the TSC while the LAPIC
counts `ticks`. -/
def step (m : TimerMachine) (tsc : U64) : Event → (TimerMachine × U64) × Option (BitVec 8)
  | .oneshot ns => ((m.timerOneshotNs tsc ns, tsc), none)
  | .stop => ((m.timerStop, tsc), none)
  | .pass cycles ticks =>
    let tsc := tsc + BitVec.ofNat 64 cycles
    let (device, interrupt) := m.device.pass tsc ticks
    (({ m with device }, tsc), interrupt)

def run (m : TimerMachine) (tsc : U64) : List Event → List (Option (BitVec 8))
  | [] => []
  | e :: es => (m.step tsc e).2 :: (m.step tsc e).1.1.run (m.step tsc e).1.2 es

end TimerMachine

end Mcincos
