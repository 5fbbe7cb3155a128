import Mcincos.Library.FixedPoint
import Mcincos.Library.Words

namespace Mcincos

open FixedPoint

inductive TimerSource
  | none
  | tscDeadline
  | lapic
  deriving DecidableEq

inductive LapicReg
  | lvtTimer
  | tmrInitcnt
  | tmrDiv
  deriving DecidableEq

structure CpuidRegs where
  eax : BitVec 32
  ebx : BitVec 32
  ecx : BitVec 32
  edx : BitVec 32

/-- What `timer_init` finds out from the machine: the processor's answers, the address `mmio_map`
gives the LAPIC, how far the TSC gets during the PIT's one-shot, and the LAPIC's count at the end of
its calibration. -/
structure TimerHw where
  cpuid : BitVec 32 → BitVec 32 → CpuidRegs
  lapicBase : U64
  pitDelta : U64
  currcnt : BitVec 32

/-- The static variables of timer.c and lapic.c, and the device registers they write. -/
structure TimerState where
  gSrc : TimerSource
  gVector : BitVec 8
  gTickNum : U64
  gTickDen : U64
  gScale : U64
  gTimerVector : BitVec 8
  gLapicBase : U64
  lapic : LapicReg → BitVec 32
  tscDeadline : U64

def timerCalUs : BitVec 32 := 10000
def lapicLvtMask : BitVec 32 := 1#32 <<< 16
def lapicLvtTscDeadline : BitVec 32 := 1#32 <<< 18
def lapicTimerDiv16 : BitVec 32 := 3

def mulU64DivU64 (a b d : U64) : U64 :=
  if d = 0 then 0
  else if d ≤ high (wideMul a b) then BitVec.allOnes 64
  else (wideMul a b / d.setWidth 128).setWidth 64

namespace TimerHw

def hasTscDeadline (hw : TimerHw) : Prop := (hw.cpuid 1 0).ecx >>> 24 &&& 1 ≠ 0

def hasInvariantTsc (hw : TimerHw) : Prop :=
  ¬(hw.cpuid 0x80000000 0).eax < 0x80000007 ∧ (hw.cpuid 0x80000007 0).edx >>> 8 &&& 1 ≠ 0

instance (hw : TimerHw) : Decidable hw.hasTscDeadline := inferInstanceAs (Decidable (_ ≠ _))
instance (hw : TimerHw) : Decidable hw.hasInvariantTsc := inferInstanceAs (Decidable (_ ∧ _))

def tscHzFromLeaf16 (hw : TimerHw) : U64 := (hw.cpuid 0x16 0).eax.setWidth 64 * 1000000

def tscHzFromCpuid (hw : TimerHw) : U64 :=
  let max := (hw.cpuid 0 0).eax
  let r15 := hw.cpuid 0x15 0
  let ratio := 0x15 ≤ max ∧ r15.eax ≠ 0 ∧ r15.ebx ≠ 0
  if ratio ∧ r15.ecx ≠ 0 then r15.ecx.setWidth 64 * r15.ebx.setWidth 64 / r15.eax.setWidth 64
  else if 0x16 ≤ max then hw.tscHzFromLeaf16
  else 0

def tscHzCalibratePit (hw : TimerHw) (pitUs : BitVec 32) : U64 :=
  if pitUs = 0 then 0 else hw.pitDelta * 1000000 / pitUs.setWidth 64

def tscHz (hw : TimerHw) : U64 :=
  if hw.tscHzFromCpuid = 0 then hw.tscHzCalibratePit timerCalUs else hw.tscHzFromCpuid

def lapicRate (hw : TimerHw) (us : BitVec 32) : BitVec 32 :=
  let elapsed := 0xffffffff#64 - hw.currcnt.setWidth 64
  let tpu := elapsed / us.setWidth 64
  let tpu := if tpu = 0 then 1 else tpu
  tpu.setWidth 32

def source (hw : TimerHw) : TimerSource := if hw.hasTscDeadline then .tscDeadline else .lapic

end TimerHw

namespace TimerState

/-- With a base of 0 the write does not reach the LAPIC. -/
def lapicWrite (s : TimerState) (reg : LapicReg) (val : BitVec 32) : TimerState :=
  if s.gLapicBase = 0 then s else { s with lapic := Function.update s.lapic reg val }

def lapicInit (hw : TimerHw) (s : TimerState) : TimerState :=
  if s.gLapicBase = 0 then { s with gLapicBase := hw.lapicBase } else s

def lapicTimerSetOneshot (s : TimerState) (vector : BitVec 8) : TimerState :=
  let s := { s with gTimerVector := vector }
  let s := s.lapicWrite .tmrDiv lapicTimerDiv16
  let s := s.lapicWrite .lvtTimer (vector.setWidth 32)
  s.lapicWrite .tmrInitcnt 0

def lapicTimerSetTscDeadline (s : TimerState) (vector : BitVec 8) : TimerState :=
  let s := { s with gTimerVector := vector }
  let s := s.lapicWrite .tmrDiv lapicTimerDiv16
  let s := s.lapicWrite .lvtTimer (vector.setWidth 32 ||| lapicLvtTscDeadline)
  s.lapicWrite .tmrInitcnt 0

def lapicTimerStop (s : TimerState) : TimerState :=
  if s.gLapicBase = 0 ∨ s.gTimerVector = 0 then s
  else
    let s := s.lapicWrite .lvtTimer (s.gTimerVector.setWidth 32 ||| lapicLvtMask)
    s.lapicWrite .tmrInitcnt 0

def lapicTimerOneshot (s : TimerState) (ticks : BitVec 32) : TimerState :=
  if s.gLapicBase = 0 ∨ s.gTimerVector = 0 then s
  else
    let ticks := if ticks = 0 then 1 else ticks
    let s := s.lapicWrite .lvtTimer (s.gTimerVector.setWidth 32)
    s.lapicWrite .tmrInitcnt ticks

/-- The loop that waits for the TSC to pass `us` microseconds has no effect of its own. -/
def lapicTimerCalibrateTsc (hw : TimerHw) (s : TimerState) (tscHz : U64) (us : BitVec 32) :
    TimerState × BitVec 32 :=
  if s.gLapicBase = 0 ∨ s.gTimerVector = 0 ∨ tscHz = 0 ∨ us = 0 then (s, 0)
  else
    let s := s.lapicWrite .tmrDiv lapicTimerDiv16
    let s := s.lapicWrite .lvtTimer (s.gTimerVector.setWidth 32 ||| lapicLvtMask)
    let s := s.lapicWrite .tmrInitcnt 0xffffffff
    (s.lapicTimerStop, hw.lapicRate us)

def timerSetScale (s : TimerState) (num den : U64) : TimerState :=
  { s with gScale := mulU64DivU64 num (1#64 <<< 32) den }

def ticksFromNs (s : TimerState) (ns : U64) : U64 :=
  if s.gScale = 0 then 0
  else high (wideMul ns s.gScale) <<< 32 ||| low (wideMul ns s.gScale) >>> 32

def timerStop (s : TimerState) : TimerState :=
  match s.gSrc with
  | .none => s
  | .tscDeadline => { s with tscDeadline := 0 }.lapicTimerStop
  | .lapic => s.lapicTimerStop

def timerInit (hw : TimerHw) (s : TimerState) (vector : BitVec 8) : TimerState × Int :=
  let s := { s with gVector := vector }.lapicInit hw
  if ¬hw.hasInvariantTsc then (s, -1)
  else if hw.tscHz = 0 then (s, -1)
  else if hw.hasTscDeadline then
    let s := { s with gSrc := .tscDeadline, gTickNum := hw.tscHz, gTickDen := 1000000000 }
    let s := s.timerSetScale s.gTickNum s.gTickDen
    let s := s.lapicTimerSetTscDeadline vector
    (s.timerStop, 0)
  else
    let s := s.lapicTimerSetOneshot vector
    let (s, tpu) := s.lapicTimerCalibrateTsc hw hw.tscHz timerCalUs
    if tpu = 0 then (s, -1)
    else
      let s := { s with
        gSrc := .lapic, gTickNum := tpu.setWidth 64 * 1000, gTickDen := 1000000000 }
      let s := s.timerSetScale s.gTickNum s.gTickDen
      (s.timerStop, 0)

/-- `tsc` is the TSC as the call reads it. -/
def timerOneshotNs (s : TimerState) (tsc ns : U64) : TimerState :=
  if s.gTickNum = 0 ∨ s.gScale = 0 then s
  else
    let ticks := s.ticksFromNs ns
    let ticks := if ticks = 0 then 1 else ticks
    match s.gSrc with
    | .none => s
    | .tscDeadline => { s.lapicTimerSetTscDeadline s.gVector with tscDeadline := tsc + ticks }
    | .lapic =>
      let ticks := if 0xffffffff < ticks then 0xffffffff else ticks
      s.lapicTimerOneshot (ticks.setWidth 32)

def timerNowNs (s : TimerState) (tsc : U64) : U64 :=
  if s.gTickNum = 0 then 0 else mulU64DivU64 tsc s.gTickDen s.gTickNum

end TimerState

end Mcincos
