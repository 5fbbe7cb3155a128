import Mcincos.Timer.Device
import Mcincos.Timer.Durations

namespace Mcincos

open Words

namespace LapicTimer

variable {d : LapicTimer} {vector : BitVec 8}

def oneshotLvt (vector : BitVec 8) : BitVec 32 := vector.setWidth 32
def deadlineLvt (vector : BitVec 8) : BitVec 32 := vector.setWidth 32 ||| lapicLvtTscDeadline
def stoppedLvt (vector : BitVec 8) : BitVec 32 := vector.setWidth 32 ||| lapicLvtMask

theorem vector_bit (vector : BitVec 8) {k : ℕ} (hk : 8 ≤ k) : (vector.setWidth 32).getLsbD k = false := by
  rw [BitVec.getLsbD_setWidth, BitVec.getLsbD_of_ge vector k hk, Bool.and_false]

theorem oneshotLvt_deadline (vector : BitVec 8) : (oneshotLvt vector).getLsbD 18 = false :=
  vector_bit vector (by decide)

theorem deadlineLvt_deadline (vector : BitVec 8) : (deadlineLvt vector).getLsbD 18 = true := by
  rw [deadlineLvt, lapicLvtTscDeadline, getLsbD_or_one_shift _ _ _ (by decide), decide_eq_true rfl, Bool.true_or]

theorem stoppedLvt_deadline (vector : BitVec 8) : (stoppedLvt vector).getLsbD 18 = false := by
  rw [stoppedLvt, lapicLvtMask, getLsbD_or_one_shift _ _ _ (by decide), vector_bit vector (by decide)]
  rfl

theorem interrupt_oneshotLvt (h : d.lvt = oneshotLvt vector) : d.interrupt = some vector := by
  have hmask : (oneshotLvt vector).getLsbD 16 = false := vector_bit vector (by decide)
  rw [interrupt, h, hmask, oneshotLvt, BitVec.setWidth_setWidth_of_le _ (by decide), BitVec.setWidth_eq]
  rfl

theorem interrupt_deadlineLvt (h : d.lvt = deadlineLvt vector) : d.interrupt = some vector := by
  have hmask : (deadlineLvt vector).getLsbD 16 = false := by
    rw [deadlineLvt, lapicLvtTscDeadline, getLsbD_or_one_shift _ _ _ (by decide), vector_bit vector (by decide)]
    rfl
  have hvector : (deadlineLvt vector).setWidth 8 = vector := by
    have hflag : lapicLvtTscDeadline.setWidth 8 = 0#8 := rfl
    rw [deadlineLvt, BitVec.setWidth_or, BitVec.setWidth_setWidth_of_le _ (by decide), hflag, BitVec.or_zero,
      BitVec.setWidth_eq]
  rw [interrupt, h, hmask, hvector]
  rfl

theorem write_lvt (d : LapicTimer) (lvt : BitVec 32) : ∃ count deadline, d.write .lvtTimer lvt = ⟨lvt, count, deadline⟩ := by
  unfold write
  dsimp only
  split_ifs
  · exact ⟨_, _, rfl⟩
  · exact ⟨_, _, rfl⟩

theorem setDeadline (d : LapicTimer) (vector : BitVec 8) (deadline : U64) : ∃ count,
    ((d.write .lvtTimer (deadlineLvt vector)).write .tmrInitcnt 0).writeDeadline deadline =
      ⟨deadlineLvt vector, count, deadline⟩ := by
  obtain ⟨count, old, hwrite⟩ := d.write_lvt (deadlineLvt vector)
  refine ⟨count, ?_⟩
  have hmode : deadlineMode ⟨deadlineLvt vector, count, old⟩ = true := deadlineLvt_deadline vector
  have hcount : write ⟨deadlineLvt vector, count, old⟩ .tmrInitcnt 0 = ⟨deadlineLvt vector, count, old⟩ := if_pos hmode
  rw [hwrite, hcount]
  exact if_pos hmode

theorem setCount (d : LapicTimer) {lvt : BitVec 32} (hlvt : lvt.getLsbD 18 = false) (ticks : BitVec 32) :
    ∃ deadline, (d.write .lvtTimer lvt).write .tmrInitcnt ticks = ⟨lvt, ticks.toNat, deadline⟩ := by
  obtain ⟨count, old, hwrite⟩ := d.write_lvt lvt
  refine ⟨old, ?_⟩
  have hmode : deadlineMode ⟨lvt, count, old⟩ = false := hlvt
  rw [hwrite]
  exact if_neg (by simp [hmode])

theorem pass_quiet (h : if d.deadlineMode then d.deadline = 0 else d.count = 0) (tsc : U64) (ticks : ℕ) :
    d.pass tsc ticks = (d, none) := by
  unfold pass
  cases hmode : d.deadlineMode with
  | true =>
    rw [hmode, if_pos rfl] at h
    rw [if_pos rfl, if_neg fun hdue => hdue.1 h]
  | false =>
    rw [hmode, if_neg (by decide)] at h
    rw [if_neg (by decide), if_neg (by omega), h, Nat.zero_sub, ← h]

theorem pass_deadline (hlvt : d.lvt = deadlineLvt vector) (hset : d.deadline ≠ 0) (tsc : U64) (ticks : ℕ) :
    d.pass tsc ticks = if d.deadline ≤ tsc then ({ d with deadline := 0 }, some vector) else (d, none) := by
  have hmode : d.deadlineMode = true := by
    rw [deadlineMode, hlvt]
    exact deadlineLvt_deadline vector
  rw [pass, if_pos hmode, interrupt_deadlineLvt hlvt]
  simp only [ne_eq, hset, not_false_eq_true, true_and]

theorem pass_count (hlvt : d.lvt = oneshotLvt vector) (hset : 0 < d.count) (tsc : U64) (ticks : ℕ) :
    d.pass tsc ticks =
      if d.count ≤ ticks then ({ d with count := 0 }, some vector) else ({ d with count := d.count - ticks }, none) := by
  have hmode : ¬d.deadlineMode = true := by
    rw [deadlineMode, hlvt, oneshotLvt_deadline]
    decide
  rw [pass, if_neg hmode, interrupt_oneshotLvt hlvt]
  simp only [hset, true_and]

end LapicTimer

namespace TimerMachine

open LapicTimer

variable {m m' : TimerMachine} {hw : TimerHw} {vector : BitVec 8}

theorem lapicTimerStop_vars (m : TimerMachine) : m.lapicTimerStop.vars = m.vars.lapicTimerStop := by
  unfold lapicTimerStop TimerState.lapicTimerStop
  split_ifs
  · rfl
  · rfl

theorem timerStop_vars (m : TimerMachine) : m.timerStop.vars = m.vars.timerStop := by
  unfold timerStop TimerState.timerStop
  cases hsrc : m.vars.gSrc with
  | none => rfl
  | tscDeadline =>
    dsimp only
    rw [lapicTimerStop_vars, ← hsrc]
    rfl
  | lapic => exact lapicTimerStop_vars _

theorem timerOneshotNs_vars (m : TimerMachine) (tsc ns : U64) :
    (m.timerOneshotNs tsc ns).vars = m.vars.timerOneshotNs tsc ns := by
  unfold timerOneshotNs TimerState.timerOneshotNs
  split_ifs
  · rfl
  · cases m.vars.gSrc with
    | none => rfl
    | tscDeadline => rfl
    | lapic =>
      dsimp only
      unfold lapicTimerOneshot TimerState.lapicTimerOneshot
      by_cases hready : m.vars.gLapicBase = 0 ∨ m.vars.gTimerVector = 0
      · rw [if_pos hready, if_pos hready]
      · rw [if_neg hready, if_neg hready]
        rfl

theorem lapicTimerCalibrateTsc_vars (hw : TimerHw) (m : TimerMachine) (tscHz : U64) (us : BitVec 32) :
    ((m.lapicTimerCalibrateTsc hw tscHz us).1.vars, (m.lapicTimerCalibrateTsc hw tscHz us).2) =
      m.vars.lapicTimerCalibrateTsc hw tscHz us := by
  unfold lapicTimerCalibrateTsc TimerState.lapicTimerCalibrateTsc
  split_ifs
  · rfl
  · exact Prod.ext (lapicTimerStop_vars _) rfl

theorem timerInit_vars (hw : TimerHw) (m : TimerMachine) (vector : BitVec 8) :
    ((m.timerInit hw vector).1.vars, (m.timerInit hw vector).2) = m.vars.timerInit hw vector := by
  unfold timerInit TimerState.timerInit
  dsimp only
  generalize { m.vars with gVector := vector }.lapicInit hw = s
  by_cases hinv : ¬hw.hasInvariantTsc
  · rw [if_pos hinv, if_pos hinv]
  rw [if_neg hinv, if_neg hinv]
  by_cases hzero : hw.tscHz = 0
  · rw [if_pos hzero, if_pos hzero]
  rw [if_neg hzero, if_neg hzero]
  by_cases hdeadline : hw.hasTscDeadline
  · rw [if_pos hdeadline, if_pos hdeadline]
    exact Prod.ext (timerStop_vars _) rfl
  · have hcalibrated := lapicTimerCalibrateTsc_vars hw (lapicTimerSetOneshot { m with vars := s } vector) hw.tscHz
      timerCalUs
    have hset : (lapicTimerSetOneshot { m with vars := s } vector).vars = s.lapicTimerSetOneshot vector := rfl
    rw [hset] at hcalibrated
    rw [if_neg hdeadline, if_neg hdeadline, ← hcalibrated]
    dsimp only
    split_ifs
    · rfl
    · exact Prod.ext (timerStop_vars _) rfl

end TimerMachine

def TimerState.alarmTicks (s : TimerState) (ns : U64) : ℕ :=
  let ticks := max 1 (s.ticksFromNs ns).toNat
  if s.gSrc = .lapic then min ticks 0xffffffff else ticks

namespace TimerMachine

open LapicTimer

variable {m : TimerMachine} {s : TimerState} {hw : TimerHw} {vector : BitVec 8} {tsc : U64} {left : Option ℕ}

def Event.alarm (s : TimerState) : Event → Alarm.Event
  | .oneshot ns => .set (s.alarmTicks ns)
  | .stop => .cancel
  | .pass cycles ticks => .pass (if s.gSrc = .lapic then ticks else cycles)

def Event.after (tsc : U64) : Event → U64
  | .oneshot _ | .stop => tsc
  | .pass cycles _ => tsc + BitVec.ofNat 64 cycles

/-- The TSC does not come round to 0, nor does a deadline lie beyond its end. -/
def Fits (s : TimerState) : U64 → List Event → Prop
  | _, [] => True
  | tsc, e :: es => (match e with
      | .oneshot ns => s.gSrc = .tscDeadline → tsc.toNat + s.alarmTicks ns < 2 ^ 64
      | .stop => True
      | .pass cycles _ => tsc.toNat + cycles < 2 ^ 64) ∧ Fits s (e.after tsc) es

structure Ready (vector : BitVec 8) (s : TimerState) : Prop where
  base : s.gLapicBase ≠ 0
  gVector : s.gVector = vector
  gTimerVector : s.gTimerVector = vector
  tickNum : s.gTickNum ≠ 0
  scale : s.gScale ≠ 0
  src : s.gSrc ≠ .none

def Shows (vector : BitVec 8) (m : TimerMachine) (tsc : U64) : Option ℕ → Prop
  | none => if m.device.deadlineMode then m.device.deadline = 0 else m.device.count = 0
  | some left => 0 < left ∧
    if m.vars.gSrc = .lapic then m.device.lvt = oneshotLvt vector ∧ m.device.count = left
    else m.device.lvt = deadlineLvt vector ∧ m.device.deadline.toNat = tsc.toNat + left

def SameVars (s s' : TimerState) : Prop := ∃ lapic tscDeadline, s' = { s with lapic, tscDeadline }

theorem SameVars.trans {s' s'' : TimerState} (h : SameVars s s') (h' : SameVars s' s'') : SameVars s s'' := by
  obtain ⟨lapic, tscDeadline, rfl⟩ := h
  obtain ⟨lapic', tscDeadline', rfl⟩ := h'
  exact ⟨lapic', tscDeadline', rfl⟩

theorem Ready.same {s' : TimerState} (h : Ready vector s) (hs : SameVars s s') : Ready vector s' := by
  obtain ⟨lapic, tscDeadline, rfl⟩ := hs
  exact ⟨h.base, h.gVector, h.gTimerVector, h.tickNum, h.scale, h.src⟩

theorem sameVars_lapicWrite (m : TimerMachine) (reg : LapicReg) (val : BitVec 32) :
    SameVars m.vars (m.lapicWrite reg val).vars := by
  unfold lapicWrite TimerState.lapicWrite
  dsimp only
  split_ifs
  · exact ⟨_, _, rfl⟩
  · exact ⟨_, _, rfl⟩

theorem lapicWrite_device (h : m.vars.gLapicBase ≠ 0) (reg : LapicReg) (val : BitVec 32) :
    (m.lapicWrite reg val).device = m.device.write reg val := if_neg h

theorem lapicWrite_base (m : TimerMachine) (reg : LapicReg) (val : BitVec 32) :
    (m.lapicWrite reg val).vars.gLapicBase = m.vars.gLapicBase := TimerState.lapicWrite_gLapicBase _ _ _

theorem lapicTimerStop_spec (hbase : m.vars.gLapicBase ≠ 0) (hvector : m.vars.gTimerVector ≠ 0) (tsc : U64) :
    SameVars m.vars m.lapicTimerStop.vars ∧ Shows vector m.lapicTimerStop tsc none := by
  rw [lapicTimerStop, if_neg (not_or.mpr ⟨hbase, hvector⟩)]
  dsimp only
  constructor
  · exact (sameVars_lapicWrite _ _ _).trans (sameVars_lapicWrite _ _ _)
  · obtain ⟨deadline, hdevice⟩ := m.device.setCount (stoppedLvt_deadline m.vars.gTimerVector) 0
    rw [Shows, lapicWrite_device (by rwa [lapicWrite_base]), lapicWrite_device hbase]
    change if ((m.device.write .lvtTimer (stoppedLvt _)).write .tmrInitcnt 0).deadlineMode then _ else _
    rw [show m.vars.gTimerVector.setWidth 32 ||| lapicLvtMask = stoppedLvt m.vars.gTimerVector from rfl, hdevice]
    rw [if_neg]
    · rfl
    · rw [deadlineMode, stoppedLvt_deadline]
      decide

theorem timerStop_spec (h : Ready vector m.vars) (hvector : vector ≠ 0) (tsc : U64) :
    SameVars m.vars m.timerStop.vars ∧ Shows vector m.timerStop tsc none := by
  have hready : m.vars.gTimerVector ≠ 0 := by rwa [h.gTimerVector]
  unfold timerStop
  cases hsrc : m.vars.gSrc with
  | none => exact absurd hsrc h.src
  | tscDeadline =>
    have hbase : (m.wrmsrTscDeadline 0).vars.gLapicBase ≠ 0 := h.base
    obtain ⟨hsame, hshows⟩ := lapicTimerStop_spec hbase hready tsc
    have hfirst : SameVars m.vars (m.wrmsrTscDeadline 0).vars := ⟨m.vars.lapic, 0, rfl⟩
    exact ⟨hfirst.trans hsame, hshows⟩
  | lapic => exact lapicTimerStop_spec h.base hready tsc

theorem lapicTimerSetTscDeadline_spec (hbase : m.vars.gLapicBase ≠ 0) (hvector : m.vars.gTimerVector = vector) :
    SameVars m.vars (m.lapicTimerSetTscDeadline vector).vars ∧ ∀ deadline, ∃ count,
      (m.lapicTimerSetTscDeadline vector).device.writeDeadline deadline = ⟨deadlineLvt vector, count, deadline⟩ := by
  subst hvector
  unfold lapicTimerSetTscDeadline
  dsimp only
  constructor
  · exact ((sameVars_lapicWrite _ _ _).trans (sameVars_lapicWrite _ _ _)).trans (sameVars_lapicWrite _ _ _)
  · intro deadline
    rw [lapicWrite_device, lapicWrite_device, lapicWrite_device]
    · exact m.device.setDeadline m.vars.gTimerVector deadline
    all_goals
      simp only [lapicWrite_base]
      exact hbase

theorem lapicTimerOneshot_spec (hbase : m.vars.gLapicBase ≠ 0) (hvector : m.vars.gTimerVector ≠ 0) {ticks : BitVec 32}
    (hticks : ticks ≠ 0) : SameVars m.vars (m.lapicTimerOneshot ticks).vars ∧ ∃ deadline,
      (m.lapicTimerOneshot ticks).device = ⟨oneshotLvt m.vars.gTimerVector, ticks.toNat, deadline⟩ := by
  rw [lapicTimerOneshot, if_neg (not_or.mpr ⟨hbase, hvector⟩), if_neg hticks]
  dsimp only
  constructor
  · exact (sameVars_lapicWrite _ _ _).trans (sameVars_lapicWrite _ _ _)
  · rw [lapicWrite_device (by rwa [lapicWrite_base]), lapicWrite_device hbase]
    exact m.device.setCount (oneshotLvt_deadline m.vars.gTimerVector) ticks

theorem SameVars.gSrc {s' : TimerState} (h : SameVars s s') : s'.gSrc = s.gSrc := by
  obtain ⟨lapic, tscDeadline, rfl⟩ := h
  rfl

theorem SameVars.alarm {s' : TimerState} (h : SameVars s s') (e : Event) : e.alarm s' = e.alarm s := by
  obtain ⟨lapic, tscDeadline, rfl⟩ := h
  rfl

theorem SameVars.fits {s' : TimerState} (h : SameVars s s') (es : List Event) (hfits : Fits s tsc es) :
    Fits s' tsc es := by
  obtain ⟨lapic, tscDeadline, rfl⟩ := h
  induction es generalizing tsc with
  | nil => trivial
  | cons e es ih => exact ⟨hfits.1, ih hfits.2⟩

theorem alarmTicks_pos (s : TimerState) (ns : U64) : 0 < s.alarmTicks ns := by
  unfold TimerState.alarmTicks
  dsimp only
  split_ifs
  · omega
  · omega

theorem timerOneshotNs_spec (h : Ready vector m.vars) (hvector : vector ≠ 0) (tsc ns : U64)
    (hfits : m.vars.gSrc = .tscDeadline → tsc.toNat + m.vars.alarmTicks ns < 2 ^ 64) :
    SameVars m.vars (m.timerOneshotNs tsc ns).vars ∧
      Shows vector (m.timerOneshotNs tsc ns) tsc (some (m.vars.alarmTicks ns)) := by
  have hticks : (if m.vars.ticksFromNs ns = 0 then 1 else m.vars.ticksFromNs ns : U64).toNat =
      max 1 (m.vars.ticksFromNs ns).toNat := TimerState.ticks_or_one rfl
  have hpos := alarmTicks_pos m.vars ns
  rw [timerOneshotNs, if_neg (not_or.mpr ⟨h.tickNum, h.scale⟩)]
  dsimp only
  generalize (if m.vars.ticksFromNs ns = 0 then 1 else m.vars.ticksFromNs ns : U64) = ticks at hticks
  cases hsrc : m.vars.gSrc with
  | none => exact absurd hsrc h.src
  | tscDeadline =>
    have hcount : m.vars.alarmTicks ns = ticks.toNat := by
      rw [TimerState.alarmTicks, hsrc, hticks]
      rfl
    have hfits := hfits hsrc
    obtain ⟨hsame, hdevice⟩ := lapicTimerSetTscDeadline_spec h.base (h.gTimerVector.trans h.gVector.symm)
    obtain ⟨count, hdevice⟩ := hdevice (tsc + ticks)
    have hwritten : SameVars m.vars
        ((m.lapicTimerSetTscDeadline m.vars.gVector).wrmsrTscDeadline (tsc + ticks)).vars :=
      hsame.trans ⟨_, tsc + ticks, rfl⟩
    refine ⟨hwritten, hpos, ?_⟩
    rw [if_neg (by rw [hwritten.gSrc, hsrc]; decide), wrmsrTscDeadline]
    dsimp only
    rw [hdevice, h.gVector, hcount]
    exact ⟨rfl, BitVec.toNat_add_of_lt (hcount ▸ hfits)⟩
  | lapic =>
    have hcount : (BitVec.setWidth 32 (if 0xffffffff < ticks then 0xffffffff else ticks)).toNat =
        m.vars.alarmTicks ns := by
      rw [TimerState.alarmTicks, if_pos hsrc, ← hticks]
      split_ifs with hbig
      · bv_omega
      · bv_omega
    have hnonzero : BitVec.setWidth 32 (if 0xffffffff < ticks then 0xffffffff else ticks) ≠ 0 := by
      intro hzero
      rw [hzero] at hcount
      exact hpos.ne hcount
    have hvector' : m.vars.gTimerVector ≠ 0 := by rwa [h.gTimerVector]
    obtain ⟨hsame, deadline, hdevice⟩ := lapicTimerOneshot_spec h.base hvector' hnonzero
    refine ⟨hsame, hpos, ?_⟩
    dsimp only
    rw [if_pos (hsame.gSrc.trans hsrc), hdevice, h.gTimerVector]
    exact ⟨rfl, hcount⟩

theorem step_spec (h : Ready vector m.vars) (hvector : vector ≠ 0) (hshows : Shows vector m tsc left) {e : Event}
    {es : List Event} (hfits : Fits m.vars tsc (e :: es)) :
    (m.step tsc e).2 = (if (Alarm.step left (e.alarm m.vars)).2 then some vector else none) ∧
      (m.step tsc e).1.2 = e.after tsc ∧ SameVars m.vars (m.step tsc e).1.1.vars ∧
      Shows vector (m.step tsc e).1.1 (e.after tsc) (Alarm.step left (e.alarm m.vars)).1 := by
  obtain ⟨hfits, -⟩ := hfits
  cases e with
  | oneshot ns =>
    obtain ⟨hsame, hset⟩ := timerOneshotNs_spec h hvector tsc ns hfits
    have hquiet : (Alarm.step left ((Event.oneshot ns).alarm m.vars)) = (some (m.vars.alarmTicks ns), false) := by
      cases left <;> rfl
    rw [hquiet]
    exact ⟨rfl, rfl, hsame, hset⟩
  | stop =>
    obtain ⟨hsame, hstopped⟩ := timerStop_spec h hvector tsc
    have hquiet : (Alarm.step left (Event.stop.alarm m.vars)) = (none, false) := by
      cases left <;> rfl
    rw [hquiet]
    exact ⟨rfl, rfl, hsame, hstopped⟩
  | pass cycles ticks =>
    have hsame : SameVars m.vars m.vars := ⟨_, _, rfl⟩
    have hafter := BitVec.toNat_add_of_lt (x := tsc) (y := BitVec.ofNat 64 cycles) (by
      rw [BitVec.toNat_ofNat]
      omega)
    have hcycles : (BitVec.ofNat 64 cycles).toNat = cycles := by
      rw [BitVec.toNat_ofNat]
      omega
    rw [hcycles] at hafter
    cases left with
    | none =>
      have hpass := pass_quiet hshows (tsc + BitVec.ofNat 64 cycles) ticks
      simp only [step, hpass]
      exact ⟨rfl, rfl, hsame, hshows⟩
    | some left =>
      obtain ⟨hpos, hleft⟩ := hshows
      by_cases hsrc : m.vars.gSrc = .lapic
      · rw [if_pos hsrc] at hleft
        obtain ⟨hlvt, hcount⟩ := hleft
        have hpass := pass_count hlvt (hcount ▸ hpos) (tsc + BitVec.ofNat 64 cycles) ticks
        rw [hcount] at hpass
        simp only [step, hpass, Event.alarm, if_pos hsrc, Alarm.step]
        by_cases hdue : left ≤ ticks
        · simp only [if_pos hdue]
          refine ⟨rfl, rfl, hsame, ?_⟩
          have hmode : ¬m.device.lvt.getLsbD 18 = true := by
            rw [hlvt, oneshotLvt_deadline]
            decide
          exact (if_neg hmode).mpr rfl
        · simp only [if_neg hdue]
          refine ⟨rfl, rfl, hsame, by omega, ?_⟩
          rw [if_pos hsrc]
          exact ⟨hlvt, rfl⟩
      · rw [if_neg hsrc] at hleft
        obtain ⟨hlvt, hdeadline⟩ := hleft
        have hset : m.device.deadline ≠ 0 := by
          intro hzero
          rw [hzero] at hdeadline
          have : (0 : U64).toNat = 0 := rfl
          omega
        have hdue : m.device.deadline ≤ tsc + BitVec.ofNat 64 cycles ↔ left ≤ cycles := by
          rw [BitVec.le_def, hafter, hdeadline]
          omega
        have hpass := pass_deadline hlvt hset (tsc + BitVec.ofNat 64 cycles) ticks
        simp only [hdue] at hpass
        simp only [step, hpass, Event.alarm, if_neg hsrc, Alarm.step]
        by_cases hdue : left ≤ cycles
        · simp only [if_pos hdue]
          refine ⟨rfl, rfl, hsame, ?_⟩
          have hmode : m.device.lvt.getLsbD 18 = true := hlvt ▸ deadlineLvt_deadline vector
          exact (if_pos hmode).mpr rfl
        · simp only [if_neg hdue]
          refine ⟨rfl, rfl, hsame, by omega, ?_⟩
          rw [if_neg hsrc]
          refine ⟨hlvt, ?_⟩
          simp only [Event.after]
          omega

theorem run_alarm (h : Ready vector m.vars) (hvector : vector ≠ 0) (hshows : Shows vector m tsc left) (es : List Event)
    (hfits : Fits m.vars tsc es) : m.run tsc es =
      (Alarm.run left (es.map (Event.alarm m.vars))).map fun rings => if rings then some vector else none := by
  induction es generalizing m tsc left with
  | nil => rfl
  | cons e es ih =>
    obtain ⟨hinterrupt, htsc, hsame, hshows'⟩ := step_spec h hvector hshows hfits
    rw [← htsc] at hshows'
    have hrest := ih (h.same hsame) hshows' (hsame.fits es (htsc ▸ hfits.2))
    have halarms : es.map (Event.alarm (m.step tsc e).1.1.vars) = es.map (Event.alarm m.vars) :=
      List.map_congr_left fun e' _ => hsame.alarm e'
    rw [run, hrest, hinterrupt, halarms]
    rfl

theorem sameVars_lapicTimerStop (m : TimerMachine) : SameVars m.vars m.lapicTimerStop.vars := by
  unfold lapicTimerStop
  split_ifs
  · exact ⟨_, _, rfl⟩
  · exact (sameVars_lapicWrite _ _ _).trans (sameVars_lapicWrite _ _ _)

theorem scale_ne_zero {num : U64} (h : num ≠ 0) : mulU64DivU64 num (1#64 <<< 32) 1000000000 ≠ 0 := by
  intro hzero
  have hscale : (mulU64DivU64 num (1#64 <<< 32) 1000000000).toNat = 0 := congrArg BitVec.toNat hzero
  rw [toNat_mulU64DivU64 _ _ _ (by decide), show (1#64 <<< 32).toNat = 2 ^ 32 from rfl,
    show (1000000000 : U64).toNat = 10 ^ 9 from rfl] at hscale
  have hpos : 0 < num.toNat := by bv_omega
  have hdiv : 0 < num.toNat * 2 ^ 32 / 10 ^ 9 := Nat.div_pos (by omega) (by decide)
  omega

theorem lapicInit_base (hmapped : hw.lapicBase ≠ 0) (s : TimerState) : (s.lapicInit hw).gLapicBase ≠ 0 := by
  unfold TimerState.lapicInit
  split_ifs with hbase
  · exact hmapped
  · exact hbase

theorem lapicInit_gVector (hw : TimerHw) (s : TimerState) : (s.lapicInit hw).gVector = s.gVector := by
  unfold TimerState.lapicInit
  split_ifs
  · rfl
  · rfl

theorem sameVars_setTscDeadline (m : TimerMachine) (vector : BitVec 8) :
    SameVars { m.vars with gTimerVector := vector } (m.lapicTimerSetTscDeadline vector).vars :=
  ((sameVars_lapicWrite _ _ _).trans (sameVars_lapicWrite _ _ _)).trans (sameVars_lapicWrite _ _ _)

theorem sameVars_setOneshot (m : TimerMachine) (vector : BitVec 8) :
    SameVars { m.vars with gTimerVector := vector } (m.lapicTimerSetOneshot vector).vars :=
  ((sameVars_lapicWrite _ _ _).trans (sameVars_lapicWrite _ _ _)).trans (sameVars_lapicWrite _ _ _)

theorem sameVars_calibrateTsc (hw : TimerHw) (m : TimerMachine) (tscHz : U64) (us : BitVec 32) :
    SameVars m.vars (m.lapicTimerCalibrateTsc hw tscHz us).1.vars := by
  unfold lapicTimerCalibrateTsc
  split_ifs
  · exact ⟨_, _, rfl⟩
  · refine SameVars.trans ?_ (sameVars_lapicTimerStop _)
    exact ((sameVars_lapicWrite _ _ _).trans (sameVars_lapicWrite _ _ _)).trans (sameVars_lapicWrite _ _ _)

theorem rate_ne_zero {tpu : BitVec 32} (h : tpu ≠ 0) : tpu.setWidth 64 * 1000 ≠ (0 : U64) := by
  intro hzero
  have hrate : (tpu.setWidth 64 * 1000 : U64).toNat = 0 := congrArg BitVec.toNat hzero
  rw [TimerState.toNat_mul_thousand] at hrate
  have hpos : 0 < tpu.toNat := by bv_omega
  omega

theorem timerInit_ready (hvector : vector ≠ 0) (hmapped : hw.lapicBase ≠ 0) (h : (m.timerInit hw vector).2 = 0)
    (tsc : U64) :
    Ready vector (m.timerInit hw vector).1.vars ∧ Shows vector (m.timerInit hw vector).1 tsc none := by
  have hbase := lapicInit_base hmapped { m.vars with gVector := vector }
  have hgVector := lapicInit_gVector hw { m.vars with gVector := vector }
  unfold timerInit at h ⊢
  dsimp only at h ⊢
  generalize { m.vars with gVector := vector }.lapicInit hw = s at h hbase hgVector ⊢
  have hfail : (-1 : Int) ≠ 0 := by decide
  have hstopped {m' : TimerMachine} (hready : Ready vector m'.vars) :
      Ready vector m'.timerStop.vars ∧ Shows vector m'.timerStop tsc none := by
    obtain ⟨hsame, hshows⟩ := timerStop_spec hready hvector tsc
    exact ⟨hready.same hsame, hshows⟩
  by_cases hinv : ¬hw.hasInvariantTsc
  · rw [if_pos hinv] at h
    exact absurd h hfail
  rw [if_neg hinv] at h ⊢
  by_cases hzero : hw.tscHz = 0
  · rw [if_pos hzero] at h
    exact absurd h hfail
  rw [if_neg hzero] at h ⊢
  by_cases hdeadline : hw.hasTscDeadline
  · rw [if_pos hdeadline]
    apply hstopped
    apply Ready.same _ (sameVars_setTscDeadline _ vector)
    exact ⟨hbase, hgVector, rfl, hzero, scale_ne_zero hzero, by simp [TimerState.timerSetScale]⟩
  · rw [if_neg hdeadline] at h ⊢
    have hsame := (sameVars_setOneshot { m with vars := s } vector).trans
      (sameVars_calibrateTsc hw (lapicTimerSetOneshot { m with vars := s } vector) hw.tscHz timerCalUs)
    generalize (lapicTimerSetOneshot { m with vars := s } vector).lapicTimerCalibrateTsc hw hw.tscHz timerCalUs = r at h hsame ⊢
    by_cases htpu : r.2 = 0
    · rw [if_pos htpu] at h
      exact absurd h hfail
    · rw [if_neg htpu]
      apply hstopped
      obtain ⟨lapic, tscDeadline, hvars⟩ := hsame
      have hnum := rate_ne_zero htpu
      rw [hvars]
      exact ⟨hbase, hgVector, rfl, hnum, scale_ne_zero hnum, by simp [TimerState.timerSetScale]⟩

/-- With either source the driver is an alarm: an interrupt comes when the ticks of the latest one-shot
have passed and no sooner, once, at the vector given to `timer_init`, and never after `timer_stop`. -/
theorem timer_refines_alarm (m : TimerMachine) (hw : TimerHw) (vector : BitVec 8) (hvector : vector ≠ 0)
    (hmapped : hw.lapicBase ≠ 0) (hinit : (m.timerInit hw vector).2 = 0) (tsc : U64) (es : List Event)
    (hfits : Fits (m.timerInit hw vector).1.vars tsc es) :
    (m.timerInit hw vector).1.run tsc es =
      (Alarm.run none (es.map (Event.alarm (m.timerInit hw vector).1.vars))).map fun rings =>
        if rings then some vector else none := by
  obtain ⟨hready, hshows⟩ := timerInit_ready hvector hmapped hinit tsc
  exact run_alarm hready hvector hshows es hfits

theorem timer_refines_alarm_microsecond :
    (timerInit (TimerState.machine (1 <<< 24)) ⟨TimerState.atReset, ⟨0, 0, 0⟩⟩ 0x40).1.run 7
      [.oneshot 1000, .pass 2000 0, .pass 1500 0, .pass 9999 0] = [none, none, some 0x40, none] := by
  have hfits : Fits (timerInit (TimerState.machine (1 <<< 24)) ⟨TimerState.atReset, ⟨0, 0, 0⟩⟩ 0x40).1.vars 7
      [.oneshot 1000, .pass 2000 0, .pass 1500 0, .pass 9999 0] :=
    ⟨fun _ => by decide +kernel, by decide +kernel, by decide +kernel, by decide +kernel, trivial⟩
  rw [timer_refines_alarm ⟨TimerState.atReset, ⟨0, 0, 0⟩⟩ (TimerState.machine (1 <<< 24)) 0x40 (by decide) (by decide)
    (by decide +kernel) 7 _ hfits]
  decide +kernel

end TimerMachine

end Mcincos
