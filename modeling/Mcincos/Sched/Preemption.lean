import Mcincos.Sched.Registration
import Mcincos.Timer.Alarms
import Mcincos.Timer.Conversions

namespace Mcincos

open Relation

namespace Kernel

variable {T E : Type} [DecidableEq T] [Fintype T] {s s' : Kernel T E} {now now' : U64} {quantum : BitVec 32}

/-- Another thread would be picked at the end of the slice, or an event is queued. -/
def Demand (s : Kernel T E) : Prop := s.gQuantumNs ≠ 0 ∧ s.Contended ∨ s.timerqNextDeadline ≠ 0

omit [DecidableEq T] [Fintype T] in
theorem timerFor_stop (deadline now : U64) : timerFor deadline now = .stop ↔ deadline = 0 := by
  unfold timerFor
  split_ifs with hzero
  · exact iff_of_true rfl hzero
  · exact iff_of_false (by simp) hzero

theorem Rearmed.demand_iff (h : Rearmed s s') : s'.Demand ↔ s.Demand := by
  have hcontended := h.contended_iff
  have hquantum := h.quantumNs_eq
  obtain ⟨gSliceEndNs, timer, rfl⟩ := h
  rw [Demand, hcontended]
  rfl

theorem schedArmTimer_demand (hwrap : ¬Wraps s.gQuantumNs now) (h : s.schedArmTimer now = .ok s') :
    s'.timer = .stop ↔ ¬s'.Demand := by
  rw [(schedArmTimer_rearmed h).demand_iff, Demand]
  by_cases hslice : s.gQuantumNs ≠ 0 ∧ s.Contended
  · obtain ⟨hq, hcontended⟩ := hslice
    have hend : (s.renewSlice now).gSliceEndNs ≠ 0 := by
      intro hzero
      exact hwrap ((renewSlice_eq_zero s hq now).mp hzero).2
    rw [(schedArmTimer_contended hq hcontended h).2, timerFor_stop]
    apply iff_of_false
    · split_ifs with hearlier
      · exact hend
      · exact fun hzero => hearlier (.inl hzero)
    · exact not_not.mpr (.inl ⟨hq, hcontended⟩)
  · have htimer := (schedArmTimer_idle (fun hq hc => hslice ⟨hq, hc⟩) h).1
    rw [htimer, timerFor_stop, or_iff_right hslice, not_not]

omit [DecidableEq T] [Fintype T] in
theorem renewSlice_within (hquantum : s.gQuantumNs ≤ quantum)
    (hslice : s.gSliceEndNs.toNat ≤ now.toNat + quantum.toNat) :
    (s.renewSlice now).gSliceEndNs.toNat ≤ now.toNat + quantum.toNat := by
  unfold renewSlice
  split_ifs
  · have hwidth : (s.gQuantumNs.setWidth 64).toNat = s.gQuantumNs.toNat := BitVec.toNat_setWidth_of_le (by decide)
    have hle : s.gQuantumNs.toNat ≤ quantum.toNat := BitVec.le_def.mp hquantum
    calc
      (now + s.gQuantumNs.setWidth 64).toNat ≤ now.toNat + s.gQuantumNs.toNat := by
        rw [BitVec.toNat_add, hwidth]
        exact Nat.mod_le _ _
      _ ≤ now.toNat + quantum.toNat := Nat.add_le_add_left hle _
  · exact hslice

omit [DecidableEq T] [Fintype T] in
theorem timerFor_within {deadline ns : U64} (hquantum : quantum ≠ 0)
    (hdeadline : deadline.toNat ≤ now.toNat + quantum.toNat) (h : timerFor deadline now = .oneshot ns) :
    ns ≤ quantum.setWidth 64 := by
  have hwidth : (quantum.setWidth 64).toNat = quantum.toNat := BitVec.toNat_setWidth_of_le (by decide)
  have hpos : 0 < quantum.toNat := by bv_omega
  unfold timerFor at h
  split_ifs at h with hzero hlater
  all_goals
    obtain rfl := TimerCommand.oneshot.inj h
    rw [BitVec.le_def, hwidth]
  · bv_omega
  · exact hpos

theorem schedArmTimer_within (hquantum : s.gQuantumNs ≤ quantum)
    (hslice : s.gSliceEndNs.toNat ≤ now.toNat + quantum.toNat) (h : s.schedArmTimer now = .ok s') :
    s'.gSliceEndNs.toNat ≤ now.toNat + quantum.toNat ∧
      (s'.gQuantumNs ≠ 0 → s'.Contended → ∀ ns, s'.timer = .oneshot ns → ns ≤ quantum.setWidth 64) := by
  have hrearmed := schedArmTimer_rearmed h
  rw [hrearmed.quantumNs_eq, hrearmed.contended_iff]
  by_cases hcontended : s.gQuantumNs ≠ 0 ∧ s.Contended
  · obtain ⟨hq, hcontended⟩ := hcontended
    obtain ⟨hend, htimer⟩ := schedArmTimer_contended hq hcontended h
    have hwithin := renewSlice_within hquantum hslice
    refine ⟨hend ▸ hwithin, fun _ _ ns hns => ?_⟩
    rw [htimer] at hns
    apply timerFor_within (by bv_omega) _ hns
    split_ifs with hearlier
    · exact hwithin
    · have hle := BitVec.le_def.mp (BitVec.not_lt.mp fun hlt => hearlier (.inr hlt))
      exact hle.trans hwithin
  · refine ⟨?_, fun hq hc => absurd ⟨hq, hc⟩ hcontended⟩
    obtain hzero | ⟨-, -, hkept⟩ := (schedArmTimer_idle (fun hq hc => hcontended ⟨hq, hc⟩) h).2
    · rw [hzero]
      exact Nat.zero_le _
    · rwa [hkept]

variable [DecidableEq E] {callback : U64 → U64 → Kernel T E → Kernel T E} {c : Entry T} {a : Kernel T E}

def KeepsTurn (callback : U64 → U64 → Kernel T E → Kernel T E) : Prop :=
  ∀ cb arg s, (s.gCurrent ≠ none → (callback cb arg s).gCurrent ≠ none) ∧
    (callback cb arg s).gSliceEndNs = s.gSliceEndNs

omit [DecidableEq T] [Fintype T] in
theorem timerqRunExpired_current {fuel : ℕ} (hcb : KeepsTurn callback) (hcurrent : s.gCurrent ≠ none)
    (h : s.timerqRunExpired callback now fuel = .ok s') : s'.gCurrent ≠ none :=
  timerqRunExpired_invariant (P := fun s => s.gCurrent ≠ none) (fun _ _ _ hs => hs)
    (fun cb arg s => (hcb cb arg s).1) h hcurrent

omit [DecidableEq T] [Fintype T] in
theorem timerqRunExpired_sliceEnd {fuel : ℕ} (hcb : KeepsTurn callback)
    (h : s.timerqRunExpired callback now fuel = .ok s') : s'.gSliceEndNs = s.gSliceEndNs :=
  timerqRunExpired_invariant (P := fun s' => s'.gSliceEndNs = s.gSliceEndNs) (fun _ _ _ hs => hs)
    (fun cb arg s => (hcb cb arg s).2.trans) h rfl

omit [DecidableEq E] in
theorem reschedule_current {frame frame' : IsrFrame} (h : s.reschedule frame = .ok (s', frame')) :
    s'.gCurrent ≠ none := by
  obtain ⟨current, next, hcurrent, -, ⟨-, rfl, -⟩ | ⟨-, rfl, -⟩⟩ := reschedule_cases h
  · exact fun hnone => Option.some_ne_none current (hcurrent.symm.trans hnone)
  · simp

theorem Arms.current (h : Arms callback s c a) (hcb : KeepsTurn callback) (hcurrent : s.gCurrent ≠ none) :
    a.gCurrent ≠ none := by
  cases h with
  | add _ => exact hcurrent
  | start => exact hcurrent
  | setQuantumNs _ => exact hcurrent
  | onTick _ h1 _ => exact timerqRunExpired_current hcb hcurrent h1
  | onSliceEnd _ _ _ _ hres =>
    have hended := reschedule_current hres
    exact hended

theorem Arms.sliceEnd (h : Arms callback s c a) (hcb : KeepsTurn callback) :
    a.gSliceEndNs = 0 ∨ a.gSliceEndNs = s.gSliceEndNs := by
  cases h with
  | add _ => exact .inl rfl
  | start => exact .inr rfl
  | setQuantumNs _ => exact .inr rfl
  | onTick _ h1 _ => exact .inr (timerqRunExpired_sliceEnd hcb h1)
  | onSliceEnd _ _ _ _ _ => exact .inl rfl

theorem enter_current (hcb : KeepsTurn callback) (hcurrent : s.gCurrent ≠ none)
    (h : s.enter callback now' c = .ok s') : s'.gCurrent ≠ none := by
  obtain hidle | ⟨a, harms, harm⟩ := enter_cases h
  · cases c with
    | add t => exact absurd hidle.1 hcurrent
    | start => exact hidle.elim
    | setQuantumNs ns =>
      rw [hidle.2]
      exact hcurrent
    | onTick fuel frame now => exact absurd hidle.1 hcurrent
  · rw [(schedArmTimer_rearmed harm).current_eq]
    exact harms.current hcb hcurrent

theorem enter_demand (hcurrent : s.gCurrent ≠ none) (hwrap : ¬Wraps s'.gQuantumNs now')
    (hquantum : c = .setQuantumNs 0 → s.timerqNextDeadline = 0) (h : s.enter callback now' c = .ok s') :
    s'.timer = .stop ↔ ¬s'.Demand := by
  obtain hidle | ⟨a, -, harm⟩ := enter_cases h
  · cases c with
    | add t => exact absurd hidle.1 hcurrent
    | start => exact hidle.elim
    | onTick fuel frame now => exact absurd hidle.1 hcurrent
    | setQuantumNs ns =>
      obtain ⟨rfl, rfl⟩ := hidle
      apply iff_of_true rfl
      rintro (⟨hq, -⟩ | hevent)
      · exact hq rfl
      · exact hevent (hquantum rfl)
  · rw [(schedArmTimer_rearmed harm).quantumNs_eq] at hwrap
    exact schedArmTimer_demand hwrap harm

theorem enter_within (hcb : KeepsTurn callback) (hcurrent : s.gCurrent ≠ none) (hquantum : s'.gQuantumNs ≤ quantum)
    (hslice : s.gSliceEndNs.toNat ≤ now'.toNat + quantum.toNat) (h : s.enter callback now' c = .ok s') :
    s'.gSliceEndNs.toNat ≤ now'.toNat + quantum.toNat ∧
      (s'.gQuantumNs ≠ 0 → s'.Contended → ∀ ns, s'.timer = .oneshot ns → ns ≤ quantum.setWidth 64) := by
  obtain hidle | ⟨a, harms, harm⟩ := enter_cases h
  · cases c with
    | add t => exact absurd hidle.1 hcurrent
    | start => exact hidle.elim
    | onTick fuel frame now => exact absurd hidle.1 hcurrent
    | setQuantumNs ns =>
      obtain ⟨rfl, rfl⟩ := hidle
      exact ⟨hslice, fun hq => absurd rfl hq⟩
  · rw [(schedArmTimer_rearmed harm).quantumNs_eq] at hquantum
    apply schedArmTimer_within hquantum _ harm
    obtain hzero | hkept := harms.sliceEnd hcb
    · rw [hzero]
      exact Nat.zero_le _
    · rwa [hkept]

end Kernel

def TimerCommand.event : TimerCommand → TimerMachine.Event
  | .stop => .stop
  | .oneshot ns => .oneshot ns

def TimerCommand.ticks (s : TimerState) : TimerCommand → Option ℕ
  | .stop => none
  | .oneshot ns => some (s.alarmTicks ns)

namespace TimerCommand

variable (c : TimerCommand) (s : TimerState)

theorem after_event (tsc : U64) : c.event.after tsc = tsc := by
  cases c with
  | stop => rfl
  | oneshot ns => rfl

theorem step_event (left : Option ℕ) : (Alarm.step left (c.event.alarm s)).1 = c.ticks s := by
  cases c with
  | stop => cases left <;> rfl
  | oneshot ns => cases left <;> rfl

theorem isSome_ticks : (c.ticks s).isSome ↔ c ≠ .stop := by
  cases c with
  | stop => exact iff_of_false (by simp [ticks]) (not_not.mpr rfl)
  | oneshot ns => exact iff_of_true rfl (by simp)

theorem eq_oneshot {n : ℕ} (h : c.ticks s = some n) : ∃ ns, c = .oneshot ns ∧ s.alarmTicks ns = n := by
  cases c with
  | stop => exact absurd h (by simp [ticks])
  | oneshot ns => exact ⟨ns, rfl, Option.some.inj h⟩

end TimerCommand

theorem TimerMachine.SameVars.alarmTicks {s s' : TimerState} (h : TimerMachine.SameVars s s') (ns : U64) :
    s'.alarmTicks ns = s.alarmTicks ns := by
  obtain ⟨lapic, tscDeadline, rfl⟩ := h
  rfl

theorem TimerState.alarmTicks_quantum (s : TimerState) {ns : U64} {quantum : BitVec 32} (h : ns ≤ quantum.setWidth 64) :
    s.alarmTicks ns ≤ s.alarmTicks (quantum.setWidth 64) := by
  have hwidth : (quantum.setWidth 64 : U64).toNat = quantum.toNat := BitVec.toNat_setWidth_of_le (by decide)
  have hrange : (quantum.setWidth 64 : U64).toNat * s.gScale.toNat < 2 ^ 96 := by
    rw [hwidth, show 2 ^ 96 = 2 ^ 32 * 2 ^ 64 from rfl]
    exact Nat.mul_lt_mul'' quantum.isLt s.gScale.isLt
  have hticks := BitVec.le_def.mp (s.ticksFromNs_mono h hrange)
  unfold alarmTicks
  dsimp only
  split_ifs
  · omega
  · omega

/-- `clock` is the latest reading of `timer_now_ns`, and `pending` an interrupt of the timer that
`sched_on_tick` has not been called for yet. -/
structure Preemption (T E : Type) where
  kernel : Kernel T E
  machine : TimerMachine
  clock : U64
  tsc : U64
  pending : Bool

namespace Preemption

open Kernel TimerMachine

variable {T E : Type}

def commanded (s : Preemption T E) (kernel : Kernel T E) (now' : U64) : Preemption T E :=
  { s with kernel, machine := (s.machine.step s.tsc kernel.timer.event).1.1, clock := now' }

def passed (s : Preemption T E) (cycles ticks : ℕ) : Preemption T E :=
  let r := s.machine.step s.tsc (.pass cycles ticks)
  { s with
    machine := r.1.1
    tsc := r.1.2
    pending := s.pending || decide (r.2 = some s.machine.vars.gVector) }

/-- The clock does not run backwards and the TSC does not come to its end; the quantum is at most
`quantum`, no slice ends at 2^64, and the quantum is not set to 0 while an event waits. -/
structure InTime (quantum : BitVec 32) (s : Preemption T E) (c : Entry T) (now' : U64) (kernel : Kernel T E) :
    Prop where
  clock : s.clock ≤ now'
  deadline : ∀ ns, kernel.timer = .oneshot ns → s.machine.vars.gSrc = .tscDeadline →
    s.tsc.toNat + s.machine.vars.alarmTicks ns < 2 ^ 64
  longest : kernel.gQuantumNs ≤ quantum
  slice : ¬Wraps kernel.gQuantumNs now'
  events : c = .setQuantumNs 0 → s.kernel.timerqNextDeadline = 0

variable [DecidableEq T] [Fintype T] [DecidableEq E]

inductive Step (callback : U64 → U64 → Kernel T E → Kernel T E) (quantum : BitVec 32) (s : Preemption T E) :
    Preemption T E → Prop
  | call {c : Entry T} {now' : U64} {kernel : Kernel T E} : (∀ fuel frame now, c ≠ .onTick fuel frame now) →
      s.kernel.enter callback now' c = .ok kernel → s.InTime quantum c now' kernel →
      Step callback quantum s (s.commanded kernel now')
  | tick {fuel : ℕ} {frame : IsrFrame} {now now' : U64} {kernel : Kernel T E} : s.pending = true →
      s.kernel.enter callback now' (.onTick fuel frame now) = .ok kernel →
      s.InTime quantum (.onTick fuel frame now) now' kernel →
      Step callback quantum s { s.commanded kernel now' with pending := false }
  | pass {cycles ticks : ℕ} : s.tsc.toNat + cycles < 2 ^ 64 → Step callback quantum s (s.passed cycles ticks)

def Counting (vector : BitVec 8) (s : Preemption T E) (left : ℕ) : Prop :=
  ∀ cycles ticks, s.tsc.toNat + cycles < 2 ^ 64 →
    ((s.machine.step s.tsc (.pass cycles ticks)).2 = some vector ↔
      left ≤ if s.machine.vars.gSrc = .lapic then ticks else cycles)

def Quiet (s : Preemption T E) : Prop :=
  ∀ cycles ticks, s.tsc.toNat + cycles < 2 ^ 64 → (s.machine.step s.tsc (.pass cycles ticks)).2 = none

structure Inv (timer : TimerState) (vector : BitVec 8) (quantum : BitVec 32) (s : Preemption T E) : Prop where
  current : s.kernel.gCurrent ≠ none
  vars : SameVars timer s.machine.vars
  sliceEnd : s.kernel.gSliceEndNs.toNat ≤ s.clock.toNat + quantum.toNat
  alarm : ∃ left, Shows vector s.machine s.tsc left ∧ (s.kernel.Demand → s.pending = true ∨ left.isSome) ∧
    (left.isSome → s.kernel.Demand) ∧ (s.kernel.gQuantumNs ≠ 0 → s.kernel.Contended →
      ∀ n ∈ left, n ≤ timer.alarmTicks (quantum.setWidth 64))

variable {callback : U64 → U64 → Kernel T E → Kernel T E} {timer : TimerState} {vector : BitVec 8}
  {quantum : BitVec 32} {s s' : Preemption T E}

omit [DecidableEq T] [Fintype T] [DecidableEq E] in
theorem fits_pass {cycles : ℕ} (h : s.tsc.toNat + cycles < 2 ^ 64) (ticks : ℕ) :
    Fits s.machine.vars s.tsc [.pass cycles ticks] := ⟨h, trivial⟩

omit [DecidableEq T] [Fintype T] [DecidableEq E] in
theorem InTime.fits {c : Entry T} {now' : U64} {kernel : Kernel T E} (h : s.InTime quantum c now' kernel) :
    Fits s.machine.vars s.tsc [kernel.timer.event] := by
  refine ⟨?_, trivial⟩
  cases htimer : kernel.timer with
  | stop => trivial
  | oneshot ns => exact h.deadline ns htimer

theorem Inv.commanded {c : Entry T} {now' : U64} {kernel : Kernel T E} (h : s.Inv timer vector quantum)
    (hready : Ready vector timer) (hvector : vector ≠ 0) (hcb : KeepsTurn callback)
    (henter : s.kernel.enter callback now' c = .ok kernel) (htime : s.InTime quantum c now' kernel) (pending : Bool) :
    Inv timer vector quantum { s.commanded kernel now' with pending } := by
  obtain ⟨left, hshows, -⟩ := h.alarm
  obtain ⟨-, -, hsame, hshows'⟩ := step_spec (hready.same h.vars) hvector hshows htime.fits
  rw [kernel.timer.step_event, kernel.timer.after_event] at hshows'
  have hdemand : (kernel.timer.ticks s.machine.vars).isSome ↔ kernel.Demand := by
    rw [kernel.timer.isSome_ticks, Ne, enter_demand h.current htime.slice htime.events henter, not_not]
  have hslice : s.kernel.gSliceEndNs.toNat ≤ now'.toNat + quantum.toNat :=
    h.sliceEnd.trans (Nat.add_le_add_right (BitVec.le_def.mp htime.clock) _)
  obtain ⟨hend, hwithin⟩ := enter_within hcb h.current htime.longest hslice henter
  refine ⟨enter_current hcb h.current henter, h.vars.trans hsame, hend, _, hshows',
    fun hneed => .inr (hdemand.mpr hneed), hdemand.mp, fun hq hcontended n hn => ?_⟩
  obtain ⟨ns, htimer, rfl⟩ := kernel.timer.eq_oneshot _ hn
  rw [h.vars.alarmTicks]
  exact timer.alarmTicks_quantum (hwithin hq hcontended ns htimer)

omit [DecidableEq E] in
theorem Inv.passed {cycles : ℕ} (h : s.Inv timer vector quantum) (hready : Ready vector timer) (hvector : vector ≠ 0)
    (hfits : s.tsc.toNat + cycles < 2 ^ 64) (ticks : ℕ) : (s.passed cycles ticks).Inv timer vector quantum := by
  obtain ⟨left, hshows, hneed, honly, hwithin⟩ := h.alarm
  have hnow := hready.same h.vars
  obtain ⟨hinterrupt, htsc, hsame, hshows'⟩ := step_spec hnow hvector hshows (fits_pass hfits ticks)
  rw [← htsc] at hshows'
  obtain ⟨elapsed, helapsed⟩ : ∃ elapsed, (Event.pass cycles ticks).alarm s.machine.vars = .pass elapsed := ⟨_, rfl⟩
  rw [helapsed] at hinterrupt hshows'
  refine ⟨h.current, h.vars.trans hsame, h.sliceEnd, _, hshows', ?_, ?_, ?_⟩
  · intro hdemand
    obtain hpending | hleft := hneed hdemand
    · left
      simp [Preemption.passed, hpending]
    obtain ⟨left, rfl⟩ := Option.isSome_iff_exists.mp hleft
    by_cases hrings : left ≤ elapsed
    · rw [Alarm.step, if_pos hrings, if_pos rfl] at hinterrupt
      left
      simp [Preemption.passed, hinterrupt, hnow.gVector]
    · rw [Alarm.step, if_neg hrings]
      exact .inr rfl
  · intro hleft
    obtain ⟨n, hn⟩ := Option.isSome_iff_exists.mp hleft
    obtain ⟨left, rfl, -⟩ := Alarm.step_pass hn
    exact honly rfl
  · intro hq hcontended n hn
    obtain ⟨left, rfl, hle⟩ := Alarm.step_pass hn
    exact hle.trans (hwithin hq hcontended left rfl)

theorem Inv.step (h : s.Inv timer vector quantum) (hready : Ready vector timer) (hvector : vector ≠ 0)
    (hcb : KeepsTurn callback) (hstep : Step callback quantum s s') : s'.Inv timer vector quantum := by
  cases hstep with
  | call _ henter htime => exact h.commanded hready hvector hcb henter htime s.pending
  | tick _ henter htime => exact h.commanded hready hvector hcb henter htime false
  | @pass cycles ticks hfits => exact h.passed hready hvector hfits ticks

theorem Inv.run (h : s.Inv timer vector quantum) (hready : Ready vector timer) (hvector : vector ≠ 0)
    (hcb : KeepsTurn callback) (hrun : ReflTransGen (Step callback quantum) s s') :
    s'.Inv timer vector quantum := by
  induction hrun with
  | refl => exact h
  | tail _ hstep ih => exact ih.step hready hvector hcb hstep

omit [DecidableEq E] in
theorem Inv.counting (h : s.Inv timer vector quantum) (hready : Ready vector timer) (hvector : vector ≠ 0)
    (hdemand : s.kernel.Demand) (hpending : s.pending = false) :
    ∃ left, s.Counting vector left ∧ (s.kernel.gQuantumNs ≠ 0 → s.kernel.Contended →
      left ≤ timer.alarmTicks (quantum.setWidth 64)) := by
  obtain ⟨left, hshows, hneed, -, hwithin⟩ := h.alarm
  obtain ⟨left, rfl⟩ := Option.isSome_iff_exists.mp ((hneed hdemand).resolve_left (by simp [hpending]))
  refine ⟨left, fun cycles ticks hfits => ?_, fun hq hcontended => hwithin hq hcontended left rfl⟩
  rw [(step_spec (hready.same h.vars) hvector hshows (fits_pass hfits ticks)).1, Event.alarm, Alarm.step]
  by_cases hrings : left ≤ if s.machine.vars.gSrc = .lapic then ticks else cycles
  · rw [if_pos hrings, if_pos rfl]
    exact iff_of_true rfl hrings
  · rw [if_neg hrings, if_neg (by simp)]
    exact iff_of_false (by simp) hrings

omit [DecidableEq E] in
theorem Inv.quiet (h : s.Inv timer vector quantum) (hready : Ready vector timer) (hvector : vector ≠ 0)
    (hidle : ¬s.kernel.Demand) : s.Quiet := by
  obtain ⟨left, hshows, -, honly, -⟩ := h.alarm
  have hnone : left = none := Option.not_isSome_iff_eq_none.mp fun hleft => hidle (honly hleft)
  subst hnone
  intro cycles ticks hfits
  rw [(step_spec (hready.same h.vars) hvector hshows (fits_pass hfits ticks)).1]
  rfl

/-- From `timer_init` on, while another thread waits for its turn or an event for its time, the interrupt
that leads to `sched_on_tick` has come or is counted down to, for a thread in no more than the longest
quantum; with nothing to wait for the timer is silent. -/
theorem preemption_assured (m : TimerMachine) (hw : TimerHw) (vector : BitVec 8) (hvector : vector ≠ 0)
    (hmapped : hw.lapicBase ≠ 0) (hinit : (m.timerInit hw vector).2 = 0) (kernel : Kernel T E)
    (hcurrent : kernel.gCurrent ≠ none) (hslice : kernel.gSliceEndNs = 0) (hidle : ¬kernel.Demand)
    (callback : U64 → U64 → Kernel T E → Kernel T E) (hcb : KeepsTurn callback) (quantum : BitVec 32)
    (clock tsc : U64) (s : Preemption T E)
    (hrun : ReflTransGen (Step callback quantum) ⟨kernel, (m.timerInit hw vector).1, clock, tsc, false⟩ s) :
    (s.kernel.Demand → s.pending = false → ∃ left, s.Counting vector left ∧
      (s.kernel.gQuantumNs ≠ 0 → s.kernel.Contended →
        left ≤ (m.timerInit hw vector).1.vars.alarmTicks (quantum.setWidth 64))) ∧
    (¬s.kernel.Demand → s.Quiet) := by
  obtain ⟨hready, hshows⟩ := timerInit_ready hvector hmapped hinit tsc
  have hstart : Inv (m.timerInit hw vector).1.vars vector quantum
      ⟨kernel, (m.timerInit hw vector).1, clock, tsc, false⟩ := by
    refine ⟨hcurrent, ⟨_, _, rfl⟩, ?_, none, hshows, fun hdemand => absurd hdemand hidle, nofun, fun _ _ => nofun⟩
    rw [hslice]
    exact Nat.zero_le _
  have hinv := hstart.run hready hvector hcb hrun
  exact ⟨hinv.counting hready hvector, hinv.quiet hready hvector⟩

def bootQueued : Kernel (Fin 3) (Fin 1) :=
  returned (bootKernel.schedInit 0) ((bootKernel.schedInit 0).schedAdd 1 100)

def bootTimer : TimerMachine := (timerInit (TimerState.machine (1 <<< 24)) ⟨TimerState.atReset, ⟨0, 0, 0⟩⟩ 0xf0).1

def bootPreempting : Kernel (Fin 3) (Fin 1) :=
  returned bootQueued (bootQueued.enter (fun _ _ s => s) 200 (.setQuantumNs 5000000))

theorem step_bootPreempting : Step (fun _ _ s => s) 5000000 ⟨bootQueued, bootTimer, 100, 7, false⟩
    (commanded ⟨bootQueued, bootTimer, 100, 7, false⟩ bootPreempting 200) := by
  have henter := ok_returned (d := bootQueued)
    (show (bootQueued.enter (fun _ _ s => s) 200 (.setQuantumNs 5000000)).isOk by decide +kernel)
  refine .call (by simp) henter
    ⟨by decide, ?_, by decide +kernel, fun hwraps => absurd hwraps.2 (by decide +kernel), fun _ => by decide +kernel⟩
  intro ns hns _
  have htimer : bootPreempting.timer = .oneshot 5000000 := by decide +kernel
  obtain rfl := TimerCommand.oneshot.inj (hns.symm.trans htimer)
  decide +kernel

theorem bootPreempting_contended : bootPreempting.Contended :=
  ⟨_, ok_returned (d := 0) (by decide +kernel), by decide +kernel⟩

theorem preemption_assured_bootPreempting :
    ∃ left, Counting 0xf0 (commanded ⟨bootQueued, bootTimer, 100, 7, false⟩ bootPreempting 200) left ∧
      left ≤ bootTimer.vars.alarmTicks 5000000 := by
  have hidle : ¬bootQueued.Demand := by
    rintro (⟨hq, -⟩ | hevent)
    · exact hq (by decide +kernel)
    · exact hevent (by decide +kernel)
  have hq : bootPreempting.gQuantumNs ≠ 0 := by decide +kernel
  obtain ⟨left, hcounting, hwithin⟩ := (preemption_assured ⟨TimerState.atReset, ⟨0, 0, 0⟩⟩
    (TimerState.machine (1 <<< 24)) 0xf0 (by decide) (by decide) (by decide +kernel) bootQueued (by decide +kernel)
    (by decide +kernel) hidle (fun _ _ s => s) (fun _ _ _ => ⟨id, rfl⟩) 5000000 100 7 _
    (.single step_bootPreempting)).1 (.inl ⟨hq, bootPreempting_contended⟩) rfl
  exact ⟨left, hcounting, hwithin hq bootPreempting_contended⟩

end Preemption

end Mcincos
