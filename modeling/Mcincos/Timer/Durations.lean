import Mcincos.Timer.Timer

namespace Mcincos

open FixedPoint

theorem toNat_widen (d : U64) : (d.setWidth 128).toNat = d.toNat := by
  rw [BitVec.toNat_setWidth]
  exact Nat.mod_eq_of_lt (d.isLt.trans (by decide))

theorem toNat_mulU64DivU64 (a b d : U64) (hd : d ≠ 0) :
    (mulU64DivU64 a b d).toNat = min (a.toNat * b.toNat / d.toNat) (2 ^ 64 - 1) := by
  have hpos : 0 < d.toNat := by bv_omega
  have hhigh : d ≤ high (wideMul a b) ↔ 2 ^ 64 ≤ a.toNat * b.toNat / d.toNat := by
    rw [BitVec.le_def, toNat_high, toNat_wideMul, Nat.le_div_iff_mul_le (by decide),
      Nat.le_div_iff_mul_le hpos, Nat.mul_comm]
  have hquot : (wideMul a b / d.setWidth 128).toNat = a.toNat * b.toNat / d.toNat := by
    rw [BitVec.toNat_udiv, toNat_wideMul, toNat_widen]
  rw [mulU64DivU64, if_neg hd]
  by_cases hbig : d ≤ high (wideMul a b)
  · rw [if_pos hbig]
    have := hhigh.mp hbig
    rw [BitVec.toNat_allOnes]
    omega
  · rw [if_neg hbig, BitVec.toNat_setWidth, hquot]
    have := hhigh.not.mp hbig
    omega

theorem lapic_count_iff {ns tpu : ℕ} (htpu : 0 < tpu) :
    |((max 1 (ns * (tpu * 1000 * 2 ^ 32 / 10 ^ 9) / 2 ^ 32) : ℕ) : ℚ) - ns * tpu / 1000| ≤
        (ns : ℚ) / 2 ^ 32 + 1 ↔
      (ns * tpu / 1000 : ℚ) ≤ 2 + ns / 2 ^ 32 := by
  have htpu' : (1 : ℚ) ≤ tpu := by exact_mod_cast htpu
  have hns : (0 : ℚ) ≤ ns := Nat.cast_nonneg ns
  have hle : (ns : ℚ) ≤ ns * tpu := le_mul_of_one_le_right hns htpu'
  have hbounds := (scaled_bounds (tpu * 1000) (10 ^ 9) (2 ^ 32) ns (by decide)).1
  push_cast at hbounds
  generalize hT : ns * (tpu * 1000 * 2 ^ 32 / 10 ^ 9) / 2 ^ 32 = T at hbounds ⊢
  have hthousandth : (T : ℚ) ≤ ns * tpu / 1000 / 1000 := by
    refine hbounds.trans (le_of_eq ?_)
    ring
  obtain hT1 | hT1 := Nat.lt_or_ge 1 T
  · have hT2 : (2 : ℚ) ≤ T := by exact_mod_cast hT1
    rw [max_eq_right hT1.le]
    constructor
    · intro h
      have := (abs_le.mp h).1
      linarith
    · intro h
      linarith
  · rw [max_eq_left hT1]
    constructor
    · intro h
      have := (abs_le.mp h).1
      push_cast at this
      linarith
    · intro h
      rw [abs_le]
      push_cast
      constructor
      · linarith
      · have : (0 : ℚ) ≤ ns * tpu / 1000 := by positivity
        have : (0 : ℚ) ≤ (ns : ℚ) / 2 ^ 32 := by positivity
        linarith

theorem abs_max_one_le {T : ℕ} {x e : ℚ} (hx : 0 ≤ x) (he : 0 ≤ e) (hlow : (T : ℚ) ≤ x) (hhigh : x < T + e + 1) :
    |((max 1 T : ℕ) : ℚ) - x| ≤ e + 1 := by
  have hlower : (T : ℚ) ≤ max 1 (T : ℚ) := le_max_right _ _
  have hupper : max 1 (T : ℚ) ≤ x + 1 := by
    apply max_le
    · linarith
    · linarith
  rw [abs_le, Nat.cast_max, Nat.cast_one]
  constructor
  · linarith
  · linarith

theorem saturated_count_iff {ns hz : ℕ} (hge : 10 ^ 9 * 2 ^ 32 ≤ hz) (hpos : 0 < ns) (hns : ns ≤ 2 ^ 32) :
    |((max 1 (ns * (2 ^ 64 - 1) / 2 ^ 32) : ℕ) : ℚ) - ns * hz / 10 ^ 9| ≤ (ns : ℚ) / 2 ^ 32 + 1 ↔
      hz ≤ 10 ^ 9 * 2 ^ 32 := by
  have hT : ns * (2 ^ 64 - 1) / 2 ^ 32 = ns * 2 ^ 32 - 1 := by omega
  have hTq : ((max 1 (ns * (2 ^ 64 - 1) / 2 ^ 32) : ℕ) : ℚ) = ns * 2 ^ 32 - 1 := by
    rw [hT, max_eq_right (by omega), Nat.cast_sub (by omega)]
    push_cast
    rfl
  rw [hTq]
  have hone : (1 : ℚ) ≤ ns := by exact_mod_cast hpos
  have hns' : (0 : ℚ) ≤ (ns : ℚ) / 2 ^ 32 := by positivity
  have hgeq : (10 ^ 9 * 2 ^ 32 : ℚ) ≤ hz := by exact_mod_cast hge
  constructor
  · intro h
    by_contra hlt
    have hlt' : (10 ^ 9 * 2 ^ 32 + 1 : ℚ) ≤ hz := by exact_mod_cast (by omega : 10 ^ 9 * 2 ^ 32 + 1 ≤ hz)
    have := (abs_le.mp h).1
    nlinarith
  · intro h
    have heq : (hz : ℚ) = 10 ^ 9 * 2 ^ 32 := by exact_mod_cast Nat.le_antisymm h hge
    rw [heq, abs_le]
    constructor
    · linarith
    · linarith

theorem tsc_count_iff {ns hz : ℕ}
    (hrange : ns * min (hz * 2 ^ 32 / 10 ^ 9) (2 ^ 64 - 1) < 2 ^ 96) :
    |((max 1 (ns * min (hz * 2 ^ 32 / 10 ^ 9) (2 ^ 64 - 1) / 2 ^ 32) : ℕ) : ℚ) - ns * hz / 10 ^ 9| ≤
        (ns : ℚ) / 2 ^ 32 + 1 ↔
      hz ≤ 10 ^ 9 * 2 ^ 32 ∨ ns = 0 := by
  obtain hsat | hsat := Nat.lt_or_ge (hz * 2 ^ 32 / 10 ^ 9) (2 ^ 64)
  · -- the scale is the exact quotient, rounded down
    rw [min_eq_left (by omega)]
    have hhz : hz ≤ 10 ^ 9 * 2 ^ 32 := by omega
    apply iff_of_true _ (.inl hhz)
    obtain ⟨hlow, hhigh⟩ := scaled_bounds hz (10 ^ 9) (2 ^ 32) ns (by decide)
    rw [Nat.cast_pow, Nat.cast_ofNat] at hlow hhigh
    rw [Nat.cast_pow, Nat.cast_ofNat] at hhigh
    apply abs_max_one_le _ _ hlow hhigh
    · positivity
    · positivity
  · rw [min_eq_right (by omega)] at hrange ⊢
    obtain rfl | hpos := Nat.eq_zero_or_pos ns
    · norm_num
    rw [saturated_count_iff (by omega) hpos (by omega), or_iff_left hpos.ne']

namespace TimerState

variable {s s' : TimerState} {hw : TimerHw} {vector : BitVec 8}

theorem lapicWrite_keeps {β : Type} (field : TimerState → β)
    (h : ∀ (s : TimerState) lapic, field { s with lapic } = field s) (s : TimerState) (reg : LapicReg)
    (val : BitVec 32) : field (s.lapicWrite reg val) = field s := by
  unfold lapicWrite
  split_ifs
  · rfl
  · exact h s _

theorem lapicWrite_lapic (h : s.gLapicBase ≠ 0) (reg : LapicReg) (val : BitVec 32) :
    (s.lapicWrite reg val).lapic = Function.update s.lapic reg val := by
  rw [lapicWrite, if_neg h]

theorem lapicTimerStop_keeps {β : Type} (field : TimerState → β)
    (h : ∀ (s : TimerState) lapic, field { s with lapic } = field s) (s : TimerState) :
    field s.lapicTimerStop = field s := by
  unfold lapicTimerStop
  split_ifs
  · rfl
  · exact (lapicWrite_keeps field h _ _ _).trans (lapicWrite_keeps field h _ _ _)

@[simp] theorem lapicWrite_gSrc (s : TimerState) (reg : LapicReg) (val : BitVec 32) : (s.lapicWrite reg val).gSrc = s.gSrc :=
  lapicWrite_keeps gSrc (fun _ _ => rfl) s reg val

@[simp] theorem lapicWrite_gTickNum (s : TimerState) (reg : LapicReg) (val : BitVec 32) : (s.lapicWrite reg val).gTickNum = s.gTickNum :=
  lapicWrite_keeps gTickNum (fun _ _ => rfl) s reg val

@[simp] theorem lapicWrite_gTickDen (s : TimerState) (reg : LapicReg) (val : BitVec 32) : (s.lapicWrite reg val).gTickDen = s.gTickDen :=
  lapicWrite_keeps gTickDen (fun _ _ => rfl) s reg val

@[simp] theorem lapicWrite_gScale (s : TimerState) (reg : LapicReg) (val : BitVec 32) : (s.lapicWrite reg val).gScale = s.gScale :=
  lapicWrite_keeps gScale (fun _ _ => rfl) s reg val

@[simp] theorem lapicWrite_gLapicBase (s : TimerState) (reg : LapicReg) (val : BitVec 32) : (s.lapicWrite reg val).gLapicBase = s.gLapicBase :=
  lapicWrite_keeps gLapicBase (fun _ _ => rfl) s reg val

@[simp] theorem lapicWrite_gTimerVector (s : TimerState) (reg : LapicReg) (val : BitVec 32) : (s.lapicWrite reg val).gTimerVector = s.gTimerVector :=
  lapicWrite_keeps gTimerVector (fun _ _ => rfl) s reg val

@[simp] theorem lapicTimerStop_gSrc (s : TimerState) : s.lapicTimerStop.gSrc = s.gSrc :=
  lapicTimerStop_keeps gSrc (fun _ _ => rfl) s

@[simp] theorem lapicTimerStop_gTickNum (s : TimerState) : s.lapicTimerStop.gTickNum = s.gTickNum :=
  lapicTimerStop_keeps gTickNum (fun _ _ => rfl) s

@[simp] theorem lapicTimerStop_gTickDen (s : TimerState) : s.lapicTimerStop.gTickDen = s.gTickDen :=
  lapicTimerStop_keeps gTickDen (fun _ _ => rfl) s

@[simp] theorem lapicTimerStop_gScale (s : TimerState) : s.lapicTimerStop.gScale = s.gScale :=
  lapicTimerStop_keeps gScale (fun _ _ => rfl) s

@[simp] theorem lapicTimerStop_gLapicBase (s : TimerState) : s.lapicTimerStop.gLapicBase = s.gLapicBase :=
  lapicTimerStop_keeps gLapicBase (fun _ _ => rfl) s

@[simp] theorem lapicTimerStop_gTimerVector (s : TimerState) : s.lapicTimerStop.gTimerVector = s.gTimerVector :=
  lapicTimerStop_keeps gTimerVector (fun _ _ => rfl) s

theorem toNat_ticksFromNs (s : TimerState) (ns : U64) (hrange : ns.toNat * s.gScale.toNat < 2 ^ 96) :
    (s.ticksFromNs ns).toNat = ns.toNat * s.gScale.toNat / 2 ^ 32 := by
  unfold ticksFromNs
  split_ifs with hzero
  · simp [hzero]
  · rw [toNat_shift_words _ 32 (by decide), toNat_wideMul]
    apply Nat.mod_eq_of_lt
    apply Nat.div_lt_of_lt_mul
    exact hrange

def Rated (hw : TimerHw) (s : TimerState) : Prop :=
  s.gTickDen = 1000000000 ∧ s.gScale = mulU64DivU64 s.gTickNum (1#64 <<< 32) 1000000000 ∧
    hw.tscHz ≠ 0 ∧ s.gSrc = hw.source ∧
    (hw.source = .tscDeadline ∧ s.gTickNum = hw.tscHz ∨
      hw.source = .lapic ∧ hw.lapicRate timerCalUs ≠ 0 ∧
        s.gTickNum = (hw.lapicRate timerCalUs).setWidth 64 * 1000 ∧ s.gLapicBase ≠ 0 ∧
        s.gTimerVector ≠ 0)

theorem timerInit_rated (h : s.timerInit hw vector = (s', 0)) : s'.Rated hw := by
  have hfail : (-1 : Int) ≠ 0 := by decide
  unfold timerInit at h
  dsimp only at h
  generalize { s with gVector := vector }.lapicInit hw = s1 at h
  by_cases hinv : ¬hw.hasInvariantTsc
  · rw [if_pos hinv] at h
    exact absurd (Prod.mk.inj h).2 hfail
  rw [if_neg hinv] at h
  by_cases hzero : hw.tscHz = 0
  · rw [if_pos hzero] at h
    exact absurd (Prod.mk.inj h).2 hfail
  rw [if_neg hzero] at h
  by_cases hdeadline : hw.hasTscDeadline
  · rw [if_pos hdeadline] at h
    obtain ⟨rfl, -⟩ := Prod.mk.inj h
    refine ⟨?_, ?_, hzero, ?_, .inl ⟨if_pos hdeadline, ?_⟩⟩
    all_goals simp [timerStop, lapicTimerSetTscDeadline, timerSetScale, TimerHw.source, hdeadline]
  · rw [if_neg hdeadline] at h
    unfold lapicTimerCalibrateTsc at h
    by_cases hready : (s1.lapicTimerSetOneshot vector).gLapicBase = 0 ∨
        (s1.lapicTimerSetOneshot vector).gTimerVector = 0 ∨ hw.tscHz = 0 ∨ timerCalUs = 0
    · simp only [if_pos hready, ↓reduceIte] at h
      exact absurd (Prod.mk.inj h).2 hfail
    · simp only [if_neg hready] at h
      by_cases htpu : hw.lapicRate timerCalUs = 0
      · rw [if_pos htpu] at h
        exact absurd (Prod.mk.inj h).2 hfail
      · rw [if_neg htpu] at h
        obtain ⟨rfl, -⟩ := Prod.mk.inj h
        obtain ⟨hbase, hvector, -⟩ := not_or.mp hready |>.imp id not_or.mp
        refine ⟨?_, ?_, hzero, ?_, .inr ⟨if_neg hdeadline, htpu, ?_, ?_, ?_⟩⟩
        all_goals simp_all [timerStop, timerSetScale, TimerHw.source]

def programmed (s : TimerState) (tsc : U64) : ℕ :=
  match s.gSrc with
  | .none => 0
  | .tscDeadline => (s.tscDeadline - tsc).toNat
  | .lapic => (s.lapic .tmrInitcnt).toNat

def deviceTicks (hw : TimerHw) (src : TimerSource) (ns : U64) : ℚ :=
  match src with
  | .none => 0
  | .tscDeadline => ns.toNat * hw.tscHz.toNat / 10 ^ 9
  | .lapic => ns.toNat * (hw.lapicRate timerCalUs).toNat / 1000

theorem ticks_or_one {ticks : U64} {n : ℕ} (h : ticks.toNat = n) :
    (if ticks = 0 then 1 else ticks : U64).toNat = max 1 n := by
  have hzero : ticks = 0 ↔ n = 0 := by
    rw [← h]
    bv_omega
  split_ifs with ht
  · rw [hzero.mp ht]
    rfl
  · have := hzero.not.mp ht
    omega

theorem programmed_tscDeadline (hsrc : s.gSrc = .tscDeadline) (hnum : s.gTickNum ≠ 0)
    (hscale : s.gScale ≠ 0) {ns : U64} (hrange : ns.toNat * s.gScale.toNat < 2 ^ 96) (tsc : U64) :
    (s.timerOneshotNs tsc ns).programmed tsc = max 1 (ns.toNat * s.gScale.toNat / 2 ^ 32) := by
  rw [timerOneshotNs, if_neg (not_or.mpr ⟨hnum, hscale⟩), hsrc]
  simp only [programmed, lapicTimerSetTscDeadline, lapicWrite_gSrc, hsrc, BitVec.add_comm tsc,
    BitVec.add_sub_cancel]
  exact ticks_or_one (s.toNat_ticksFromNs ns hrange)

theorem programmed_lapic (hsrc : s.gSrc = .lapic) (hnum : s.gTickNum ≠ 0) (hscale : s.gScale ≠ 0)
    (hbase : s.gLapicBase ≠ 0) (hvector : s.gTimerVector ≠ 0) {ns : U64}
    (hrange : ns.toNat * s.gScale.toNat < 2 ^ 96)
    (hclamp : ns.toNat * s.gScale.toNat / 2 ^ 32 < 2 ^ 32) (tsc : U64) :
    (s.timerOneshotNs tsc ns).programmed tsc = max 1 (ns.toNat * s.gScale.toNat / 2 ^ 32) := by
  rw [timerOneshotNs, if_neg (not_or.mpr ⟨hnum, hscale⟩), hsrc]
  have hticks := ticks_or_one (s.toNat_ticksFromNs ns hrange)
  dsimp only
  generalize (if s.ticksFromNs ns = 0 then 1 else s.ticksFromNs ns : U64) = ticks at hticks
  have hsmall : ¬0xffffffff < ticks := by
    rw [BitVec.lt_def, hticks]
    change ¬2 ^ 32 - 1 < _
    omega
  have hnonzero : ticks.setWidth 32 ≠ 0 := by
    bv_omega
  rw [if_neg hsmall, lapicTimerOneshot, if_neg (not_or.mpr ⟨hbase, hvector⟩), if_neg hnonzero]
  simp only [programmed, lapicWrite_gSrc, hsrc]
  rw [lapicWrite_lapic (by simpa using hbase), Function.update_self, BitVec.toNat_setWidth,
    Nat.mod_eq_of_lt (by bv_omega), hticks]

inductive Step : TimerState → TimerState → Prop
  | oneshot (s : TimerState) (tsc ns : U64) : Step s (s.timerOneshotNs tsc ns)
  | stop (s : TimerState) : Step s s.timerStop

theorem Rated.timerStop (h : s.Rated hw) : s.timerStop.Rated hw := by
  unfold TimerState.timerStop
  cases hsrc : s.gSrc with
  | none => exact h
  | tscDeadline => simpa [Rated, hsrc] using h
  | lapic => simpa [Rated, hsrc] using h

theorem Rated.timerOneshotNs (h : s.Rated hw) (tsc ns : U64) : (s.timerOneshotNs tsc ns).Rated hw := by
  unfold TimerState.timerOneshotNs
  split_ifs with hready
  · exact h
  · cases hsrc : s.gSrc with
    | none => exact h
    | tscDeadline =>
      have hsource : hw.source = .tscDeadline := h.2.2.2.1.symm.trans hsrc
      simpa [Rated, hsrc, hsource, lapicTimerSetTscDeadline] using h
    | lapic =>
      dsimp only
      generalize BitVec.setWidth 32 _ = ticks
      unfold lapicTimerOneshot
      by_cases hbase : s.gLapicBase = 0 ∨ s.gTimerVector = 0
      · rw [if_pos hbase]
        exact h
      · rw [if_neg hbase]
        simpa [Rated, hsrc] using h

theorem Rated.reaches (h : s.Rated hw) (hsteps : Relation.ReflTransGen Step s s') : s'.Rated hw := by
  induction hsteps with
  | refl => exact h
  | tail _ hstep ih =>
    cases hstep with
    | oneshot tsc ns => exact ih.timerOneshotNs tsc ns
    | stop => exact ih.timerStop

/-- The durations that come out right. On the LAPIC's path `timer_init` takes its ticks per
microsecond for ticks per nanosecond over 1000, where they are a thousand times more. -/
def RightRate (hw : TimerHw) (src : TimerSource) (ns : U64) : Prop :=
  match src with
  | .none => False
  | .tscDeadline => hw.tscHz.toNat ≤ 10 ^ 9 * 2 ^ 32 ∨ ns = 0
  | .lapic => deviceTicks hw .lapic ns ≤ 2 + (ns.toNat : ℚ) / 2 ^ 32

theorem toNat_gScale (h : s.Rated hw) :
    s.gScale.toNat = min (s.gTickNum.toNat * 2 ^ 32 / 10 ^ 9) (2 ^ 64 - 1) := by
  have hshift : (1#64 <<< 32).toNat = 2 ^ 32 := by decide
  have hden : (1000000000 : U64).toNat = 10 ^ 9 := by decide
  rw [h.2.1, toNat_mulU64DivU64 _ _ _ (by decide), hshift, hden]

theorem toNat_mul_thousand (tpu : BitVec 32) :
    (tpu.setWidth 64 * 1000 : U64).toNat = tpu.toNat * 1000 := by
  bv_omega

/-- A one-shot lasts as long as it should just when its rate is right. -/
theorem oneshot_durations {s₀ : TimerState} (hinit : s₀.timerInit hw vector = (s, 0))
    (hsteps : Relation.ReflTransGen Step s s') (tsc ns : U64)
    (hrange : ns.toNat * s'.gScale.toNat < 2 ^ 96)
    (hclamp : hw.source = .lapic → ns.toNat * s'.gScale.toNat / 2 ^ 32 < 2 ^ 32) :
    (1 ≤ (s'.timerOneshotNs tsc ns).programmed tsc ∧
      |((s'.timerOneshotNs tsc ns).programmed tsc : ℚ) - deviceTicks hw hw.source ns| ≤
        (ns.toNat : ℚ) / 2 ^ 32 + 1) ↔ RightRate hw hw.source ns := by
  have hrated := (timerInit_rated hinit).reaches hsteps
  have hscale := toNat_gScale hrated
  obtain ⟨-, -, hhz, hsrc, ⟨hdeadline, hnum⟩ | ⟨hlapic, htpu, hnum, hbase, hvector⟩⟩ := hrated
  · rw [hnum] at hscale
    have hhz' : 0 < hw.tscHz.toNat := by bv_omega
    rw [programmed_tscDeadline (hsrc.trans hdeadline) (hnum ▸ hhz) (by bv_omega) hrange, hdeadline,
      hscale]
    rw [hscale] at hrange
    have hzero : ns = 0 ↔ ns.toNat = 0 := by bv_omega
    have hright : RightRate hw .tscDeadline ns ↔ hw.tscHz.toNat ≤ 10 ^ 9 * 2 ^ 32 ∨ ns.toNat = 0 :=
      or_congr_right hzero
    have hdevice : deviceTicks hw .tscDeadline ns = (ns.toNat : ℚ) * hw.tscHz.toNat / 10 ^ 9 := rfl
    rw [hright, hdevice, ← tsc_count_iff hrange, and_iff_right (Nat.le_max_left 1 _)]
  · rw [hnum, toNat_mul_thousand] at hscale
    have hrate := (hw.lapicRate timerCalUs).isLt
    have htpu' : 0 < (hw.lapicRate timerCalUs).toNat := by bv_omega
    rw [min_eq_left (by omega)] at hscale
    have hnum' : s'.gTickNum ≠ 0 := by
      rw [hnum, ← BitVec.toNat_ne_iff_ne, toNat_mul_thousand]
      exact (Nat.mul_pos htpu' (by decide)).ne'
    have hscale' : s'.gScale ≠ 0 := by
      rw [← BitVec.toNat_ne_iff_ne, hscale]
      exact (Nat.div_pos (by omega) (by decide)).ne'
    rw [programmed_lapic (hsrc.trans hlapic) hnum' hscale' hbase hvector hrange (hclamp hlapic),
      hlapic, hscale]
    have hdevice : deviceTicks hw .lapic ns =
        (ns.toNat : ℚ) * (hw.lapicRate timerCalUs).toNat / 1000 := rfl
    have hright : RightRate hw .lapic ns ↔ deviceTicks hw .lapic ns ≤ 2 + (ns.toNat : ℚ) / 2 ^ 32 :=
      Iff.rfl
    rw [hright, hdevice, ← lapic_count_iff htpu', and_iff_right (Nat.le_max_left 1 _)]

def machine (features : BitVec 32) : TimerHw where
  cpuid leaf _ :=
    if leaf = 0 then ⟨0x16, 0, 0, 0⟩
    else if leaf = 1 then ⟨0, 0, features, 0⟩
    else if leaf = 0x15 then ⟨2, 250, 24000000, 0⟩
    else if leaf = 0x80000000 then ⟨0x80000008, 0, 0, 0⟩
    else ⟨0, 0, 0, 1 <<< 8⟩
  lapicBase := 0xffff8000fee00000
  pitDelta := 0
  currcnt := 0xffffffff - 10000000

def atReset : TimerState := ⟨.none, 0, 0, 1, 0, 0, 0, fun _ => 0, 0⟩

theorem oneshot_durations_tscDeadline :
    1 ≤ (((atReset.timerInit (machine (1 <<< 24)) 0x40).1.timerOneshotNs 7 1000).programmed 7) :=
  ((oneshot_durations (s := (atReset.timerInit (machine (1 <<< 24)) 0x40).1)
    (Prod.ext rfl (by decide)) .refl 7 1000 (by decide) (by decide)).mpr
      (.inl (by decide))).1

theorem lapic_millisecond :
    (atReset.timerInit (machine 0) 0x40).2 = 0 ∧
      1000000 * (atReset.timerInit (machine 0) 0x40).1.gScale.toNat / 2 ^ 32 < 2 ^ 32 ∧
      ¬|((((atReset.timerInit (machine 0) 0x40).1.timerOneshotNs 7 1000000).programmed 7 : ℕ) : ℚ) -
        deviceTicks (machine 0) .lapic 1000000| ≤ (1000000 : ℚ) / 2 ^ 32 + 1 := by
  have hcount : ((atReset.timerInit (machine 0) 0x40).1.timerOneshotNs 7 1000000).programmed 7 = 999 := by
    decide
  have hrate : ((machine 0).lapicRate timerCalUs).toNat = 1000 := by
    decide
  have hns : (1000000 : U64).toNat = 1000000 := by
    decide
  refine ⟨by decide, by decide, ?_⟩
  simp only [deviceTicks, hcount, hrate, hns]
  norm_num [abs_le]

theorem toNat_timerNowNs (hden : s.gTickDen = 1000000000) (hnum : s.gTickNum ≠ 0) (tsc : U64) :
    (s.timerNowNs tsc).toNat = min (tsc.toNat * 10 ^ 9 / s.gTickNum.toNat) (2 ^ 64 - 1) := by
  have hden' : (1000000000 : U64).toNat = 10 ^ 9 := by decide
  rw [timerNowNs, if_neg hnum, toNat_mulU64DivU64 _ _ _ hnum, hden, hden']

/-- The clock goes by the TSC whatever the source, but at the rate of the source. -/
theorem clock_source {s₀ : TimerState} (hinit : s₀.timerInit hw vector = (s, 0))
    (hsteps : Relation.ReflTransGen Step s s') :
    (∀ tsc : U64, (s'.timerNowNs tsc).toNat = min (tsc.toNat * 10 ^ 9 / hw.tscHz.toNat) (2 ^ 64 - 1)) ↔
      hw.source = .tscDeadline ∨ hw.tscHz.toNat = 1000 * (hw.lapicRate timerCalUs).toNat := by
  obtain ⟨hden, -, hhz, -, ⟨hdeadline, hnum⟩ | ⟨hlapic, htpu, hnum, -, -⟩⟩ :=
    (timerInit_rated hinit).reaches hsteps
  · refine iff_of_true ?_ (.inl hdeadline)
    intro tsc
    rw [toNat_timerNowNs hden (hnum ▸ hhz), hnum]
  · have hrate : s'.gTickNum.toNat = 1000 * (hw.lapicRate timerCalUs).toNat := by
      rw [hnum, toNat_mul_thousand, Nat.mul_comm]
    have hhz' : 0 < hw.tscHz.toNat := Nat.pos_of_ne_zero (BitVec.toNat_ne_iff_ne.mpr hhz)
    have htpu' : 0 < (hw.lapicRate timerCalUs).toNat := Nat.pos_of_ne_zero (BitVec.toNat_ne_iff_ne.mpr htpu)
    have hnum' : s'.gTickNum ≠ 0 := by
      rw [← BitVec.toNat_ne_iff_ne, hrate]
      exact (Nat.mul_pos (by decide) htpu').ne'
    have hsource : hw.source ≠ .tscDeadline := by
      rw [hlapic]
      decide
    rw [or_iff_right hsource, ← hrate]
    constructor
    · intro h
      apply FixedPoint.eq_of_rates_agree hhz' (Nat.le_sub_one_of_lt hw.tscHz.isLt)
        (hrate ▸ Nat.mul_pos (by decide) htpu') (Nat.le_sub_one_of_lt s'.gTickNum.isLt)
        (by decide : 0 < 10 ^ 9) (by decide)
      intro t ht
      have hof : (BitVec.ofNat 64 t).toNat = t := Nat.mod_eq_of_lt (Nat.lt_of_le_sub_one (by decide) ht)
      have := h (BitVec.ofNat 64 t)
      rw [toNat_timerNowNs hden hnum', hof] at this
      exact this.symm
    · intro h tsc
      rw [toNat_timerNowNs hden hnum', h]

theorem clock_source_tscDeadline :
    (((atReset.timerInit (machine (1 <<< 24)) 0x40).1.timerNowNs 3000000000).toNat) =
      min ((3000000000 : U64).toNat * 10 ^ 9 / (machine (1 <<< 24)).tscHz.toNat) (2 ^ 64 - 1) :=
  (clock_source (s := (atReset.timerInit (machine (1 <<< 24)) 0x40).1)
    (Prod.ext rfl (by decide)) .refl).mpr (.inl (by decide)) 3000000000

theorem lapic_second :
    (atReset.timerInit (machine 0) 0x40).2 = 0 ∧ (machine 0).tscHz = 3000000000 ∧
      (atReset.timerInit (machine 0) 0x40).1.timerNowNs 3000000000 = 3000000000000 ∧
      ¬((atReset.timerInit (machine 0) 0x40).1.timerNowNs 3000000000).toNat =
        min ((3000000000 : U64).toNat * 10 ^ 9 / (machine 0).tscHz.toNat) (2 ^ 64 - 1) := by
  decide

end TimerState

end Mcincos
