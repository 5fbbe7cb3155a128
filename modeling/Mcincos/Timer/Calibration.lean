import Mcincos.Timer.Timer

namespace Mcincos

open FixedPoint

abbrev U16 := BitVec 16

def pitBaseHz : BitVec 32 := 1193182

def clampDiv (div : BitVec 32) : U16 :=
  if div < 1 then 1
  else if 0xffff < div then 0xffff
  else div.setWidth 16

/-- The two bytes of the count that `pit_oneshot_us` writes, the low one first. -/
def pitOneshotUs (us : BitVec 32) : BitVec 8 × BitVec 8 :=
  let div64 := pitBaseHz.setWidth 64 * us.setWidth 64 / 1000000
  let div := clampDiv (div64.setWidth 32)
  ((div &&& 0xff).setWidth 8, (div >>> 8 &&& 0xff).setWidth 8)

/-- The count of the 8254 in mode 0, `k` ticks after the bytes are written: past 0 it goes on
from 0xffff. -/
def pitCount (load : BitVec 8 × BitVec 8) (k : ℕ) : U16 := load.2 ++ load.1 - BitVec.ofNat 16 k

def pitReadCount (count : U16) : U16 :=
  let lo : BitVec 8 := count.setWidth 8
  let hi : BitVec 8 := (count >>> 8).setWidth 8
  lo.setWidth 16 ||| hi.setWidth 16 <<< 8

/-- The loop that waits for the count to be 0, from the poll `i` on; `polls` are the ticks at which the
count is read. -/
def pitWait (load : BitVec 8 × BitVec 8) (polls : ℕ → ℕ) : ℕ → ℕ → Option ℕ
  | 0, _ => none
  | fuel + 1, i =>
    if pitReadCount (pitCount load (polls i)) ≠ 0 then pitWait load polls fuel (i + 1) else some i

def tscHzCalibratePit (start : U64) (tsc : ℕ → U64) (polls : ℕ → ℕ) (fuel : ℕ) (pitUs : BitVec 32) :
    Option U64 :=
  if pitUs = 0 then some 0
  else do
    let i ← pitWait (pitOneshotUs pitUs) polls fuel 0
    return (tsc i - start) * 1000000 / pitUs.setWidth 64

namespace TimerState

/-- `currcnt i` is the LAPIC's count after the loop has ended with the poll `i`. -/
def lapicTimerCalibratePit (s : TimerState) (currcnt : ℕ → BitVec 32) (polls : ℕ → ℕ) (fuel : ℕ)
    (pitUs : BitVec 32) : Option (TimerState × BitVec 32) :=
  if s.gLapicBase = 0 ∨ s.gTimerVector = 0 ∨ pitUs = 0 then some (s, 0)
  else do
    let s := s.lapicWrite .tmrDiv lapicTimerDiv16
    let s := s.lapicWrite .lvtTimer (s.gTimerVector.setWidth 32 ||| lapicLvtMask)
    let load := pitOneshotUs pitUs
    let s := s.lapicWrite .tmrInitcnt 0xffffffff
    let i ← pitWait load polls fuel 0
    let elapsed := 0xffffffff#64 - (currcnt i).setWidth 64
    let tpu := elapsed / pitUs.setWidth 64
    let tpu := if tpu = 0 then 1 else tpu
    return (s.lapicTimerStop, tpu.setWidth 32)

end TimerState

def interval (us : BitVec 32) : ℕ := ((pitOneshotUs us).2 ++ (pitOneshotUs us).1).toNat

theorem pitReadCount_eq (count : U16) : pitReadCount count = count := by
  apply BitVec.eq_of_getLsbD_eq
  intro i hi
  rw [pitReadCount]
  simp only [BitVec.getLsbD_or, BitVec.getLsbD_setWidth, BitVec.getLsbD_shiftLeft, BitVec.getLsbD_ushiftRight]
  by_cases hlow : i < 8
  · simp [hlow, hi]
  · simp [hlow, hi, show i - 8 < 16 by omega, show i - 8 < 8 by omega, show 8 + (i - 8) = i by omega]

theorem clampDiv_bounds (div : BitVec 32) : 1 ≤ (clampDiv div).toNat ∧ (clampDiv div).toNat ≤ 0xffff := by
  unfold clampDiv
  split_ifs with hlow hhigh
  · decide
  · decide
  · bv_omega

theorem setWidth_and_ff (x : U16) : (x &&& 0xff).setWidth 8 = x.setWidth 8 := by
  have hmask : (0xff : U16) = BitVec.ofNat 16 (2 ^ 8 - 1) := rfl
  apply BitVec.eq_of_toNat_eq
  rw [BitVec.toNat_setWidth, BitVec.toNat_setWidth, hmask, Words.toNat_and_low x 8 (by decide), Nat.mod_mod]

theorem interval_bounds (us : BitVec 32) : 1 ≤ interval us ∧ interval us ≤ 0xffff := by
  rw [interval, pitOneshotUs]
  dsimp only
  rw [setWidth_and_ff, setWidth_and_ff]
  have happend := high_append_low (w := 8) (clampDiv ((pitBaseHz.setWidth 64 * us.setWidth 64 / 1000000).setWidth 32))
  rw [high, low] at happend
  rw [happend]
  exact clampDiv_bounds _

theorem pitReadCount_eq_zero (us : BitVec 32) (k : ℕ) :
    pitReadCount (pitCount (pitOneshotUs us) k) = 0 ↔ k ≡ interval us [MOD 2 ^ 16] := by
  have hbounds := interval_bounds us
  rw [pitReadCount_eq, pitCount, sub_eq_zero, ← BitVec.toNat_inj, BitVec.toNat_ofNat, eq_comm]
  change k % 2 ^ 16 = interval us ↔ k % 2 ^ 16 = interval us % 2 ^ 16
  rw [Nat.mod_eq_of_lt (by omega : interval us < 2 ^ 16)]

variable {load : BitVec 8 × BitVec 8} {polls : ℕ → ℕ} {i j n : ℕ}

theorem pitWait_of_running (h : ∀ m < n, pitReadCount (pitCount load (polls (i + m))) ≠ 0) (fuel : ℕ) :
    pitWait load polls (n + fuel) i = pitWait load polls fuel (i + n) := by
  induction n generalizing i with
  | zero => rw [Nat.zero_add, Nat.add_zero]
  | succ n ih =>
    have hfirst : pitReadCount (pitCount load (polls i)) ≠ 0 := h 0 (Nat.succ_pos n)
    rw [Nat.succ_add, pitWait, if_pos hfirst, ih, Nat.add_assoc, Nat.add_comm 1 n]
    intro m hm
    rw [Nat.add_assoc, Nat.add_comm 1 m]
    exact h (m + 1) (Nat.succ_lt_succ hm)

theorem pitWait_eq_some {fuel : ℕ} (h : pitWait load polls fuel i = some j) :
    pitReadCount (pitCount load (polls j)) = 0 := by
  induction fuel generalizing i with
  | zero => exact absurd h (by simp [pitWait])
  | succ fuel ih =>
    rw [pitWait] at h
    by_cases hzero : pitReadCount (pitCount load (polls i)) = 0
    · rw [if_neg (not_not.mpr hzero)] at h
      exact Option.some.inj h ▸ hzero
    · rw [if_pos hzero] at h
      exact ih h

def EndsAt (us : BitVec 32) (polls : ℕ → ℕ) (j : ℕ) : Prop :=
  ∃ fuel, pitWait (pitOneshotUs us) polls fuel 0 = some j

def previousPoll (polls : ℕ → ℕ) : ℕ → ℕ
  | 0 => 0
  | j + 1 => polls j

theorem previousPoll_lt {us : BitVec 32} (hj : IsLeast {i | interval us ≤ polls i} j) :
    previousPoll polls j < interval us := by
  cases j with
  | zero => exact (interval_bounds us).1
  | succ j =>
    rw [previousPoll]
    by_contra hle
    exact absurd (hj.2 (not_lt.mp hle)) (Nat.not_succ_le_self j)

theorem endsAt_iff {us : BitVec 32} (hj : IsLeast {i | interval us ≤ polls i} j) :
    EndsAt us polls j ↔ polls j ≡ interval us [MOD 2 ^ 16] := by
  rw [← pitReadCount_eq_zero]
  constructor
  · rintro ⟨fuel, h⟩
    exact pitWait_eq_some h
  · intro hzero
    refine ⟨j + 1, ?_⟩
    rw [pitWait_of_running, pitWait, Nat.zero_add, if_neg (not_not.mpr hzero)]
    intro m hm
    rw [Nat.zero_add, Ne, pitReadCount_eq_zero]
    have hbounds := interval_bounds us
    have hbefore : polls m < interval us := not_le.mp fun hle => Nat.not_le.mpr hm (hj.2 hle)
    intro hmod
    exact hbefore.ne (hmod.eq_of_lt_of_lt (by omega) (by omega))

theorem EndsAt.tscHz {us : BitVec 32} (h : EndsAt us polls i) (hus : us ≠ 0) (hw : TimerHw) (start : U64)
    (tsc : ℕ → U64) : ∃ fuel, tscHzCalibratePit start tsc polls fuel us =
      some ({ hw with pitDelta := tsc i - start }.tscHzCalibratePit us) := by
  obtain ⟨fuel, hwait⟩ := h
  refine ⟨fuel, ?_⟩
  rw [tscHzCalibratePit, if_neg hus, hwait, TimerHw.tscHzCalibratePit, if_neg hus]
  rfl

theorem EndsAt.lapicRate {us : BitVec 32} (h : EndsAt us polls i) (hus : us ≠ 0) (hw : TimerHw)
    (s : TimerState) (currcnt : ℕ → BitVec 32) (hbase : s.gLapicBase ≠ 0) (hvector : s.gTimerVector ≠ 0) :
    ∃ fuel s', s.lapicTimerCalibratePit currcnt polls fuel us =
      some (s', { hw with currcnt := currcnt i }.lapicRate us) := by
  obtain ⟨fuel, hwait⟩ := h
  have hready : ¬(s.gLapicBase = 0 ∨ s.gTimerVector = 0 ∨ us = 0) :=
    not_or.mpr ⟨hbase, not_or.mpr ⟨hvector, hus⟩⟩
  refine ⟨fuel, ?_⟩
  rw [TimerState.lapicTimerCalibratePit, if_neg hready]
  dsimp only
  rw [hwait]
  exact ⟨_, rfl⟩

/-- The wait ends with the first poll at or after the terminal count just if the count reads 0 again
then; otherwise 0 has been stepped over. -/
theorem pit_wait_ends {us : BitVec 32} (hus : us ≠ 0) (hpolls : StrictMono polls) :
    ∃ j, IsLeast {i | interval us ≤ polls i} j ∧
      (EndsAt us polls j ∧ polls j - interval us < polls j - previousPoll polls j ↔
        polls j ≡ interval us [MOD 2 ^ 16]) ∧
      ∀ i, EndsAt us polls i → ∀ hw : TimerHw,
        (∀ start tsc, ∃ fuel, tscHzCalibratePit start tsc polls fuel us =
          some ({ hw with pitDelta := tsc i - start }.tscHzCalibratePit us)) ∧
        ∀ (s : TimerState) currcnt, s.gLapicBase ≠ 0 → s.gTimerVector ≠ 0 →
          ∃ fuel s', s.lapicTimerCalibratePit currcnt polls fuel us =
            some (s', { hw with currcnt := currcnt i }.lapicRate us) := by
  have hsome : ∃ i, interval us ≤ polls i := ⟨interval us, hpolls.id_le _⟩
  have hj : IsLeast {i | interval us ≤ polls i} (Nat.find hsome) :=
    ⟨Nat.find_spec hsome, fun i hi => Nat.find_min' hsome hi⟩
  refine ⟨Nat.find hsome, hj, ?_, ?_⟩
  · rw [endsAt_iff hj]
    apply and_iff_left
    have hbefore := previousPoll_lt hj
    have hafter : interval us ≤ polls (Nat.find hsome) := hj.1
    omega
  · intro i h hw
    constructor
    · exact h.tscHz hus hw
    · exact h.lapicRate hus hw

theorem interval_10000 : interval timerCalUs = 11931 := by decide

theorem pit_wait_ends_every_tick :
    ∃ j, IsLeast {i | interval timerCalUs ≤ i} j ∧
      (EndsAt timerCalUs id j ∧ j - interval timerCalUs < j - previousPoll id j ↔
        j ≡ interval timerCalUs [MOD 2 ^ 16]) := by
  have hus : timerCalUs ≠ 0 := by decide
  obtain ⟨j, hj, hends, -⟩ := pit_wait_ends hus strictMono_id
  exact ⟨j, hj, hends⟩

theorem every_other_tick_endless :
    StrictMono (fun i => 2 * (i + 1)) ∧
    (∃ j, IsLeast {i | interval timerCalUs ≤ 2 * (i + 1)} j) ∧
    ∀ j, ¬EndsAt timerCalUs (fun i => 2 * (i + 1)) j := by
  refine ⟨fun i j hij => ?_, ⟨5965, ?_, ?_⟩, ?_⟩
  · dsimp only
    omega
  · rw [Set.mem_ofPred_eq, interval_10000]
    decide
  · intro i hi
    rw [Set.mem_ofPred_eq, interval_10000] at hi
    omega
  · rintro j ⟨fuel, hwait⟩
    have hzero := (pitReadCount_eq_zero _ _).mp (pitWait_eq_some hwait)
    rw [interval_10000, Nat.ModEq] at hzero
    omega

end Mcincos
