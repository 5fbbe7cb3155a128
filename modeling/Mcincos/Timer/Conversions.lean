import Mcincos.Timer.Durations

namespace Mcincos

open FixedPoint

/-- The `div` instruction on `hi:lo`; `none` is the divide error. -/
def x86Div (hi lo d : U64) : Option U64 :=
  let q := (hi ++ lo) / d.setWidth 128
  if d = 0 ∨ (BitVec.allOnes 64).setWidth 128 < q then none else some (q.setWidth 64)

def mulDivInstructions (a b d : U64) : Option U64 :=
  if d = 0 then some 0
  else
    let p := wideMul a b
    if d ≤ high p then some (BitVec.allOnes 64)
    else x86Div (high p) (low p) d

theorem x86Div_of_high_lt {p : BitVec (64 + 64)} {d : U64} (h : high p < d) :
    x86Div (high p) (low p) d = some ((p / d.setWidth 128).setWidth 64) := by
  have hd : d ≠ 0 := by
    rintro rfl
    exact absurd h BitVec.not_lt_zero
  have hquot : (p / d.setWidth 128).toNat < 2 ^ 64 := by
    rw [BitVec.toNat_udiv, toNat_widen]
    rw [BitVec.lt_def, toNat_high] at h
    exact Nat.div_lt_of_lt_mul ((Nat.div_lt_iff_lt_mul (by decide)).mp h)
  have hfits : ¬(BitVec.allOnes 64).setWidth 128 < p / d.setWidth 128 := by
    rw [BitVec.lt_def, toNat_widen, BitVec.toNat_allOnes]
    omega
  rw [x86Div, high_append_low]
  exact if_neg (not_or.mpr ⟨hd, hfits⟩)

theorem mulDivInstructions_eq (a b d : U64) : mulDivInstructions a b d = some (mulU64DivU64 a b d) := by
  unfold mulDivInstructions mulU64DivU64
  dsimp only
  split_ifs with hzero hhigh
  · rfl
  · rfl
  · exact x86Div_of_high_lt (BitVec.not_le.mp hhigh)

theorem mulU64DivU64_le (a a' b d : U64) (h : a ≤ a') :
    mulU64DivU64 a b d ≤ mulU64DivU64 a' b d := by
  by_cases hd : d = 0
  · rw [mulU64DivU64, mulU64DivU64, if_pos hd, if_pos hd]
    exact BitVec.le_refl 0
  · rw [BitVec.le_def, toNat_mulU64DivU64 a b d hd, toNat_mulU64DivU64 a' b d hd]
    apply min_le_min_right
    apply Nat.div_le_div_right
    exact Nat.mul_le_mul_right _ h

/-- The division is never reached with a quotient of more than 64 bits, and the clock never goes back. -/
theorem mul_div_saturates :
    (∀ a b d : U64, ∃ q, mulDivInstructions a b d = some q ∧ q = mulU64DivU64 a b d ∧
      q.toNat = if d = 0 then 0 else min (a.toNat * b.toNat / d.toNat) (2 ^ 64 - 1)) ∧
    ∀ s : TimerState, s.gTickNum ≠ 0 → ∀ t1 t2, t1 ≤ t2 → s.timerNowNs t1 ≤ s.timerNowNs t2 := by
  constructor
  · intro a b d
    refine ⟨_, mulDivInstructions_eq a b d, rfl, ?_⟩
    by_cases hd : d = 0
    · rw [mulU64DivU64, if_pos hd, if_pos hd]
      rfl
    · rw [toNat_mulU64DivU64 a b d hd, if_neg hd]
  · intro s hnum t1 t2 h
    rw [TimerState.timerNowNs, TimerState.timerNowNs, if_neg hnum, if_neg hnum]
    exact mulU64DivU64_le t1 t2 s.gTickDen s.gTickNum h

theorem mul_div_saturates_machine :
    (∃ q, mulDivInstructions (BitVec.allOnes 64) 1000000000 999999999 = some q ∧
      q = mulU64DivU64 (BitVec.allOnes 64) 1000000000 999999999 ∧
      q.toNat = if (999999999 : U64) = 0 then 0 else
        min ((BitVec.allOnes 64).toNat * (1000000000 : U64).toNat / (999999999 : U64).toNat) (2 ^ 64 - 1)) ∧
    (TimerState.atReset.timerInit (TimerState.machine 0) 0x40).1.timerNowNs 18446744073709551 ≤
      (TimerState.atReset.timerInit (TimerState.machine 0) 0x40).1.timerNowNs 18446744073709552 :=
  ⟨mul_div_saturates.1 _ _ _, mul_div_saturates.2 _ (by decide) _ _ (by decide)⟩

namespace TimerState

variable {s s' s₀ : TimerState} {hw : TimerHw} {vector : BitVec 8} {t ns N : U64}

theorem toNat_timerSetScale (s : TimerState) {num den : U64} (hden : den ≠ 0)
    (hfit : num.toNat * 2 ^ 32 / den.toNat < 2 ^ 64) :
    (s.timerSetScale num den).gScale.toNat = num.toNat * 2 ^ 32 / den.toNat := by
  have hshift : (1#64 <<< 32).toNat = 2 ^ 32 := by decide
  rw [timerSetScale, toNat_mulU64DivU64 _ _ _ hden, hshift]
  omega

theorem ticksFromNs_mono (s : TimerState) {ns ns' : U64} (hle : ns' ≤ ns)
    (hrange : ns.toNat * s.gScale.toNat < 2 ^ 96) : s.ticksFromNs ns' ≤ s.ticksFromNs ns := by
  have hproduct := Nat.mul_le_mul_right s.gScale.toNat (BitVec.le_def.mp hle)
  rw [BitVec.le_def, s.toNat_ticksFromNs ns hrange, s.toNat_ticksFromNs ns' (hproduct.trans_lt hrange)]
  exact Nat.div_le_div_right hproduct

structure RoundedDown (ticks ns : ℕ) (x : ℚ) : Prop where
  not_above : (ticks : ℚ) ≤ x
  below : x < ticks + 1 + ns / 2 ^ 32
  whole : ⌊x⌋ - ticks ≤ ⌈(ns : ℚ) / 2 ^ 32⌉

theorem RoundedDown.of_bounds {ticks ns : ℕ} {x : ℚ} (hle : (ticks : ℚ) ≤ x)
    (hlt : x < ticks + 1 + ns / 2 ^ 32) : RoundedDown ticks ns x where
  not_above := hle
  below := hlt
  whole := by
    have hfloor : (⌊x⌋ : ℚ) < ticks + 1 + ⌈(ns : ℚ) / 2 ^ 32⌉ :=
      calc (⌊x⌋ : ℚ) ≤ x := Int.floor_le x
        _ < ticks + 1 + ns / 2 ^ 32 := hlt
        _ ≤ ticks + 1 + ⌈(ns : ℚ) / 2 ^ 32⌉ := by
          gcongr
          exact Int.le_ceil _
    have : ⌊x⌋ < ticks + 1 + ⌈(ns : ℚ) / 2 ^ 32⌉ := by exact_mod_cast hfloor
    omega

theorem conversion_error (s : TimerState) {num den ns : U64} (hden : den ≠ 0)
    (hfit : num.toNat * 2 ^ 32 / den.toNat < 2 ^ 64)
    (hrange : ns.toNat * (s.timerSetScale num den).gScale.toNat < 2 ^ 96) :
    RoundedDown ((s.timerSetScale num den).ticksFromNs ns).toNat ns.toNat
        (ns.toNat * num.toNat / den.toNat) ∧
      ∀ ns' ≤ ns, (s.timerSetScale num den).ticksFromNs ns' ≤ (s.timerSetScale num den).ticksFromNs ns := by
  constructor
  · have hscale := s.toNat_timerSetScale hden hfit
    obtain ⟨hlow, hhigh⟩ := scaled_bounds num.toNat den.toNat (2 ^ 32) ns.toNat (by decide)
    rw [(s.timerSetScale num den).toNat_ticksFromNs ns hrange, hscale]
    apply RoundedDown.of_bounds hlow
    rw [Nat.cast_pow, Nat.cast_ofNat] at hhigh
    linarith
  · exact fun ns' hle => ticksFromNs_mono _ hle hrange

theorem conversion_error_second :
    RoundedDown ((atReset.timerSetScale 3000000001 1000000000).ticksFromNs 1000000000).toNat 1000000000
        (1000000000 * 3000000001 / 1000000000) ∧
      ∀ ns' ≤ 1000000000#64, (atReset.timerSetScale 3000000001 1000000000).ticksFromNs ns' ≤
        (atReset.timerSetScale 3000000001 1000000000).ticksFromNs 1000000000 := by
  have hden : (1000000000 : U64) ≠ 0 := by decide
  have hfit : (3000000001 : U64).toNat * 2 ^ 32 / (1000000000 : U64).toNat < 2 ^ 64 := by decide
  have hrange : (1000000000 : U64).toNat * (atReset.timerSetScale 3000000001 1000000000).gScale.toNat <
      2 ^ 96 := by decide
  exact_mod_cast conversion_error atReset hden hfit hrange

theorem shortfall_above_ceil :
    (3000000001 : U64).toNat * 2 ^ 32 / (1000000000 : U64).toNat < 2 ^ 64 ∧
    (4294967295 : U64).toNat * (atReset.timerSetScale 3000000001 1000000000).gScale.toNat < 2 ^ 96 ∧
    ¬((4294967295 * 3000000001 / 1000000000 : ℚ) -
        ((atReset.timerSetScale 3000000001 1000000000).ticksFromNs 4294967295).toNat ≤
      ⌈(4294967295 : ℚ) / 2 ^ 32⌉) := by
  have hticks : ((atReset.timerSetScale 3000000001 1000000000).ticksFromNs 4294967295).toNat =
      12884901888 := by decide
  have hceil : ⌈(4294967295 : ℚ) / 2 ^ 32⌉ = 1 := by
    rw [Int.ceil_eq_iff]
    norm_num
  refine ⟨by decide, by decide, ?_⟩
  rw [hticks, hceil]
  norm_num

/-- At the reading `t` the delays up to `N` are armed in the future, and in their order. -/
def ArmsAhead (s : TimerState) (t N : U64) : Prop :=
  ∀ ns ≤ N, t < (s.timerOneshotNs t ns).tscDeadline ∧ (s.timerOneshotNs t ns).tscDeadline ≠ 0 ∧
    ∀ ns' ≤ ns, (s.timerOneshotNs t ns').tscDeadline ≤ (s.timerOneshotNs t ns).tscDeadline

def delay (s : TimerState) (ns : ℕ) : ℕ := max 1 (ns * s.gScale.toNat / 2 ^ 32)

theorem delay_mono (s : TimerState) {m n : ℕ} (h : m ≤ n) : s.delay m ≤ s.delay n :=
  max_le_max_left 1 (Nat.div_le_div_right (Nat.mul_le_mul_right _ h))

theorem delay_succ (s : TimerState) (n : ℕ) :
    (n + 1) * s.gScale.toNat / 2 ^ 32 ≤ n * s.gScale.toNat / 2 ^ 32 + 2 ^ 32 := by
  have := s.gScale.isLt
  rw [Nat.add_mul, Nat.one_mul]
  omega

/-- The deadline written, of which both the product and the sum may have wrapped. -/
theorem toNat_tscDeadline (hsrc : s.gSrc = .tscDeadline) (hnum : s.gTickNum ≠ 0) (hscale : s.gScale ≠ 0)
    (t ns : U64) :
    ((s.timerOneshotNs t ns).tscDeadline).toNat =
      (t.toNat + max 1 (ns.toNat * s.gScale.toNat / 2 ^ 32 % 2 ^ 64)) % 2 ^ 64 := by
  have hticks : (s.ticksFromNs ns).toNat = ns.toNat * s.gScale.toNat / 2 ^ 32 % 2 ^ 64 := by
    rw [ticksFromNs, if_neg hscale, toNat_shift_words _ 32 (by decide), toNat_wideMul]
  rw [timerOneshotNs, if_neg (not_or.mpr ⟨hnum, hscale⟩), hsrc]
  dsimp only
  rw [BitVec.toNat_add, ticks_or_one hticks]

theorem wrapped_lt {t e e' : ℕ} (ht : t < 2 ^ 64) (hbefore : t + max 1 e < 2 ^ 64)
    (hcross : 2 ^ 64 ≤ t + max 1 e') (hstep : e' ≤ e + 2 ^ 32) :
    (t + max 1 (e' % 2 ^ 64)) % 2 ^ 64 < t + max 1 e := by
  omega

theorem tscDeadline_exact (hsrc : s.gSrc = .tscDeadline) (hnum : s.gTickNum ≠ 0) (hscale : s.gScale ≠ 0)
    (hfits : t.toNat + s.delay ns.toNat < 2 ^ 64) :
    (s.timerOneshotNs t ns).tscDeadline.toNat = t.toNat + s.delay ns.toNat := by
  rw [toNat_tscDeadline hsrc hnum hscale]
  rw [delay] at hfits ⊢
  omega

theorem armsAhead_of_fits (hsrc : s.gSrc = .tscDeadline) (hnum : s.gTickNum ≠ 0) (hscale : s.gScale ≠ 0)
    (hfits : t.toNat + s.delay N.toNat < 2 ^ 64) : s.ArmsAhead t N := by
  have hexact : ∀ ns ≤ N, (s.timerOneshotNs t ns).tscDeadline.toNat = t.toNat + s.delay ns.toNat := by
    intro ns hns
    apply tscDeadline_exact hsrc hnum hscale
    exact (Nat.add_le_add_left (s.delay_mono (BitVec.le_def.mp hns)) _).trans_lt hfits
  intro ns hns
  have hpos : 1 ≤ s.delay ns.toNat := Nat.le_max_left 1 _
  refine ⟨?_, ?_, ?_⟩
  · rw [BitVec.lt_def, hexact ns hns]
    omega
  · rw [← BitVec.toNat_ne_iff_ne, hexact ns hns]
    exact (Nat.add_pos_right _ hpos).ne'
  · intro ns' hle
    rw [BitVec.le_def, hexact ns hns, hexact ns' (BitVec.le_trans hle hns)]
    exact Nat.add_le_add_left (s.delay_mono (BitVec.le_def.mp hle)) _

theorem ArmsAhead.shortest (h : s.ArmsAhead t N) (hsrc : s.gSrc = .tscDeadline) (hnum : s.gTickNum ≠ 0)
    (hscale : s.gScale ≠ 0) : t.toNat + s.delay 0 < 2 ^ 64 := by
  have hzero : (0 : U64).toNat = 0 := rfl
  have hle : (0 : U64) ≤ N := by
    rw [BitVec.le_def]
    exact Nat.zero_le _
  have hnonzero := (h 0 hle).2.1
  rw [← BitVec.toNat_ne_iff_ne, toNat_tscDeadline hsrc hnum hscale, hzero] at hnonzero
  have := t.isLt
  simp only [delay, Nat.zero_mul, Nat.zero_div] at hnonzero ⊢
  omega

theorem ArmsAhead.longer (h : s.ArmsAhead t N) (hsrc : s.gSrc = .tscDeadline) (hnum : s.gTickNum ≠ 0)
    (hscale : s.gScale ≠ 0) {m : ℕ} (hm : m + 1 ≤ N.toNat) (hfits : t.toNat + s.delay m < 2 ^ 64) :
    t.toNat + s.delay (m + 1) < 2 ^ 64 := by
  by_contra hcross
  have hm' : (BitVec.ofNat 64 m).toNat = m := Nat.mod_eq_of_lt (Nat.lt_of_succ_le hm |>.trans N.isLt)
  have hn' : (BitVec.ofNat 64 (m + 1)).toNat = m + 1 := Nat.mod_eq_of_lt (hm.trans_lt N.isLt)
  have hle : BitVec.ofNat 64 (m + 1) ≤ N := by rwa [BitVec.le_def, hn']
  have hstep : BitVec.ofNat 64 m ≤ BitVec.ofNat 64 (m + 1) := by
    rw [BitVec.le_def, hm', hn']
    exact Nat.le_succ m
  have hmono := (h _ hle).2.2 _ hstep
  rw [BitVec.le_def, tscDeadline_exact hsrc hnum hscale (hm'.symm ▸ hfits),
    toNat_tscDeadline hsrc hnum hscale, hm', hn'] at hmono
  exact not_lt.mpr hmono (wrapped_lt t.isLt hfits (not_lt.mp hcross) (s.delay_succ m))

theorem ArmsAhead.fits (h : s.ArmsAhead t N) (hsrc : s.gSrc = .tscDeadline) (hnum : s.gTickNum ≠ 0)
    (hscale : s.gScale ≠ 0) {n : ℕ} (hn : n ≤ N.toNat) : t.toNat + s.delay n < 2 ^ 64 := by
  induction n with
  | zero => exact h.shortest hsrc hnum hscale
  | succ n ih => exact h.longer hsrc hnum hscale hn (ih (Nat.le_of_succ_le hn))

/-- A one-shot is armed in the future, in the order of the delays, just up to the delay that takes the
64-bit counter past its end. -/
theorem deadline_ahead (hinit : s₀.timerInit hw vector = (s, 0))
    (hsteps : Relation.ReflTransGen Step s s') (hsource : hw.source = .tscDeadline) (t N : U64) :
    s'.ArmsAhead t N ↔
      t.toNat + max 1 (N.toNat * s'.gScale.toNat / 2 ^ 32) < 2 ^ 64 := by
  have hrated := (timerInit_rated hinit).reaches hsteps
  have hscale := toNat_gScale hrated
  obtain ⟨-, -, hhz, hsrc, ⟨-, hnum⟩ | ⟨hlapic, -⟩⟩ := hrated
  · have hhz' : 0 < hw.tscHz.toNat := Nat.pos_of_ne_zero (BitVec.toNat_ne_iff_ne.mpr hhz)
    have hnonzero : s'.gScale ≠ 0 := by
      rw [← BitVec.toNat_ne_iff_ne, hscale, hnum]
      change _ ≠ 0
      omega
    constructor
    · exact fun hahead => hahead.fits (hsrc.trans hsource) (hnum ▸ hhz) hnonzero le_rfl
    · exact armsAhead_of_fits (hsrc.trans hsource) (hnum ▸ hhz) hnonzero
  · exact absurd (hsource.symm.trans hlapic) (by decide)

theorem deadline_ahead_machine :
    (atReset.timerInit (machine (1 <<< 24)) 0x40).1.ArmsAhead 1000 1000000000 :=
  (deadline_ahead (s := (atReset.timerInit (machine (1 <<< 24)) 0x40).1)
    (Prod.ext rfl (by decide)) .refl (by decide) 1000 1000000000).mpr (by decide)

theorem longest_delay_past :
    (atReset.timerInit (machine (1 <<< 24)) 0x40).2 = 0 ∧ (machine (1 <<< 24)).source = .tscDeadline ∧
    ((atReset.timerInit (machine (1 <<< 24)) 0x40).1.timerOneshotNs 1000
      (BitVec.allOnes 64)).tscDeadline = 997 ∧
    ((atReset.timerInit (machine (1 <<< 24)) 0x40).1.timerOneshotNs 3 (BitVec.allOnes 64)).tscDeadline = 0 ∧
    ¬(atReset.timerInit (machine (1 <<< 24)) 0x40).1.ArmsAhead 1000 (BitVec.allOnes 64) := by
  have hpast : ((atReset.timerInit (machine (1 <<< 24)) 0x40).1.timerOneshotNs 1000
      (BitVec.allOnes 64)).tscDeadline = 997 := by decide
  refine ⟨by decide, by decide, hpast, by decide, ?_⟩
  intro hahead
  have hlater := (hahead (BitVec.allOnes 64) (BitVec.le_refl _)).1
  rw [hpast] at hlater
  exact absurd hlater (by decide)

end TimerState

end Mcincos
