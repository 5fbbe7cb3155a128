import Mcincos.Timer.Calibration

namespace Mcincos

variable {us us' : BitVec 32}

def clampedTicks (us : ℕ) : ℕ := max 1 (min 0xffff (1193182 * us / 10 ^ 6))

theorem clampedTicks_mono {m n : ℕ} (h : m ≤ n) : clampedTicks m ≤ clampedTicks n := by
  apply max_le_max_left
  apply min_le_min_left
  exact Nat.div_le_div_right (Nat.mul_le_mul_left _ h)

/-- The quotient fits 32 bits, or what is left of it in 32 bits is clamped as it would have been. -/
def QuotientKept (us : BitVec 32) : Prop := us.toNat < 3599591091 ∨ 3599646015 ≤ us.toNat

instance (us : BitVec 32) : Decidable (QuotientKept us) := inferInstanceAs (Decidable (_ ∨ _))

theorem toNat_clampDiv (div : BitVec 32) : (clampDiv div).toNat = max 1 (min 0xffff div.toNat) := by
  unfold clampDiv
  split_ifs with hlow hhigh
  · have hzero : div.toNat = 0 := by bv_omega
    rw [hzero]
    rfl
  · have hlarge : 0xffff < div.toNat := by bv_omega
    rw [min_eq_left hlarge.le]
    rfl
  · have hsmall : div.toNat ≤ 0xffff := by bv_omega
    have hpos : 1 ≤ div.toNat := by bv_omega
    rw [BitVec.toNat_setWidth, min_eq_right hsmall, max_eq_right hpos]
    exact Nat.mod_eq_of_lt (hsmall.trans_lt (by decide))

theorem pitOneshotUs_append (us : BitVec 32) : (pitOneshotUs us).2 ++ (pitOneshotUs us).1 =
    clampDiv ((pitBaseHz.setWidth 64 * us.setWidth 64 / 1000000).setWidth 32) := by
  rw [pitOneshotUs]
  dsimp only
  rw [setWidth_and_ff, setWidth_and_ff]
  exact FixedPoint.high_append_low (w := 8) _

theorem interval_eq (us : BitVec 32) :
    interval us = max 1 (min 0xffff (1193182 * us.toNat / 10 ^ 6 % 2 ^ 32)) := by
  have hlt := us.isLt
  have hbase : (pitBaseHz.setWidth 64).toNat = 1193182 := by decide
  have hus : (us.setWidth 64).toNat = us.toNat := by
    rw [BitVec.toNat_setWidth]
    omega
  have hproduct : 1193182 * us.toNat < 2 ^ 64 := by omega
  have hdiv : (1000000 : U64).toNat = 10 ^ 6 := rfl
  rw [interval, pitOneshotUs_append, toNat_clampDiv, BitVec.toNat_setWidth, BitVec.toNat_udiv,
    BitVec.toNat_mul, hbase, hus, hdiv, Nat.mod_eq_of_lt hproduct]

theorem quotientKept_iff (us : BitVec 32) : 1193182 * us.toNat / 10 ^ 6 < 2 ^ 33 ∧
    (QuotientKept us ↔ 1193182 * us.toNat / 10 ^ 6 < 2 ^ 32 ∨
      2 ^ 32 + 0xffff ≤ 1193182 * us.toNat / 10 ^ 6) := by
  have hlt := us.isLt
  rw [QuotientKept]
  omega

theorem interval_eq_iff (us : BitVec 32) : interval us = clampedTicks us.toNat ↔ QuotientKept us := by
  obtain ⟨hlt, hkept⟩ := quotientKept_iff us
  rw [interval_eq, clampedTicks, hkept]
  generalize 1193182 * us.toNat / 10 ^ 6 = q at hlt
  omega

theorem interval_le (us : BitVec 32) : interval us ≤ clampedTicks us.toNat := by
  rw [interval_eq, clampedTicks]
  apply max_le_max_left
  apply min_le_min_left
  exact Nat.mod_le _ _

def countBytes (count : ℕ) : BitVec 8 × BitVec 8 := (BitVec.ofNat 8 count, BitVec.ofNat 8 (count / 256))

theorem pitOneshotUs_eq_iff (us : BitVec 32) {count : ℕ} (hcount : count < 2 ^ 16) :
    pitOneshotUs us = countBytes count ↔ interval us = count := by
  have hlow := (pitOneshotUs us).1.isLt
  have hhigh := (pitOneshotUs us).2.isLt
  have hinterval : interval us = (pitOneshotUs us).2.toNat * 2 ^ 8 + (pitOneshotUs us).1.toNat := by
    rw [interval, BitVec.toNat_append, ← Nat.shiftLeft_add_eq_or_of_lt hlow, Nat.shiftLeft_eq]
  rw [hinterval, countBytes, Prod.ext_iff, ← BitVec.toNat_inj, ← BitVec.toNat_inj, BitVec.toNat_ofNat,
    BitVec.toNat_ofNat]
  omega

/-- A request gets its ticks just if the quotient keeps its value on the way to the clamp, and just
then no shorter request gets more of them. -/
theorem oneshot_count (us : BitVec 32) :
    (pitOneshotUs us = countBytes (clampedTicks us.toNat) ↔ QuotientKept us) ∧
      ((∀ us' ≤ us, interval us' ≤ interval us) ↔ QuotientKept us) := by
  have hcount : clampedTicks us.toNat < 2 ^ 16 := by
    rw [clampedTicks]
    omega
  constructor
  · rw [pitOneshotUs_eq_iff us hcount, interval_eq_iff]
  · constructor
    · intro h
      by_contra hlost
      have hlonger : 3599591091 ≤ us.toNat := not_lt.mp (not_or.mp hlost).1
      have hsecond : 1000000#32 ≤ us := by
        rw [BitVec.le_def]
        exact (by decide : (1000000#32).toNat ≤ 3599591091).trans hlonger
      -- a second already gets the longest count
      have hlong : interval 1000000 = 0xffff := by decide
      have hle := h 1000000 hsecond
      obtain ⟨hlt, hkept⟩ := quotientKept_iff us
      rw [hlong, interval_eq] at hle
      rw [hkept] at hlost
      generalize 1193182 * us.toNat / 10 ^ 6 = q at hlt hlost hle
      omega
    · intro hkept us' hle
      calc interval us' ≤ clampedTicks us'.toNat := interval_le us'
        _ ≤ clampedTicks us.toNat := clampedTicks_mono (BitVec.le_def.mp hle)
        _ = interval us := ((interval_eq_iff us).mpr hkept).symm

theorem hour_cut_short : pitOneshotUs 3599591200 ≠ countBytes (clampedTicks 3599591200) ∧
    interval 3599591200 < interval 1000 := by
  decide

end Mcincos
