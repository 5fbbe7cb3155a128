import Mathlib

namespace Mcincos.FixedPoint

variable {w : ℕ}

def wideMul (a b : BitVec w) : BitVec (w + w) := a.setWidth (w + w) * b.setWidth (w + w)

def high (p : BitVec (w + w)) : BitVec w := (p >>> w).setWidth w
def low (p : BitVec (w + w)) : BitVec w := p.setWidth w

theorem toNat_wideMul (a b : BitVec w) : (wideMul a b).toNat = a.toNat * b.toNat := by
  have hpow : 2 ^ w ≤ 2 ^ (w + w) := Nat.pow_le_pow_right (by decide) (Nat.le_add_left w w)
  have ha : a.toNat % 2 ^ (w + w) = a.toNat := Nat.mod_eq_of_lt (a.isLt.trans_le hpow)
  have hb : b.toNat % 2 ^ (w + w) = b.toNat := Nat.mod_eq_of_lt (b.isLt.trans_le hpow)
  have hlt : a.toNat * b.toNat < 2 ^ (w + w) := by
    rw [pow_add]
    exact Nat.mul_lt_mul'' a.isLt b.isLt
  rw [wideMul, BitVec.toNat_mul, BitVec.toNat_setWidth, BitVec.toNat_setWidth, ha, hb,
    Nat.mod_eq_of_lt hlt]

theorem toNat_high (p : BitVec (w + w)) : (high p).toNat = p.toNat / 2 ^ w := by
  have hlt : p.toNat / 2 ^ w < 2 ^ w := by
    apply Nat.div_lt_of_lt_mul
    rw [← pow_add]
    exact p.isLt
  rw [high, BitVec.toNat_setWidth, BitVec.toNat_ushiftRight, Nat.shiftRight_eq_div_pow,
    Nat.mod_eq_of_lt hlt]

theorem high_append_low (p : BitVec (w + w)) : high p ++ low p = p := by
  apply BitVec.eq_of_getLsbD_eq
  intro i hi
  rw [BitVec.getLsbD_append, high, low, BitVec.getLsbD_setWidth, BitVec.getLsbD_setWidth,
    BitVec.getLsbD_ushiftRight]
  by_cases hlow : i < w
  · simp [hlow]
  · simp [hlow, show i - w < w by omega, show w + (i - w) = i by omega]

theorem toNat_shift_words (p : BitVec (w + w)) (k : ℕ) (hk : k ≤ w) :
    ((high p <<< (w - k)) ||| (low p >>> k)).toNat = p.toNat / 2 ^ k % 2 ^ w := by
  have hhigh (i : ℕ) : (high p).getLsbD i = (decide (i < w) && p.getLsbD (w + i)) := by
    rw [high, BitVec.getLsbD_setWidth, BitVec.getLsbD_ushiftRight]
  have hlow (i : ℕ) : (low p).getLsbD i = (decide (i < w) && p.getLsbD i) := by
    rw [low, BitVec.getLsbD_setWidth]
  apply Nat.eq_of_testBit_eq
  intro i
  rw [Nat.testBit_mod_two_pow, Nat.testBit_div_two_pow, BitVec.testBit_toNat, BitVec.testBit_toNat,
    BitVec.getLsbD_or, BitVec.getLsbD_shiftLeft, BitVec.getLsbD_ushiftRight, hhigh, hlow]
  by_cases hi : i < w
  · by_cases hik : i < w - k
    · simp [hi, hik, show k + i < w by omega, Nat.add_comm]
    · simp [hi, hik, show ¬k + i < w by omega, show i - (w - k) < w by omega,
        show w + (i - (w - k)) = i + k by omega]
  · simp [hi, show ¬k + i < w by omega]

theorem lt_div_add_one (m n : ℕ) : (m : ℚ) / n < (m / n : ℕ) + 1 := by
  rw [← Nat.floor_div_eq_div (K := ℚ)]
  exact Nat.lt_floor_add_one _

theorem scaled_bounds (n d k x : ℕ) (hk : 0 < k) :
    ((x * (n * k / d) / k : ℕ) : ℚ) ≤ x * n / d ∧
      (x * n / d : ℚ) < (x * (n * k / d) / k : ℕ) + x / k + 1 := by
  have hkq : (0 : ℚ) < k := Nat.cast_pos.mpr hk
  have hexact : (x * n / d : ℚ) = x * (n * k / d) / k := by
    field_simp
  have hscale : ((n * k / d : ℕ) : ℚ) ≤ n * k / d := by
    exact_mod_cast Nat.cast_div_le (m := n * k) (n := d)
  have hscale' : (n * k / d : ℚ) < (n * k / d : ℕ) + 1 := by
    exact_mod_cast lt_div_add_one (n * k) d
  constructor
  · calc ((x * (n * k / d) / k : ℕ) : ℚ)
        ≤ (x * (n * k / d : ℕ) : ℕ) / k := Nat.cast_div_le
      _ = x * (n * k / d : ℕ) / k := by push_cast; rfl
      _ ≤ x * (n * k / d) / k := by gcongr
      _ = x * n / d := hexact.symm
  · calc (x * n / d : ℚ)
        = x * (n * k / d) / k := hexact
      _ ≤ x * ((n * k / d : ℕ) + 1) / k := by gcongr
      _ = (x * (n * k / d : ℕ) : ℕ) / k + x / k := by push_cast; ring
      _ < (x * (n * k / d) / k : ℕ) + 1 + x / k := by
        gcongr
        exact lt_div_add_one _ _
      _ = (x * (n * k / d) / k : ℕ) + x / k + 1 := by ring

theorem le_of_rates_agree {a b k cap : ℕ} (ha : 0 < a) (hcap : a ≤ cap) (hk : 0 < k) (hkcap : k ≤ cap)
    (h : ∀ t ≤ cap, min (t * k / a) cap = min (t * k / b) cap) : b ≤ a := by
  have hone : k ≤ a * k / b := by
    calc k = min (a * k / a) cap := by rw [Nat.mul_div_cancel_left k ha, min_eq_left hkcap]
      _ = min (a * k / b) cap := h a hcap
      _ ≤ a * k / b := min_le_left _ _
  have hmul : b * k ≤ a * k := (Nat.mul_le_mul_left b hone).trans (Nat.mul_div_le _ _)
  exact Nat.le_of_mul_le_mul_right hmul hk

theorem eq_of_rates_agree {a b k cap : ℕ} (ha : 0 < a) (hacap : a ≤ cap) (hb : 0 < b) (hbcap : b ≤ cap)
    (hk : 0 < k) (hkcap : k ≤ cap) (h : ∀ t ≤ cap, min (t * k / a) cap = min (t * k / b) cap) :
    a = b :=
  Nat.le_antisymm (le_of_rates_agree hb hbcap hk hkcap fun t ht => (h t ht).symm)
    (le_of_rates_agree ha hacap hk hkcap h)

end Mcincos.FixedPoint
