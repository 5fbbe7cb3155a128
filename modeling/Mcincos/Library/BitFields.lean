import Mathlib

namespace Mcincos.BitFields

variable {w u n m s p pos : ℕ} {v : BitVec n} {x : BitVec u}

/-- `v` in the bits of a word from `pos` on, the others zero. -/
def place (w pos : ℕ) (v : BitVec n) : BitVec w := v.setWidth w <<< pos

theorem getLsbD_place (v : BitVec n) (i : ℕ) :
    (place w pos v).getLsbD i = (decide (pos ≤ i ∧ i < w) && v.getLsbD (i - pos)) := by
  rw [place, BitVec.getLsbD_shiftLeft, BitVec.getLsbD_setWidth]
  by_cases hi : i < w
  · by_cases hpos : pos ≤ i
    · simp [hi, hpos, show i - pos < w by omega, show ¬i < pos by omega]
    · simp [hpos, show i < pos by omega]
  · simp [hi]

theorem extract_place_from (hpos : pos ≤ p) (hw : p + m ≤ w) :
    (place w pos v).extractLsb' p m = v.extractLsb' (p - pos) m := by
  apply BitVec.eq_of_getLsbD_eq
  intro i hi
  rw [BitVec.getLsbD_extractLsb', BitVec.getLsbD_extractLsb', getLsbD_place]
  simp [hi, show pos ≤ p + i by omega, show p + i < w by omega, show p + i - pos = p - pos + i by omega]

theorem extract_place (hw : pos + n ≤ w) : (place w pos v).extractLsb' pos n = v := by
  rw [extract_place_from le_rfl hw, Nat.sub_self, BitVec.extractLsb'_eq_self]

theorem extract_place_apart (h : p + m ≤ pos ∨ pos + n ≤ p) : (place w pos v).extractLsb' p m = 0#m := by
  apply BitVec.eq_of_getLsbD_eq
  intro i hi
  rw [BitVec.getLsbD_extractLsb', getLsbD_place, BitVec.getLsbD_zero]
  by_cases hpos : pos ≤ p + i
  · simp [BitVec.getLsbD_of_ge v (p + i - pos) (by omega)]
  · simp [hpos]

theorem setWidth_mask (x : BitVec u) (s n : ℕ) :
    (x >>> s &&& BitVec.ofNat u (2 ^ n - 1)).setWidth w = (x.extractLsb' s n).setWidth w := by
  apply BitVec.eq_of_getLsbD_eq
  intro i _
  rw [BitVec.getLsbD_setWidth, BitVec.getLsbD_and, BitVec.getLsbD_ushiftRight, BitVec.getLsbD_ofNat,
    Nat.testBit_two_pow_sub_one, BitVec.getLsbD_setWidth, BitVec.getLsbD_extractLsb']
  by_cases hu : i < u
  · simp [hu, Bool.and_comm]
  · simp [hu, BitVec.getLsbD_of_ge x (s + i) (by omega)]

theorem extract_mask (x : BitVec u) (s n : ℕ) :
    (x >>> s &&& BitVec.ofNat u (2 ^ n - 1)).setWidth n = x.extractLsb' s n :=
  (setWidth_mask x s n).trans (BitVec.setWidth_eq _)

theorem mask_shift (x : BitVec u) (s n pos : ℕ) :
    (x >>> s &&& BitVec.ofNat u (2 ^ n - 1)).setWidth w <<< pos = place w pos (x.extractLsb' s n) := by
  rw [setWidth_mask, place]

theorem mask_low (x : BitVec u) (n pos : ℕ) :
    (x &&& BitVec.ofNat u (2 ^ n - 1)).setWidth w <<< pos = place w pos (x.extractLsb' 0 n) := by
  rw [← mask_shift, BitVec.ushiftRight_zero]

theorem shift_place (x : BitVec w) (h : s + n = w) : x >>> s = place w 0 (x.extractLsb' s n) := by
  apply BitVec.eq_of_getLsbD_eq
  intro i hi
  rw [BitVec.getLsbD_ushiftRight, getLsbD_place, BitVec.getLsbD_extractLsb']
  by_cases hn : i < n
  · simp [hi, hn]
  · simp [hn, BitVec.getLsbD_of_ge x (s + i) (by omega)]

theorem gather {t : ℕ} (ht : t = s + n) : x.extractLsb' t m ++ x.extractLsb' s n = x.extractLsb' s (m + n) := by
  subst ht
  apply BitVec.eq_of_getLsbD_eq
  intro i hi
  rw [BitVec.getLsbD_append, BitVec.getLsbD_extractLsb', BitVec.getLsbD_extractLsb', BitVec.getLsbD_extractLsb']
  by_cases hlow : i < n
  · simp [hlow, hi]
  · simp [hlow, hi, show i - n < m by omega, show s + n + (i - n) = s + i by omega]

end Mcincos.BitFields
