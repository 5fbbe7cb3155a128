import Mathlib

namespace Mcincos

abbrev U64 := BitVec 64

namespace Words

variable {w : ℕ}

/-- Clearing the low `k` bits, as C writes it with `x & ~(2^k - 1)`. -/
theorem and_not_low (x : BitVec w) (k : ℕ) :
    x &&& ~~~BitVec.ofNat w (2 ^ k - 1) = (x >>> k) <<< k := by
  apply BitVec.eq_of_getLsbD_eq
  intro i hi
  simp only [BitVec.getLsbD_and, BitVec.getLsbD_not, BitVec.getLsbD_ofNat, BitVec.getLsbD_shiftLeft,
    BitVec.getLsbD_ushiftRight, Nat.testBit_two_pow_sub_one, hi, decide_true, Bool.true_and]
  by_cases h : i < k
  · simp [h]
  · simp [h, show k + (i - k) = i by omega]

theorem toNat_and_not_low (x : BitVec w) (k : ℕ) :
    (x &&& ~~~BitVec.ofNat w (2 ^ k - 1)).toNat = x.toNat / 2 ^ k * 2 ^ k := by
  rw [and_not_low, BitVec.toNat_shiftLeft, BitVec.toNat_ushiftRight, Nat.shiftRight_eq_div_pow,
    Nat.shiftLeft_eq]
  apply Nat.mod_eq_of_lt
  exact (Nat.div_mul_le_self _ _).trans_lt x.isLt

theorem toNat_and_low (x : BitVec w) (k : ℕ) (hk : k ≤ w) :
    (x &&& BitVec.ofNat w (2 ^ k - 1)).toNat = x.toNat % 2 ^ k := by
  have hle : 2 ^ k ≤ 2 ^ w := Nat.pow_le_pow_right (by omega) hk
  have hpos : 0 < 2 ^ k := Nat.two_pow_pos k
  rw [BitVec.toNat_and, BitVec.toNat_ofNat, Nat.mod_eq_of_lt (by omega),
    Nat.and_two_pow_sub_one_eq_mod]

theorem getLsbD_one_shift (k i : ℕ) (hk : k < w) : (1#w <<< k).getLsbD i = decide (i = k) := by
  rw [← BitVec.twoPow_eq, BitVec.getLsbD_twoPow]
  simp [hk, eq_comm]

theorem getLsbD_or_one_shift (x : BitVec w) (k i : ℕ) (hk : k < w) :
    (x ||| 1#w <<< k).getLsbD i = (decide (i = k) || x.getLsbD i) := by
  rw [BitVec.getLsbD_or, getLsbD_one_shift k i hk, Bool.or_comm]

theorem getLsbD_and_not_one_shift (x : BitVec w) (k i : ℕ) (hk : k < w) :
    (x &&& ~~~(1#w <<< k)).getLsbD i = (!decide (i = k) && x.getLsbD i) := by
  rw [BitVec.getLsbD_and, BitVec.getLsbD_not, getLsbD_one_shift k i hk]
  by_cases hi : i < w
  · simp [hi, Bool.and_comm]
  · simp [BitVec.getLsbD_of_ge x i (by omega)]

theorem and_one_shift_eq_zero (x : BitVec w) (k : ℕ) (hk : k < w) :
    x &&& 1#w <<< k = 0 ↔ x.getLsbD k = false := by
  constructor
  · intro h
    have hb := congrArg (fun y => y.getLsbD k) h
    simpa [getLsbD_one_shift k k hk] using hb
  · intro h
    apply BitVec.eq_of_getLsbD_eq
    intro i _
    rw [BitVec.getLsbD_and, getLsbD_one_shift k i hk]
    by_cases he : i = k <;> simp [he, h]

theorem shift_back (x : BitVec w) (k : ℕ) (h : 2 ^ k ∣ x.toNat) : (x >>> k) <<< k = x := by
  apply BitVec.eq_of_toNat_eq
  rw [← and_not_low, toNat_and_not_low, Nat.div_mul_cancel h]

theorem getLsbD_of_dvd (x : BitVec w) (k i : ℕ) (h : 2 ^ k ∣ x.toNat) (hi : i < k) :
    x.getLsbD i = false := by
  rw [← shift_back x k h, BitVec.getLsbD_shiftLeft]
  simp [hi]

end Words

end Mcincos
