import Mcincos.Library.Words

namespace Mcincos

def pageSize : U64 := 4096#64

/-- The static variables of pmm.c. `gBitmap` is the pointer and `bytes` what it points to;
a page index is a 64-bit address divided by the page size, hence the bound. -/
@[ext]
structure Pmm where
  gHhdm : U64
  gBitmap : U64
  bytes : List (BitVec 8)
  gTotalBytes : U64
  gFreeBytes : U64
  gTotalPages : ℕ
  sized : bytes.length = (gTotalPages + 7) / 8
  bounded : gTotalPages < 2 ^ 52

namespace Pmm

open Words

def alignDown (x a : U64) : U64 := x &&& ~~~(a - 1)
def alignUp (x a : U64) : U64 := (x + a - 1) &&& ~~~(a - 1)

theorem toNat_alignDown (x : U64) : (alignDown x pageSize).toNat = x.toNat / 4096 * 4096 :=
  toNat_and_not_low x 12

theorem toNat_alignUp (x : U64) (hx : x.toNat ≤ 2 ^ 64 - 4096) :
    (alignUp x pageSize).toNat = (x.toNat + 4095) / 4096 * 4096 := by
  have h := toNat_and_not_low (x + pageSize - 1) 12
  have hs : (x + pageSize - 1).toNat = x.toNat + 4095 := by
    simp only [pageSize]
    bv_omega
  rw [hs] at h
  exact h

theorem alignUp_dvd (x : U64) : 4096 ∣ (alignUp x pageSize).toNat :=
  ⟨_, (toNat_and_not_low (x + pageSize - 1) 12).trans (Nat.mul_comm _ _)⟩

variable (p : Pmm)

def bitmapSet (idx : ℕ) : Pmm :=
  { p with
    bytes := p.bytes.modify (idx >>> 3) (· ||| 1#8 <<< (idx &&& 7))
    sized := by rw [List.length_modify, p.sized] }

def bitmapClear (idx : ℕ) : Pmm :=
  { p with
    bytes := p.bytes.modify (idx >>> 3) (· &&& ~~~(1#8 <<< (idx &&& 7)))
    sized := by rw [List.length_modify, p.sized] }

def bitmapTest (idx : ℕ) : Bool := p.bytes.getD (idx >>> 3) 0 >>> (idx &&& 7) &&& 1#8 != 0

@[simp] theorem bitmapSet_gTotalPages (idx : ℕ) : (p.bitmapSet idx).gTotalPages = p.gTotalPages := rfl
@[simp] theorem bitmapSet_gFreeBytes (idx : ℕ) : (p.bitmapSet idx).gFreeBytes = p.gFreeBytes := rfl
@[simp] theorem bitmapClear_gTotalPages (idx : ℕ) :
    (p.bitmapClear idx).gTotalPages = p.gTotalPages := rfl
@[simp] theorem bitmapClear_gFreeBytes (idx : ℕ) :
    (p.bitmapClear idx).gFreeBytes = p.gFreeBytes := rfl

theorem bitmapTest_eq (i : ℕ) : p.bitmapTest i = (p.bytes.getD (i / 8) 0).getLsbD (i % 8) := by
  have h7 : i &&& 7 = i % 8 := Nat.and_two_pow_sub_one_eq_mod i 3
  have hone (b : BitVec 8) : (b &&& 1#8 != 0) = b.getLsbD 0 := by
    revert b; decide
  rw [bitmapTest, h7, Nat.shiftRight_eq_div_pow, hone, BitVec.getLsbD_ushiftRight, Nat.add_zero]

theorem byte_lt {i : ℕ} (hi : i < p.gTotalPages) : i / 8 < p.bytes.length := by
  have := p.sized; omega

theorem getD_modify_bit {bs : List (BitVec 8)} {f : BitVec 8 → BitVec 8} {i j : ℕ}
    (hi : i / 8 < bs.length) (g : Bool → Bool)
    (hf : ∀ b : BitVec 8, ∀ k, (f b).getLsbD k = if k = i % 8 then g (b.getLsbD k) else b.getLsbD k) :
    ((bs.modify (i / 8) f).getD (j / 8) 0).getLsbD (j % 8) =
      if j = i then g ((bs.getD (j / 8) 0).getLsbD (j % 8)) else (bs.getD (j / 8) 0).getLsbD (j % 8) := by
  simp only [List.getD_eq_getElem?_getD, List.getElem?_modify]
  by_cases hb : i / 8 = j / 8
  · have hj : j / 8 < bs.length := hb ▸ hi
    simp only [hb, List.getElem?_eq_getElem hj, Option.map_eq_map, Option.map_some, ↓reduceIte,
      Option.getD_some, hf]
    by_cases he : j = i
    · simp [he]
    · simp [he, show j % 8 ≠ i % 8 by omega]
  · have he : j ≠ i := fun h => hb (by rw [h])
    simp [hb, he]

theorem bitmapTest_set {i : ℕ} (hi : i < p.gTotalPages) (j : ℕ) :
    (p.bitmapSet i).bitmapTest j = (decide (j = i) || p.bitmapTest j) := by
  have h7 : i &&& 7 = i % 8 := Nat.and_two_pow_sub_one_eq_mod i 3
  simp only [bitmapTest_eq, bitmapSet, h7, Nat.shiftRight_eq_div_pow]
  rw [getD_modify_bit (p.byte_lt hi) (fun _ => true)]
  · by_cases h : j = i <;> simp [h]
  · intro b k
    rw [getLsbD_or_one_shift b _ k (Nat.mod_lt i (by omega))]
    by_cases h : k = i % 8 <;> simp [h]

theorem bitmapTest_clear {i : ℕ} (hi : i < p.gTotalPages) (j : ℕ) :
    (p.bitmapClear i).bitmapTest j = (!decide (j = i) && p.bitmapTest j) := by
  have h7 : i &&& 7 = i % 8 := Nat.and_two_pow_sub_one_eq_mod i 3
  simp only [bitmapTest_eq, bitmapClear, h7, Nat.shiftRight_eq_div_pow]
  rw [getD_modify_bit (p.byte_lt hi) (fun _ => false)]
  · by_cases h : j = i <;> simp [h]
  · intro b k
    rw [getLsbD_and_not_one_shift b _ k (Nat.mod_lt i (by omega))]
    by_cases h : k = i % 8 <;> simp [h]

theorem bytes_ext {p q : Pmm} (hl : p.bytes.length = q.bytes.length)
    (h : ∀ i, p.bitmapTest i = q.bitmapTest i) : p.bytes = q.bytes := by
  apply List.ext_getElem hl
  intro k hp hq
  apply BitVec.eq_of_getLsbD_eq
  intro b hb
  have hk := h (8 * k + b)
  simp only [bitmapTest_eq, show (8 * k + b) / 8 = k by omega, show (8 * k + b) % 8 = b by omega,
    List.getD_eq_getElem?_getD, List.getElem?_eq_getElem hp, List.getElem?_eq_getElem hq,
    Option.getD_some] at hk
  exact hk

def Free (i : ℕ) : Prop := i < p.gTotalPages ∧ p.bitmapTest i = false

instance (i : ℕ) : Decidable (p.Free i) := inferInstanceAs (Decidable (_ ∧ _))

end Pmm

end Mcincos
