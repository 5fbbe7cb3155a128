import Mcincos.Vmm.Cpu
import Mcincos.Vmm.Stores

namespace Mcincos

def setByte (w : U64) (k : ℕ) (b : BitVec 8) : U64 :=
  w &&& ~~~(0xff#64 <<< (8 * k)) ||| b.setWidth 64 <<< (8 * k)

def getByte (w : U64) (k : ℕ) : BitVec 8 := (w >>> (8 * k)).setWidth 8

namespace Vm

def loadPhys (s : Vm) (phys : U64) : BitVec 8 :=
  getByte (s.load phys ((phys >>> 3).setWidth 9)) (phys.toNat % 8)

def storePhys (s : Vm) (phys : U64) (b : BitVec 8) : Vm :=
  let i := (phys >>> 3).setWidth 9
  s.store phys i (setByte (s.load phys i) (phys.toNat % 8) b)

/-- A byte load in the kernel, by way of the tables; `none` is a page fault. -/
def loadByte (s : Vm) (va : U64) : Option (BitVec 8) :=
  ((cpuWalk s.ram s.cr3 va).physical va).map s.loadPhys

def storeByte (s : Vm) (va : U64) (b : BitVec 8) : Option Vm :=
  let walk := cpuWalk s.ram s.cr3 va
  if walk.write then (walk.physical va).map fun phys => s.storePhys phys b else none

def storeBytes : Vm → U64 → List (BitVec 8) → Option Vm
  | s, _, [] => some s
  | s, va, b :: bs => (s.storeByte va b).bind fun s => s.storeBytes (va + 1) bs

end Vm

theorem byteMask_bit (k : ℕ) : (0xff#64).getLsbD k = decide (k < 8) := by
  rw [show 0xff#64 = BitVec.ofNat 64 (2 ^ 8 - 1) from rfl, BitVec.getLsbD_ofNat,
    Nat.testBit_two_pow_sub_one, Bool.eq_iff_iff]
  simp
  omega

theorem getByte_setByte (w : U64) {j k : ℕ} (hj : j < 8) (hk : k < 8) (b : BitVec 8) :
    getByte (setByte w k b) j = if j = k then b else getByte w j := by
  apply BitVec.eq_of_getLsbD_eq
  intro i hi
  have hbit : 8 * j + i < 64 := by omega
  have hwidth : i < 64 := by omega
  simp only [getByte, setByte, BitVec.getLsbD_setWidth, BitVec.getLsbD_ushiftRight,
    BitVec.getLsbD_or, BitVec.getLsbD_and, BitVec.getLsbD_not, BitVec.getLsbD_shiftLeft, byteMask_bit]
  by_cases hjk : j = k
  · subst hjk
    simp [hi, hbit, hwidth]
  · rw [if_neg hjk]
    by_cases hbelow : 8 * j + i < 8 * k
    · simp [hi, hbit, hbelow]
    · have habove : ¬8 * j + i - 8 * k < 8 := by omega
      simp [hi, hbit, hbelow, habove, BitVec.getLsbD_of_ge b _ (Nat.not_lt.mp habove)]

theorem phys_ext {p q : U64} (hframe : frameOf p = frameOf q)
    (hword : (p >>> 3).setWidth 9 = (q >>> 3).setWidth 9) (hbyte : p.toNat % 8 = q.toNat % 8) : p = q := by
  apply BitVec.eq_of_toNat_eq
  have hword := congrArg BitVec.toNat hword
  simp only [BitVec.toNat_setWidth, BitVec.toNat_ushiftRight, Nat.shiftRight_eq_div_pow] at hword
  rw [frameOf, frameOf] at hframe
  omega

theorem Vm.loadPhys_storePhys (s : Vm) (p q : U64) (b : BitVec 8) :
    (s.storePhys p b).loadPhys q = if q = p then b else s.loadPhys q := by
  have hlt (x : U64) : x.toNat % 8 < 8 := Nat.mod_lt _ (by decide)
  rw [Vm.loadPhys, Vm.storePhys, Vm.load, Ram.load, Vm.store_word]
  by_cases hword : frameOf q = frameOf p ∧ (q >>> 3).setWidth 9 = (p >>> 3).setWidth 9
  · rw [if_pos hword, getByte_setByte _ (hlt q) (hlt p)]
    by_cases hbyte : q.toNat % 8 = p.toNat % 8
    · rw [if_pos hbyte, if_pos (phys_ext hword.1 hword.2 hbyte)]
    · rw [if_neg hbyte, if_neg fun he => hbyte (congrArg (fun x : U64 => x.toNat % 8) he)]
      rw [Vm.loadPhys, Vm.load, Vm.load, Ram.load, Ram.load, hword.1, hword.2]
  · rw [if_neg hword, if_neg]
    · rfl
    · rintro rfl
      exact hword ⟨rfl, rfl⟩

end Mcincos
