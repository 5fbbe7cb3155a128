import Mcincos.Core.Numbers
import Mcincos.Syscall.DebugWrite

namespace Mcincos.Print

open Numerals

variable {str : U64 → CString} {args : VaList} {v : U64}

def kprintf (str : U64 → CString) (fuel : ℕ) (fmt : List (BitVec 8)) (args : VaList) :
    Except PrintFault (List (BitVec 8)) := do
  let (out, _) ← kvprintf str fuel (some fmt) args
  return out

def hexTable : List (BitVec 8) :=
  ['0', '1', '2', '3', '4', '5', '6', '7', '8', '9', 'a', 'b', 'c', 'd', 'e', 'f'].map ascii

/-- The character as the `int` that a variadic call passes on; the words after it are not taken. -/
def charArg (c : BitVec 8) : VaList := fun _ => (c.signExtend 32).setWidth 64

def printHexLoop (str : U64 → CString) (fuel : ℕ) (value : U64) : ℕ → Except PrintFault (List (BitVec 8))
  | 0 => .ok []
  | i + 1 => do
    let nib := (value >>> (i * 4) &&& 0xf).setWidth 8
    let out ← kprintf str fuel [ascii '%', ascii 'c'] (charArg (hexTable.getD nib.toNat 0))
    let rest ← printHexLoop str fuel value i
    return out ++ rest

def printHexFixed (str : U64 → CString) (fuel : ℕ) (value : U64) (digits : BitVec 32) :
    Except PrintFault (List (BitVec 8)) := printHexLoop str fuel value digits.toInt.toNat

theorem toNat_nibble (v : U64) (i : ℕ) : (v >>> (i * 4) &&& 0xf).toNat = v.toNat / 16 ^ i % 16 := by
  have hlow := Words.toNat_and_low (v >>> (i * 4)) 4 (by decide)
  have hpow : 2 ^ (i * 4) = 16 ^ i := by
    rw [mul_comm, pow_mul]
    rfl
  rw [BitVec.toNat_ushiftRight, Nat.shiftRight_eq_div_pow, hpow] at hlow
  exact hlow

theorem kprint_hexDigit : ∀ d < 16, kprint [hexDigit (BitVec.ofNat 32 d), 0] = [hex.digit d] := by decide

theorem hexTable_digit : ∀ d < 16, hexTable.getD (BitVec.ofNat 8 d).toNat 0 = hex.digit d := by decide

theorem kprint_nibble (v : U64) (i : ℕ) :
    kprint [hexDigit ((v >>> (i * 4) &&& 0xf).setWidth 32), 0] = [hex.digit (v.toNat / 16 ^ i % 16)] := by
  have hnib : (v >>> (i * 4) &&& 0xf).setWidth 32 = BitVec.ofNat 32 (v.toNat / 16 ^ i % 16) := by
    apply BitVec.eq_of_toNat_eq
    rw [BitVec.toNat_setWidth, toNat_nibble, BitVec.toNat_ofNat]
  rw [hnib, kprint_hexDigit _ (Nat.mod_lt _ (by decide))]

theorem table_nibble (v : U64) (i : ℕ) :
    hexTable.getD ((v >>> (i * 4) &&& 0xf).setWidth 8).toNat 0 = hex.digit (v.toNat / 16 ^ i % 16) := by
  have hnib : (v >>> (i * 4) &&& 0xf).setWidth 8 = BitVec.ofNat 8 (v.toNat / 16 ^ i % 16) := by
    apply BitVec.eq_of_toNat_eq
    rw [BitVec.toNat_setWidth, toNat_nibble, BitVec.toNat_ofNat]
  rw [hnib, hexTable_digit _ (Nat.mod_lt _ (by decide))]

theorem Formats.kprintf {conversion text : List (BitVec 8)} (h : Formats str conversion args text) (fuel : ℕ) :
    kprintf str (fuel + 2) (ascii '%' :: conversion) args = .ok text := by
  have hround := h [] (fuel + 1)
  rw [List.append_nil] at hround
  have hend : kvprintf str (fuel + 1) (some []) args.rest = .ok ([], some []) := rfl
  rw [Print.kprintf, hround, hend]
  exact congrArg _ (List.append_nil text)

theorem formats_char (str : U64 → CString) (args : VaList) :
    Formats str [ascii 'c'] args [((args 0).setWidth 32).setWidth 8] :=
  .of_letter (by decide) fun _ => rfl

theorem formats_pointer (str : U64 → CString) (args : VaList) :
    Formats str [ascii 'p'] args ([ascii '0', ascii 'x'] ++ printUint (args 0) 16 16 (ascii '0') false) :=
  .of_letter (by decide) fun _ => rfl

theorem kprintf_char (str : U64 → CString) (fuel : ℕ) (c : BitVec 8) :
    kprintf str (fuel + 2) [ascii '%', ascii 'c'] (charArg c) = .ok [c] := by
  have hchar : ((charArg c 0).setWidth 32).setWidth 8 = c := by
    revert c
    decide
  rw [(formats_char str (charArg c)).kprintf fuel, hchar]

theorem kprintHexU64_eq (v : U64) : kprintHexU64 v = [ascii '0', ascii 'x'] ++ hex.fixed v.toNat 16 := by
  have hloop (k : ℕ) : (List.range k).reverse.flatMap (fun i =>
      kprint [hexDigit ((v >>> (i * 4) &&& 0xf).setWidth 32), 0]) = hex.fixed v.toNat k := by
    induction k with
    | zero => rfl
    | succ k ih =>
      rw [List.range_succ, List.reverse_append, List.reverse_singleton, List.singleton_append, List.flatMap_cons,
        kprint_nibble, ih]
      rfl
  rw [kprintHexU64, hloop]
  rfl

theorem printHexLoop_eq (str : U64 → CString) (fuel : ℕ) (v : U64) (k : ℕ) :
    printHexLoop str (fuel + 2) v k = .ok (hex.fixed v.toNat k) := by
  induction k with
  | zero => rfl
  | succ k ih =>
    rw [printHexLoop, table_nibble, kprintf_char, ok_bind, ih]
    rfl

theorem printUint_padded (v : U64) : printUint v 16 16 (ascii '0') false = hex.fixed v.toNat 16 := by
  have hwidth : (16 : BitVec 32).toInt = 16 := rfl
  have hzero : hex.digit 0 = ascii '0' := rfl
  rw [spells_hex.printUint_eq, hex.fixed_eq_padded (by decide) v.isLt, hwidth, hzero]
  congr 2
  omega

def lastChars (digits : ℕ) (text : List (BitVec 8)) : List (BitVec 8) := text.drop (text.length - digits)

theorem lastChars_fixed {k : ℕ} (hk : k ≤ 16) (n : ℕ) :
    lastChars k ([ascii '0', ascii 'x'] ++ hex.fixed n 16) = hex.fixed n k := by
  have hlength : ([ascii '0', ascii 'x'] ++ hex.fixed n 16).length - k = 2 + (16 - k) := by
    rw [List.length_append, hex.length_fixed]
    exact Nat.add_sub_assoc hk 2
  rw [lastChars, hlength, ← List.drop_drop, ← hex.fixed_drop hk]
  rfl

/-- The three printers make the same text of a number, and `print_hex_fixed` of its end. -/
theorem hex_printers_agree (str : U64 → CString) (args : VaList) (fuel : ℕ) :
    kprintf str (fuel + 2) [ascii '%', ascii 'p'] args = .ok (kprintHexU64 (args 0)) ∧
      (printHexFixed str (fuel + 2) (args 0) 16).map ([ascii '0', ascii 'x'] ++ ·) =
        .ok (kprintHexU64 (args 0)) ∧
      ∀ digits : BitVec 32, 1 ≤ digits.toInt → digits.toInt ≤ 16 →
        ∃ text, printHexFixed str (fuel + 2) (args 0) digits = .ok text ∧
          text = lastChars digits.toInt.toNat (kprintHexU64 (args 0)) ∧ text.length = digits.toInt.toNat ∧
          hex.parse text = (args 0).toNat % 16 ^ digits.toInt.toNat := by
  have hfixed (digits : BitVec 32) : printHexFixed str (fuel + 2) (args 0) digits =
      .ok (hex.fixed (args 0).toNat digits.toInt.toNat) := printHexLoop_eq str fuel (args 0) _
  rw [kprintHexU64_eq]
  refine ⟨?_, ?_, ?_⟩
  · rw [(formats_pointer str args).kprintf fuel, printUint_padded]
  · rw [hfixed]
    rfl
  · intro digits _ hle
    refine ⟨_, hfixed digits, ?_, hex.length_fixed _ _, hex.parse_fixed _ _⟩
    exact (lastChars_fixed (by omega) _).symm

end Mcincos.Print
