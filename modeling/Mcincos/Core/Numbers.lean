import Mcincos.Core.Formats
import Mcincos.Library.Numerals

namespace Mcincos.Print

open Numerals

variable {D : Digits (BitVec 8)} {base v w : U64} {upper : Bool} {c : BitVec 8} {cs ds rest : List (BitVec 8)}
  {pad : BitVec 8} {width : BitVec 32} {args : VaList} {str : U64 → CString} {fuel n : ℕ}

def decimal : Digits (BitVec 8) :=
  .ofList (['0', '1', '2', '3', '4', '5', '6', '7', '8', '9'].map ascii) (by decide) (by decide)

def hex : Digits (BitVec 8) :=
  .ofList (['0', '1', '2', '3', '4', '5', '6', '7', '8', '9', 'a', 'b', 'c', 'd', 'e', 'f'].map ascii)
    (by decide) (by decide)

def upperHex : Digits (BitVec 8) :=
  .ofList (['0', '1', '2', '3', '4', '5', '6', '7', '8', '9', 'A', 'B', 'C', 'D', 'E', 'F'].map ascii)
    (by decide) (by decide)

structure Spells (D : Digits (BitVec 8)) (base : U64) (upper : Bool) : Prop where
  base : D.base = base.toNat
  digit : ∀ d < D.base, digitChar upper (BitVec.ofNat 64 d) = D.digit d

theorem spells_decimal : Spells decimal 10 false := ⟨rfl, by decide⟩

theorem spells_hex : Spells hex 16 false := ⟨rfl, by decide⟩

theorem spells_upperHex : Spells upperHex 16 true := ⟨rfl, by decide⟩

theorem Spells.digit_zero (h : Spells D base upper) : D.digit 0 = ascii '0' := by
  rw [← h.digit 0 D.base_pos]
  cases upper <;> rfl

theorem Spells.digitChar_mod (h : Spells D base upper) (v : U64) :
    digitChar upper (v % base) = D.digit (v.toNat % D.base) := by
  rw [← h.digit _ (Nat.mod_lt _ D.base_pos), h.base, ← BitVec.toNat_umod, BitVec.ofNat_toNat, BitVec.setWidth_eq]

theorem Spells.uintDigits_eq (h : Spells D base upper) (hv : v.toNat < 2 ^ n) :
    uintDigits base upper n v = (Nat.digits D.base v.toNat).map D.digit := by
  induction n generalizing v with
  | zero =>
    rw [pow_zero, Nat.lt_one_iff] at hv
    rw [hv, Nat.digits_zero]
    rfl
  | succ n ih =>
    rw [uintDigits]
    split_ifs with hzero
    · subst hzero
      exact (congrArg (List.map D.digit) (Nat.digits_zero D.base)).symm
    · have hpos : 0 < v.toNat := Nat.pos_of_ne_zero fun h => hzero (BitVec.eq_of_toNat_eq h)
      have hbase : 2 ≤ D.base := D.one_lt_base
      have hdiv : (v / base).toNat = v.toNat / D.base := by rw [BitVec.toNat_udiv, h.base]
      have hlt : (v / base).toNat < 2 ^ n := by
        rw [hdiv]
        apply Nat.div_lt_of_lt_mul
        rw [pow_succ, mul_comm] at hv
        exact hv.trans_le (Nat.mul_le_mul_right _ hbase)
      rw [ih hlt, hdiv, h.digitChar_mod, Nat.digits_def' D.one_lt_base hpos, List.map_cons]

theorem Spells.printUint_eq (h : Spells D base upper) (v : U64) (width : BitVec 32) (pad : BitVec 8) :
    printUint v base width pad upper =
      List.replicate (width.toInt - (D.numeral v.toNat).length).toNat pad ++ D.numeral v.toNat := by
  have hbuf : (if v = 0 then [ascii '0'] else uintDigits base upper 64 v).reverse = D.numeral v.toNat := by
    rw [Digits.numeral]
    by_cases hv : v = 0
    · subst hv
      exact congrArg (fun c => [c]) h.digit_zero.symm
    · have hne : v.toNat ≠ 0 := fun hzero => hv (BitVec.eq_of_toNat_eq hzero)
      rw [if_neg hv, if_neg hne, h.uintDigits_eq v.isLt]
  rw [printUint, ← hbuf, List.length_reverse]

theorem Spells.printUint_unpadded (h : Spells D base upper) (v : U64) (pad : BitVec 8) :
    printUint v base 0 pad upper = D.numeral v.toNat := by
  have hnone : ((0 : BitVec 32).toInt - (D.numeral v.toNat).length).toNat = 0 := by
    have hzero : (0 : BitVec 32).toInt = 0 := rfl
    omega
  rw [h.printUint_eq, hnone, List.replicate_zero, List.nil_append]

theorem toNat_of_nonneg (hv : 0 ≤ v.toInt) : v.toNat = v.toInt.natAbs := by
  rw [BitVec.toInt_eq_toNat_cond] at hv ⊢
  split_ifs at hv ⊢ <;> omega

theorem toNat_neg_of_neg (hv : v.toInt < 0) : (-v).toNat = v.toInt.natAbs := by
  rw [BitVec.toNat_neg]
  rw [BitVec.toInt_eq_toNat_cond] at hv ⊢
  split_ifs at hv ⊢ <;> omega

/-- The cast keeps the low byte of the magnitude of a negative number. -/
def magnitude (z : ℤ) : ℕ := if z < 0 then z.natAbs % 256 else z.natAbs

theorem magnitude_eq_iff (z : ℤ) : magnitude z = z.natAbs ↔ -256 < z := by
  rw [magnitude]
  split_ifs <;> omega

theorem printInt_eq (v : U64) :
    printInt v 10 = if v.toInt < 0 then ascii '-' :: decimal.numeral (magnitude v.toInt)
      else decimal.numeral (magnitude v.toInt) := by
  have hslt : v.slt 0 ↔ v.toInt < 0 := BitVec.slt_iff_toInt_lt
  rw [printInt, magnitude]
  by_cases hv : v.toInt < 0
  · have hbyte : (((-v).setWidth 8).setWidth 64).toNat = v.toInt.natAbs % 256 := by
      rw [BitVec.toNat_setWidth, BitVec.toNat_setWidth, toNat_neg_of_neg hv]
      omega
    rw [if_pos (hslt.mpr hv), if_pos hv, if_pos hv, spells_decimal.printUint_unpadded, hbyte]
  · rw [if_neg (hslt.not.mpr hv), if_neg hv, if_neg hv, spells_decimal.printUint_unpadded,
      toNat_of_nonneg (not_lt.mp hv)]

theorem printInt_canonical_iff (v : U64) :
    decimal.Canonical (ascii '-') v.toInt (printInt v 10) ↔ -256 < v.toInt := by
  rw [printInt_eq, Digits.canonical_numeral_iff, magnitude_eq_iff]

structure Faithful (z : ℤ) (text : List (BitVec 8)) : Prop where
  canonical : decimal.Canonical (ascii '-') z text
  parses : decimal.parseSigned (ascii '-') text = z

theorem minus_not_digit : ¬decimal.IsDigit (ascii '-') :=
  Digits.isDigit_ofList_iff.not.mpr (by decide)

theorem printInt_faithful_iff (v : U64) : Faithful v.toInt (printInt v 10) ↔ -256 < v.toInt := by
  rw [← printInt_canonical_iff]
  exact ⟨Faithful.canonical, fun h => ⟨h, h.parseSigned minus_not_digit⟩⟩

theorem Faithful.unique {y z : ℤ} {text : List (BitVec 8)} (hy : Faithful y text) (hz : Faithful z text) :
    y = z := hy.parses.symm.trans hz.parses

def Formats (str : U64 → CString) (conversion : List (BitVec 8)) (args : VaList) (text : List (BitVec 8)) : Prop :=
  ∀ rest fuel, kvprintf str (fuel + 1) (some (ascii '%' :: (conversion ++ rest))) args = do
    let (out, stop) ← kvprintf str fuel (some rest) args.rest
    return (text ++ out, stop)

theorem Formats.of_scan {conversion digits letters text : List (BitVec 8)}
    (hflag : ∀ rest, scanFlag (some (conversion ++ rest)) = .ok (pad, some (digits ++ rest)))
    (hwidth : ∀ rest, scanWidth (some (digits ++ rest)) = .ok (width, some (letters ++ rest)))
    (hconvert : ∀ rest, ∃ last,
      convert str pad width (some (letters ++ rest)) args = .ok (text, some (last :: rest), args.rest)) :
    Formats str conversion args text := by
  intro rest fuel
  obtain ⟨last, hlast⟩ := hconvert rest
  rw [kvprintf_scanned (hflag rest) (hwidth rest), hlast]
  rfl

theorem Formats.of_letter {text : List (BitVec 8)} (hc : ¬isDigit c)
    (hconvert : ∀ rest, convert str (ascii ' ') 0 (some (c :: rest)) args = .ok (text, some (c :: rest), args.rest)) :
    Formats str [c] args text := by
  have hzero : c ≠ ascii '0' := by
    rintro rfl
    exact hc rfl
  have hflag : ∀ rest, scanFlag (some ([c] ++ rest)) = .ok (ascii ' ', some ([c] ++ rest)) := by
    intro rest
    exact congrArg Except.ok (if_neg hzero)
  have hwidth : ∀ rest, scanWidth (some ([c] ++ rest)) = .ok (0, some ([c] ++ rest)) := by
    intro rest
    rw [List.singleton_append, scanWidth, scanDigits, if_neg hc]
  exact .of_scan hflag hwidth fun rest => ⟨c, hconvert rest⟩

theorem formats_int (str : U64 → CString) (hc : c = ascii 'd' ∨ c = ascii 'i') (args : VaList) :
    Formats str [c] args (printInt (((args 0).setWidth 32).signExtend 64) 10) := by
  obtain rfl | rfl := hc
  · exact .of_letter (by decide) fun _ => rfl
  · exact .of_letter (by decide) fun _ => rfl

theorem injOn_of_faithful {w : ℕ} {text : BitVec w → List (BitVec 8)}
    (h : ∀ v, Faithful v.toInt (text v) ↔ -256 < v.toInt) : Set.InjOn text {v | -256 < v.toInt} := by
  intro v hv w hw heq
  rw [Set.mem_ofPred_eq] at hv hw
  have hfaithful := (h v).mpr hv
  rw [heq] at hfaithful
  exact BitVec.eq_of_toInt_eq (hfaithful.unique ((h w).mpr hw))

/-- Signed numbers are printed as what they are just if they are above -256, and then no two alike. -/
theorem signed_decimal (str : U64 → CString) (hc : c = ascii 'd' ∨ c = ascii 'i') :
    (∃ text : BitVec 32 → List (BitVec 8), (∀ args, Formats str [c] args (text ((args 0).setWidth 32))) ∧
      (∀ v, Faithful v.toInt (text v) ↔ -256 < v.toInt) ∧ Set.InjOn text {v | -256 < v.toInt}) ∧
    (∀ v : U64, -2 ^ 63 < v.toInt → (Faithful v.toInt (printInt v 10) ↔ -256 < v.toInt)) ∧
    Set.InjOn (fun v => printInt v 10) {v | -256 < v.toInt} := by
  have hint : ∀ v : BitVec 32, Faithful v.toInt (printInt (v.signExtend 64) 10) ↔ -256 < v.toInt := by
    intro v
    have hextend : (v.signExtend 64).toInt = v.toInt := BitVec.toInt_signExtend_of_le (by decide)
    rw [← hextend]
    exact printInt_faithful_iff _
  constructor
  · exact ⟨_, formats_int str hc, hint, injOn_of_faithful hint⟩
  · exact ⟨fun v _ => printInt_faithful_iff v, injOn_of_faithful printInt_faithful_iff⟩

theorem signed_decimal_d : Set.InjOn (fun v => printInt v 10) {v | -256 < v.toInt} ∧
    Faithful (-255) (printInt (BitVec.ofInt 64 (-255)) 10) := by
  obtain ⟨-, hprint, hinj⟩ := signed_decimal noStrings (.inl rfl)
  have hv : (BitVec.ofInt 64 (-255)).toInt = -255 := by decide
  have hfaithful := (hprint (BitVec.ofInt 64 (-255)) (by decide)).mpr (by decide)
  rw [hv] at hfaithful
  exact ⟨hinj, hfaithful⟩

theorem minus_256_as_zero :
    kvprintf noStrings 2 (some [ascii '%', ascii 'd']) (fun _ => BitVec.ofInt 64 (-256)) =
      .ok ([ascii '-', ascii '0'], some []) ∧ ¬Faithful (-256) [ascii '-', ascii '0'] := by
  constructor
  · rfl
  · intro h
    exact absurd h.parses (by decide)

theorem decimal_digit : ∀ d < 10, isDigit (decimal.digit d) ∧
    (decimal.digit d - ascii '0').setWidth 32 = BitVec.ofNat 32 (decimal.value (decimal.digit d)) := by decide

theorem scanDigits_numeral (hds : ∀ d ∈ ds, decimal.IsDigit d) (hc : ¬isDigit c) (cs : List (BitVec 8)) (n : ℕ) :
    scanDigits (BitVec.ofNat 32 n) (ds ++ c :: cs) =
      (BitVec.ofNat 32 (ds.foldl (fun n c => n * 10 + decimal.value c) n), c :: cs) := by
  induction ds generalizing n with
  | nil => rw [List.nil_append, scanDigits, if_neg hc, List.foldl_nil]
  | cons d ds ih =>
    obtain ⟨⟨k, hk, rfl⟩, htail⟩ := List.forall_mem_cons.mp hds
    obtain ⟨hdigit, hvalue⟩ := decimal_digit k hk
    have hstep : BitVec.ofNat 32 n * 10 + BitVec.ofNat 32 (decimal.value (decimal.digit k)) =
        BitVec.ofNat 32 (n * 10 + decimal.value (decimal.digit k)) := by
      rw [BitVec.ofNat_add, BitVec.ofNat_mul]
      rfl
    rw [List.cons_append, scanDigits, if_pos hdigit, hvalue, hstep, ih htail, List.foldl_cons]

inductive Padded
  | x
  | X
  | u
  | llx
  | llu

namespace Padded

def letters : Padded → List (BitVec 8)
  | x => [ascii 'x']
  | X => [ascii 'X']
  | u => [ascii 'u']
  | llx => [ascii 'l', ascii 'l', ascii 'x']
  | llu => [ascii 'l', ascii 'l', ascii 'u']

def digits : Padded → Digits (BitVec 8)
  | x => hex
  | X => upperHex
  | u => decimal
  | llx => hex
  | llu => decimal

/-- The argument, of which a short conversion takes the low half. -/
def value (args : VaList) : Padded → U64
  | x => ((args 0).setWidth 32).setWidth 64
  | X => ((args 0).setWidth 32).setWidth 64
  | u => ((args 0).setWidth 32).setWidth 64
  | llx => args 0
  | llu => args 0

theorem convert_letters (str : U64 → CString) (k : Padded) (width : BitVec 32) (args : VaList)
    (rest : List (BitVec 8)) :
    ∃ last, convert str 0 width (some (k.letters ++ rest)) args =
      .ok (List.replicate (width.toInt - (k.digits.numeral (k.value args).toNat).length).toNat 0 ++
        k.digits.numeral (k.value args).toNat, some (last :: rest), args.rest) := by
  cases k with
  | x => exact ⟨ascii 'x', spells_hex.printUint_eq _ width 0 ▸ rfl⟩
  | X => exact ⟨ascii 'X', spells_upperHex.printUint_eq _ width 0 ▸ rfl⟩
  | u => exact ⟨ascii 'u', spells_decimal.printUint_eq _ width 0 ▸ rfl⟩
  | llx => exact ⟨ascii 'x', spells_hex.printUint_eq _ width 0 ▸ rfl⟩
  | llu => exact ⟨ascii 'u', spells_decimal.printUint_eq _ width 0 ▸ rfl⟩

theorem letters_head (k : Padded) : ∃ c cs, k.letters = c :: cs ∧ ¬isDigit c := by
  cases k <;> exact ⟨_, _, rfl, by decide⟩

theorem nul_not_digit (k : Padded) : ¬k.digits.IsDigit 0 := by
  have hdecimal : ¬decimal.IsDigit 0 := Digits.isDigit_ofList_iff.not.mpr (by decide)
  have hhex : ¬hex.IsDigit 0 := Digits.isDigit_ofList_iff.not.mpr (by decide)
  have hupper : ¬upperHex.IsDigit 0 := Digits.isDigit_ofList_iff.not.mpr (by decide)
  cases k with
  | x => exact hhex
  | X => exact hupper
  | u => exact hdecimal
  | llx => exact hhex
  | llu => exact hdecimal

end Padded

theorem formats_padded (str : U64 → CString) (k : Padded) (N : ℕ) (args : VaList) :
    Formats str (ascii '0' :: (decimal.numeral N ++ k.letters)) args
      (List.replicate ((BitVec.ofNat 32 N).toInt - (k.digits.numeral (k.value args).toNat).length).toNat 0 ++
        k.digits.numeral (k.value args).toNat) := by
  apply Formats.of_scan (fun _ => rfl) _ (fun rest => k.convert_letters str _ args rest)
  intro rest
  obtain ⟨c, cs, hletters, hc⟩ := k.letters_head
  have hscan := scanDigits_numeral (decimal.isDigit_numeral N) hc (cs ++ rest) 0
  have hN : (decimal.numeral N).foldl (fun n c => n * 10 + decimal.value c) 0 = N := decimal.parse_numeral N
  have hzero : BitVec.ofNat 32 0 = 0 := rfl
  rw [hN, hzero] at hscan
  rw [scanWidth, hletters, List.append_assoc, List.cons_append, hscan]

structure ZeroPadded (D : Digits (BitVec 8)) (width n : ℕ) (text : List (BitVec 8)) : Prop where
  digits : ∀ c ∈ text, D.IsDigit c
  length : text.length = max width (D.numeral n).length
  parses : D.parse text = n
  filled : text = List.replicate (width - (D.numeral n).length) (D.digit 0) ++ D.numeral n

/-- A number is padded with NULs, so what is printed is a number just if there is nothing to pad. -/
theorem zero_padded (str : U64 → CString) (k : Padded) (N : ℕ) (args : VaList) :
    ∃ text, Formats str (ascii '0' :: (decimal.numeral N ++ k.letters)) args text ∧
      (ZeroPadded k.digits N (k.value args).toNat text ↔
        N ≤ (k.digits.numeral (k.value args).toNat).length) := by
  refine ⟨_, formats_padded str k N args, ?_⟩
  generalize (k.value args).toNat = n
  constructor
  · intro h
    have hnone : ((BitVec.ofNat 32 N).toInt - (k.digits.numeral n).length).toNat = 0 := by
      by_contra hsome
      apply k.nul_not_digit
      apply h.digits
      rw [List.mem_append, List.mem_replicate]
      exact .inl ⟨hsome, rfl⟩
    have hlength := h.length
    rw [hnone, List.replicate_zero, List.nil_append] at hlength
    exact hlength ▸ le_max_left _ _
  · intro hN
    have hwidth : (BitVec.ofNat 32 N).toInt ≤ N := by
      rw [BitVec.toInt_eq_toNat_cond, BitVec.toNat_ofNat]
      split_ifs <;> omega
    have hnone : ((BitVec.ofNat 32 N).toInt - (k.digits.numeral n).length).toNat = 0 := by omega
    rw [hnone, List.replicate_zero, List.nil_append]
    refine ⟨k.digits.isDigit_numeral n, (max_eq_right hN).symm, k.digits.parse_numeral n, ?_⟩
    rw [Nat.sub_eq_zero_of_le hN, List.replicate_zero, List.nil_append]

theorem seven_after_nuls :
    kvprintf noStrings 2 (some [ascii '%', ascii '0', ascii '5', ascii 'u']) (fun _ => 7) =
      .ok ([0, 0, 0, 0, ascii '7'], some []) ∧ ¬ZeroPadded decimal 5 7 [0, 0, 0, 0, ascii '7'] := by
  constructor
  · rfl
  · intro h
    exact Padded.u.nul_not_digit (h.digits 0 (List.mem_cons_self))

end Mcincos.Print
