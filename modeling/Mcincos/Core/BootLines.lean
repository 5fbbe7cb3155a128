import Mcincos.Core.HexPrinters

namespace Mcincos.Print

open Numerals

/-- `struct limine_uuid`. -/
@[ext] structure LimineUuid where
  a : BitVec 32
  b : BitVec 16
  c : BitVec 16
  d : Fin 8 → BitVec 8

variable (str : U64 → CString) (fuel : ℕ)

/-- `kprintf` of a text without conversions, which asks for no argument. -/
def kprintfText (text : String) : Except PrintFault (List (BitVec 8)) :=
  kprintf str fuel (text.toList.map ascii) fun _ => 0

def printUuid : Option LimineUuid → Except PrintFault (List (BitVec 8))
  | none => kprintfText str fuel "(null)"
  | some uuid => do
    let a ← printHexFixed str fuel (uuid.a.setWidth 64) 8
    let dash1 ← kprintfText str fuel "-"
    let b ← printHexFixed str fuel (uuid.b.setWidth 64) 4
    let dash2 ← kprintfText str fuel "-"
    let c ← printHexFixed str fuel (uuid.c.setWidth 64) 4
    let dash3 ← kprintfText str fuel "-"
    let d0 ← printHexFixed str fuel ((uuid.d 0).setWidth 64) 2
    let d1 ← printHexFixed str fuel ((uuid.d 1).setWidth 64) 2
    let dash4 ← kprintfText str fuel "-"
    let rest ← [2, 3, 4, 5, 6, 7].mapM fun i => printHexFixed str fuel ((uuid.d i).setWidth 64) 2
    return a ++ dash1 ++ b ++ dash2 ++ c ++ dash3 ++ d0 ++ d1 ++ dash4 ++ rest.flatten

def printSignedU64Line (label value : U64) : Except PrintFault (List (BitVec 8)) :=
  let line (format : String) (absValue : U64) :=
    kprintf str fuel (format.toList.map ascii) fun i => if i = 0 then label else absValue
  if value.slt 0 then
    let absValue := -(value + 1) + 1
    line "  %s: -%llu\n" absValue
  else line "  %s: %llu\n" value

variable {str fuel} {args : VaList} {cs rest text : List (BitVec 8)} {c : BitVec 8} {n : ℕ}

def Prints (str : U64 → CString) (format : List (BitVec 8)) (args : VaList) (n : ℕ) (text : List (BitVec 8)) :
    Prop :=
  ∀ fuel, kvprintf str (fuel + n) (some format) args = .ok (text, some [])

theorem prints_nil (str : U64 → CString) (args : VaList) : Prints str [] args 1 [] := fun _ => rfl

theorem Prints.char (h : Prints str cs args n text) (hnonzero : c ≠ 0) (hc : c ≠ ascii '%') :
    Prints str (c :: cs) args (n + 1) (c :: text) := by
  intro fuel
  rw [← Nat.add_assoc, kvprintf_char hnonzero hc, h fuel]
  rfl

theorem Prints.chars (h : Prints str cs args n text) {l : List (BitVec 8)}
    (hl : ∀ c ∈ l, c ≠ 0 ∧ c ≠ ascii '%') : Prints str (l ++ cs) args (n + l.length) (l ++ text) := by
  induction l with
  | nil => exact h
  | cons c l ih =>
    obtain ⟨⟨hnonzero, hc⟩, htail⟩ := List.forall_mem_cons.mp hl
    exact (ih htail).char hnonzero hc

theorem Prints.conversion {conversion converted : List (BitVec 8)} (h : Prints str rest args.rest n text)
    (hconversion : Formats str conversion args converted) :
    Prints str (ascii '%' :: (conversion ++ rest)) args (n + 1) (converted ++ text) := by
  intro fuel
  rw [← Nat.add_assoc, hconversion rest (fuel + n), h fuel]
  rfl

theorem Prints.kprintf {format : List (BitVec 8)} (h : Prints str format args n text) (hfuel : n ≤ fuel) :
    kprintf str fuel format args = .ok text := by
  obtain ⟨k, rfl⟩ := Nat.exists_eq_add_of_le' hfuel
  rw [Print.kprintf, h k]
  rfl

theorem formats_string (str : U64 → CString) (args : VaList) :
    Formats str [ascii 's'] args (stringAt str (args 0)) :=
  .of_letter (by decide) fun _ => rfl

theorem formats_llu (str : U64 → CString) (args : VaList) :
    Formats str [ascii 'l', ascii 'l', ascii 'u'] args (decimal.numeral (args 0).toNat) := by
  let letters := [ascii 'l', ascii 'l', ascii 'u']
  have hflag : ∀ rest, scanFlag (some (letters ++ rest)) = .ok (ascii ' ', some (letters ++ rest)) := fun _ => rfl
  have hwidth : ∀ rest, scanWidth (some (letters ++ rest)) = .ok (0, some (letters ++ rest)) := fun _ => rfl
  apply Formats.of_scan hflag hwidth
  intro rest
  refine ⟨ascii 'u', ?_⟩
  rw [← spells_decimal.printUint_unpadded (args 0) (ascii ' ')]
  rfl

theorem printHexFixed_eq (str : U64 → CString) {fuel : ℕ} (hfuel : 2 ≤ fuel) (v : U64) (digits : BitVec 32) :
    printHexFixed str fuel v digits = .ok (hex.fixed v.toNat digits.toInt.toNat) := by
  obtain ⟨k, rfl⟩ := Nat.exists_eq_add_of_le' hfuel
  exact printHexLoop_eq str k v _

theorem kprintfText_dash (str : U64 → CString) {fuel : ℕ} (hfuel : 2 ≤ fuel) :
    kprintfText str fuel "-" = .ok [ascii '-'] :=
  ((prints_nil str _).char (by decide) (by decide)).kprintf hfuel

def uuidText (uuid : LimineUuid) : List (BitVec 8) :=
  hex.fixed uuid.a.toNat 8 ++ [ascii '-'] ++ hex.fixed uuid.b.toNat 4 ++ [ascii '-'] ++ hex.fixed uuid.c.toNat 4 ++
    [ascii '-'] ++ hex.fixed (uuid.d 0).toNat 2 ++ hex.fixed (uuid.d 1).toNat 2 ++ [ascii '-'] ++
    ([2, 3, 4, 5, 6, 7].map fun i => hex.fixed (uuid.d i).toNat 2).flatten

theorem printUuid_eq (str : U64 → CString) {fuel : ℕ} (hfuel : 2 ≤ fuel) (uuid : LimineUuid) :
    printUuid str fuel (some uuid) = .ok (uuidText uuid) := by
  have hwidth {w : ℕ} (hw : w ≤ 64) (v : BitVec w) : (v.setWidth 64).toNat = v.toNat := BitVec.toNat_setWidth_of_le hw
  simp only [printUuid, printHexFixed_eq str hfuel, kprintfText_dash str hfuel, ok_bind, List.mapM_cons,
    List.mapM_nil]
  simp only [hwidth (show 32 ≤ 64 by decide), hwidth (show 16 ≤ 64 by decide), hwidth (show 8 ≤ 64 by decide)]
  rfl

def byteOffset (i : Fin 8) : ℕ := if i < 2 then 19 + 2 * i else 24 + 2 * (i - 2)

def readUuid (text : List (BitVec 8)) : LimineUuid where
  a := BitVec.ofNat 32 (hex.parse (text.take 8))
  b := BitVec.ofNat 16 (hex.parse ((text.drop 9).take 4))
  c := BitVec.ofNat 16 (hex.parse ((text.drop 14).take 4))
  d i := BitVec.ofNat 8 (hex.parse ((text.drop (byteOffset i)).take 2))

theorem ofNat_parse_fixed {w k : ℕ} (hw : 2 ^ w = 16 ^ k) (v : BitVec w) :
    BitVec.ofNat w (hex.parse (hex.fixed v.toNat k)) = v := by
  have hbase : hex.base = 16 := rfl
  rw [hex.parse_fixed, hbase, ← hw, Nat.mod_eq_of_lt v.isLt, BitVec.ofNat_toNat, BitVec.setWidth_eq]

theorem readUuid_uuidText (uuid : LimineUuid) : readUuid (uuidText uuid) = uuid := by
  ext : 1
  · exact ofNat_parse_fixed (k := 8) (by decide) uuid.a
  · exact ofNat_parse_fixed (k := 4) (by decide) uuid.b
  · exact ofNat_parse_fixed (k := 4) (by decide) uuid.c
  · funext i
    have hbyte := ofNat_parse_fixed (k := 2) (by decide) (uuid.d i)
    fin_cases i <;> exact hbyte

theorem faithful_numeral (z : ℤ) :
    Faithful z (if z < 0 then ascii '-' :: decimal.numeral z.natAbs else decimal.numeral z.natAbs) := by
  have hcanonical : decimal.Canonical (ascii '-') z
      (if z < 0 then ascii '-' :: decimal.numeral z.natAbs else decimal.numeral z.natAbs) :=
    Digits.canonical_numeral_iff.mpr rfl
  exact ⟨hcanonical, hcanonical.parseSigned minus_not_digit⟩

theorem toNat_neg_succ {v : U64} (hv : v.toInt < 0) : (-(v + 1) + 1).toNat = v.toInt.natAbs := by
  have hneg : -(v + 1) + 1 = -v := by bv_omega
  rw [hneg, toNat_neg_of_neg hv]

theorem prints_line (str : U64 → CString) (args : VaList) {middle : List (BitVec 8)}
    (hmiddle : ∀ c ∈ middle, c ≠ 0 ∧ c ≠ ascii '%') :
    Prints str ([ascii ' ', ascii ' '] ++ ascii '%' :: ([ascii 's'] ++ (middle ++ ascii '%' ::
      ([ascii 'l', ascii 'l', ascii 'u'] ++ [ascii '\n'])))) args (2 + 1 + middle.length + 1 + 2)
      ([ascii ' ', ascii ' '] ++ (stringAt str (args 0) ++ (middle ++ (decimal.numeral (args 1).toNat ++
        [ascii '\n'])))) := by
  have hend : Prints str [ascii '\n'] args.rest.rest 2 [ascii '\n'] :=
    (prints_nil str args.rest.rest).char (by decide) (by decide)
  have hnumber := hend.conversion (formats_llu str args.rest)
  have hlabel := (hnumber.chars hmiddle).conversion (formats_string str args)
  have hline := hlabel.chars (l := [ascii ' ', ascii ' ']) (by decide)
  rwa [show 2 + 1 + middle.length + 1 + 2 = 2 + 1 + middle.length + 1 + [ascii ' ', ascii ' '].length from rfl]

theorem printSignedU64Line_eq (str : U64 → CString) {fuel : ℕ} (hfuel : 9 ≤ fuel) (label value : U64) :
    printSignedU64Line str fuel label value =
      .ok ([ascii ' ', ascii ' '] ++ (stringAt str label ++ ([ascii ':', ascii ' '] ++
        ((if value.toInt < 0 then ascii '-' :: decimal.numeral value.toInt.natAbs
          else decimal.numeral value.toInt.natAbs) ++ [ascii '\n'])))) := by
  have hslt : value.slt 0 ↔ value.toInt < 0 := BitVec.slt_iff_toInt_lt
  rw [printSignedU64Line]
  by_cases hv : value.toInt < 0
  · rw [if_pos (hslt.mpr hv), if_pos hv, ← toNat_neg_succ hv]
    have hmiddle : ∀ c ∈ [ascii ':', ascii ' ', ascii '-'], c ≠ 0 ∧ c ≠ ascii '%' := by decide
    exact (prints_line str (fun i => if i = 0 then label else -(value + 1) + 1) hmiddle).kprintf hfuel
  · rw [if_neg (hslt.not.mpr hv), if_neg hv, ← toNat_of_nonneg (not_lt.mp hv)]
    have hmiddle : ∀ c ∈ [ascii ':', ascii ' '], c ≠ 0 ∧ c ≠ ascii '%' := by decide
    have hrounds : 8 ≤ fuel := Nat.le_of_succ_le hfuel
    exact (prints_line str (fun i => if i = 0 then label else value) hmiddle).kprintf hrounds

/-- The listing of the boot information writes UUIDs and signed numbers so that they can be read again. -/
theorem boot_lines_faithful (str : U64 → CString) (fuel : ℕ) (hfuel : 9 ≤ fuel) :
    (∀ uuid, ∃ text, printUuid str fuel (some uuid) = .ok text ∧ text.length = 36 ∧
      (∀ i ∈ [8, 13, 18, 23], text[i]? = some (ascii '-')) ∧ readUuid text = uuid) ∧
    ∀ label value, ∃ text, Faithful value.toInt text ∧ printSignedU64Line str fuel label value =
      .ok ([ascii ' ', ascii ' '] ++ (stringAt str label ++ ([ascii ':', ascii ' '] ++ (text ++ [ascii '\n'])))) := by
  constructor
  · intro uuid
    refine ⟨uuidText uuid, printUuid_eq str (by omega) uuid, rfl, ?_, readUuid_uuidText uuid⟩
    intro i hi
    fin_cases hi <;> rfl
  · intro label value
    exact ⟨_, faithful_numeral value.toInt, printSignedU64Line_eq str hfuel label value⟩

theorem boot_lines_faithful_most_negative : ∃ text, Faithful (-2 ^ 63) text ∧
    printSignedU64Line noStrings 9 0 (BitVec.ofInt 64 (-2 ^ 63)) =
      .ok ([ascii ' ', ascii ' '] ++ (stringAt noStrings 0 ++ ([ascii ':', ascii ' '] ++ (text ++ [ascii '\n'])))) := by
  have hvalue : (BitVec.ofInt 64 (-2 ^ 63)).toInt = -2 ^ 63 := by decide
  have hline := (boot_lines_faithful noStrings 9 (Nat.le_refl 9)).2 0 (BitVec.ofInt 64 (-2 ^ 63))
  rwa [hvalue] at hline

end Mcincos.Print
