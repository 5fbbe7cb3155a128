import Mcincos.Core.Numbers

namespace Mcincos.Print

open Numerals

inductive Radix
  | ten
  | sixteen

def Radix.base : Radix → U64
  | ten => 10
  | sixteen => 16

def Radix.digits (upper : Bool) : Radix → Digits (BitVec 8)
  | ten => decimal
  | sixteen => if upper then upperHex else hex

variable {D : Digits (BitVec 8)} {base v : U64} {upper : Bool} {c : BitVec 8} {ds : List (BitVec 8)}
  {pad : BitVec 8} {width : BitVec 32} {i n fuel : ℕ}

/-- The `char buf[32]` of `print_uint`, which holds anything at first. -/
abbrev Buffer := Fin 32 → BitVec 8

variable {buf : Buffer}

def load (buf : Buffer) (i : ℕ) : Option (BitVec 8) := if h : i < 32 then some (buf ⟨i, h⟩) else none

def store (buf : Buffer) (i : ℕ) (c : BitVec 8) : Option Buffer :=
  if h : i < 32 then some (Function.update buf ⟨i, h⟩ c) else none

def fillBuf (base : U64) (upper : Bool) : ℕ → U64 → ℕ → Buffer → Option (ℕ × Buffer)
  | 0, _, _, _ => none
  | fuel + 1, v, i, buf =>
    if v ≠ 0 then
      (store buf i (digitChar upper (v % base))).bind (fillBuf base upper fuel (v / base) (i + 1))
    else some (i, buf)

def makeDigits (fuel : ℕ) (v base : U64) (upper : Bool) (buf : Buffer) : Option (ℕ × Buffer) :=
  if v = 0 then (store buf 0 (ascii '0')).map fun buf => (1, buf) else fillBuf base upper fuel v 0 buf

def padLoop (i : ℕ) (pad : BitVec 8) : ℕ → BitVec 32 → Option (List (BitVec 8))
  | 0, _ => none
  | fuel + 1, width =>
    if i < width.toInt then (padLoop i pad fuel (width - 1)).map (pad :: ·) else some []

def emptyBuf (buf : Buffer) : ℕ → Option (List (BitVec 8))
  | 0 => some []
  | i + 1 => do
    let c ← load buf i
    let out ← emptyBuf buf i
    return c :: out

/-- `print_uint` with its buffer; `none` where an index leaves it, or a loop its fuel. -/
def printUintIn (buf : Buffer) (fuel : ℕ) (v base : U64) (width : BitVec 32) (pad : BitVec 8) (upper : Bool) :
    Option (List (BitVec 8)) := do
  let (i, buf) ← makeDigits fuel v base upper buf
  let front ← padLoop i pad fuel width
  let out ← emptyBuf buf i
  return front ++ out

def Holds (buf : Buffer) (ds : List (BitVec 8)) : Prop := ∀ i < ds.length, load buf i = ds[i]?

theorem Holds.nil : Holds buf [] := fun _ hi => absurd hi (Nat.not_lt_zero _)

theorem Holds.store (h : Holds buf ds) (hroom : ds.length < 32) (c : BitVec 8) :
    ∃ buf', store buf ds.length c = some buf' ∧ Holds buf' (ds ++ [c]) := by
  refine ⟨_, dif_pos hroom, ?_⟩
  intro i hi
  rw [List.length_append, List.length_singleton] at hi
  have hlt : i < 32 := by omega
  by_cases hlast : i = ds.length
  · subst hlast
    rw [load, dif_pos hlt, Function.update_self, List.getElem?_concat_length]
  · have hold := h i (by omega)
    rw [load, dif_pos hlt] at hold
    rw [load, dif_pos hlt, Function.update_of_ne (by simpa using hlast), hold,
      List.getElem?_append_left (by omega)]

theorem Holds.init (h : Holds buf (ds ++ [c])) : Holds buf ds := by
  intro i hi
  rw [h i (by rw [List.length_append]; omega), List.getElem?_append_left hi]

theorem emptyBuf_eq (h : Holds buf ds) : emptyBuf buf ds.length = some ds.reverse := by
  induction ds using List.reverseRecOn with
  | nil => rfl
  | append_singleton ds c ih =>
    have hlast : load buf ds.length = some c := by
      rw [h ds.length (by rw [List.length_append]; exact Nat.lt_succ_self _), List.getElem?_concat_length]
    rw [List.length_append, List.length_singleton, emptyBuf, hlast, ih h.init, List.reverse_append]
    rfl

theorem fillBuf_eq (hbase : 2 ≤ base.toNat) (hv : v.toNat < 2 ^ n) (h : Holds buf ds)
    (hroom : (ds ++ uintDigits base upper n v).length ≤ 32) :
    ∃ buf', (∀ fuel > n, fillBuf base upper fuel v ds.length buf =
        some ((ds ++ uintDigits base upper n v).length, buf')) ∧
      Holds buf' (ds ++ uintDigits base upper n v) := by
  induction n generalizing v ds buf with
  | zero =>
    have hzero : v = 0 := BitVec.eq_of_toNat_eq (Nat.lt_one_iff.mp hv)
    rw [uintDigits, List.append_nil]
    refine ⟨buf, ?_, h⟩
    intro fuel hfuel
    obtain ⟨fuel, rfl⟩ := Nat.exists_eq_add_one.mpr hfuel
    rw [fillBuf, if_neg (not_not_intro hzero)]
  | succ n ih =>
    rw [uintDigits] at hroom ⊢
    by_cases hzero : v = 0
    · rw [if_pos hzero, List.append_nil]
      refine ⟨buf, ?_, h⟩
      intro fuel hfuel
      obtain ⟨fuel, rfl⟩ := Nat.exists_eq_add_one.mpr (Nat.zero_lt_of_lt hfuel)
      rw [fillBuf, if_neg (not_not_intro hzero)]
    · rw [if_neg hzero, List.append_cons] at hroom ⊢
      have hdiv : (v / base).toNat < 2 ^ n := by
        rw [BitVec.toNat_udiv]
        apply Nat.div_lt_of_lt_mul
        rw [pow_succ, mul_comm] at hv
        exact hv.trans_le (Nat.mul_le_mul_right _ hbase)
      have hlt : ds.length < 32 := by
        rw [List.length_append, List.length_append, List.length_singleton] at hroom
        omega
      -- the digit goes behind those that are in the buffer
      obtain ⟨buf₁, hstore, h₁⟩ := h.store hlt (digitChar upper (v % base))
      obtain ⟨buf', hrest, h'⟩ := ih hdiv h₁ hroom
      refine ⟨buf', ?_, h'⟩
      intro fuel hfuel
      obtain ⟨fuel, rfl⟩ := Nat.exists_eq_add_one.mpr (Nat.zero_lt_of_lt hfuel)
      rw [fillBuf, if_pos hzero, hstore, Option.bind_some, ← hrest fuel (Nat.lt_of_succ_lt_succ hfuel),
        List.length_append, List.length_singleton]

theorem padLoop_eq (hn : (width.toInt - i).toNat = n) (hfuel : n < fuel) :
    padLoop i pad fuel width = some (List.replicate n pad) := by
  induction n generalizing width fuel with
  | zero =>
    obtain ⟨fuel, rfl⟩ := Nat.exists_eq_add_one.mpr hfuel
    have hdone : ¬(i : ℤ) < width.toInt := by omega
    rw [padLoop, if_neg hdone]
    rfl
  | succ n ih =>
    obtain ⟨fuel, rfl⟩ := Nat.exists_eq_add_one.mpr (Nat.zero_lt_of_lt hfuel)
    have hmore : (i : ℤ) < width.toInt := by omega
    have hnext : (width - 1).toInt = width.toInt - 1 := by
      have hpos : 0 < width.toInt := by omega
      rw [BitVec.toInt_sub]
      have hle := BitVec.toInt_lt (x := width)
      have hone : (1 : BitVec 32).toInt = 1 := rfl
      rw [hone, Int.bmod_eq_of_le (by omega) (by omega)]
    rw [padLoop, if_pos hmore, ih (by omega) (Nat.lt_of_succ_lt_succ hfuel)]
    rfl

theorem Spells.length_uintDigits (h : Spells D base upper) (hbase : 4 ≤ D.base) (v : U64) :
    (uintDigits base upper 64 v).length ≤ 32 := by
  rw [h.uintDigits_eq v.isLt, List.length_map, Nat.digits_length_le_iff D.one_lt_base]
  calc v.toNat < 4 ^ 32 := v.isLt
    _ ≤ D.base ^ 32 := Nat.pow_le_pow_left hbase 32

theorem Spells.makeDigits_eq (h : Spells D base upper) (hbase : 4 ≤ D.base) (buf : Buffer) (v : U64) :
    ∃ i buf', (∀ fuel > 64, makeDigits fuel v base upper buf = some (i, buf')) ∧
      i = (D.numeral v.toNat).length ∧ emptyBuf buf' i = some (D.numeral v.toNat) := by
  by_cases hv : v = 0
  · subst hv
    have hnil : Holds buf [] := .nil
    obtain ⟨buf', hstore, hholds⟩ := hnil.store (by decide) (ascii '0')
    have hnumeral : D.numeral 0 = [ascii '0'] := congrArg (fun c => [c]) h.digit_zero
    rw [List.length_nil] at hstore
    refine ⟨1, buf', ?_, ?_, ?_⟩
    · intro fuel _
      rw [makeDigits, if_pos rfl, hstore]
      rfl
    · exact (congrArg List.length hnumeral).symm
    · exact (emptyBuf_eq hholds).trans (congrArg some hnumeral.symm)
  · have hne : v.toNat ≠ 0 := fun hzero => hv (BitVec.eq_of_toNat_eq hzero)
    have hnumeral : (uintDigits base upper 64 v).reverse = D.numeral v.toNat := by
      rw [Digits.numeral, if_neg hne, h.uintDigits_eq v.isLt]
    have htwo : 2 ≤ base.toNat := h.base ▸ D.one_lt_base
    obtain ⟨buf', hfill, hholds⟩ := fillBuf_eq htwo v.isLt Holds.nil (h.length_uintDigits hbase v)
    refine ⟨(uintDigits base upper 64 v).length, buf', ?_, ?_, ?_⟩
    · intro fuel hfuel
      rw [makeDigits, if_neg hv]
      exact hfill fuel hfuel
    · rw [← hnumeral, List.length_reverse]
    · rw [← hnumeral]
      exact emptyBuf_eq hholds

theorem Spells.printUintIn_eq (h : Spells D base upper) (hbase : 4 ≤ D.base) (buf : Buffer) (v : U64)
    (width : BitVec 32) (pad : BitVec 8) :
    ∃ enough, ∀ fuel > enough,
      printUintIn buf fuel v base width pad upper = some (printUint v base width pad upper) := by
  obtain ⟨i, buf', hfill, rfl, hempty⟩ := h.makeDigits_eq hbase buf v
  refine ⟨max 64 (width.toInt - (D.numeral v.toNat).length).toNat, ?_⟩
  intro fuel hfuel
  rw [gt_iff_lt, max_lt_iff] at hfuel
  rw [printUintIn, hfill fuel hfuel.1, h.printUint_eq]
  simp only [Option.bind_eq_bind, Option.bind_some, padLoop_eq rfl hfuel.2, hempty]
  rfl

theorem Radix.spells (r : Radix) (upper : Bool) : Spells (r.digits upper) r.base upper := by
  cases r with
  | ten => cases upper <;> exact ⟨rfl, by decide⟩
  | sixteen =>
    cases upper
    · exact spells_hex
    · exact spells_upperHex

theorem Radix.four_le (r : Radix) (upper : Bool) : 4 ≤ (r.digits upper).base := by
  rw [(r.spells upper).base]
  cases r <;> decide

structure Represents (D : Digits (BitVec 8)) (n : ℕ) (ds : List (BitVec 8)) : Prop where
  digits : ∀ c ∈ ds, D.IsDigit c
  nonempty : ds ≠ []
  leading : ds.head? = some (D.digit 0) → n = 0 ∧ ds.length = 1
  value : D.parse ds = n

theorem represents_numeral (D : Digits (BitVec 8)) (n : ℕ) : Represents D n (D.numeral n) := by
  refine ⟨D.isDigit_numeral n, D.numeral_ne_nil n, ?_, D.parse_numeral n⟩
  intro hhead
  have hlength := D.numeral_head hhead
  have hparse := D.parse_numeral n
  obtain ⟨c, hc⟩ := List.length_eq_one_iff.mp hlength
  rw [hc, List.head?_cons] at hhead
  rw [hc, Option.some.inj hhead, Digits.parse, List.foldl_cons, List.foldl_nil, Nat.zero_mul, Nat.zero_add,
    D.value_digit 0 D.base_pos] at hparse
  exact ⟨hparse.symm, hlength⟩

/-- The padding is counted against the digits, and neither loop over the buffer leaves it. -/
theorem printUint_represents (r : Radix) (buf : Buffer) (v : U64) (width : BitVec 32) (pad : BitVec 8)
    (upper : Bool) :
    ∃ ds enough, (∀ fuel > enough, printUintIn buf fuel v r.base width pad upper =
        some (List.replicate (max (width.toInt - ds.length) 0).toNat pad ++ ds)) ∧
      Represents (r.digits upper) v.toNat ds := by
  obtain ⟨enough, hprints⟩ := (r.spells upper).printUintIn_eq (r.four_le upper) buf v width pad
  refine ⟨(r.digits upper).numeral v.toNat, enough, ?_, represents_numeral _ _⟩
  intro fuel hfuel
  have hfront (z : ℤ) : (max z 0).toNat = z.toNat := by omega
  rw [hprints fuel hfuel, (r.spells upper).printUint_eq, hfront]

end Mcincos.Print
