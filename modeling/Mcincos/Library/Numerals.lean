import Mathlib

namespace Mcincos.Numerals

variable {α : Type*} {c : α} {l : List α} {n k : ℕ}

structure Digits (α : Type*) where
  base : ℕ
  one_lt_base : 1 < base
  digit : ℕ → α
  value : α → ℕ
  value_digit : ∀ d < base, value (digit d) = d

namespace Digits

variable (D : Digits α)

/-- The most significant digit comes first. -/
def numeral (n : ℕ) : List α :=
  if n = 0 then [D.digit 0] else ((Nat.digits D.base n).map D.digit).reverse

def parse (l : List α) : ℕ := l.foldl (fun n c => n * D.base + D.value c) 0

def IsDigit (c : α) : Prop := ∃ d < D.base, c = D.digit d

theorem base_pos : 0 < D.base := Nat.zero_lt_of_lt D.one_lt_base

theorem parse_reverse (l : List α) : D.parse l.reverse = Nat.ofDigits D.base (l.map D.value) := by
  induction l with
  | nil => rfl
  | cons c l ih =>
    rw [parse] at ih
    rw [List.reverse_cons, parse, List.foldl_append, ih, List.map_cons, Nat.ofDigits_cons]
    exact (add_comm _ _).trans (congrArg _ (mul_comm _ _))

theorem map_value_digits (n : ℕ) : ((Nat.digits D.base n).map D.digit).map D.value = Nat.digits D.base n := by
  have hid : ∀ d ∈ Nat.digits D.base n, D.value (D.digit d) = id d := by
    intro d hd
    exact D.value_digit d (Nat.digits_lt_base D.one_lt_base hd)
  rw [List.map_map]
  exact (List.map_congr_left hid).trans (List.map_id _)

theorem parse_numeral (n : ℕ) : D.parse (D.numeral n) = n := by
  rw [numeral]
  split_ifs with hn
  · rw [hn, parse, List.foldl_cons, List.foldl_nil, Nat.zero_mul, Nat.zero_add, D.value_digit 0 D.base_pos]
  · rw [parse_reverse, map_value_digits, Nat.ofDigits_digits]

theorem isDigit_numeral (n : ℕ) : ∀ c ∈ D.numeral n, D.IsDigit c := by
  intro c hc
  rw [numeral] at hc
  split_ifs at hc with hn
  · exact ⟨0, D.base_pos, List.mem_singleton.mp hc⟩
  · obtain ⟨d, hd, rfl⟩ := List.mem_map.mp (List.mem_reverse.mp hc)
    exact ⟨d, Nat.digits_lt_base D.one_lt_base hd, rfl⟩

theorem numeral_ne_nil (n : ℕ) : D.numeral n ≠ [] := by
  rw [numeral]
  split_ifs with hn
  · exact List.cons_ne_nil _ _
  · rw [Ne, List.reverse_eq_nil_iff, List.map_eq_nil_iff]
    exact Nat.digits_ne_nil_iff_ne_zero.mpr hn

theorem digit_ne_zero {d : ℕ} (hd : d < D.base) (hne : d ≠ 0) : D.digit d ≠ D.digit 0 := by
  intro heq
  have hvalue := congrArg D.value heq
  rw [D.value_digit d hd, D.value_digit 0 D.base_pos] at hvalue
  exact hne hvalue

theorem numeral_head (h : (D.numeral n).head? = some (D.digit 0)) : (D.numeral n).length = 1 := by
  rw [numeral] at h ⊢
  split_ifs at h ⊢ with hn
  · rfl
  · have hne := (Nat.digits_ne_nil_iff_ne_zero (b := D.base)).mpr hn
    rw [List.head?_reverse, List.getLast?_map, List.getLast?_eq_getLast_of_ne_nil hne, Option.map_some] at h
    have hlast := Nat.digits_lt_base D.one_lt_base (List.getLast_mem hne)
    exact absurd (Option.some.inj h) (D.digit_ne_zero hlast (Nat.getLast_digit_ne_zero D.base hn))

def ofList [DecidableEq α] [Inhabited α] (l : List α) (hl : l.Nodup) (hlength : 1 < l.length) : Digits α where
  base := l.length
  one_lt_base := hlength
  digit d := l.getD d default
  value := l.idxOf
  value_digit := by
    intro d hd
    rw [List.getD_eq_getElem l default hd]
    exact hl.idxOf_getElem d hd

theorem isDigit_ofList_iff [DecidableEq α] [Inhabited α] {hl : l.Nodup} {hlength : 1 < l.length} :
    (ofList l hl hlength).IsDigit c ↔ c ∈ l := by
  constructor
  · rintro ⟨d, hd, rfl⟩
    have hget : (ofList l hl hlength).digit d = l[d] := List.getD_eq_getElem l default hd
    exact hget ▸ List.getElem_mem hd
  · intro hc
    obtain ⟨d, hd, rfl⟩ := List.getElem_of_mem hc
    exact ⟨d, hd, (List.getD_eq_getElem l default hd).symm⟩

/-- `l` is how `z` is written: a sign just if it is negative, then its digits, none of them a leading
zero. -/
structure Writes (minus : α) (z : ℤ) (l ds : List α) : Prop where
  sign : l = if z < 0 then minus :: ds else ds
  digits : ∀ c ∈ ds, D.IsDigit c
  nonempty : ds ≠ []
  leading : ds.head? = some (D.digit 0) → ds.length = 1
  value : D.parse ds = z.natAbs

def Canonical (minus : α) (z : ℤ) (l : List α) : Prop := ∃ ds, D.Writes minus z l ds

def parseSigned [DecidableEq α] (minus : α) (l : List α) : ℤ :=
  if l.head? = some minus then -D.parse l.tail else D.parse l

variable {D} {minus : α} {z : ℤ}

theorem canonical_numeral_iff :
    D.Canonical minus z (if z < 0 then minus :: D.numeral n else D.numeral n) ↔ n = z.natAbs := by
  constructor
  · rintro ⟨ds, hw⟩
    have hds : D.numeral n = ds := by
      have hsign := hw.sign
      split_ifs at hsign with hneg
      · exact (List.cons.inj hsign).2
      · exact hsign
    rw [← hw.value, ← hds, D.parse_numeral]
  · intro hn
    exact ⟨D.numeral n, rfl, D.isDigit_numeral n, D.numeral_ne_nil n, D.numeral_head, hn ▸ D.parse_numeral n⟩

theorem Canonical.parseSigned [DecidableEq α] (h : D.Canonical minus z l) (hminus : ¬D.IsDigit minus) :
    D.parseSigned minus l = z := by
  obtain ⟨ds, hw⟩ := h
  rw [Digits.parseSigned, hw.sign]
  split_ifs with hneg hhead hhead
  · rw [List.tail_cons, hw.value]
    omega
  · exact absurd rfl hhead
  · exact absurd (hw.digits minus (List.mem_of_head? hhead)) hminus
  · rw [hw.value]
    omega

variable (D)

def fixed (n : ℕ) : ℕ → List α
  | 0 => []
  | k + 1 => D.digit (n / D.base ^ k % D.base) :: fixed n k

theorem length_fixed (n k : ℕ) : (D.fixed n k).length = k := by
  induction k with
  | zero => rfl
  | succ k ih => rw [fixed, List.length_cons, ih]

theorem fixed_drop {j : ℕ} (hj : j ≤ k) : (D.fixed n k).drop (k - j) = D.fixed n j := by
  induction k with
  | zero => rw [Nat.le_zero.mp hj]; rfl
  | succ k ih =>
    obtain rfl | hlt := hj.eq_or_lt
    · rw [Nat.sub_self, List.drop_zero]
    · have hle := Nat.le_of_lt_succ hlt
      rw [Nat.succ_sub hle, fixed, List.drop_succ_cons, ih hle]

theorem fixed_succ_last (n k : ℕ) : D.fixed n (k + 1) = D.fixed (n / D.base) k ++ [D.digit (n % D.base)] := by
  induction k with
  | zero =>
    have hfirst : D.fixed n 1 = [D.digit (n / D.base ^ 0 % D.base)] := rfl
    rw [hfirst, pow_zero, Nat.div_one]
    rfl
  | succ k ih =>
    have hdiv : n / D.base ^ (k + 1) = n / D.base / D.base ^ k := by
      rw [Nat.div_div_eq_div_mul, pow_succ']
    rw [fixed, ih, hdiv]
    rfl

theorem parse_concat (l : List α) (c : α) : D.parse (l ++ [c]) = D.parse l * D.base + D.value c := by
  rw [parse, List.foldl_append]
  rfl

theorem parse_fixed (n k : ℕ) : D.parse (D.fixed n k) = n % D.base ^ k := by
  induction k generalizing n with
  | zero => rw [pow_zero, Nat.mod_one]; rfl
  | succ k ih =>
    have hlast := Nat.mod_lt n D.base_pos
    rw [fixed_succ_last, parse_concat, ih, D.value_digit _ hlast, pow_succ', Nat.mod_mul, add_comm, mul_comm]

theorem numeral_of_lt (hn : n < D.base) : D.numeral n = [D.digit n] := by
  rw [numeral]
  split_ifs with hzero
  · rw [hzero]
  · rw [Nat.digits_of_lt D.base n hzero hn]
    rfl

theorem numeral_of_ge (hn : D.base ≤ n) : D.numeral n = D.numeral (n / D.base) ++ [D.digit (n % D.base)] := by
  have hpos : 0 < n := D.base_pos.trans_le hn
  have hdiv : n / D.base ≠ 0 := (Nat.div_pos hn D.base_pos).ne'
  rw [numeral, numeral, if_neg hpos.ne', if_neg hdiv, Nat.digits_def' D.one_lt_base hpos, List.map_cons,
    List.reverse_cons]

theorem fixed_zero (k : ℕ) : D.fixed 0 k = List.replicate k (D.digit 0) := by
  induction k with
  | zero => rfl
  | succ k ih => rw [fixed, ih, Nat.zero_div, Nat.zero_mod, List.replicate_succ]

theorem fixed_eq_padded (hk : 0 < k) (hn : n < D.base ^ k) :
    D.fixed n k = List.replicate (k - (D.numeral n).length) (D.digit 0) ++ D.numeral n := by
  induction k generalizing n with
  | zero => exact absurd hk (Nat.lt_irrefl 0)
  | succ k ih =>
    rw [fixed_succ_last]
    by_cases hlt : n < D.base
    · rw [D.numeral_of_lt hlt, Nat.div_eq_of_lt hlt, Nat.mod_eq_of_lt hlt, fixed_zero]
      rfl
    · have hge := not_lt.mp hlt
      have hpos : 0 < k := by
        apply Nat.pos_of_ne_zero
        rintro rfl
        exact hlt (by simpa using hn)
      have hdiv : n / D.base < D.base ^ k := by
        apply Nat.div_lt_of_lt_mul
        rwa [← pow_succ']
      rw [ih hpos hdiv, D.numeral_of_ge hge, List.append_assoc, List.length_append, List.length_singleton,
        Nat.succ_sub_succ]

end Digits

end Mcincos.Numerals
