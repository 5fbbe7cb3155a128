import Mcincos.Core.Print

namespace Mcincos.Print

variable {c : BitVec 8} {cs ds rest : List (BitVec 8)} {pad : BitVec 8} {width : BitVec 32} {args : VaList}
  {str : U64 → CString} {fuel : ℕ}

inductive Complete : List (BitVec 8) → Prop
  | nil : Complete []
  | char {c : BitVec 8} {cs : List (BitVec 8)} : c ≠ ascii '%' → Complete cs → Complete (c :: cs)
  | conversion {c : BitVec 8} {ds cs : List (BitVec 8)} : (∀ d ∈ ds, isDigit d) → ¬isDigit c →
      Complete cs → Complete (ascii '%' :: (ds ++ c :: cs))

theorem complete_cons_iff (hc : c ≠ ascii '%') : Complete (c :: cs) ↔ Complete cs := by
  constructor
  · rintro (- | ⟨-, h⟩ | -)
    · exact h
    · exact absurd rfl hc
  · exact .char hc

theorem dropWhile_digits (hds : ∀ d ∈ ds, isDigit d) (hc : ¬isDigit c) :
    (ds ++ c :: cs).dropWhile isDigit = c :: cs := by
  rw [List.dropWhile_append_of_pos hds, List.dropWhile_cons_of_neg hc]

theorem complete_conversion_iff :
    Complete (ascii '%' :: cs) ↔ ∃ c rest, cs.dropWhile isDigit = c :: rest ∧ Complete rest := by
  constructor
  · intro h
    generalize hfmt : ascii '%' :: cs = fmt at h
    cases h with
    | nil => exact absurd hfmt (by simp)
    | char hc _ => exact absurd (List.cons.inj hfmt).1.symm hc
    | conversion hds hc hrest =>
      rw [(List.cons.inj hfmt).2, dropWhile_digits hds hc]
      exact ⟨_, _, rfl, hrest⟩
  · rintro ⟨c, rest, hdrop, hrest⟩
    have hc : ¬isDigit c := by
      have hhead := List.head?_dropWhile_not isDigit cs
      rw [hdrop] at hhead
      simpa using hhead
    rw [← List.takeWhile_append_dropWhile (p := isDigit) (l := cs), hdrop]
    exact .conversion (fun d hd => List.mem_takeWhile_imp hd) hc hrest

theorem ok_bind {α β : Type} (a : α) (f : α → Except PrintFault β) : (Except.ok a >>= f) = f a := rfl

theorem deref_cons (c : BitVec 8) (cs : List (BitVec 8)) : deref (some (c :: cs)) = .ok c := rfl

theorem scanDigits_snd (width : BitVec 32) (cs : List (BitVec 8)) :
    (scanDigits width cs).2 = cs.dropWhile isDigit := by
  induction cs generalizing width with
  | nil => rfl
  | cons c cs ih =>
    rw [scanDigits]
    split_ifs with hc
    · rw [ih, List.dropWhile_cons_of_pos hc]
    · rw [List.dropWhile_cons_of_neg hc]

theorem scan_cursor (cs : List (BitVec 8)) : ∃ pad width fmt, scanFlag (some cs) = .ok (pad, fmt) ∧
    scanWidth fmt = .ok (width, some (cs.dropWhile isDigit)) := by
  cases cs with
  | nil => exact ⟨_, _, some [], rfl, rfl⟩
  | cons c cs =>
    by_cases hc : c = ascii '0'
    · subst hc
      refine ⟨0, (scanDigits 0 cs).1, some cs, rfl, ?_⟩
      rw [scanWidth, scanDigits_snd]
      rfl
    · refine ⟨ascii ' ', (scanDigits 0 (c :: cs)).1, some (c :: cs), ?_, ?_⟩
      · rw [scanFlag, deref_cons, ok_bind, if_neg hc]
        rfl
      · rw [scanWidth, scanDigits_snd]

/-- `fmt` is left at a character of the conversion; none of those after its first one is a `%`. -/
def LeavesAt (rest : List (BitVec 8)) (r : Except PrintFault (List (BitVec 8) × Cursor × VaList)) : Prop :=
  ∃ text x rest' args, r = .ok (text, some (x :: rest'), args) ∧ rest' <:+ rest ∧
    (Complete rest' ↔ Complete rest)

theorem LeavesAt.first (text : List (BitVec 8)) (c : BitVec 8) (rest : List (BitVec 8)) (args : VaList) :
    LeavesAt rest (.ok (text, some (c :: rest), args)) :=
  ⟨text, c, rest, args, rfl, List.suffix_rfl, Iff.rfl⟩

theorem LeavesAt.later {x : BitVec 8} (hx : x ≠ ascii '%')
    {r : Except PrintFault (List (BitVec 8) × Cursor × VaList)} (h : LeavesAt rest r) :
    LeavesAt (x :: rest) r := by
  obtain ⟨text, y, rest', args, hr, hsuffix, hcomplete⟩ := h
  refine ⟨text, y, rest', args, hr, hsuffix.trans (List.suffix_cons x rest), ?_⟩
  rw [hcomplete, complete_cons_iff hx]

theorem convertLong_leavesAt (pad : BitVec 8) (width : BitVec 32) (c : BitVec 8) (rest : List (BitVec 8))
    (args : VaList) : LeavesAt rest (convertLong pad width (some (c :: rest)) args) := by
  rw [convertLong, advance]
  cases rest with
  | nil => exact .first [] c [] args
  | cons x rest =>
    rw [deref_cons, ok_bind]
    by_cases hx : x = ascii 'l'
    · subst hx
      apply LeavesAt.later (by decide)
      rw [if_pos rfl]
      cases rest with
      | nil => exact .first [] _ [] args
      | cons y rest =>
        dsimp only [advance]
        rw [deref_cons, ok_bind]
        split_ifs with hy hy
        · subst hy
          exact .later (by decide) (.first _ _ rest _)
        · subst hy
          exact .later (by decide) (.first _ _ rest _)
        · exact .first [] _ _ args
    · rw [if_neg hx]
      exact .first [] c _ args

theorem convert_leavesAt (str : U64 → CString) (pad : BitVec 8) (width : BitVec 32) (c : BitVec 8)
    (rest : List (BitVec 8)) (args : VaList) :
    LeavesAt rest (convert str pad width (some (c :: rest)) args) := by
  rw [convert, deref_cons, ok_bind]
  dsimp only
  split_ifs
  all_goals first
    | exact .first _ _ _ _
    | exact convertLong_leavesAt _ _ _ _ _

theorem convert_end (str : U64 → CString) (pad : BitVec 8) (width : BitVec 32) (args : VaList) :
    convert str pad width (some []) args = .ok ([ascii '%', 0], some [], args) := rfl

theorem kvprintf_past (hfuel : 0 < fuel) : kvprintf str fuel none args = .error .pastEnd := by
  cases fuel with
  | zero => exact absurd hfuel (Nat.lt_irrefl 0)
  | succ fuel => rfl

theorem kvprintf_char (hnonzero : c ≠ 0) (hc : c ≠ ascii '%') :
    kvprintf str (fuel + 1) (some (c :: cs)) args = do
      let (out, stop) ← kvprintf str fuel (some cs) args
      return (c :: out, stop) := by
  rw [kvprintf, deref_cons, ok_bind, if_neg hnonzero, if_pos hc]
  rfl

theorem kvprintf_scanned {fmt : Cursor} (hflag : scanFlag (some cs) = .ok (pad, fmt))
    (hwidth : scanWidth fmt = .ok (width, some rest)) :
    kvprintf str (fuel + 1) (some (ascii '%' :: cs)) args = do
      let (text, fmt, args) ← convert str pad width (some rest) args
      let (out, stop) ← kvprintf str fuel (advance fmt) args
      return (text ++ out, stop) := by
  rw [kvprintf, deref_cons, ok_bind, if_neg (by decide), if_neg (not_not.mpr rfl)]
  dsimp only [advance]
  rw [hflag, ok_bind]
  dsimp only
  rw [hwidth, ok_bind]

theorem kvprintf_percent (str : U64 → CString) (cs : List (BitVec 8)) (args : VaList) :
    ∃ pad width, ∀ fuel, kvprintf str (fuel + 1) (some (ascii '%' :: cs)) args = do
      let (text, fmt, args) ← convert str pad width (some (cs.dropWhile isDigit)) args
      let (out, stop) ← kvprintf str fuel (advance fmt) args
      return (text ++ out, stop) := by
  obtain ⟨pad, width, fmt, hflag, hwidth⟩ := scan_cursor cs
  exact ⟨pad, width, fun fuel => kvprintf_scanned hflag hwidth⟩

def ScansTo (cs : List (BitVec 8)) (r : Except PrintFault (List (BitVec 8) × Cursor)) : Prop :=
  (Complete cs → ∃ out, r = .ok (out, some [])) ∧ (¬Complete cs → r = .error .pastEnd)

theorem ScansTo.append {r : Except PrintFault (List (BitVec 8) × Cursor)} (h : ScansTo rest r)
    (hcs : Complete cs ↔ Complete rest) (text : List (BitVec 8)) :
    ScansTo cs (do
      let (out, stop) ← r
      return (text ++ out, stop)) := by
  rw [ScansTo, hcs]
  constructor
  · intro hcomplete
    obtain ⟨out, hr⟩ := h.1 hcomplete
    rw [hr]
    exact ⟨text ++ out, rfl⟩
  · intro hbroken
    rw [h.2 hbroken]
    rfl

def Scans (str : U64 → CString) (cs : List (BitVec 8)) (args : VaList) : Prop :=
  ∃ r, ScansTo cs r ∧ ∀ fuel, cs.length < fuel → kvprintf str fuel (some cs) args = r

theorem forall_fuel {n : ℕ} {P : ℕ → Prop} (h : ∀ fuel, n ≤ fuel → P (fuel + 1)) : ∀ fuel, n < fuel → P fuel := by
  rintro (_ | fuel) hfuel
  · exact absurd hfuel (Nat.not_lt_zero n)
  · exact h fuel (Nat.le_of_lt_succ hfuel)

theorem scans_nil (str : U64 → CString) (args : VaList) : Scans str [] args := by
  refine ⟨.ok ([], some []), ⟨fun _ => ⟨[], rfl⟩, fun hbroken => absurd .nil hbroken⟩, ?_⟩
  exact forall_fuel fun _ _ => rfl

theorem Scans.char (hnonzero : c ≠ 0) (hc : c ≠ ascii '%') (h : Scans str cs args) : Scans str (c :: cs) args := by
  obtain ⟨r, hr, hrun⟩ := h
  refine ⟨_, hr.append (complete_cons_iff hc) [c], forall_fuel fun fuel hfuel => ?_⟩
  rw [kvprintf_char hnonzero hc, ← hrun fuel hfuel]
  rfl

theorem scans_broken (str : U64 → CString) (args : VaList) (hcut : cs.dropWhile isDigit = []) :
    Scans str (ascii '%' :: cs) args := by
  obtain ⟨pad, width, hround⟩ := kvprintf_percent str cs args
  have hbroken : ¬Complete (ascii '%' :: cs) := by
    rw [complete_conversion_iff, hcut]
    rintro ⟨c, rest, heq, -⟩
    exact absurd heq (by simp)
  refine ⟨.error .pastEnd, ⟨fun hcomplete => absurd hcomplete hbroken, fun _ => rfl⟩, ?_⟩
  apply forall_fuel
  intro fuel hfuel
  rw [hround, hcut, convert_end, ok_bind]
  dsimp only [advance]
  rw [kvprintf_past (Nat.zero_lt_of_lt hfuel)]
  rfl

theorem Scans.conversion (hcut : cs.dropWhile isDigit = c :: rest)
    (h : ∀ rest' args', rest' <:+ rest → Scans str rest' args') : Scans str (ascii '%' :: cs) args := by
  obtain ⟨pad, width, hround⟩ := kvprintf_percent str cs args
  obtain ⟨text, x, rest', args', hconvert, hsuffix, hcomplete⟩ := convert_leavesAt str pad width c rest args
  obtain ⟨r, hr, hrun⟩ := h rest' args' hsuffix
  have hformat : Complete (ascii '%' :: cs) ↔ Complete rest' := by
    rw [complete_conversion_iff, hcut, hcomplete]
    constructor
    · rintro ⟨c, rest, heq, hrest⟩
      exact (List.cons.inj heq).2 ▸ hrest
    · exact fun hrest => ⟨c, rest, rfl, hrest⟩
  have hshorter : rest'.length < cs.length := by
    have hdrop := (List.dropWhile_suffix isDigit (l := cs)).length_le
    rw [hcut] at hdrop
    exact (Nat.lt_succ_of_le hsuffix.length_le).trans_le hdrop
  refine ⟨_, hr.append hformat text, forall_fuel fun fuel hfuel => ?_⟩
  rw [hround, hcut, hconvert, ok_bind, ← hrun fuel (hshorter.trans (Nat.lt_of_succ_le hfuel))]
  rfl

theorem kvprintf_scans (str : U64 → CString) (cs : List (BitVec 8)) (hcs : ∀ c ∈ cs, c ≠ 0)
    (args : VaList) : Scans str cs args := by
  induction hn : cs.length using Nat.strong_induction_on generalizing cs args with
  | _ n ih =>
    subst hn
    cases cs with
    | nil => exact scans_nil str args
    | cons c cs =>
      obtain ⟨hnonzero, htail⟩ := List.forall_mem_cons.mp hcs
      by_cases hc : c = ascii '%'
      · subst hc
        have hdrop := List.dropWhile_suffix isDigit (l := cs)
        cases hcut : cs.dropWhile isDigit with
        | nil => exact scans_broken str args hcut
        | cons c rest =>
          apply Scans.conversion hcut
          intro rest' args' hsuffix
          have hinside : rest' <:+ cs := (hsuffix.trans (List.suffix_cons c rest)).trans (hcut ▸ hdrop)
          exact ih rest'.length (Nat.lt_succ_of_le hinside.length_le) rest'
            (fun d hd => htail d (hinside.subset hd)) args' rfl
      · exact (ih cs.length (Nat.lt_succ_self _) cs htail args rfl).char hnonzero hc

/-- `kvprintf` stops at the NUL of its format, having read nothing behind it, just if the format does not
end after a `%` or the digits that follow it. -/
theorem format_scanned (str : U64 → CString) (fmt : CString) (args : VaList) :
    (∃ out, ∀ fuel, fmt.chars.length < fuel → kvprintf str fuel (some fmt.chars) args = .ok (out, some [])) ↔
      Complete fmt.chars := by
  obtain ⟨r, hr, hrun⟩ := kvprintf_scans str fmt.chars fmt.nonzero args
  constructor
  · rintro ⟨out, hstops⟩
    by_contra hbroken
    have hpast := (hrun _ (Nat.lt_succ_self _)).trans (hr.2 hbroken)
    exact absurd ((hstops _ (Nat.lt_succ_self _)).symm.trans hpast) (by simp)
  · intro hcomplete
    obtain ⟨out, hout⟩ := hr.1 hcomplete
    exact ⟨out, fun fuel hfuel => (hrun fuel hfuel).trans hout⟩

def noStrings (_ : U64) : CString := ⟨[], by simp⟩

def percentFormat : CString := ⟨[ascii '%'], by decide⟩

theorem percent_past_end :
    (∀ args fuel, 1 < fuel → kvprintf noStrings fuel (some percentFormat.chars) args = .error .pastEnd) ∧
      ¬∃ out, ∀ fuel, percentFormat.chars.length < fuel →
        kvprintf noStrings fuel (some percentFormat.chars) (fun _ => 0) = .ok (out, some []) := by
  have hpast : ∀ args fuel, 1 < fuel →
      kvprintf noStrings fuel (some percentFormat.chars) args = .error .pastEnd := by
    rintro args (_ | _ | fuel) hfuel
    · exact absurd hfuel (by simp)
    · exact absurd hfuel (by simp)
    · rfl
  refine ⟨hpast, ?_⟩
  rintro ⟨out, hstops⟩
  have hok := hstops 2 (Nat.lt_succ_self 1)
  rw [hpast _ 2 (Nat.lt_succ_self 1)] at hok
  exact absurd hok (by simp)

end Mcincos.Print
